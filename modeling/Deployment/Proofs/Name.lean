import Deployment.Name
import Deployment.Proofs.Chars

/-!
# Names

The names of types and of variables, perhaps qualified, consist of *plain* characters. These are no
blanks and mean nothing to the readers of entries (`PlainText.not_mem`, `PlainText.trimmed`). The
name of an instance may have blanks, but not only blanks (`isInstanceName_iff`); it stays valid when
a number is added to it, and when it is read as a value.
-/

namespace Deployment

/-- The characters of qualified names, `*` included. -/
def isPlainChar (c : Char) : Bool := isNameChar c || c == '.' || c == '*'

theorem isBlank_of_isPlainChar {c : Char} (h : isPlainChar c) : Chars.isBlank c = false := by
  have hrange : 42 ≤ c.val.toNat ∧ c.val.toNat ≤ 122 := by
    have hmarks : 'A'.val.toNat = 65 ∧ 'Z'.val.toNat = 90 ∧ 'a'.val.toNat = 97 ∧
        'z'.val.toNat = 122 ∧ '0'.val.toNat = 48 ∧ '9'.val.toNat = 57 := by decide
    have halphanum : c.isAlphanum = (decide ('A'.val ≤ c.val ∧ c.val ≤ 'Z'.val) ||
        decide ('a'.val ≤ c.val) && decide (c.val ≤ 'z'.val) ||
          decide ('0'.val ≤ c.val) && decide (c.val ≤ '9'.val)) :=
      rfl
    simp only [isPlainChar, isNameChar, halphanum, Bool.or_eq_true, Bool.and_eq_true,
      decide_eq_true_eq, beq_iff_eq, UInt32.le_iff_toNat_le] at h
    rcases h with (((h | rfl) | rfl) | rfl) | rfl
    · omega
    · decide
    · decide
    · decide
    · decide
  have hrange : 42 ≤ c.toNat ∧ c.toNat ≤ 122 := hrange
  simp only [Chars.isBlank, Bool.or_eq_false_iff, Bool.and_eq_false_iff, decide_eq_false_iff_not,
    beq_eq_false_iff_ne]
  omega

/-- A nonempty text of plain characters. -/
structure PlainText (s : List Char) : Prop where
  ne_nil : s ≠ []
  chars : ∀ c ∈ s, isPlainChar c

namespace PlainText

variable {s : List Char}

theorem not_mem (h : PlainText s) {c : Char} (hc : isPlainChar c = false) : c ∉ s := fun hmem => by
  rw [h.chars c hmem] at hc
  exact nomatch hc

theorem head (h : PlainText s) : ∀ c ∈ s.head?, Chars.isBlank c = false := fun c hc =>
  isBlank_of_isPlainChar (h.chars c (List.mem_of_mem_head? hc))

theorem last (h : PlainText s) : ∀ c ∈ s.getLast?, Chars.isBlank c = false := fun c hc =>
  isBlank_of_isPlainChar (h.chars c (List.mem_of_getLast? hc))

theorem trimmed (h : PlainText s) : Chars.Trimmed s := ⟨h.head, h.last⟩

end PlainText

theorem plainText_of_isTypeName {s : String} (h : isTypeName s) : PlainText s.toList := by
  rw [isTypeName, Bool.and_eq_true, List.all_eq_true] at h
  refine ⟨by simpa using h.1, fun c hc => ?_⟩
  simp [isPlainChar, h.2 c hc]

theorem plainText_of_isVariableName {s : String} (h : isVariableName s) : PlainText s.toList := by
  simp only [isVariableName, Bool.and_eq_true, List.all_eq_true] at h
  refine ⟨by simpa using h.1.1.1, fun c hc => ?_⟩
  simp only [isPlainChar, h.2 c hc, Bool.true_or]

/-! ### Names of instances -/

/-- The characters of names of instances. -/
def isInstanceChar (c : Char) : Bool := isNameChar c || c == '.' || c == ' '

theorem isInstanceName_iff {s : String} :
    isInstanceName s ↔
      (∃ c ∈ s.toList, Chars.isBlank c = false) ∧ ∀ c ∈ s.toList, isInstanceChar c := by
  have hblank : Text.isBlank s = false ↔ ∃ c ∈ s.toList, Chars.isBlank c = false := by
    rw [Text.isBlank, List.isEmpty_eq_false_iff, ne_eq, Chars.trim_eq_nil_iff]
    simp only [Classical.not_forall, Bool.not_eq_true]
    exact ⟨fun ⟨c, hc, h⟩ => ⟨c, hc, h⟩, fun ⟨c, hc, h⟩ => ⟨c, hc, h⟩⟩
  rw [isInstanceName, Bool.and_eq_true, Bool.not_eq_true', hblank, List.all_eq_true]
  rfl

theorem isInstanceName_ne_empty {s : String} (h : isInstanceName s) : s ≠ "" := by
  rintro rfl
  exact nomatch h

theorem isInstanceName_append {s t : String} (hs : isInstanceName s)
    (ht : ∀ c ∈ t.toList, isNameChar c) : isInstanceName (s ++ t) := by
  rw [isInstanceName_iff] at hs ⊢
  obtain ⟨⟨c, hc, hblank⟩, hchars⟩ := hs
  rw [String.toList_append]
  refine ⟨⟨c, List.mem_append_left _ hc, hblank⟩, fun d hd => ?_⟩
  rcases List.mem_append.1 hd with hd | hd
  · exact hchars d hd
  · simp [isInstanceChar, ht d hd]

theorem unquote_of_isInstanceName {s : String} (h : isInstanceName s) :
    Text.unquote s = Text.trim s := by
  rw [Text.unquote, Text.trim, Chars.unquote_of_head fun hhead => ?_]
  have hquote := Chars.trim_subset _ (List.mem_of_mem_head? hhead)
  exact absurd ((isInstanceName_iff.1 h).2 _ hquote) (by decide)

/-- Read as a value, the name of an instance is a valid name. -/
theorem isInstanceName_unquote {s : String} (h : isInstanceName s) :
    isInstanceName (Text.unquote s) := by
  obtain ⟨⟨c, hc, hblank⟩, hchars⟩ := isInstanceName_iff.1 h
  rw [unquote_of_isInstanceName h, isInstanceName_iff, Text.trim, String.toList_ofList]
  refine ⟨⟨c, ?_, hblank⟩, fun d hd => hchars d (Chars.trim_subset _ hd)⟩
  rwa [← List.count_pos_iff, Chars.count_trim hblank, List.count_pos_iff]

theorem Text.isDigit_of_mem_padded {width n : Nat} {c : Char} (h : c ∈ (padded width n).toList) :
    c.isDigit := by
  rw [padded, String.toList_ofList, List.mem_append] at h
  rcases h with h | h
  · rw [List.eq_of_mem_replicate h]
    rfl
  · exact Nat.isDigit_of_mem_toDigits (by decide) (by decide) h

/-- A number may be added to the name of an instance. -/
theorem isInstanceName_append_padded {s : String} (h : isInstanceName s) (width n : Nat) :
    isInstanceName (s ++ Text.padded width n) := by
  refine isInstanceName_append h fun c hc => ?_
  simp [isNameChar, Char.isAlphanum, Text.isDigit_of_mem_padded hc]

end Deployment
