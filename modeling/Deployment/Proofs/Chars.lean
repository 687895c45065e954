import Deployment.Chars
import Mathlib.Data.List.TakeWhile

/-!
# Trimmed and unquoted texts

What trimming and unquoting leave of a text, and which texts they leave alone.

* `exists_blanks`: a text is its trimmed form between blanks;
* `trim_of_trimmed`, `trimmed_trim`: trimming leaves alone exactly what has no blank at its
  ends, its own results among it;
* `unquote_quoted`: unquoting takes off the quotes that were put on.
-/

namespace Deployment.Chars

/-! ### Trimming -/

/-- A text without a blank at its ends. -/
structure Trimmed (s : List Char) : Prop where
  head : ∀ c ∈ s.head?, isBlank c = false
  last : ∀ c ∈ s.getLast?, isBlank c = false

theorem trimStart_of_head {s : List Char} (h : ∀ c ∈ s.head?, isBlank c = false) :
    trimStart s = s := by
  cases s with
  | nil => rfl
  | cons c s => exact List.dropWhile_cons_of_neg (by simpa using h c rfl)

theorem trimEnd_of_last {s : List Char} (h : ∀ c ∈ s.getLast?, isBlank c = false) :
    trimEnd s = s := by
  have hhead : ∀ c ∈ s.reverse.head?, isBlank c = false := by
    rwa [List.head?_reverse]
  have hdrop : s.reverse.dropWhile isBlank = s.reverse := trimStart_of_head hhead
  rw [trimEnd, hdrop, List.reverse_reverse]

theorem trimEnd_append {s : List Char} (h : ∀ c ∈ s.getLast?, isBlank c = false) (t : List Char) :
    trimEnd (s ++ t) = s ++ trimEnd t := by
  have hs : s.reverse.dropWhile isBlank = s.reverse :=
    trimStart_of_head (by rwa [List.head?_reverse])
  rw [trimEnd, trimEnd, List.reverse_append, List.dropWhile_append]
  split
  · next ht =>
    rw [List.isEmpty_iff.1 ht, hs, List.reverse_reverse, List.reverse_nil, List.append_nil]
  · rw [List.reverse_append, List.reverse_reverse]

theorem head_append {s : List Char} (hs : ∀ c ∈ s.head?, isBlank c = false) (hne : s ≠ [])
    (t : List Char) : ∀ c ∈ (s ++ t).head?, isBlank c = false := by
  obtain ⟨c, s, rfl⟩ := List.exists_cons_of_ne_nil hne
  exact hs

theorem last_append {t : List Char} (ht : ∀ c ∈ t.getLast?, isBlank c = false) (hne : t ≠ [])
    (s : List Char) : ∀ c ∈ (s ++ t).getLast?, isBlank c = false := by
  obtain ⟨c, t, rfl⟩ := List.exists_cons_of_ne_nil hne
  intro d hd
  rw [List.getLast?_append, List.getLast?_cons, Option.some_or] at hd
  exact ht d (by rwa [List.getLast?_cons])

theorem trim_of_trimmed {s : List Char} (h : Trimmed s) : trim s = s := by
  rw [trim, trimStart_of_head h.head, trimEnd_of_last h.last]

/-- A beginning without blanks at its ends stays. -/
theorem trim_append {s : List Char} (h : Trimmed s) (hne : s ≠ []) (t : List Char) :
    trim (s ++ t) = s ++ trimEnd t := by
  rw [trim, trimStart_of_head (head_append h.head hne t), trimEnd_append h.last]

theorem head_trimStart {s : List Char} : ∀ c ∈ (trimStart s).head?, isBlank c = false := by
  intro c hc
  have := List.head?_dropWhile_not isBlank s
  rw [show s.dropWhile isBlank = trimStart s from rfl, Option.mem_def.1 hc] at this
  simpa using this

theorem last_trimEnd {s : List Char} : ∀ c ∈ (trimEnd s).getLast?, isBlank c = false := by
  intro c hc
  rw [trimEnd, List.getLast?_reverse] at hc
  exact head_trimStart c hc

theorem trimEnd_prefix (s : List Char) : ∃ r, s = trimEnd s ++ r ∧ ∀ c ∈ r, isBlank c := by
  refine ⟨(s.reverse.takeWhile isBlank).reverse, ?_, fun c hc => ?_⟩
  · rw [trimEnd, ← List.reverse_append, List.takeWhile_append_dropWhile, List.reverse_reverse]
  · exact List.mem_takeWhile_imp (List.mem_reverse.1 hc)

/-- A text is its trimmed form between blanks. -/
theorem exists_blanks (s : List Char) :
    ∃ l r, s = l ++ trim s ++ r ∧ (∀ c ∈ l, isBlank c) ∧ ∀ c ∈ r, isBlank c := by
  obtain ⟨r, hr, hblank⟩ := trimEnd_prefix (trimStart s)
  refine ⟨s.takeWhile isBlank, r, ?_, fun c hc => List.mem_takeWhile_imp hc, hblank⟩
  rw [trim, List.append_assoc, ← hr, trimStart, List.takeWhile_append_dropWhile]

theorem trimmed_trim (s : List Char) : Trimmed (trim s) := by
  refine ⟨fun c hc => ?_, last_trimEnd⟩
  obtain ⟨r, hr, -⟩ := trimEnd_prefix (trimStart s)
  refine head_trimStart (s := s) c ?_
  rw [Option.mem_def] at hc ⊢
  rw [hr, List.head?_append, show trimEnd (trimStart s) = trim s from rfl, hc]
  rfl

theorem trim_subset (s : List Char) : trim s ⊆ s := by
  obtain ⟨l, r, hs, -⟩ := exists_blanks s
  intro c hc
  rw [hs]
  exact List.mem_append_left _ (List.mem_append_right _ hc)

theorem trim_eq_nil_iff {s : List Char} : trim s = [] ↔ ∀ c ∈ s, isBlank c := by
  constructor
  · intro h
    obtain ⟨l, r, hs, hl, hr⟩ := exists_blanks s
    rw [hs, h, List.append_nil]
    exact fun c hc => (List.mem_append.1 hc).elim (hl c) (hr c)
  · intro h
    -- The first character would be no blank.
    cases htrim : trim s with
    | nil => rfl
    | cons c t =>
      have hc : c ∈ trim s := by rw [htrim]; exact List.mem_cons_self
      have hblank := (trimmed_trim s).head c (by rw [htrim]; rfl)
      exact nomatch hblank.symm.trans (h c (trim_subset s hc))

theorem trim_trimStart (s : List Char) : trim (trimStart s) = trim s := by
  rw [trim, trimStart_of_head head_trimStart]
  rfl

@[simp] theorem trim_trim (s : List Char) : trim (trim s) = trim s :=
  trim_of_trimmed (trimmed_trim s)

theorem trim_cons_of_isBlank {c : Char} (h : isBlank c) (s : List Char) :
    trim (c :: s) = trim s := by
  rw [trim, trimStart, List.dropWhile_cons_of_pos h]
  rfl

theorem trim_append_of_isBlank {c : Char} (h : isBlank c) {s : List Char} (hs : Trimmed s) :
    trim (s ++ [c]) = s := by
  cases s with
  | nil => exact trim_cons_of_isBlank h []
  | cons d s =>
    have hstart : trimStart (d :: s ++ [c]) = d :: s ++ [c] :=
      trimStart_of_head fun e he => hs.head e he
    have hend : (d :: s ++ [c]).reverse.dropWhile isBlank = (d :: s).reverse.dropWhile isBlank := by
      rw [List.reverse_append]
      exact List.dropWhile_cons_of_pos h
    rw [trim, hstart, trimEnd, hend]
    exact trimEnd_of_last hs.last

/-- Trimming keeps every character that is no blank. -/
theorem count_trim {c : Char} (hc : isBlank c = false) (s : List Char) :
    (trim s).count c = s.count c := by
  obtain ⟨l, r, hs, hl, hr⟩ := exists_blanks s
  have hnot : ∀ t : List Char, (∀ x ∈ t, isBlank x) → t.count c = 0 := fun t ht =>
    List.count_eq_zero.2 fun hmem => by simp [ht c hmem] at hc
  have hcount := congrArg (List.count c) hs
  rw [List.count_append, List.count_append, hnot l hl, hnot r hr] at hcount
  omega

/-! ### Quotes -/

/-- A text that begins with no quote is only trimmed. -/
theorem unquote_of_head {s : List Char} (h : (trim s).head? ≠ some '"') : unquote s = trim s := by
  have hnone : after? ['"'] (trim s) = none := by
    rcases hs : trim s with _ | ⟨c, t⟩
    · rfl
    · have hc : '"' ≠ c := fun e => h (by rw [hs, e]; rfl)
      simp [after?, hc]
  rw [unquote, hnone]
  rfl

theorem trimmed_quotes (s : List Char) : Trimmed ('"' :: (s ++ ['"'])) := by
  constructor
  · rintro c ⟨⟩
    rfl
  · intro c hc
    rw [← List.cons_append, List.getLast?_concat] at hc
    cases hc
    rfl

/-- Unquoting takes one pair of quotes off. -/
theorem unquote_quotes (s : List Char) : unquote ('"' :: (s ++ ['"'])) = s := by
  have hstop : before? ['"'] (s ++ ['"']) = some s := before?_eq_some_iff.2 rfl
  rw [unquote, trim_of_trimmed (trimmed_quotes s)]
  simp [after?, hstop]

theorem trimmed_of_not_needsQuotes {s : List Char} (h : needsQuotes s = false) : Trimmed s := by
  have hblank : ∀ c ∈ s, isBlank c = false := by
    simp only [needsQuotes, Bool.or_eq_false_iff, List.any_eq_false] at h
    exact fun c hc => by simpa using h.1.2 c hc
  exact ⟨fun c hc => hblank c (List.mem_of_mem_head? hc),
    fun c hc => hblank c (List.mem_of_getLast? hc)⟩

theorem trimmed_quoted (s : List Char) : Trimmed (quoted s) := by
  rw [quoted]
  split
  · exact trimmed_quotes s
  · next h => exact trimmed_of_not_needsQuotes (by simpa using h)

/-- A text that needs no quotes has none of the characters that mean something in a list. -/
theorem not_mem_of_not_needsQuotes {s : List Char} (h : needsQuotes s = false) :
    ',' ∉ s ∧ '"' ∉ s ∧ '=' ∉ s := by
  simp only [needsQuotes, Bool.or_eq_false_iff, List.any_eq_false] at h
  refine ⟨fun hc => ?_, fun hc => ?_, fun hc => ?_⟩ <;> simpa using h.2 _ hc

theorem quoted_ne_nil (s : List Char) : quoted s ≠ [] := by
  rw [quoted]
  split
  · exact List.cons_ne_nil _ _
  · next h =>
    rintro rfl
    exact h rfl

/-- Unquoting takes off the quotes that were put on where they were needed. -/
@[simp] theorem unquote_quoted (s : List Char) : unquote (quoted s) = s := by
  rw [quoted]
  split
  · exact unquote_quotes s
  · next h =>
    have h : needsQuotes s = false := by simpa using h
    have htrim := trim_of_trimmed (trimmed_of_not_needsQuotes h)
    rw [unquote_of_head, htrim]
    rw [htrim]
    exact fun hhead => (not_mem_of_not_needsQuotes h).2.1 (List.mem_of_mem_head? hhead)

/-- Blanks around a value do not matter to its reading. -/
theorem unquote_trim (s : List Char) : unquote (trim s) = unquote s := by
  rw [unquote, unquote, trim_trim]

/-- A text is trimmed when it is unquoted, and it may lose a quote at both ends. -/
theorem unquote_eq_or (s : List Char) :
    unquote s = trim s ∨ trim s = '"' :: (unquote s ++ ['"']) := by
  rw [unquote]
  cases hafter : after? ['"'] (trim s) with
  | none => exact .inl rfl
  | some r =>
    rw [Option.bind_some]
    cases hbefore : before? ['"'] r with
    | none => exact .inl rfl
    | some l =>
      right
      rw [after?_eq_some_iff.1 hafter, before?_eq_some_iff.1 hbefore]
      rfl

/-- Unquoting adds no character that is no blank. -/
theorem count_unquote_le {c : Char} (hc : isBlank c = false) (s : List Char) :
    (unquote s).count c ≤ s.count c := by
  rw [← count_trim hc s]
  rcases unquote_eq_or s with h | h
  · rw [h]
  · rw [h, List.count_cons, List.count_append]
    omega

/-- Unquoting keeps every character that is neither a blank nor a quote. -/
theorem count_unquote {c : Char} (hc : isBlank c = false) (hquote : c ≠ '"') (s : List Char) :
    (unquote s).count c = s.count c := by
  rw [← count_trim hc s]
  rcases unquote_eq_or s with h | h
  · rw [h]
  · rw [h, List.count_cons_of_ne (Ne.symm hquote), List.count_append,
      List.count_singleton, beq_false_of_ne (Ne.symm hquote)]
    rfl

theorem length_trim_le (s : List Char) : (trim s).length ≤ s.length := by
  obtain ⟨l, r, hs, -⟩ := exists_blanks s
  have hlength := congrArg List.length hs
  rw [List.length_append, List.length_append] at hlength
  omega

theorem trim_eq_of_length {s : List Char} (h : s.length ≤ (trim s).length) : trim s = s := by
  obtain ⟨l, r, hs, -⟩ := exists_blanks s
  have hlength := congrArg List.length hs
  rw [List.length_append, List.length_append] at hlength
  have hl : l = [] := List.length_eq_zero_iff.1 (by omega)
  have hr : r = [] := List.length_eq_zero_iff.1 (by omega)
  rw [hl, hr, List.nil_append, List.append_nil] at hs
  exact hs.symm

theorem length_unquote_le (s : List Char) : (unquote s).length ≤ (trim s).length := by
  rcases unquote_eq_or s with h | h
  · rw [h]
  · rw [h, List.length_cons, List.length_append]
    omega

/-- A text that is not made shorter is left as it is. -/
theorem unquote_eq_of_length {s : List Char} (h : s.length ≤ (unquote s).length) :
    unquote s = s := by
  have htrim := trim_eq_of_length (h.trans (length_unquote_le s))
  rcases unquote_eq_or s with hunquote | hquotes
  · exact hunquote.trans htrim
  · have hlength := congrArg List.length hquotes
    rw [htrim, List.length_cons, List.length_append] at hlength
    omega

/-! ### Marks -/

theorem cut_of_not_mem {mark : Char} {s : List Char} (h : mark ∉ s) : cut mark s = none := by
  induction s with
  | nil => rfl
  | cons c s ih =>
    rw [List.mem_cons, not_or] at h
    rw [cut, if_neg (Ne.symm h.1), ih h.2]
    rfl

theorem cut_append {mark : Char} {l : List Char} (h : mark ∉ l) (r : List Char) :
    cut mark (l ++ mark :: r) = some (l, r) := by
  induction l with
  | nil => simp [cut]
  | cons c l ih =>
    rw [List.mem_cons, not_or] at h
    rw [List.cons_append, cut, if_neg (Ne.symm h.1), ih h.2]
    rfl

end Deployment.Chars
