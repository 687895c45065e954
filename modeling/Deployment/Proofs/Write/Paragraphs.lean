import Deployment.Closure
import Deployment.Proofs.Write.Written
import Mathlib.Data.List.Nodup

/-!
# Written paragraphs

A model is written as paragraphs: a declaration under its comments, and a blank line. Readers that
skip comments and blank lines find the declarations, one after the other (`filterMap_paragraphs`),
and the kind of the file depends on what is declared.
-/

namespace Deployment

theorem Block.exists_of_isComment_or_isBlank {b : Block} (h : b.isComment ∨ b.isBlank) :
    ∃ site text, b = .comment site text ∨ b = .blank site text := by
  cases b with
  | comment site text => exact ⟨site, text, .inl rfl⟩
  | blank site text => exact ⟨site, text, .inr rfl⟩
  | declaration | importOf | property =>
    rcases h with h | h
    · exact nomatch h
    · exact nomatch h

/-! ### Paragraphs -/

namespace Write

theorem isComment_of_mem_heading {options : WriteOptions} {what name : String} {b : Block}
    (h : b ∈ heading options what name) : b.isComment := by
  unfold heading at h
  split at h
  · obtain ⟨text, -, rfl⟩ := List.mem_map.1 h
    rfl
  · split_ifs at h
    · rw [List.mem_singleton.1 h]
      rfl
    · exact nomatch h

/-- In a paragraph, only the declaration is neither a comment nor blank. -/
theorem mem_paragraph {options : WriteOptions} {what name : String} {declaration b : Block}
    (h : b ∈ paragraph options what name declaration) :
    b = declaration ∨ b.isComment ∨ b.isBlank := by
  rw [paragraph, List.mem_append, List.mem_pair] at h
  rcases h with h | rfl | rfl
  · exact .inr (.inl (isComment_of_mem_heading h))
  · exact .inl rfl
  · exact .inr (.inr rfl)

section Paragraphs

variable {α β : Type} {options : WriteOptions} {what : String} {name : α → String}
  {declaration : α → Block}

theorem mem_paragraphs {xs : List α} {b : Block}
    (h : b ∈ paragraphs options what name declaration xs) :
    (∃ x ∈ xs, b = declaration x) ∨ b.isComment ∨ b.isBlank := by
  obtain ⟨x, hx, h⟩ := List.mem_flatMap.1 h
  exact (mem_paragraph h).imp_left fun heq => ⟨x, hx, heq⟩

theorem declaration_mem_paragraphs {xs : List α} {x : α} (hx : x ∈ xs) :
    declaration x ∈ paragraphs options what name declaration xs :=
  List.mem_flatMap.2 ⟨x, hx, List.mem_append_right _ List.mem_cons_self⟩

/-- A reader that skips comments and blank lines reads the declarations. -/
theorem filterMap_paragraphs {read : Block → Option β}
    (hskip : ∀ b : Block, b.isComment ∨ b.isBlank → read b = none) (xs : List α) :
    (paragraphs options what name declaration xs).filterMap read =
      xs.filterMap fun x => read (declaration x) := by
  induction xs with
  | nil => rfl
  | cons x xs ih =>
    have hheading : (heading options what (name x)).filterMap read = [] :=
      List.filterMap_eq_nil_iff.2 fun b hb => hskip b (.inl (isComment_of_mem_heading hb))
    have hblank : [Block.blank nowhere ""].filterMap read = [] :=
      List.filterMap_eq_nil_iff.2 fun b hb => hskip b (.inr (List.mem_singleton.1 hb ▸ rfl))
    have hparagraph : (paragraph options what (name x) (declaration x)).filterMap read =
        [declaration x].filterMap read := by
      rw [paragraph, List.filterMap_append, hheading, List.nil_append,
        ← List.singleton_append, List.filterMap_append, hblank, List.append_nil]
    rw [paragraphs] at ih
    rw [paragraphs, List.flatMap_cons, List.filterMap_append, hparagraph, ih, List.filterMap_cons,
      List.filterMap_cons]
    cases read (declaration x) <;> rfl

end Paragraphs

end Write

/-! ### Kinds of files -/

/-- A compilation of types accepts files that declare no instance. -/
theorem Expectation.accepted_of_no_instance {bs : List Block}
    (h : ∀ b ∈ bs, ∀ {site name inner}, b ≠ .declaration site .instanceOf name inner) :
    types.accepted.contains (FileKind.ofBlocks bs) := by
  unfold FileKind.ofBlocks
  dsimp only
  split
  case h_2 => rfl
  case h_4 => split <;> rfl
  all_goals
    next hany =>
    obtain ⟨b, hb, hmatch⟩ := List.any_eq_true.1 hany
    split at hmatch
    · exact absurd rfl (h _ hb)
    · exact nomatch hmatch

/-- A compilation of instances accepts files that declare no types. -/
theorem Expectation.accepted_of_no_type {bs : List Block}
    (h : ∀ b ∈ bs, ∀ {site kind name inner}, b = .declaration site kind name inner →
      kind = .instanceOf) : instances.accepted.contains (FileKind.ofBlocks bs) := by
  unfold FileKind.ofBlocks
  dsimp only
  split
  case h_3 => rfl
  case h_4 => split <;> rfl
  all_goals
    next hany _ =>
    obtain ⟨b, hb, hmatch⟩ := List.any_eq_true.1 hany
    split at hmatch
    · exact nomatch h _ hb rfl
    · exact nomatch h _ hb rfl
    · exact nomatch hmatch

end Deployment
