import Deployment.Block.Remarks
import Deployment.Proofs.Write.Lines

/-!
# Written remarks

A remark is written as comments, one for each of its lines, above what it is on, and read again
from these comments (`Write.remarks_paragraphs`). It comes back as what is left of its lines: each
without blanks around it, and without an empty one at the end, which is no line (`Text.reread`). So
a remark comes back as it was exactly if there is nothing to take away (`Text.reread_eq_some_iff`).
What is lost may be the whole of it, as the remark that a single empty comment makes has no line.
-/

namespace Deployment

namespace Chars

/-- A text is read by its lines if no part between its line feeds has blanks around it, and the last
    one is not empty. -/
theorem lines_eq_splitAll {s : List Char} (htrim : ∀ l ∈ splitAll '\n' s, trim l = l)
    (hlast : (splitAll '\n' s).getLast? ≠ some []) : lines s = splitAll '\n' s := by
  have hended : ((splitAll '\n' s).dropLast.map fun l => (before? ['\r'] l).getD l) =
      (splitAll '\n' s).dropLast := by
    refine (List.map_congr_left fun l hl => ?_).trans (List.map_id _)
    cases hbefore : before? ['\r'] l with
    | none => rfl
    | some q =>
      -- A carriage return at the end would be a blank.
      have hl := htrim l (List.dropLast_subset _ hl)
      have hend : '\r' ∈ (trim l).getLast? := by
        rw [hl, before?_eq_some_iff.1 hbefore, List.getLast?_concat]
        exact Option.mem_some_self _
      exact absurd ((trimmed_trim l).last _ hend) (by decide)
  have hparts := List.dropLast_append_getLast (splitAll_ne_nil '\n' s)
  rw [List.getLast?_eq_some_getLast (splitAll_ne_nil '\n' s)] at hlast
  unfold lines
  dsimp only
  rw [List.getLast?_eq_some_getLast (splitAll_ne_nil '\n' s), hended]
  cases hl : (splitAll '\n' s).getLast (splitAll_ne_nil '\n' s) with
  | nil => exact absurd (congrArg some hl) hlast
  | cons c l =>
    dsimp only
    rw [← hl]
    exact hparts

/-- A text whose lines, trimmed and joined again, make it has nothing that reading takes away. -/
theorem splitAll_eq_of_lines {s : List Char} (hne : lines s ≠ [])
    (hjoin : ['\n'].intercalate ((lines s).map trim) = s) :
    splitAll '\n' s = (lines s).map trim := by
  obtain ⟨l, ls, hlines⟩ := List.exists_cons_of_ne_nil hne
  have hfeeds : ∀ q ∈ trim l :: ls.map trim, '\n' ∉ q := by
    intro q hq hmem
    obtain ⟨p, hp, rfl⟩ := List.mem_map.1 (List.map_cons ▸ hq)
    exact not_mem_of_mem_lines (hlines ▸ hp) (trim_subset p hmem)
  have hsplit := splitAll_intercalate hfeeds
  rw [hlines, List.map_cons] at hjoin ⊢
  rwa [hjoin] at hsplit

theorem length_lines_of_getLast? {s : List Char} (h : (splitAll '\n' s).getLast? = some []) :
    (lines s).length < (splitAll '\n' s).length := by
  have hpos := List.length_pos_of_ne_nil (splitAll_ne_nil '\n' s)
  unfold lines
  dsimp only
  rw [h]
  dsimp only
  rw [List.length_map, List.length_dropLast]
  omega

end Chars

namespace Text

/-- A text that loses nothing when it is read line by line. -/
def IsRemark (s : String) : Prop :=
  (∀ l ∈ Chars.splitAll '\n' s.toList, Chars.trim l = l) ∧
    (Chars.splitAll '\n' s.toList).getLast? ≠ some []

instance (s : String) : Decidable (IsRemark s) := inferInstanceAs (Decidable (_ ∧ _))

/-- What is read of a remark that was written line by line, if it has a line. -/
def reread (remark : String) : Option String :=
  if lines remark = [] then none else some (join "\n" ((lines remark).map trim))

theorem reread_eq_some_iff {remark : String} : reread remark = some remark ↔ IsRemark remark := by
  have htexts : ((lines remark).map trim).map String.toList =
      (Chars.lines remark.toList).map Chars.trim := by
    simp [lines, trim]
  have hnone : lines remark = [] ↔ Chars.lines remark.toList = [] := List.map_eq_nil_iff
  have hjoin : join "\n" ((lines remark).map trim) = remark ↔
      ['\n'].intercalate ((Chars.lines remark.toList).map Chars.trim) = remark.toList := by
    rw [← String.toList_inj, join, String.toList_ofList, htexts]
    rfl
  rw [reread]
  constructor
  · intro h
    split at h
    · cases h
    · next hne =>
      have hsplit := Chars.splitAll_eq_of_lines (mt hnone.2 hne) (hjoin.1 (Option.some.inj h))
      refine ⟨fun l hl => ?_, fun hlast => ?_⟩
      · rw [hsplit] at hl
        obtain ⟨p, -, rfl⟩ := List.mem_map.1 hl
        exact Chars.trim_trim p
      · have hlength := Chars.length_lines_of_getLast? hlast
        rw [hsplit, List.length_map] at hlength
        exact Nat.lt_irrefl _ hlength
  · rintro ⟨htrim, hlast⟩
    have hlines := Chars.lines_eq_splitAll htrim hlast
    have hmap : (Chars.lines remark.toList).map Chars.trim = Chars.lines remark.toList := by
      rw [hlines]
      exact (List.map_congr_left htrim).trans (List.map_id _)
    rw [if_neg, hjoin.2]
    · rw [hmap, hlines, Chars.intercalate_splitAll]
    · rw [hnone, hlines]
      exact Chars.splitAll_ne_nil _ _

end Text

/-! ### Remarks among blocks -/

namespace Block

variable {file : Path} {line : Nat}

/-- A comment says what was written, without blanks around it. -/
theorem commentText_comment (text : String) : commentText ("# " ++ text) = Text.trim text := by
  have hblank : Chars.isBlank ' ' := by decide
  have hstart : Chars.trimStart ("# " ++ text).toList = '#' :: ' ' :: text.toList := by
    rw [String.toList_append]
    rfl
  rw [commentText, hstart, Text.trim, ← Chars.trim_cons_of_isBlank hblank]
  rfl

/-- Written texts join the comments before them. -/
theorem remarksAfter_comments (run texts : List String) (bs : List Block) :
    remarksAfter run (texts.map Write.comment ++ bs) =
      remarksAfter (run ++ texts.map Text.trim) bs := by
  induction texts generalizing run with
  | nil => rw [List.map_nil, List.map_nil, List.nil_append, List.append_nil]
  | cons text texts ih =>
    rw [List.map_cons, List.cons_append, Write.comment, remarksAfter, ih, commentText_comment,
      List.map_cons, List.append_assoc, List.singleton_append]

theorem remarksAfter_numberedAll (run : List String) (bs : List Block) :
    remarksAfter run (numberedAll file line bs) = remarksAfter run bs := by
  induction bs generalizing run line with
  | nil => rfl
  | cons b bs ih =>
    rw [numberedAll]
    cases b with
    | declaration site kind name inner =>
      have hname : remarkName kind name (numberedAll file (line + 1) inner) =
          remarkName kind name inner := by
        cases kind with
        | instanceOf => rw [remarkName, remarkName, lookup, lookup, properties_numberedAll]
        | component | facet => rfl
      rw [numbered, remarksAfter, remarksAfter, hname, ih]
    | comment => rw [numbered, remarksAfter, remarksAfter, ih]
    | importOf | property | blank => exact ih []

end Block

namespace Write

variable {options : WriteOptions} {what : String}

/-- Above the declaration of a type stands its remark. -/
theorem remarksAfter_paragraph (hcomments : options.comments = false) {site : Site}
    {kind : DeclarationKind} (hkind : kind ≠ .instanceOf) (name : String) (inner bs : List Block) :
    Block.remarksAfter [] (paragraph options what name (.declaration site kind name inner) ++ bs) =
      (((options.remarks.get? name).bind Text.reread).map (Prod.mk name)).toList ++
        Block.remarksAfter [] bs := by
  have hdeclared : Block.remarkName kind name inner = some name := by
    cases kind with
    | instanceOf => exact absurd rfl hkind
    | component | facet => rfl
  have hread : ∀ texts : List String, Block.remarksAfter []
      (texts.map comment ++ [.declaration site kind name inner, .blank nowhere ""] ++ bs) =
        Block.remarkOf (texts.map Text.trim) (some name) ++ Block.remarksAfter [] bs := by
    intro texts
    rw [List.append_assoc, Block.remarksAfter_comments, List.nil_append, List.cons_append,
      Block.remarksAfter, hdeclared]
    rfl
  rw [paragraph, heading]
  cases options.remarks.get? name with
  | none =>
    dsimp only
    rw [hcomments, if_neg Bool.false_ne_true]
    exact hread []
  | some remark =>
    dsimp only
    rw [hread, Block.remarkOf, Option.bind_some, Text.reread]
    simp only [List.map_eq_nil_iff]
    split <;> rfl

/-- From the paragraphs of types their remarks are read, one after the other. -/
theorem remarks_paragraphs (hcomments : options.comments = false) {α : Type} {name : α → String}
    {declaration : α → Block} (hdeclaration : ∀ x, ∃ site kind inner, kind ≠ .instanceOf ∧
      declaration x = .declaration site kind (name x) inner) (xs : List α) (bs : List Block) :
    Block.remarks (paragraphs options what name declaration xs ++ bs) =
      ((xs.map name).filterMap fun n =>
        ((options.remarks.get? n).bind Text.reread).map (Prod.mk n)) ++ Block.remarks bs := by
  induction xs with
  | nil => rfl
  | cons x xs ih =>
    obtain ⟨site, kind, inner, hkind, heq⟩ := hdeclaration x
    rw [paragraphs, List.flatMap_cons, heq, List.append_assoc, Block.remarks,
      remarksAfter_paragraph hcomments hkind]
    rw [paragraphs, Block.remarks] at ih
    rw [ih, List.map_cons, List.filterMap_cons]
    cases (options.remarks.get? (name x)).bind Text.reread <;> rfl

end Write

/-- From the file of a graph the remarks on its types are read. -/
theorem TypeGraph.remarks_toFile {g : TypeGraph} (h : g.Valid) {path : Path}
    {options : WriteOptions} (hcomments : options.comments = false) :
    Block.remarks (g.toFile path options).blocks =
      (g.components.keys ++ g.facets.keys).filterMap fun n =>
        ((options.remarks.get? n).bind Text.reread).map (Prod.mk n) := by
  have hnumbered : Block.remarks (g.toFile path options).blocks =
      Block.remarks (g.written options) := by
    rw [blocks_toFile]
    exact Block.remarksAfter_numberedAll [] _
  have hcomponent : ∀ c : Component, ∃ site kind inner, kind ≠ .instanceOf ∧
      Write.component c = .declaration site kind c.name inner :=
    fun _ => ⟨_, .component, _, fun h => (nomatch h), rfl⟩
  have hfacet : ∀ f : Facet, ∃ site kind inner, kind ≠ .instanceOf ∧
      Write.facet f = .declaration site kind f.name inner :=
    fun _ => ⟨_, .facet, _, fun h => (nomatch h), rfl⟩
  rw [hnumbered, written, Write.remarks_paragraphs hcomments hcomponent,
    ← List.append_nil (Write.paragraphs options "facet" _ _ _),
    Write.remarks_paragraphs hcomments hfacet, List.filterMap_append, h.components.map_key_values,
    h.facets.map_key_values]
  exact congrArg _ (List.append_nil _)

end Deployment
