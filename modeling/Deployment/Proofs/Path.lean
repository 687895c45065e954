import Deployment.Path
import Mathlib.Data.List.Basic

/-!
# Normalized paths

A normalized path reads as it is written: its segments are the names between its slashes, of
which only the first one may lead up. Normalizing it again thus changes nothing
(`normalize_normalize`).

* `splitAll_intercalate`, `intercalate_splitAll`: parts without marks can be joined by marks and
  split again, and a text can be split and joined again;
* `Folded.Settled`: the segments that folding keeps;
* `segments_path`, `fold_path`: a path made of settled segments is read as them, and folds to them.
-/

namespace Deployment

namespace Chars

/-! ### Splitting -/

theorem splitAll_of_not_mem {mark : Char} {s : List Char} (h : mark ∉ s) :
    splitAll mark s = [s] := by
  induction s with
  | nil => rfl
  | cons c s ih =>
    rw [List.mem_cons, not_or] at h
    rw [splitAll, if_neg (Ne.symm h.1), ih h.2]
    rfl

theorem splitAll_append {mark : Char} {s : List Char} (h : mark ∉ s) (r : List Char) :
    splitAll mark (s ++ mark :: r) = s :: splitAll mark r := by
  induction s with
  | nil => simp [splitAll]
  | cons c s ih =>
    rw [List.mem_cons, not_or] at h
    rw [List.cons_append, splitAll, if_neg (Ne.symm h.1), ih h.2]
    rfl

/-- Parts without marks can be joined by marks and split again. -/
theorem splitAll_intercalate {mark : Char} {p : List Char} {ps : List (List Char)}
    (h : ∀ q ∈ p :: ps, mark ∉ q) :
    splitAll mark ([mark].intercalate (p :: ps)) = p :: ps := by
  induction ps generalizing p with
  | nil => rw [List.intercalate_singleton, splitAll_of_not_mem (h p List.mem_cons_self)]
  | cons q ps ih =>
    have hjoin : [mark].intercalate (p :: q :: ps) = p ++ mark :: [mark].intercalate (q :: ps) := by
      simp
    rw [hjoin, splitAll_append (h p List.mem_cons_self)]
    exact congrArg _ (ih fun r hr => h r (List.mem_cons_of_mem _ hr))

theorem splitAll_ne_nil (mark : Char) (s : List Char) : splitAll mark s ≠ [] := by
  cases s with
  | nil => exact List.cons_ne_nil _ _
  | cons c s =>
    rw [splitAll]
    split
    · exact List.cons_ne_nil _ _
    · cases splitAll mark s with
      | nil => exact List.cons_ne_nil _ _
      | cons p ps => exact List.cons_ne_nil _ _

/-- The parts, joined by marks, are the text again. -/
theorem intercalate_splitAll (mark : Char) (s : List Char) :
    [mark].intercalate (splitAll mark s) = s := by
  induction s with
  | nil => rfl
  | cons c s ih =>
    obtain ⟨p, ps, hparts⟩ := List.exists_cons_of_ne_nil (splitAll_ne_nil mark s)
    rw [splitAll, hparts]
    rw [hparts] at ih
    split
    · next hc =>
      have hjoin : [mark].intercalate ([] :: p :: ps) = mark :: [mark].intercalate (p :: ps) := by
        simp
      rw [hjoin, ih, hc]
    · have hjoin : [mark].intercalate (consFirst c (p :: ps)) =
          c :: [mark].intercalate (p :: ps) := by
        cases ps with
        | nil => rfl
        | cons q ps => simp [consFirst]
      rw [hjoin, ih]

/-- No part between the marks has a mark. -/
theorem not_mem_of_mem_splitAll {mark : Char} {s p : List Char} (h : p ∈ splitAll mark s) :
    mark ∉ p := by
  induction s generalizing p with
  | nil =>
    rw [splitAll, List.mem_singleton] at h
    rw [h]
    exact List.not_mem_nil
  | cons c s ih =>
    rw [splitAll] at h
    split at h
    · rcases List.mem_cons.1 h with rfl | h
      · exact List.not_mem_nil
      · exact ih h
    · next hc =>
      -- The character joins the first part.
      cases hparts : splitAll mark s with
      | nil =>
        rw [hparts, consFirst, List.mem_singleton] at h
        rw [h]
        simpa using Ne.symm hc
      | cons q qs =>
        rw [hparts, consFirst] at h
        rcases List.mem_cons.1 h with rfl | h
        · rw [List.mem_cons, not_or]
          exact ⟨Ne.symm hc, ih (hparts ▸ List.mem_cons_self)⟩
        · exact ih (hparts ▸ List.mem_cons_of_mem _ h)

end Chars

namespace Path

/-! ### Segments that folding keeps -/

/-- A name that reads as the name of a file or directory. -/
structure Plain (name : String) : Prop where
  ofPart : Segment.ofPart name.toList = some (.name name)
  slash : '/' ∉ name.toList

/-- Segments as folding keeps them: names, of which only the first one may lead up. -/
def Settled : List String → Prop
  | [] => True
  | first :: rest => (first = ".." ∨ Plain first) ∧ ∀ name ∈ rest, Plain name

/-- What a path reads are names and the marks of its beginning. -/
theorem plain_of_mem_segments {p : Path} {name : String} (h : .name name ∈ p.segments) :
    Plain name := by
  have hparts : .name name ∈
      (Chars.splitAll '/' p.text.toList).filterMap Segment.ofPart := by
    rw [segments] at h
    split at h
    · exact (List.mem_cons.1 h).resolve_left (by simp)
    · split at h
      · exact (List.mem_cons.1 h).resolve_left (by simp)
      · exact h
  obtain ⟨part, hpart, hname⟩ := List.mem_filterMap.1 hparts
  have hread := hname
  rw [Segment.ofPart] at hname
  split at hname
  · exact nomatch hname
  · split at hname
    · exact nomatch hname
    · obtain rfl : String.ofList part = name := by simpa using hname
      refine ⟨?_, ?_⟩
      · rw [String.toList_ofList]
        exact hread
      · rw [String.toList_ofList]
        exact Chars.not_mem_of_mem_splitAll hpart

theorem settled_dropLast {kept : List String} (h : Settled kept) : Settled kept.dropLast := by
  cases kept with
  | nil => exact trivial
  | cons first rest =>
    cases rest with
    | nil => exact trivial
    | cons second rest =>
      exact ⟨h.1, fun name hname => h.2 name (List.dropLast_subset _ hname)⟩

theorem settled_append {kept : List String} (h : Settled kept) {name : String}
    (hname : Plain name) : Settled (kept ++ [name]) := by
  cases kept with
  | nil => exact ⟨.inr hname, fun _ h => nomatch h⟩
  | cons first rest =>
    refine ⟨h.1, fun n hn => ?_⟩
    rcases List.mem_append.1 hn with hn | hn
    · exact h.2 n hn
    · rw [List.mem_singleton.1 hn]
      exact hname

/-- Folding a segment more keeps the segments settled. -/
theorem settled_add {f : Folded} (h : Settled f.kept) {s : Segment}
    (hs : ∀ name, s = .name name → Plain name) : Settled (f.add s).kept := by
  cases s with
  | root => exact h
  | here => exact h
  | up =>
    rw [Folded.add]
    split
    · exact ⟨.inl rfl, fun _ h => nomatch h⟩
    · exact settled_dropLast h
  | name name => exact settled_append h (hs name rfl)

theorem settled_fold (p : Path) : Settled p.fold.kept := by
  have hfold : ∀ (segments : List Segment) (f : Folded), Settled f.kept →
      (∀ name, .name name ∈ segments → Plain name) →
      Settled (segments.foldl Folded.add f).kept := by
    intro segments
    induction segments with
    | nil => exact fun _ h _ => h
    | cons s segments ih =>
      intro f h hs
      refine ih _ (settled_add h fun name hname => hs name ?_) fun name hname =>
        hs name (List.mem_cons_of_mem _ hname)
      rw [hname]
      exact List.mem_cons_self
  exact hfold _ _ trivial fun name => plain_of_mem_segments

/-! ### Reading a normalized path -/

/-- Settled segments fold to themselves. -/
theorem foldl_add_of_settled {kept : List String} (h : Settled kept) (rooted : Bool) :
    ((kept.map String.toList).filterMap Segment.ofPart).foldl Folded.add ⟨rooted, []⟩ =
      ⟨rooted, kept⟩ := by
  have hnames : ∀ (names : List String) (f : Folded), (∀ name ∈ names, Plain name) →
      ((names.map String.toList).filterMap Segment.ofPart).foldl Folded.add f =
        ⟨f.rooted, f.kept ++ names⟩ := by
    intro names
    induction names with
    | nil => exact fun f _ => by rw [List.append_nil]; rfl
    | cons name names ih =>
      intro f hplain
      have hrest := ih (f.add (.name name)) fun n hn => hplain n (List.mem_cons_of_mem _ hn)
      rw [List.map_cons, List.filterMap_cons, (hplain name List.mem_cons_self).ofPart,
        List.foldl_cons, hrest, Folded.add]
      simp
  cases kept with
  | nil => rfl
  | cons first rest =>
    rcases h.1 with hup | hplain
    · subst hup
      have hread : Segment.ofPart "..".toList = some .up := by decide
      rw [List.map_cons, List.filterMap_cons, hread, List.foldl_cons]
      exact hnames rest _ h.2
    · exact hnames (first :: rest) ⟨rooted, []⟩ (List.forall_mem_cons.2 ⟨hplain, h.2⟩)

theorem parts_of_settled {first : String} {rest : List String} (h : Settled (first :: rest)) :
    Chars.splitAll '/' (['/'].intercalate ((first :: rest).map String.toList)) =
      (first :: rest).map String.toList := by
  refine Chars.splitAll_intercalate fun p hp => ?_
  obtain ⟨name, hname, rfl⟩ := List.mem_map.1 (show p ∈ (first :: rest).map String.toList from hp)
  rcases List.mem_cons.1 hname with rfl | hname
  · rcases h.1 with rfl | hplain
    · decide
    · exact hplain.slash
  · exact (h.2 name hname).slash

/-- The written form of settled segments begins like their first one. -/
theorem head?_intercalate {first : String} (hfirst : first.toList ≠ []) (rest : List String) :
    (['/'].intercalate ((first :: rest).map String.toList)).head? = first.toList.head? := by
  obtain ⟨c, s, hs⟩ := List.exists_cons_of_ne_nil hfirst
  cases rest with
  | nil => rw [List.map_cons, List.map_nil, List.intercalate_singleton]
  | cons second rest =>
    rw [List.map_cons, List.map_cons, List.intercalate_cons_cons, hs]
    rfl

/-- A path made of settled segments is read as them, after its slash if it is absolute. -/
theorem segments_path {f : Folded} (h : Settled f.kept) :
    f.path.segments = (if f.rooted then [.root] else []) ++
      (f.kept.map String.toList).filterMap Segment.ofPart := by
  obtain ⟨rooted, kept⟩ := f
  have htext : (Folded.path ⟨rooted, kept⟩).text.toList =
      (if rooted then ['/'] else []) ++ ['/'].intercalate (kept.map String.toList) := by
    rw [Folded.path, Text.join, String.toList_append, String.toList_ofList]
    cases rooted <;> simp
  cases kept with
  | nil => cases rooted <;> decide
  | cons first rest =>
    have hparts := parts_of_settled h
    cases rooted with
    | true =>
      have htext : (Folded.path ⟨true, first :: rest⟩).text.toList =
          '/' :: ['/'].intercalate ((first :: rest).map String.toList) := htext
      rw [segments, htext]
      simp only [List.head?_cons, if_true, Chars.splitAll, hparts, List.filterMap_cons]
      rfl
    | false =>
      have htext : (Folded.path ⟨false, first :: rest⟩).text.toList =
          ['/'].intercalate ((first :: rest).map String.toList) := htext
      have hread : Segment.ofPart first.toList ≠ none ∧ '/' ∉ first.toList := by
        rcases h.1 with rfl | hplain
        · decide
        · exact ⟨by rw [hplain.ofPart]; simp, hplain.slash⟩
      have hne : first.toList ≠ [] := fun e => hread.1 (by rw [e]; rfl)
      have hdot : first.toList ≠ ['.'] := fun e => hread.1 (by rw [e]; rfl)
      -- The path begins neither with a slash nor with a point of its own.
      have hslash : first.toList.head? ≠ some '/' := fun e =>
        hread.2 (List.mem_of_mem_head? (Option.mem_def.2 e))
      rw [segments, htext, head?_intercalate hne, if_neg hslash, hparts,
        if_neg (by simpa using hdot)]
      rfl

/-- A path made of settled segments folds to them. -/
theorem fold_path {f : Folded} (h : Settled f.kept) : f.path.fold = f := by
  obtain ⟨rooted, kept⟩ := f
  have hkept := foldl_add_of_settled h rooted
  rw [fold, segments_path h, List.foldl_append]
  cases rooted
  · exact hkept
  · exact hkept

/-- Normalizing a path again changes nothing. -/
@[simp] theorem normalize_normalize (p : Path) : p.normalize.normalize = p.normalize := by
  rw [normalize, normalize, fold_path (settled_fold p)]

end Path

end Deployment
