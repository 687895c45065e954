import Deployment.Proofs.Path

/-!
# Where paths lead

A place is told by the names from the top down to it. From a place a name leads down and `..` one
level up, so that a relative path leads from every place that is deep enough to another one
(`Path.destination`).

A path and its normalized form should lead to the same place. They do as long as the path never gets
more than one level above the place it starts from. There, however, a second `..` takes back the
first one, which is the last segment kept, and the normalized path leads two levels too deep;
nothing later makes up for it. So the two part exactly if the path climbs more than one level
(`destination_normalize_iff`).

* `Path.climb`: how many levels segments lead above their start at most;
* `Path.placeOf`: where the segments kept lead;
* `placeOf_fold`, `length_lt_of_room_lt`: folding while there is room for further levels up, and
  beyond.
-/

namespace Deployment.Path

/-! ### Destinations -/

/-- Where a segment leads from a place. -/
def Segment.lead (place : List String) : Segment → List String
  | .root => []
  | .here => place
  | .up => place.dropLast
  | .name n => place ++ [n]

/-- Where a path leads from a place. -/
def destination (base : List String) (p : Path) : List String :=
  p.segments.foldl Segment.lead base

/-- How many levels segments lead above their start at most. -/
def climb : List Segment → Nat
  | [] => 0
  | .root :: rest => climb rest
  | .here :: rest => climb rest
  | .up :: rest => climb rest + 1
  | .name _ :: rest => climb rest - 1

theorem climb_le_count (segments : List Segment) : climb segments ≤ segments.count .up := by
  induction segments with
  | nil => exact Nat.le_refl _
  | cons s segments ih =>
    cases s with
    | up =>
      rw [climb, List.count_cons_self]
      exact Nat.succ_le_succ ih
    | name n =>
      rw [climb, List.count_cons_of_ne (by simp)]
      exact Nat.le_trans (Nat.sub_le _ _) ih
    | root | here =>
      rw [climb, List.count_cons_of_ne (by simp)]
      exact ih

/-! ### Segments kept -/

/-- Where the segments kept lead from a place: only the first one may lead up. -/
def placeOf (base : List String) : List String → List String
  | [] => base
  | first :: rest => if first = ".." then base.dropLast ++ rest else base ++ first :: rest

/-- How many levels up there is room for before one is taken back: one more than there are names,
    unless the segments kept lead up already. -/
def room : List String → Nat
  | [] => 1
  | first :: rest => if first = ".." then rest.length else rest.length + 2

variable {base place kept : List String} {f : Folded} {segments : List Segment} {p : Path}

theorem Plain.ne_up {name : String} (h : Plain name) : name ≠ ".." := by
  rintro rfl
  exact nomatch h.ofPart

theorem placeOf_append {name : String} (h : Plain name) :
    placeOf base (kept ++ [name]) = placeOf base kept ++ [name] := by
  cases kept with
  | nil => exact if_neg h.ne_up
  | cons first rest =>
    rw [List.cons_append, placeOf, placeOf]
    split <;> simp

theorem room_append {name : String} (h : Plain name) : room (kept ++ [name]) = room kept + 1 := by
  cases kept with
  | nil => exact if_neg h.ne_up
  | cons first rest =>
    rw [List.cons_append, room, room]
    split <;> simp

/-- As long as there is room, one more level up leads one level up. -/
theorem placeOf_add_up (base : List String) (hroom : room f.kept ≠ 0) :
    placeOf base (f.add .up).kept = (placeOf base f.kept).dropLast ∧
      room (f.add .up).kept + 1 = room f.kept := by
  obtain ⟨rooted, _ | ⟨first, _ | ⟨second, rest⟩⟩⟩ := f
  · exact ⟨List.append_nil _, rfl⟩
  · have hne : first ≠ ".." := fun heq => hroom (by rw [room, if_pos heq]; rfl)
    simp [Folded.add, placeOf, room, hne]
  · by_cases hup : first = ".."
    · simp [Folded.add, placeOf, room, hup]
    · simp [Folded.add, placeOf, room, hup]

/-- Without room, one more level up takes one back. -/
theorem placeOf_add_up_of_room_eq_zero (base : List String) (hroom : room f.kept = 0) :
    placeOf base f.kept = base.dropLast ∧ placeOf base (f.add .up).kept = base := by
  obtain ⟨rooted, _ | ⟨first, rest⟩⟩ := f
  · exact nomatch hroom
  · by_cases hup : first = ".."
    · have hrest : rest = [] := by simpa [room, hup] using hroom
      simp [Folded.add, placeOf, hup, hrest]
    · simp [room, hup] at hroom

/-! ### Folding and leading -/

/-- While there is room, segments lead where they are folded to. -/
theorem placeOf_fold (base : List String) (hnames : ∀ n, .name n ∈ segments → Plain n)
    (hroot : .root ∉ segments) (hroom : climb segments ≤ room f.kept) :
    placeOf base (segments.foldl Folded.add f).kept =
      segments.foldl Segment.lead (placeOf base f.kept) := by
  induction segments generalizing f with
  | nil => rfl
  | cons s segments ih =>
    have hnames' : ∀ n, .name n ∈ segments → Plain n := fun n hn =>
      hnames n (List.mem_cons_of_mem _ hn)
    have hroot' : .root ∉ segments := fun h => hroot (List.mem_cons_of_mem _ h)
    cases s with
    | root => exact absurd List.mem_cons_self hroot
    | here => exact ih hnames' hroot' hroom
    | up =>
      rw [climb] at hroom
      obtain ⟨hplace, hless⟩ := placeOf_add_up base (f := f) (by omega)
      rw [List.foldl_cons, List.foldl_cons, ih hnames' hroot' (by omega), hplace]
      rfl
    | name n =>
      have hplain := hnames n List.mem_cons_self
      have hmore : room (f.add (.name n)).kept = room f.kept + 1 := room_append hplain
      rw [climb] at hroom
      rw [List.foldl_cons, List.foldl_cons, ih hnames' hroot' (by omega), Folded.add,
        placeOf_append hplain]
      rfl

/-- What is too deep stays too deep. -/
theorem length_lt_of_length_lt (hnames : ∀ n, .name n ∈ segments → Plain n)
    (hroot : .root ∉ segments) (hdeep : climb segments ≤ place.length)
    (hlt : place.length < (placeOf base f.kept).length) :
    (segments.foldl Segment.lead place).length <
      (placeOf base (segments.foldl Folded.add f).kept).length := by
  induction segments generalizing f place with
  | nil => exact hlt
  | cons s segments ih =>
    have hnames' : ∀ n, .name n ∈ segments → Plain n := fun n hn =>
      hnames n (List.mem_cons_of_mem _ hn)
    have hroot' : .root ∉ segments := fun h => hroot (List.mem_cons_of_mem _ h)
    rw [List.foldl_cons, List.foldl_cons]
    cases s with
    | root => exact absurd List.mem_cons_self hroot
    | here => exact ih hnames' hroot' hdeep hlt
    | up =>
      rw [climb] at hdeep
      have hlevel : (placeOf base f.kept).length ≤ (placeOf base (f.add .up).kept).length + 1 := by
        by_cases hroom : room f.kept = 0
        · obtain ⟨hbefore, hafter⟩ := placeOf_add_up_of_room_eq_zero base hroom
          rw [hbefore, hafter, List.length_dropLast]
          omega
        · rw [(placeOf_add_up base hroom).1, List.length_dropLast]
          omega
      have hplace : (Segment.lead place .up).length + 1 = place.length := by
        rw [Segment.lead, List.length_dropLast]
        omega
      exact ih hnames' hroot' (by omega) (by omega)
    | name n =>
      have hplain := hnames n List.mem_cons_self
      rw [climb] at hdeep
      refine ih hnames' hroot' ?_ ?_
      · rw [Segment.lead, List.length_append, List.length_singleton]
        omega
      · rw [Folded.add, placeOf_append hplain, Segment.lead, List.length_append, List.length_append]
        exact Nat.succ_lt_succ hlt

/-- Segments that climb further than there is room for are folded to what is too deep. -/
theorem length_lt_of_room_lt (base : List String) (hnames : ∀ n, .name n ∈ segments → Plain n)
    (hroot : .root ∉ segments) (hdeep : climb segments ≤ (placeOf base f.kept).length)
    (hroom : room f.kept < climb segments) :
    (segments.foldl Segment.lead (placeOf base f.kept)).length <
      (placeOf base (segments.foldl Folded.add f).kept).length := by
  induction segments generalizing f with
  | nil => exact absurd hroom (Nat.not_lt_zero _)
  | cons s segments ih =>
    have hnames' : ∀ n, .name n ∈ segments → Plain n := fun n hn =>
      hnames n (List.mem_cons_of_mem _ hn)
    have hroot' : .root ∉ segments := fun h => hroot (List.mem_cons_of_mem _ h)
    rw [List.foldl_cons, List.foldl_cons]
    cases s with
    | root => exact absurd List.mem_cons_self hroot
    | here => exact ih hnames' hroot' hdeep hroom
    | up =>
      rw [climb] at hdeep hroom
      by_cases hzero : room f.kept = 0
      · -- The level that is taken back makes the difference.
        obtain ⟨hbefore, hafter⟩ := placeOf_add_up_of_room_eq_zero base hzero
        rw [hbefore, List.length_dropLast] at hdeep
        refine length_lt_of_length_lt hnames' hroot' ?_ ?_
        · rw [Segment.lead, hbefore, List.length_dropLast, List.length_dropLast]
          omega
        · rw [Segment.lead, hbefore, hafter, List.length_dropLast, List.length_dropLast]
          omega
      · obtain ⟨hplace, hless⟩ := placeOf_add_up base hzero
        have hlead : Segment.lead (placeOf base f.kept) .up = placeOf base (f.add .up).kept :=
          hplace.symm
        rw [hlead]
        refine ih hnames' hroot' ?_ (by omega)
        rw [hplace, List.length_dropLast]
        omega
    | name n =>
      have hplain := hnames n List.mem_cons_self
      have hplace : placeOf base (f.add (.name n)).kept = placeOf base f.kept ++ [n] :=
        placeOf_append hplain
      have hmore : room (f.add (.name n)).kept = room f.kept + 1 := room_append hplain
      have hlead : Segment.lead (placeOf base f.kept) (.name n) =
          placeOf base (f.add (.name n)).kept := hplace.symm
      rw [climb] at hdeep hroom
      rw [hlead]
      refine ih hnames' hroot' ?_ (by omega)
      rw [hplace, List.length_append, List.length_singleton]
      omega

/-! ### Normalized paths -/

theorem root_not_mem_filterMap (parts : List (List Char)) :
    .root ∉ parts.filterMap Segment.ofPart := by
  intro hmem
  obtain ⟨part, -, hpart⟩ := List.mem_filterMap.1 hmem
  rw [Segment.ofPart] at hpart
  split_ifs at hpart
  · cases hpart
  · cases hpart

theorem root_not_mem_segments (h : p.isAbsolute = false) : .root ∉ p.segments := by
  rw [segments, if_neg (of_decide_eq_false h)]
  split
  · exact fun hmem => root_not_mem_filterMap _ ((List.mem_cons.1 hmem).resolve_left (by simp))
  · exact root_not_mem_filterMap _

/-- A relative path has no slash in front when it is folded. -/
theorem rooted_fold (h : p.isAbsolute = false) : p.fold.rooted = false := by
  have hroot := root_not_mem_segments h
  rw [fold]
  refine List.foldlRecOn (motive := fun f : Folded => f.rooted = false) _ _ rfl fun f hf s hs => ?_
  cases s with
  | root => exact absurd hs hroot
  | here => exact hf
  | up =>
    rw [Folded.add]
    split
    · exact hf
    · exact hf
  | name => exact hf

/-- Settled segments climb one level at most. -/
theorem climb_of_settled (h : Settled kept) :
    climb ((kept.map String.toList).filterMap Segment.ofPart) ≤ 1 := by
  have hnames : ∀ names : List String, (∀ name ∈ names, Plain name) →
      climb ((names.map String.toList).filterMap Segment.ofPart) = 0 := by
    intro names hplain
    induction names with
    | nil => rfl
    | cons name names ih =>
      rw [List.map_cons, List.filterMap_cons, (hplain name List.mem_cons_self).ofPart]
      exact Nat.sub_eq_zero_of_le
        (ih (fun n hn => hplain n (List.mem_cons_of_mem _ hn)) ▸ Nat.zero_le 1)
  cases kept with
  | nil => exact Nat.zero_le _
  | cons first rest =>
    rcases h.1 with rfl | hplain
    · have hup : Segment.ofPart "..".toList = some .up := by decide
      rw [List.map_cons, List.filterMap_cons, hup]
      exact Nat.succ_le_succ (Nat.le_of_eq (hnames rest h.2))
    · rw [hnames (first :: rest) (List.forall_mem_cons.2 ⟨hplain, h.2⟩)]
      exact Nat.zero_le _

/-- A normalized path leads where the segments kept lead. -/
theorem destination_normalize (h : p.isAbsolute = false) (base : List String) :
    destination base p.normalize = placeOf base p.fold.kept := by
  have hsettled := settled_fold p
  have hsegments : p.normalize.segments =
      (p.fold.kept.map String.toList).filterMap Segment.ofPart := by
    rw [normalize, segments_path hsettled, rooted_fold h]
    rfl
  have hnames : ∀ n, .name n ∈ p.normalize.segments → Plain n := fun _ => plain_of_mem_segments
  rw [hsegments] at hnames
  have hplace := placeOf_fold base (f := .start) hnames (root_not_mem_filterMap _)
    (climb_of_settled hsettled)
  rw [Folded.start, foldl_add_of_settled hsettled] at hplace
  rw [destination, hsegments]
  exact hplace.symm

/-- A relative path and its normalized form lead to the same place, from every place that is deep
    enough, exactly if the path never gets more than one level above its start. -/
theorem destination_normalize_iff (p : Path) (base : List String) (h : p.isAbsolute = false)
    (hdeep : p.segments.count .up ≤ base.length) :
    destination base p.normalize = destination base p ↔ climb p.segments ≤ 1 := by
  have hnames : ∀ n, .name n ∈ p.segments → Plain n := fun _ => plain_of_mem_segments
  have hroot := root_not_mem_segments h
  rw [destination_normalize h, fold]
  constructor
  · intro hsame
    by_contra hclimb
    have hlt := length_lt_of_room_lt base (f := .start) hnames hroot
      (Nat.le_trans (climb_le_count _) hdeep) (Nat.lt_of_not_le hclimb)
    rw [hsame] at hlt
    exact Nat.lt_irrefl _ hlt
  · exact fun hclimb => placeOf_fold base (f := .start) hnames hroot hclimb

/-- A path that gets one level above its start, and down again. -/
theorem destination_normalize_iff_sideways :
    (⟨"a/../.././lib//x.graph"⟩ : Path).isAbsolute = false ∧
    (⟨"a/../.././lib//x.graph"⟩ : Path).segments.count .up = 2 ∧
    climb (⟨"a/../.././lib//x.graph"⟩ : Path).segments = 1 ∧
    destination ["app", "graph"] (normalize ⟨"a/../.././lib//x.graph"⟩) =
      ["app", "lib", "x.graph"] ∧
    destination ["app", "graph"] ⟨"a/../.././lib//x.graph"⟩ = ["app", "lib", "x.graph"] := by
  have hsame := (destination_normalize_iff ⟨"a/../.././lib//x.graph"⟩ ["app", "graph"]
    (by decide) (by decide)).2 (by decide)
  have hplace : destination ["app", "graph"] ⟨"a/../.././lib//x.graph"⟩ =
      ["app", "lib", "x.graph"] := by
    decide
  exact ⟨by decide, by decide, by decide, hsame.trans hplace, hplace⟩

/-- Two levels up, the normalized path leads down where the path itself leads up. -/
theorem destination_normalize_ne :
    (⟨"../../x"⟩ : Path).isAbsolute = false ∧ (⟨"../../x"⟩ : Path).segments.count .up = 2 ∧
      destination ["app", "graph"] ⟨"../../x"⟩ = ["x"] ∧
      destination ["app", "graph"] (normalize ⟨"../../x"⟩) = ["app", "graph", "x"] := by
  decide

end Deployment.Path
