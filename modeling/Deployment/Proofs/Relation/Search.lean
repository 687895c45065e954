import Deployment.Proofs.Relation.Cycles

/-!
# Cycles found and cut

The search for a cycle and the cuts that follow on it run on fuel. Here both are told step by step
and without fuel: a search takes the names of a list in order and goes down from each new one
(`Searches`), and cuts go on as long as a cycle is found (`Breaks`). Every relation has such a
search and such a sequence of cuts, which is to say that both come to an end.

* `IsCycle`: a closed chain of edges through different names;
* `Broken`: what is left of a relation of which some cycles were cut;
* `breakCycles_exact`: a cycle is found exactly if there is one, and cutting the cycles found takes
  one edge for each of them and leaves none.
-/

namespace Deployment.Relation

variable {r : Relation} {trail visited names visited' : List String} {cycles : List Cycle}

/-- The cycle that a search has found, if any. -/
def Search.cycle? : Search → Option Cycle
  | .found cycle => some cycle
  | .clear _ => none

/-- No chain of edges comes back to where it begins. -/
def Acyclic (r : Relation) : Prop := ∀ x, ¬Relation.TransGen (fun a b => b ∈ r.targets a) x x

/-- A closed chain of edges through different names. -/
structure IsCycle (r : Relation) (cycle : Cycle) : Prop where
  distinct : (cycle.start :: cycle.rest).Nodup
  edges : r.HasCycle cycle

/-! ### The search, step by step -/

/-- What a search through a list of names comes to, with `visited` already visited; `trail` holds
    the names that led to those of the list, latest first. A name on the trail closes a cycle, and
    one that is new is visited, with all that it leads to, before the search goes on. -/
inductive Searches (r : Relation) : List String → List String → List String → Search → Prop
  | done {trail visited : List String} : Searches r trail visited [] (.clear visited)
  | back {trail visited names : List String} {next : String} :
      next ∈ trail → Searches r trail visited (next :: names) (.found (closing trail next))
  | seen {trail visited names : List String} {next : String} {s : Search} :
      next ∉ trail → next ∈ visited → Searches r trail visited names s →
      Searches r trail visited (next :: names) s
  | found {trail visited names : List String} {next : String} {cycle : Cycle} :
      next ∉ trail → next ∉ visited →
      Searches r (next :: trail) (next :: visited) (r.targets next) (.found cycle) →
      Searches r trail visited (next :: names) (.found cycle)
  | clear {trail visited names between : List String} {next : String} {s : Search} :
      next ∉ trail → next ∉ visited →
      Searches r (next :: trail) (next :: visited) (r.targets next) (.clear between) →
      Searches r trail between names s →
      Searches r trail visited (next :: names) s

/-- A search stops at the first cycle that the walk records. -/
theorem searches_of_walk (h : Walk r trail visited names visited' cycles) :
    Searches r trail visited names (outcome visited' cycles) := by
  induction h with
  | done => exact .done
  | back hback _ _ => exact .back hback
  | seen hnot hseen _ ih => exact .seen hnot hseen ih
  | @fresh trail visited names between visited' next cycles₁ cycles₂ hnot hnew _ _ ih ih' =>
    cases cycles₁ with
    | nil => exact .clear hnot hnew ih ih'
    | cons cycle cycles₁ => exact .found hnot hnew ih

theorem cycle?_outcome : (outcome visited' cycles).cycle? = cycles.head? := by
  cases cycles <;> rfl

/-! ### The cycles found -/

/-- The names of a cycle that a walk records are different. -/
theorem distinct_of_walk (h : Walk r trail visited names visited' cycles) (htrail : trail.Nodup) :
    ∀ cycle ∈ cycles, (cycle.start :: cycle.rest).Nodup := by
  induction h with
  | done => exact fun _ h => absurd h List.not_mem_nil
  | @back trail visited names visited' next cycles hback _ ih =>
    refine List.forall_mem_cons.2 ⟨List.nodup_cons.2 ⟨fun hmem => ?_, ?_⟩, ih htrail⟩
    · simpa using List.all_eq_true.1 List.all_takeWhile next (List.mem_reverse.1 hmem)
    · exact List.nodup_reverse.2 (htrail.sublist (List.takeWhile_sublist _))
  | seen _ _ _ ih => exact ih htrail
  | fresh hnot _ _ _ ih ih' =>
    exact List.forall_mem_append.2 ⟨ih (List.nodup_cons.2 ⟨hnot, htrail⟩), ih' htrail⟩

/-- What the walk through all names records are cycles. -/
theorem isCycle_of_walk (h : Walk r [] [] r.keys visited' cycles) :
    ∀ cycle ∈ cycles, r.IsCycle cycle := fun cycle hcycle =>
  ⟨distinct_of_walk h List.nodup_nil cycle hcycle,
    hasCycle_of_walk h List.isChain_nil (fun _ hhead => nomatch hhead) cycle hcycle⟩

theorem IsCycle.not_acyclic {cycle : Cycle} (h : r.IsCycle cycle) : ¬r.Acyclic := fun hacyclic =>
  hacyclic cycle.start (Cycle.transGen h.edges)

/-- A cycle is found exactly if there is one. -/
theorem findCycle_eq_none_iff : r.findCycle = none ↔ r.Acyclic := by
  obtain ⟨visited', cycles, h⟩ := r.exists_walk
  rw [findCycle_of_walk h]
  constructor
  · intro hnone
    rw [List.head?_eq_none_iff.1 hnone] at h
    exact acyclic_of_walk h
  · intro hacyclic
    cases cycles with
    | nil => rfl
    | cons cycle cycles =>
      exact absurd hacyclic (isCycle_of_walk h cycle List.mem_cons_self).not_acyclic

/-! ### The cuts, step by step -/

/-- Cuts of the last edge of one cycle after the other, until none is found. -/
inductive Breaks : Relation → Relation → List Cycle → Prop
  | done {r : Relation} : r.findCycle = none → Breaks r r []
  | cut {r left : Relation} {cycle : Cycle} {cycles : List Cycle} :
      r.findCycle = some cycle → Breaks (r.cut cycle.last cycle.start) left cycles →
      Breaks r left (cycle :: cycles)

theorem breaks_of_walk (h : Walk r [] [] r.keys visited' cycles) :
    Breaks r (r.cutAll cycles) cycles := by
  induction cycles generalizing r with
  | nil => exact .done (findCycle_of_walk h)
  | cons cycle cycles ih => exact .cut (findCycle_of_walk h) (ih (walk_cut h))

@[simp] theorem keys_cutAll (r : Relation) (cycles : List Cycle) :
    (r.cutAll cycles).keys = r.keys := by
  induction cycles generalizing r with
  | nil => rfl
  | cons cycle cycles ih => exact (ih _).trans (keys_cut r _ _)

/-- The names to which the last edges of some cycles lead from a name. -/
def closedAt (x : String) (cycles : List Cycle) : List String :=
  (cycles.filter fun cycle => cycle.last = x).map Cycle.start

/-- Each cut takes one target away, and the others keep their order. -/
theorem targets_cutAll (h : Walk r [] [] r.keys visited' cycles) (x : String) :
    ((r.cutAll cycles).targets x).Sublist (r.targets x) ∧
      (r.targets x).Perm ((r.cutAll cycles).targets x ++ closedAt x cycles) := by
  induction cycles generalizing r with
  | nil => exact ⟨.refl _, by rw [closedAt, List.filter_nil, List.map_nil, List.append_nil]; rfl⟩
  | cons cycle cycles ih =>
    obtain ⟨hsub, hperm⟩ := ih (walk_cut h)
    change (((r.cut cycle.last cycle.start).cutAll cycles).targets x).Sublist _ ∧
      (r.targets x).Perm (((r.cut cycle.last cycle.start).cutAll cycles).targets x ++ _)
    rw [targets_cut] at hsub hperm
    by_cases hx : x = cycle.last
    · -- The edge is there, so that the cut takes exactly one of its occurrences.
      subst hx
      rw [if_pos rfl] at hsub hperm
      have hclosed : closedAt cycle.last (cycle :: cycles) =
          cycle.start :: closedAt cycle.last cycles := by
        simp [closedAt]
      rw [hclosed]
      refine ⟨hsub.trans List.erase_sublist, ?_⟩
      have hedge := List.perm_cons_erase (start_mem_targets h List.mem_cons_self)
      exact hedge.trans ((hperm.cons _).trans List.perm_middle.symm)
    · rw [if_neg hx] at hsub hperm
      have hclosed : closedAt x (cycle :: cycles) = closedAt x cycles := by
        simp [closedAt, Ne.symm hx]
      rw [hclosed]
      exact ⟨hsub, hperm⟩

/-! ### What is found and what is left -/

/-- What is left of a relation after the last edge of one cycle after the other was cut, until none
    was found: all names, and of their targets all but one for each cycle that was cut there, in
    order. The cycles are cycles of the relation itself, and none is left. -/
structure Broken (r left : Relation) (cycles : List Cycle) : Prop where
  breaks : Breaks r left cycles
  acyclic : left.Acyclic
  keys : left.keys = r.keys
  sublist : ∀ x, (left.targets x).Sublist (r.targets x)
  perm : ∀ x, (r.targets x).Perm (left.targets x ++ closedAt x cycles)
  isCycle : ∀ cycle ∈ cycles, r.IsCycle cycle

/-- The search comes to an end and finds a cycle exactly if there is one; and so do the cuts, after
    which no cycle is left and one edge is missing for each cycle found. -/
theorem breakCycles_exact (r : Relation) :
    (∃ s, Searches r [] [] r.keys s ∧ r.findCycle = s.cycle?) ∧
      (r.findCycle = none ↔ r.Acyclic) ∧
      (∀ cycle, r.findCycle = some cycle → r.IsCycle cycle) ∧
      Broken r r.breakCycles.1 r.breakCycles.2 := by
  obtain ⟨visited', cycles, h, hbreak, hleft⟩ := r.exists_walk_breakCycles
  have hcycles := isCycle_of_walk h
  have hfound := findCycle_of_walk h
  refine ⟨⟨_, searches_of_walk h, hfound.trans cycle?_outcome.symm⟩, findCycle_eq_none_iff,
    fun cycle hcycle => hcycles cycle (List.mem_of_mem_head? (hfound ▸ hcycle)), ?_⟩
  rw [hbreak]
  exact ⟨breaks_of_walk h, acyclic_of_walk hleft, keys_cutAll r cycles,
    fun x => (targets_cutAll h x).1, fun x => (targets_cutAll h x).2, hcycles⟩

/-- A repeated edge closes as many cycles as it occurs; a name that leads nowhere closes none. -/
example : (breakCycles (.ofList [("a", ["b", "b", "c"]), ("b", ["a", "a"])])).2.map Cycle.names =
    [["a", "b", "a"], ["a", "b", "a"]] := by
  decide +kernel

end Deployment.Relation
