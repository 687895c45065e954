import Deployment.Relation
import Mathlib.Data.List.Chain
import Mathlib.Data.List.Nodup
import Mathlib.Data.List.Perm.Subperm
import Mathlib.Logic.Relation

/-!
# Breaking cycles

`Relation.breakCycles` searches for a cycle, cuts its last edge and searches again from the
start. All these searches together amount to one walk that does not stop at a cycle but records
it and goes on (`Walk`): a cut only removes the edge that the walk has just looked at, so that
the next search repeats the walk up to there.

* `exists_walk`: there is such a walk;
* `search_of_walk`: the search finds the first cycle that it records.
-/

namespace Deployment

namespace Cycle

/-- The last edge of a cycle. -/
def edge (c : Cycle) : String × String := (c.last, c.start)

theorem getLast?_cons_rest (c : Cycle) : (c.start :: c.rest).getLast? = some c.last := by
  rw [List.getLast?_cons, last]

/-- A closed chain is a chain up to its last name and a step from there back to its start. -/
theorem isChain_names_iff {R : String → String → Prop} {cycle : Cycle} :
    cycle.names.IsChain R ↔ (cycle.start :: cycle.rest).IsChain R ∧ R cycle.last cycle.start := by
  rw [names, List.isChain_append, getLast?_cons_rest]
  simp

/-- A chain from the start of a cycle leads to its last name. -/
theorem reflTransGen {R : String → String → Prop} {cycle : Cycle}
    (h : (cycle.start :: cycle.rest).IsChain R) :
    Relation.ReflTransGen R cycle.start cycle.last :=
  List.relationReflTransGen_of_exists_isChain_cons cycle.rest h <| Option.some.inj <|
    (List.getLast?_eq_some_getLast (List.cons_ne_nil _ _)).symm.trans cycle.getLast?_cons_rest

/-- A closed chain of steps leads from its start back to it. -/
theorem transGen {R : String → String → Prop} {cycle : Cycle} (h : cycle.names.IsChain R) :
    Relation.TransGen R cycle.start cycle.start :=
  Relation.TransGen.tail' (reflTransGen (isChain_names_iff.1 h).1) (isChain_names_iff.1 h).2

end Cycle

namespace Relation

/-- A depth-first walk through a list of names that records every cycle it meets. From `visited`
    it comes to visit further names; `trail` holds the names that led to those of the list, latest
    first. -/
inductive Walk (r : Relation) :
    List String → List String → List String → List String → List Cycle → Prop
  | done {trail visited : List String} : Walk r trail visited [] visited []
  | back {trail visited names visited' : List String} {next : String} {cycles : List Cycle} :
      next ∈ trail → Walk r trail visited names visited' cycles →
      Walk r trail visited (next :: names) visited' (closing trail next :: cycles)
  | seen {trail visited names visited' : List String} {next : String} {cycles : List Cycle} :
      next ∉ trail → next ∈ visited → Walk r trail visited names visited' cycles →
      Walk r trail visited (next :: names) visited' cycles
  | fresh {trail visited names between visited' : List String} {next : String}
      {cycles cycles' : List Cycle} :
      next ∉ trail → next ∉ visited →
      Walk r (next :: trail) (next :: visited) (r.targets next) between cycles →
      Walk r trail between names visited' cycles' →
      Walk r trail visited (next :: names) visited' (cycles ++ cycles')

variable {r r' : Relation} {trail visited names visited' : List String} {cycles : List Cycle}

/-! ### What a walk visits -/

namespace Walk

theorem subset (h : Walk r trail visited names visited' cycles) : visited ⊆ visited' := by
  induction h with
  | done => exact List.Subset.refl _
  | back _ _ ih => exact ih
  | seen _ _ _ ih => exact ih
  | fresh _ _ _ _ ih ih' =>
    exact fun x hx => ih' (ih (List.mem_cons_of_mem _ hx))

theorem subset_of_fresh {next : String}
    (h : Walk r trail (next :: visited) names visited' cycles) : visited ⊆ visited' :=
  fun _ hx => h.subset (List.mem_cons_of_mem _ hx)

theorem length_le (h : Walk r trail visited names visited' cycles) :
    visited.length ≤ visited'.length := by
  induction h with
  | done => exact le_rfl
  | back _ _ ih => exact ih
  | seen _ _ _ ih => exact ih
  | fresh _ _ _ _ ih ih' =>
    rw [List.length_cons] at ih
    omega

theorem nodup (h : Walk r trail visited names visited' cycles) (hv : visited.Nodup) :
    visited'.Nodup := by
  induction h with
  | done => exact hv
  | back _ _ ih => exact ih hv
  | seen _ _ _ ih => exact ih hv
  | fresh _ hnew _ _ ih ih' => exact ih' (ih (List.nodup_cons.2 ⟨hnew, hv⟩))

/-- A walk visits names of its list and targets only. -/
theorem subset_of_names {all : List String} (h : Walk r trail visited names visited' cycles)
    (htargets : ∀ x, r.targets x ⊆ all) (hnames : names ⊆ all) (hv : visited ⊆ all) :
    visited' ⊆ all := by
  induction h with
  | done => exact hv
  | back _ _ ih => exact ih (List.cons_subset.1 hnames).2 hv
  | seen _ _ _ ih => exact ih (List.cons_subset.1 hnames).2 hv
  | fresh _ _ _ _ ih ih' =>
    obtain ⟨hnext, hrest⟩ := List.cons_subset.1 hnames
    exact ih' hrest (ih (htargets _) (List.cons_subset.2 ⟨hnext, hv⟩))

/-- A walk looks only at the targets of the names that it comes to visit. -/
theorem congr (h : Walk r trail visited names visited' cycles)
    (heq : ∀ x ∈ visited', x ∉ visited → r'.targets x = r.targets x) :
    Walk r' trail visited names visited' cycles := by
  induction h with
  | done => exact .done
  | back hback _ ih => exact .back hback (ih heq)
  | seen hnot hseen _ ih => exact .seen hnot hseen (ih heq)
  | @fresh trail visited names between visited' next cycles cycles' hnot hnew h₁ h₂ ih ih' =>
    have hnext : next ∈ between := h₁.subset List.mem_cons_self
    refine .fresh hnot hnew ?_ (ih' fun x hx hx' => heq x hx fun hv => hx' ?_)
    · rw [heq next (h₂.subset hnext) hnew]
      refine ih fun x hx hx' => heq x (h₂.subset hx) fun hv => hx' ?_
      exact List.mem_cons_of_mem _ hv
    · exact h₁.subset_of_fresh hv

end Walk

/-! ### Every relation has its walk -/

/-- The names that a relation mentions. -/
def mentioned (r : Relation) : List String := r.keys ++ r.values.flatten

theorem length_mentioned (r : Relation) : r.mentioned.length = r.nameBound := by
  rw [mentioned, List.length_append, nameBound, edgeCount, Table.keys, List.length_map]
  rfl

theorem targets_subset_mentioned (r : Relation) (x : String) : r.targets x ⊆ r.mentioned := by
  intro y hy
  rw [targets] at hy
  cases htargets : r.get? x with
  | none =>
    rw [htargets] at hy
    exact nomatch hy
  | some ts =>
    rw [htargets] at hy
    refine List.mem_append_right _ (List.mem_flatten.2 ⟨ts, ?_, hy⟩)
    exact List.mem_map.2 ⟨(x, ts), Table.get?_eq_some_iff.1 htargets, rfl⟩

theorem exists_walk_of_le {n : Nat} (hn : (r.mentioned.filter (· ∉ visited)).length ≤ n)
    (hnames : names ⊆ r.mentioned) :
    ∃ visited' cycles, Walk r trail visited names visited' cycles := by
  induction n generalizing trail visited names with
  | zero =>
    -- Everything is visited already.
    induction names with
    | nil => exact ⟨_, _, .done⟩
    | cons next names ih =>
      obtain ⟨hnext, hnames⟩ := List.cons_subset.1 hnames
      obtain ⟨visited', cycles, h⟩ := ih hnames
      have hnil := List.eq_nil_of_length_eq_zero (Nat.le_zero.1 hn)
      have hseen : next ∈ visited := by
        simpa using List.filter_eq_nil_iff.1 hnil next hnext
      by_cases hback : next ∈ trail
      · exact ⟨_, _, .back hback h⟩
      · exact ⟨_, _, .seen hback hseen h⟩
  | succ n ihn =>
    induction names generalizing visited with
    | nil => exact ⟨_, _, .done⟩
    | cons next names ih =>
      obtain ⟨hnext, hnames⟩ := List.cons_subset.1 hnames
      by_cases hback : next ∈ trail
      · obtain ⟨visited', cycles, h⟩ := ih hn hnames
        exact ⟨_, _, .back hback h⟩
      by_cases hseen : next ∈ visited
      · obtain ⟨visited', cycles, h⟩ := ih hn hnames
        exact ⟨_, _, .seen hback hseen h⟩
      -- A new name: one fewer is left to visit below it, and not more than before after it.
      have hmono : ∀ vs : List String, visited ⊆ vs →
          (r.mentioned.filter (· ∉ vs)).Sublist (r.mentioned.filter (· ∉ visited)) := fun vs hvs =>
        List.monotone_filter_right _ fun x hx => by
          simp only [decide_eq_true_eq] at hx ⊢
          exact fun hv => hx (hvs hv)
      have hless : (r.mentioned.filter (· ∉ next :: visited)).length ≤ n := by
        have hsub := hmono (next :: visited) (List.subset_cons_self _ _)
        have hne : r.mentioned.filter (· ∉ next :: visited) ≠ r.mentioned.filter (· ∉ visited) := by
          intro heq
          have hmem : next ∈ r.mentioned.filter (· ∉ visited) := by simp [hnext, hseen]
          rw [← heq] at hmem
          simp at hmem
        have hlt := hsub.length_le.lt_of_ne fun h => hne (hsub.eq_of_length h)
        omega
      obtain ⟨between, cycles, h₁⟩ : ∃ between cycles,
          Walk r (next :: trail) (next :: visited) (r.targets next) between cycles :=
        ihn hless (r.targets_subset_mentioned next)
      have hsub := hmono between h₁.subset_of_fresh
      obtain ⟨visited', cycles', h₂⟩ := ih (hsub.length_le.trans hn) hnames
      exact ⟨_, _, .fresh hback hseen h₁ h₂⟩

/-- The walk through all names. -/
theorem exists_walk (r : Relation) : ∃ visited' cycles, Walk r [] [] r.keys visited' cycles :=
  exists_walk_of_le le_rfl (List.subset_append_left _ _)

/-! ### The search -/

/-- The search through a list of names. -/
def search (r : Relation) (fuel : Nat) (trail : List String) : List String → List String → Search :=
  sweep fun visited next =>
    if next ∈ trail then .found (closing trail next)
    else if next ∈ visited then .clear visited
    else r.explore fuel trail visited next

theorem explore_succ (r : Relation) (fuel : Nat) (trail visited : List String) (name : String) :
    r.explore (fuel + 1) trail visited name =
      r.search fuel (name :: trail) (name :: visited) (r.targets name) :=
  rfl

/-- What the search comes to, given what the walk does. -/
def outcome (visited : List String) : List Cycle → Search
  | [] => .clear visited
  | cycle :: _ => .found cycle

/-- With enough fuel, the search finds the first cycle that the walk records. -/
theorem search_of_walk (h : Walk r trail visited names visited' cycles) {fuel : Nat}
    (hfuel : visited'.length ≤ fuel + visited.length) :
    r.search fuel trail visited names = outcome visited' cycles := by
  induction h generalizing fuel with
  | done => rfl
  | back hback _ _ =>
    rw [search, sweep, if_pos hback]
    rfl
  | seen hnot hseen _ ih =>
    rw [search, sweep, if_neg hnot, if_pos hseen]
    exact ih hfuel
  | @fresh trail visited names between visited' next cycles cycles' hnot hnew h₁ h₂ ih ih' =>
    have hlen₁ := h₁.length_le
    have hlen₂ := h₂.length_le
    rw [List.length_cons] at hlen₁
    obtain ⟨n, rfl⟩ : ∃ n, fuel = n + 1 := ⟨fuel - 1, by omega⟩
    have hbelow := @ih n (by rw [List.length_cons]; omega)
    rw [search, sweep, if_neg hnot, if_neg hnew, explore_succ, hbelow]
    cases cycles with
    | nil => exact @ih' (n + 1) (by omega)
    | cons cycle cycles => rfl

theorem findCycle_of_walk (h : Walk r [] [] r.keys visited' cycles) :
    r.findCycle = cycles.head? := by
  have hsub : visited'.Subperm r.mentioned :=
    (h.nodup List.nodup_nil).subperm (h.subset_of_names r.targets_subset_mentioned
      (List.subset_append_left _ _) (List.nil_subset _))
  have hbound : visited'.length ≤ r.nameBound + 1 + ([] : List String).length := by
    have := hsub.length_le
    rw [length_mentioned] at this
    simp only [List.length_nil]
    omega
  have hsearch := search_of_walk h hbound
  have hstep : (fun (visited : List String) name => if name ∈ visited then Search.clear visited
      else r.explore (r.nameBound + 1) [] visited name) = fun visited next =>
        if next ∈ ([] : List String) then .found (closing [] next)
        else if next ∈ visited then .clear visited
        else r.explore (r.nameBound + 1) [] visited next := by
    funext visited next
    rw [if_neg List.not_mem_nil]
  rw [search, ← hstep] at hsearch
  rw [findCycle, hsearch]
  cases cycles <;> rfl

end Relation

end Deployment
