import Deployment.Reach
import Mathlib.Data.List.Nodup
import Mathlib.Logic.Relation

/-!
# What a breadth-first search lists

With enough fuel, a search lists exactly what its seeds lead to (`mem_breadthFirst_iff`), whatever
loops there are. What bounds it is the length of its queue together with the successors of all
elements that are still to be expanded (`backlog`): every visit takes one element from the queue,
and an element that joins it is counted before.

Told without fuel (`Searches`), a search comes to an end just as well (`searches_visit`), and lists
nothing twice (`Searches.nodup`).
-/

universe u

namespace Deployment

variable {α : Type u} [DecidableEq α] {next : α → List α} {all seen queue seeds : List α}
  {fuel : Nat}

/-- What may still join the queue: the successors of what was not seen yet. -/
def backlog (next : α → List α) (all seen : List α) : List α :=
  (all.filter (· ∉ seen)).flatMap next

theorem backlog_nil : backlog next all [] = all.flatMap next := by
  rw [backlog, List.filter_eq_self.2 fun _ _ => decide_eq_true List.not_mem_nil]

/-- An element that is expanded takes its successors out of the backlog. -/
theorem backlog_perm (hnodup : all.Nodup) (hall : ∀ a, next a ≠ [] → a ∈ all) {a : α}
    (ha : a ∉ seen) : (backlog next all seen).Perm (next a ++ backlog next all (seen ++ [a])) := by
  have hrest : all.filter (· ∉ seen ++ [a]) = (all.filter (· ∉ seen)).filter (· != a) := by
    rw [List.filter_filter]
    refine List.filter_congr fun b _ => Bool.eq_iff_iff.2 ?_
    simp [and_comm]
  by_cases hmem : a ∈ all
  · have hkept : a ∈ all.filter (· ∉ seen) := List.mem_filter.2 ⟨hmem, decide_eq_true ha⟩
    rw [backlog, backlog, hrest, ← (hnodup.filter _).erase_eq_filter a, ← List.flatMap_cons]
    exact (List.perm_cons_erase hkept).flatMap_right next
  · -- Only the elements listed have successors.
    have hnil : next a = [] := by
      by_contra hne
      exact hmem (hall a hne)
    have hsame : (all.filter (· ∉ seen)).filter (· != a) = all.filter (· ∉ seen) :=
      List.filter_eq_self.2 fun b hb => bne_iff_ne.2 fun e => hmem (e ▸ (List.mem_filter.1 hb).1)
    rw [backlog, backlog, hrest, hsame, hnil, List.nil_append]

/-- What a search lists was seen before or is led to from its queue. -/
theorem exists_reach_of_mem_visit {x : α} (h : x ∈ visit next fuel seen queue) :
    x ∈ seen ∨ ∃ s ∈ queue, Relation.ReflTransGen (fun a b => b ∈ next a) s x := by
  induction fuel generalizing seen queue with
  | zero => exact .inl h
  | succ fuel ih =>
    cases queue with
    | nil => exact .inl h
    | cons a queue =>
      rw [visit] at h
      split at h
      · exact (ih h).imp_right fun ⟨s, hs, hreach⟩ => ⟨s, List.mem_cons_of_mem _ hs, hreach⟩
      · rcases ih h with hx | ⟨s, hs, hreach⟩
        · rcases List.mem_append.1 hx with hx | hx
          · exact .inl hx
          · exact .inr ⟨a, List.mem_cons_self, List.mem_singleton.1 hx ▸ .refl⟩
        · rcases List.mem_append.1 hs with hs | hs
          · exact .inr ⟨s, List.mem_cons_of_mem _ hs, hreach⟩
          · exact .inr ⟨a, List.mem_cons_self, .head hs hreach⟩

/-- A search with enough fuel lists what it has seen and queued, and whatever that leads to. -/
theorem visit_closed (hnodup : all.Nodup) (hall : ∀ a, next a ≠ [] → a ∈ all)
    (hfuel : queue.length + (backlog next all seen).length ≤ fuel)
    (hseen : ∀ a ∈ seen, next a ⊆ seen ++ queue) :
    seen ++ queue ⊆ visit next fuel seen queue ∧
      ∀ a ∈ visit next fuel seen queue, next a ⊆ visit next fuel seen queue := by
  induction fuel generalizing seen queue with
  | zero =>
    obtain rfl : queue = [] := List.length_eq_zero_iff.1 (by omega)
    rw [List.append_nil] at hseen ⊢
    exact ⟨List.Subset.refl _, hseen⟩
  | succ fuel ih =>
    cases queue with
    | nil =>
      rw [List.append_nil] at hseen ⊢
      exact ⟨List.Subset.refl _, hseen⟩
    | cons a queue =>
      rw [List.length_cons] at hfuel
      rw [visit]
      split
      · next hold =>
        -- The element stands among those seen, and may leave the queue.
        have hsubset : seen ++ a :: queue ⊆ seen ++ queue :=
          List.append_subset.2 ⟨List.subset_append_left _ _,
            List.cons_subset.2 ⟨List.mem_append_left _ hold, List.subset_append_right _ _⟩⟩
        have hless : queue.length + (backlog next all seen).length ≤ fuel := by omega
        obtain ⟨hqueued, hclosed⟩ := ih hless fun b hb => List.Subset.trans (hseen b hb) hsubset
        exact ⟨List.Subset.trans hsubset hqueued, hclosed⟩
      · next hnew =>
        have hback := (backlog_perm hnodup hall hnew).length_eq
        rw [List.length_append] at hback
        have hsubset : seen ++ a :: queue ⊆ seen ++ [a] ++ (queue ++ next a) := by
          rw [List.append_assoc, List.singleton_append, ← List.cons_append, ← List.append_assoc]
          exact List.subset_append_left _ _
        have hexpanded : ∀ b ∈ seen ++ [a], next b ⊆ seen ++ [a] ++ (queue ++ next a) := by
          intro b hb
          rcases List.mem_append.1 hb with hb | hb
          · exact List.Subset.trans (hseen b hb) hsubset
          · rw [List.mem_singleton.1 hb, ← List.append_assoc]
            exact List.subset_append_right _ _
        obtain ⟨hqueued, hclosed⟩ := ih (by rw [List.length_append]; omega) hexpanded
        exact ⟨List.Subset.trans hsubset hqueued, hclosed⟩

/-- A search lists what its seeds lead to, if its fuel is at least the number of its seeds and of
    the successors of all elements that have any. -/
theorem mem_breadthFirst_iff (hnodup : all.Nodup) (hall : ∀ a, next a ≠ [] → a ∈ all)
    (hfuel : seeds.length + (all.flatMap next).length ≤ fuel) {x : α} :
    x ∈ breadthFirst next fuel seeds ↔
      ∃ s ∈ seeds, Relation.ReflTransGen (fun a b => b ∈ next a) s x := by
  constructor
  · intro hx
    exact (exists_reach_of_mem_visit hx).resolve_left List.not_mem_nil
  · rintro ⟨s, hs, hreach⟩
    have hbound : seeds.length + (backlog next all []).length ≤ fuel := by
      rwa [backlog_nil]
    obtain ⟨hseeds, hclosed⟩ := visit_closed hnodup hall hbound fun a ha =>
      absurd ha List.not_mem_nil
    induction hreach with
    | refl => exact hseeds hs
    | tail _ hstep ih => exact hclosed _ ih hstep

/-! ### Without fuel -/

/-- What a search makes of what it has seen and of its queue: the first element of the queue is
    passed over if it was seen before; otherwise it is seen now, and its successors join at the
    end. -/
inductive Searches (next : α → List α) : List α → List α → List α → Prop
  | done {seen : List α} : Searches next seen [] seen
  | skip {a : α} {seen queue found : List α} :
      a ∈ seen → Searches next seen queue found → Searches next seen (a :: queue) found
  | expand {a : α} {seen queue found : List α} :
      a ∉ seen → Searches next (seen ++ [a]) (queue ++ next a) found →
      Searches next seen (a :: queue) found

/-- A search with enough fuel runs until its queue is empty. -/
theorem searches_visit (hnodup : all.Nodup) (hall : ∀ a, next a ≠ [] → a ∈ all)
    (hfuel : queue.length + (backlog next all seen).length ≤ fuel) :
    Searches next seen queue (visit next fuel seen queue) := by
  induction fuel generalizing seen queue with
  | zero =>
    obtain rfl : queue = [] := List.length_eq_zero_iff.1 (by omega)
    exact .done
  | succ fuel ih =>
    cases queue with
    | nil => exact .done
    | cons a queue =>
      rw [List.length_cons] at hfuel
      rw [visit]
      split
      · next hold => exact .skip hold (ih (by omega))
      · next hnew =>
        have hback := (backlog_perm hnodup hall hnew).length_eq
        rw [List.length_append] at hback
        exact .expand hnew (ih (by rw [List.length_append]; omega))

/-- A search from some seeds comes to an end, loops or not. -/
theorem searches_breadthFirst (hnodup : all.Nodup) (hall : ∀ a, next a ≠ [] → a ∈ all)
    (hfuel : seeds.length + (all.flatMap next).length ≤ fuel) :
    Searches next [] seeds (breadthFirst next fuel seeds) :=
  searches_visit hnodup hall (by rwa [backlog_nil])

omit [DecidableEq α] in
/-- A search lists nothing twice. -/
theorem Searches.nodup {found : List α} (h : Searches next seen queue found) (hseen : seen.Nodup) :
    found.Nodup := by
  induction h with
  | done => exact hseen
  | skip _ _ ih => exact ih hseen
  | expand hnew _ ih =>
    refine ih (List.nodup_append'.2 ⟨hseen, List.nodup_singleton _, ?_⟩)
    exact List.disjoint_singleton.2 hnew

end Deployment
