import Deployment.Diagnostic.Order

/-!
# Sorted reports

A sorted report has what was in the list, each diagnostic once (`mem_sorted`): the comparison tells
any two diagnostics apart (`compare_eq_eq_iff`), so that none is taken for another one.
-/

namespace Deployment

theorem Chars.compare_eq_eq_iff {s t : List Char} : Chars.compare s t = .eq ↔ s = t := by
  induction s generalizing t with
  | nil => cases t <;> simp [Chars.compare]
  | cons a s ih =>
    cases t with
    | nil => simp [Chars.compare]
    | cons b t =>
      rw [Chars.compare, Ordering.then_eq_eq, ih, Nat.compare_eq_eq, List.cons.injEq]
      exact and_congr_left' Char.toNat_inj

theorem Text.compare_eq_eq_iff {s t : String} : Text.compare s t = .eq ↔ s = t :=
  Chars.compare_eq_eq_iff.trans String.toList_inj

namespace Diagnostic

/-- Details that agree pair by pair, in their texts and in their kinds, are the same if there are
    equally many. -/
theorem eq_of_comparePairs {as bs : List Detail} (hlength : as.length = bs.length)
    (htexts : comparePairs (fun x y => Text.compare x.text y.text) as bs = .eq)
    (hkinds : comparePairs (fun x y => Ord.compare x.kind.index y.kind.index) as bs = .eq) :
    as = bs := by
  induction as generalizing bs with
  | nil => exact (List.length_eq_zero_iff.1 hlength.symm).symm
  | cons a as ih =>
    obtain ⟨b, bs, rfl⟩ := List.exists_cons_of_length_eq_add_one hlength.symm
    rw [comparePairs, Ordering.then_eq_eq] at htexts hkinds
    obtain ⟨htext, htexts⟩ := htexts
    obtain ⟨hkind, hkinds⟩ := hkinds
    have hsame : a = b := by
      obtain ⟨kind, text⟩ := a
      obtain ⟨kind', text'⟩ := b
      rw [Detail.mk.injEq]
      exact ⟨DetailKind.index_inj (Nat.compare_eq_eq.1 hkind), Text.compare_eq_eq_iff.1 htext⟩
    rw [hsame, ih (Nat.succ.inj hlength) htexts hkinds]

theorem comparePairs_self {cmp : Detail → Detail → Ordering} (h : ∀ a, cmp a a = .eq)
    (as : List Detail) : comparePairs cmp as as = .eq := by
  induction as with
  | nil => rfl
  | cons a as ih =>
    rw [comparePairs, h, ih]
    rfl

/-- Only a diagnostic itself compares equal to it. -/
theorem compare_eq_eq_iff {d e : Diagnostic} : compare d e = .eq ↔ d = e := by
  constructor
  · intro h
    rw [compare, Ordering.then_eq_eq, Ordering.then_eq_eq, Ordering.then_eq_eq] at h
    obtain ⟨hcode, htexts, hlength, hkinds⟩ := h
    obtain ⟨code, details⟩ := d
    obtain ⟨code', details'⟩ := e
    rw [Diagnostic.mk.injEq]
    exact ⟨Code.index_inj (Nat.compare_eq_eq.1 hcode),
      eq_of_comparePairs (Nat.compare_eq_eq.1 hlength) htexts hkinds⟩
  · rintro rfl
    rw [compare, comparePairs_self (fun _ => Text.compare_eq_eq_iff.2 rfl),
      comparePairs_self (fun _ => Nat.compare_eq_eq.2 rfl), Nat.compare_eq_eq.2 rfl,
      Nat.compare_eq_eq.2 rfl]
    rfl

theorem mem_insertSorted {d e : Diagnostic} {ds : List Diagnostic} :
    e ∈ insertSorted d ds ↔ e = d ∨ e ∈ ds := by
  induction ds with
  | nil => simp [insertSorted]
  | cons c ds ih =>
    rw [insertSorted]
    cases hc : compare d c with
    | lt => exact List.mem_cons
    | eq => simp [compare_eq_eq_iff.1 hc]
    | gt => rw [List.mem_cons, ih, List.mem_cons, or_left_comm]

/-- A sorted list has the same diagnostics. -/
theorem mem_sorted {d : Diagnostic} {ds : List Diagnostic} : d ∈ sorted ds ↔ d ∈ ds := by
  induction ds with
  | nil => exact Iff.rfl
  | cons c ds ih =>
    rw [sorted, List.foldr_cons, mem_insertSorted, List.mem_cons]
    exact or_congr_right ih

end Diagnostic

end Deployment
