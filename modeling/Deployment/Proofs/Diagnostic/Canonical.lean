import Deployment.Proofs.Diagnostic.Order
import Mathlib.Data.List.Destutter
import Mathlib.Data.List.Sort

/-!
# Reports have one sorted form

The comparison of diagnostics goes through texts and kinds only as far as both diagnostics have
details, which by itself orders nothing: a list of details is like all that it is a prefix of. But
with the comparison of lengths that follows, it is the lexicographic order of the lists
(`comparePairs_then_length`), and so the whole comparison puts lexicographic orders one after the
other (`compare_eq_then`). It is therefore a total order of diagnostics, and a list of diagnostics
has one increasing arrangement (`eq_of_increasing`), which is its sorted form (`sorted_canonical`).
-/

namespace Deployment

/-- To compare what values have, lawfully, is to compare the values lawfully. -/
theorem transCmp_on {α β : Type} (cmp : β → β → Ordering) [Std.TransCmp cmp] (f : α → β) :
    Std.TransCmp fun a b => cmp (f a) (f b) where
  eq_swap := Std.OrientedCmp.eq_swap
  isLE_trans := Std.TransCmp.isLE_trans

theorem Chars.compare_eq_compareLex :
    Chars.compare = List.compareLex (compareOn Char.toNat) := by
  funext s t
  induction s generalizing t with
  | nil => cases t <;> rfl
  | cons a s ih =>
    cases t with
    | nil => rfl
    | cons b t =>
      rw [Chars.compare, ih, List.compareLex_cons_cons]
      rfl

instance : Std.TransCmp Chars.compare := by
  rw [Chars.compare_eq_compareLex]
  infer_instance

instance : Std.TransCmp Text.compare := transCmp_on Chars.compare String.toList

namespace Diagnostic

/-! ### The comparison -/

/-- The order of details by their texts. -/
def byText (x y : Detail) : Ordering := Text.compare x.text y.text

/-- The order of details by their kinds. -/
def byKind (x y : Detail) : Ordering := Ord.compare x.kind.index y.kind.index

instance : Std.TransCmp byText := transCmp_on Text.compare Detail.text

instance : Std.TransCmp byKind := transCmp_on Ord.compare fun x : Detail => x.kind.index

/-- Where no pair differs, the shorter list comes first. -/
theorem comparePairs_then_length (cmp : Detail → Detail → Ordering) (as bs : List Detail) :
    (comparePairs cmp as bs).then (Ord.compare as.length bs.length) =
      List.compareLex cmp as bs := by
  induction as generalizing bs with
  | nil =>
    cases bs with
    | nil => rfl
    | cons b bs => exact Nat.compare_eq_lt.2 (Nat.succ_pos _)
  | cons a as ih =>
    cases bs with
    | nil => exact Nat.compare_eq_gt.2 (Nat.succ_pos _)
    | cons b bs =>
      have hlength : Ord.compare (a :: as).length (b :: bs).length =
          Ord.compare as.length bs.length := by
        simp only [Nat.compare_eq_ite_lt, List.length_cons, Nat.add_lt_add_iff_right]
      rw [comparePairs, Ordering.then_assoc, hlength, ih, List.compareLex_cons_cons]

/-- Diagnostics are ordered by code, then by the texts of their details, then by the kinds. -/
theorem compare_eq_then (d e : Diagnostic) :
    compare d e = (Ord.compare d.code.index e.code.index).then
      ((List.compareLex byText d.details e.details).then
        (List.compareLex byKind d.details e.details)) := by
  -- The lengths may be compared once more after the kinds.
  have hagain : ∀ a b c : Ordering, a.then (b.then c) = (a.then b).then (c.then b) := by
    intro a b c
    cases a <;> cases b <;> cases c <;> rfl
  refine congrArg (Ordering.then _) ?_
  rw [← comparePairs_then_length byText, ← comparePairs_then_length byKind]
  exact hagain _ _ _

instance : Std.TransCmp compare := by
  have hcode := transCmp_on (Ord.compare : Nat → Nat → Ordering) fun d : Diagnostic => d.code.index
  have htexts := transCmp_on (List.compareLex byText) details
  have hkinds := transCmp_on (List.compareLex byKind) details
  have heq : compare = compareLex (fun d e => Ord.compare d.code.index e.code.index)
      (compareLex (fun d e => List.compareLex byText d.details e.details)
        fun d e => List.compareLex byKind d.details e.details) :=
    funext fun d => funext fun e => compare_eq_then d e
  rw [heq]
  infer_instance

theorem compare_swap (d e : Diagnostic) : compare e d = (compare d e).swap :=
  Std.OrientedCmp.eq_swap

theorem isLE_or_isLE (d e : Diagnostic) :
    (compare d e).isLE = true ∨ (compare e d).isLE = true := by
  rw [compare_swap d e]
  cases compare d e <;> simp

theorem eq_of_isLE {d e : Diagnostic} (h : (compare d e).isLE = true)
    (h' : (compare e d).isLE = true) : d = e :=
  compare_eq_eq_iff.1 (Std.OrientedCmp.isLE_antisymm h h')

/-! ### Increasing lists -/

/-- Every diagnostic comes before those that follow it. -/
def Increasing (ds : List Diagnostic) : Prop := ds.Pairwise fun d e => compare d e = .lt

instance (ds : List Diagnostic) : Decidable (Increasing ds) :=
  inferInstanceAs (Decidable (ds.Pairwise _))

variable {d : Diagnostic} {ds es : List Diagnostic}

theorem increasing_insertSorted (h : Increasing ds) : Increasing (insertSorted d ds) := by
  induction ds with
  | nil => exact List.pairwise_singleton _ _
  | cons e ds ih =>
    obtain ⟨hfirst, hrest⟩ := List.pairwise_cons.1 h
    rw [insertSorted]
    cases hde : compare d e with
    | lt =>
      refine List.pairwise_cons.2 ⟨fun x hx => ?_, h⟩
      rcases List.mem_cons.1 hx with rfl | hx
      · exact hde
      · exact Std.TransCmp.lt_trans hde (hfirst x hx)
    | eq => exact h
    | gt =>
      refine List.pairwise_cons.2 ⟨fun x hx => ?_, ih hrest⟩
      rcases mem_insertSorted.1 hx with rfl | hx
      · exact Std.OrientedCmp.gt_iff_lt.1 hde
      · exact hfirst x hx

theorem increasing_sorted (ds : List Diagnostic) : Increasing (sorted ds) := by
  induction ds with
  | nil => exact List.Pairwise.nil
  | cons d ds ih => exact increasing_insertSorted ih

/-- Diagnostics can be arranged in increasing order in one way only. -/
theorem eq_of_increasing (hds : Increasing ds) (hes : Increasing es)
    (h : ∀ d, d ∈ ds ↔ d ∈ es) : ds = es := by
  have : Std.Irrefl fun d e : Diagnostic => compare d e = .lt := by
    refine ⟨fun d hlt => ?_⟩
    rw [compare_eq_eq_iff.2 rfl] at hlt
    exact nomatch hlt
  have : Std.Antisymm fun d e : Diagnostic => compare d e = .lt := by
    refine ⟨fun d e hde hed => ?_⟩
    rw [Std.OrientedCmp.gt_iff_lt.2 hed] at hde
    exact nomatch hde
  exact hds.eq_of_mem_iff hes h

theorem sorted_congr (h : ∀ d, d ∈ ds ↔ d ∈ es) : sorted ds = sorted es :=
  eq_of_increasing (increasing_sorted ds) (increasing_sorted es) fun d =>
    mem_sorted.trans ((h d).trans mem_sorted.symm)

/-- A list in order is increasing once the repetitions next to each other are dropped, for those of
    one diagnostic all are next to each other. -/
theorem increasing_destutter (h : ds.Pairwise fun d e => (compare d e).isLE = true) :
    Increasing (ds.destutter (· ≠ ·)) ∧ ∀ d, d ∈ ds.destutter (· ≠ ·) ↔ d ∈ ds := by
  have : Std.Antisymm fun d e : Diagnostic => (compare d e).isLE = true :=
    ⟨fun _ _ => eq_of_isLE⟩
  rw [h.destutter_eq_dedup]
  refine ⟨?_, fun d => List.mem_dedup⟩
  refine ((h.sublist ds.dedup_sublist).and ds.nodup_dedup).imp fun {d e} hde => ?_
  refine (Ordering.isLE_iff_eq_lt_or_eq_eq.1 hde.1).resolve_right fun heq => ?_
  exact hde.2 (compare_eq_eq_iff.1 heq)

/-- To sort a list with its repetitions, and to drop those next to each other then, is to sort
    it. -/
theorem destutter_mergeSort (ds : List Diagnostic) :
    (ds.mergeSort fun d e => (compare d e).isLE).destutter (· ≠ ·) = sorted ds := by
  have htotal : ∀ d e, ((compare d e).isLE || (compare e d).isLE) = true := by
    intro d e
    rw [Bool.or_eq_true]
    exact isLE_or_isLE d e
  have hpairwise : (ds.mergeSort fun d e => (compare d e).isLE).Pairwise fun d e =>
      (compare d e).isLE = true :=
    List.pairwise_mergeSort (fun _ _ _ => Std.TransCmp.isLE_trans) htotal ds
  obtain ⟨hincreasing, hmem⟩ := increasing_destutter hpairwise
  refine eq_of_increasing hincreasing (increasing_sorted ds) fun d => ?_
  rw [hmem, (List.mergeSort_perm ds _).mem_iff, mem_sorted]

theorem anySevere_sorted (ds : List Diagnostic) : anySevere (sorted ds) = anySevere ds := by
  rw [Bool.eq_iff_iff, anySevere, anySevere, List.any_eq_true, List.any_eq_true]
  exact exists_congr fun d => and_congr_left' mem_sorted

/-- The comparison orders diagnostics totally, and tells any two of them apart. The sorted form of a
    list is the one increasing list of its diagnostics, so that neither their order in the list nor
    repetitions matter. -/
theorem sorted_canonical :
    (∀ d e, compare e d = (compare d e).swap) ∧
    (∀ d e, (compare d e).isLE = true ∨ (compare e d).isLE = true) ∧
    (∀ d e, (compare d e).isLE = true → (compare e d).isLE = true → d = e) ∧
    (∀ d e f, (compare d e).isLE = true → (compare e f).isLE = true → (compare d f).isLE = true) ∧
    (∀ d e, compare d e = .eq ↔ d.code = e.code ∧ d.details = e.details) ∧
    (∀ ds, Increasing (sorted ds) ∧ (∀ d, d ∈ sorted ds ↔ d ∈ ds) ∧
      ∀ es, Increasing es → (∀ d, d ∈ es ↔ d ∈ ds) → es = sorted ds) ∧
    (∀ ds, (ds.mergeSort fun d e => (compare d e).isLE).destutter (· ≠ ·) = sorted ds) ∧
    (∀ ds es, (∀ d, d ∈ ds ↔ d ∈ es) → sorted ds = sorted es) ∧
    (∀ ds, sorted (sorted ds) = sorted ds) ∧
    ∀ ds, anySevere (sorted ds) = anySevere ds := by
  refine ⟨compare_swap, isLE_or_isLE, fun d e => eq_of_isLE, fun d e f => Std.TransCmp.isLE_trans,
    fun d e => ?_, fun ds => ⟨increasing_sorted ds, fun d => mem_sorted, fun es hes hmem => ?_⟩,
    destutter_mergeSort, fun ds es => sorted_congr, fun ds => sorted_congr fun d => mem_sorted,
    anySevere_sorted⟩
  · rw [compare_eq_eq_iff]
    cases d
    cases e
    rw [Diagnostic.mk.injEq]
  · exact eq_of_increasing hes (increasing_sorted ds) fun d => (hmem d).trans mem_sorted.symm

/-- A diagnostic without details. -/
def bare : Diagnostic := ⟨.unreachableComponent, []⟩

/-- A diagnostic of the same code about a component. -/
def aboutComponent : Diagnostic := ⟨.unreachableComponent, [⟨.component, "VM"⟩]⟩

/-- A diagnostic of the same code about a facet of the same name. -/
def aboutFacet : Diagnostic := ⟨.unreachableComponent, [⟨.facet, "VM"⟩]⟩

/-- Fewer details come first, and kinds decide where texts do not, wherever the diagnostics stand in
    the list. -/
theorem sorted_canonical_shuffled :
    (compare bare aboutComponent).isLE = true ∧ (compare aboutComponent aboutFacet).isLE = true ∧
      (compare bare aboutFacet).isLE = true ∧
      sorted [aboutFacet, aboutComponent, bare, aboutFacet] = [bare, aboutComponent, aboutFacet] ∧
      sorted [aboutComponent, aboutFacet, bare] =
        sorted [aboutFacet, aboutComponent, bare, aboutFacet] := by
  obtain ⟨-, -, -, htrans, -, hcanonical, -, hcongr, -⟩ := sorted_canonical
  have hbare : (compare bare aboutComponent).isLE = true := by decide +kernel
  have hkind : (compare aboutComponent aboutFacet).isLE = true := by decide +kernel
  refine ⟨hbare, hkind, htrans _ _ _ hbare hkind, ?_, ?_⟩
  · obtain ⟨-, -, hunique⟩ := hcanonical [aboutFacet, aboutComponent, bare, aboutFacet]
    refine (hunique _ (by decide +kernel) fun d => ?_).symm
    simp only [List.mem_cons, List.not_mem_nil, or_false]
    tauto
  · refine hcongr _ _ fun d => ?_
    simp only [List.mem_cons, List.not_mem_nil, or_false]
    tauto

end Diagnostic

end Deployment
