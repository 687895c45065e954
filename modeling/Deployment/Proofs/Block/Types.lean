import Deployment.Proofs.Block.Instances
import Deployment.Proofs.Name

/-!
# Declarations of types

What it takes for the check of the declaration of a component or a facet to raise nothing
(`checkType_eq_nil_iff`): a valid name, different properties, each fine by itself, and no inner
block that does not belong.
-/

namespace Deployment.Block

/-- A property about which the check of a type says nothing. -/
structure FineProperty (kind : DeclarationKind) (allowed : List String) (p : String × String) :
    Prop where
  allowed : p.1 ∈ allowed
  value : Text.unquote p.2 ≠ ""
  exports : p.1 = "exports" → ∀ e ∈ Text.entries p.2, (ExportedVariable.parse e).isSome
  imports : p.1 = "imports" → ∀ e ∈ Text.entries p.2, (ImportedVariable.parse e).isSome
  names : p.1 = "extends" ∨ p.1 = "facets" ∨ p.1 = "children" →
    ∀ n ∈ Text.names p.2, isTypeName n
  single : p.1 = "extends" → kind = .component → (Text.entries p.2).length ≤ 1

/-- A block that may stand in the declaration of a type. -/
def Belongs (b : Block) : Prop := (∃ p, b.property? = some p) ∨ b.isComment ∨ b.isBlank

variable {site : Site} {kind : DeclarationKind} {allowed : List String} {name value : String}
  {inner : List Block}

theorem checkTypeName_eq_nil_iff : checkTypeName site name = [] ↔ isTypeName name := by
  rw [checkTypeName]
  split
  · next hblank =>
    -- A name consists of characters that are no blanks.
    refine iff_of_false (List.cons_ne_nil _ _) fun hname => ?_
    have hplain := plainText_of_isTypeName hname
    rw [Text.isBlank, Chars.trim_of_trimmed hplain.trimmed, List.isEmpty_iff] at hblank
    exact absurd hblank hplain.ne_nil
  · split
    · next hname => exact iff_of_true rfl hname
    · next hname => exact iff_of_false (List.cons_ne_nil _ _) hname

theorem checkShape_eq_nil_iff {seen : List String} :
    checkShape seen inner = [] ↔
      ((properties inner).map Prod.fst).Nodup ∧ (∀ p ∈ properties inner, p.1 ∉ seen) ∧
        ∀ p ∈ properties inner, Text.unquote p.2 ≠ "" := by
  induction inner generalizing seen with
  | nil => simp [checkShape, properties]
  | cons b bs ih =>
    cases b with
    | property site name value =>
      have hproperties : properties (.property site name value :: bs) =
          (name, value) :: properties bs := rfl
      rw [checkShape, hproperties, List.append_eq_nil_iff, List.append_eq_nil_iff, ih,
        List.map_cons, List.nodup_cons, List.forall_mem_cons, List.forall_mem_cons]
      have hempty : (if Text.unquote value = "" then
          [Diagnostic.found site .emptyPropertyValue [⟨.name, name⟩]] else []) = [] ↔
            Text.unquote value ≠ "" := by
        split <;> simp [*]
      have hseen : (if name ∈ seen then
          [Diagnostic.found site .duplicateProperty [⟨.name, name⟩]] else []) = [] ↔
            name ∉ seen := by
        split <;> simp [*]
      have hlater : (∀ p ∈ properties bs, p.1 ∉ name :: seen) ↔
          name ∉ (properties bs).map Prod.fst ∧ ∀ p ∈ properties bs, p.1 ∉ seen := by
        simp only [List.mem_cons, not_or, List.mem_map, not_exists, not_and]
        exact ⟨fun h => ⟨fun p hp e => (h p hp).1 e, fun p hp => (h p hp).2⟩,
          fun h p hp => ⟨h.1 p hp, h.2 p hp⟩⟩
      rw [hempty, hseen, hlater]
      constructor
      · rintro ⟨⟨hvalue, hnot⟩, hnodup, ⟨hnew, hnots⟩, hvalues⟩
        exact ⟨⟨hnew, hnodup⟩, ⟨hnot, hnots⟩, hvalue, hvalues⟩
      · rintro ⟨⟨hnew, hnodup⟩, ⟨hnot, hnots⟩, hvalue, hvalues⟩
        exact ⟨⟨hvalue, hnot⟩, hnodup, ⟨hnew, hnots⟩, hvalues⟩
    | declaration | importOf | comment | blank => exact ih

theorem checkEntries_eq_nil_iff :
    checkEntries site name value = [] ↔
      (name = "exports" → ∀ e ∈ Text.entries value, (ExportedVariable.parse e).isSome) ∧
      (name = "imports" → ∀ e ∈ Text.entries value, (ImportedVariable.parse e).isSome) ∧
      (name = "extends" ∨ name = "facets" ∨ name = "children" →
        ∀ n ∈ Text.names value, isTypeName n) := by
  have hfilter : ∀ {α : Type} (p : α → Bool) (f : α → Diagnostic) (xs : List α),
      (xs.filter p).map f = [] ↔ ∀ x ∈ xs, ¬p x = true := by
    intro α p f xs
    rw [List.map_eq_nil_iff, List.filter_eq_nil_iff]
  rw [checkEntries]
  split_ifs with hexports himports hnames
  · subst hexports
    simp [hfilter, Option.isSome_iff_ne_none]
  · subst himports
    simp [hfilter, Option.isSome_iff_ne_none]
  · rw [hfilter]
    simp [hexports, himports, hnames]
  · simp [hexports, himports, hnames]

theorem checkTypeProperty_eq_nil_iff {owner : String} :
    checkTypeProperty kind owner allowed site name value = [] ∧ Text.unquote value ≠ "" ↔
      FineProperty kind allowed (name, value) := by
  rw [checkTypeProperty]
  split
  · next hallowed =>
    have hsingle : (if name = "extends" ∧ kind = .component ∧ 1 < (Text.entries value).length then
        [Diagnostic.found site .extendsMultipleComponents
          [⟨.component, owner⟩, ⟨.value, value⟩]] else []) = [] ↔
        (name = "extends" → kind = .component → (Text.entries value).length ≤ 1) := by
      split
      · next h => simp [h]
      · next h => simpa using h
    rw [List.append_eq_nil_iff, hsingle, checkEntries_eq_nil_iff]
    constructor
    · rintro ⟨⟨⟨hexports, himports, hnames⟩, hone⟩, hvalue⟩
      exact ⟨hallowed, hvalue, hexports, himports, hnames, hone⟩
    · exact fun h => ⟨⟨⟨h.exports, h.imports, h.names⟩, h.single⟩, h.value⟩
  · next hallowed => exact ⟨fun h => (nomatch h.1), fun h => absurd h.allowed hallowed⟩

/-- The check of a type raises nothing exactly if everything about its declaration is fine. -/
theorem checkType_eq_nil_iff :
    checkType site kind allowed name inner = [] ↔
      isTypeName name ∧ ((properties inner).map Prod.fst).Nodup ∧
        (∀ p ∈ properties inner, FineProperty kind allowed p) ∧ ∀ b ∈ inner, b.Belongs := by
  rw [checkType, List.append_eq_nil_iff, List.append_eq_nil_iff, checkTypeName_eq_nil_iff,
    checkShape_eq_nil_iff, List.flatMap_eq_nil_iff]
  constructor
  · rintro ⟨⟨hname, hnodup, -, hvalue⟩, hinner⟩
    refine ⟨hname, hnodup, fun p hp => ?_, fun b hb => ?_⟩
    · obtain ⟨site', hmem⟩ := mem_properties.1 hp
      exact checkTypeProperty_eq_nil_iff.1 ⟨hinner _ hmem, hvalue p hp⟩
    · have hcheck := hinner b hb
      cases b with
      | property site name value => exact .inl ⟨_, rfl⟩
      | comment => exact .inr (.inl rfl)
      | blank => exact .inr (.inr rfl)
      | declaration | importOf => exact nomatch hcheck
  · rintro ⟨hname, hnodup, hfine, hbelongs⟩
    refine ⟨⟨hname, hnodup, fun _ _ => List.not_mem_nil, fun p hp => (hfine p hp).value⟩,
      fun b hb => ?_⟩
    cases b with
    | property site' name' value' =>
      exact (checkTypeProperty_eq_nil_iff.2 (hfine _ (mem_properties.2 ⟨site', hb⟩))).1
    | comment | blank => rfl
    | declaration | importOf =>
      rcases hbelongs _ hb with ⟨p, hp⟩ | hcomment | hblank
      · exact nomatch hp
      · exact nomatch hcomment
      · exact nomatch hblank

end Deployment.Block
