import Deployment.Proofs.Catalogue.Declarations
import Mathlib.Data.List.Flatten
import Mathlib.Data.List.Perm.Subperm

/-!
# Places of declarations

A catalogue keeps the places where a name is declared. What it reports about names declared more
than once follows from these places alone, which yields two things:

* `collisions_subperm`, `repetitions_subperm`: fewer declarations, fewer reports;
* `repetitions_eq_nil_iff`: nothing is repeated exactly if all components have different names, and
  all facets.
-/

namespace Deployment

namespace Block

/-- The place of a block that declares a component of a name. -/
def componentSite? (name : String) : Block → Option Site
  | .declaration site .component n _ => if n = name then some site else none
  | _ => none

/-- The place of a block that declares a facet of a name. -/
def facetSite? (name : String) : Block → Option Site
  | .declaration site .facet n _ => if n = name then some site else none
  | _ => none

end Block

namespace Catalogue

/-- The places of the declarations of a name; none if it is not declared. -/
def sitesIn {α : Type} (t : Table String (Declared α)) (name : String) : List Site :=
  (t.get? name).elim [] Declared.sites

theorem sitesIn_of_get? {α : Type} {t : Table String (Declared α)} {name : String}
    {d : Declared α} (h : t.get? name = some d) : sitesIn t name = d.sites := by
  rw [sitesIn, h]
  rfl

theorem mem_keys_iff_sitesIn {α : Type} {t : Table String (Declared α)} {name : String} :
    name ∈ t.keys ↔ sitesIn t name ≠ [] := by
  rw [sitesIn, ← not_iff_not, ← Table.get?_eq_none_iff, not_not]
  cases t.get? name with
  | none => exact iff_of_true rfl rfl
  | some d => exact iff_of_false (fun h => nomatch h) (List.cons_ne_nil _ _)

theorem sitesIn_declare {α : Type} (t : Table String (Declared α)) (n name : String) (model : α)
    (site : Site) :
    sitesIn (declare t n model site) name =
      sitesIn t name ++ (if n = name then some site else none).toList := by
  rw [sitesIn, sitesIn, declare]
  cases hget : t.get? n with
  | none =>
    dsimp only
    rw [Table.get?_insert]
    by_cases hn : n = name
    · subst hn
      simp [hget, Declared.sites]
    · simp [hn]
  | some d =>
    dsimp only
    rw [Table.get?_insert]
    by_cases hn : n = name
    · subst hn
      simp [hget, Declared.sites]
    · simp [hn]

theorem sitesIn_components_add (c : Catalogue) (b : Block) (name : String) :
    sitesIn (c.add b).components name =
      sitesIn c.components name ++ (b.componentSite? name).toList := by
  cases b with
  | declaration site kind n inner =>
    cases kind with
    | component => exact sitesIn_declare ..
    | facet | instanceOf => exact (List.append_nil _).symm
  | importOf | property | comment | blank => exact (List.append_nil _).symm

theorem sitesIn_facets_add (c : Catalogue) (b : Block) (name : String) :
    sitesIn (c.add b).facets name = sitesIn c.facets name ++ (b.facetSite? name).toList := by
  cases b with
  | declaration site kind n inner =>
    cases kind with
    | facet => exact sitesIn_declare ..
    | component | instanceOf => exact (List.append_nil _).symm
  | importOf | property | comment | blank => exact (List.append_nil _).symm

/-- Places accumulate block by block. -/
theorem sites_foldl_add (read : Catalogue → List Site) {site? : Block → Option Site}
    (hadd : ∀ (c : Catalogue) b, read (c.add b) = read c ++ (site? b).toList) (bs : List Block)
    (c : Catalogue) : read (bs.foldl add c) = read c ++ bs.filterMap site? := by
  induction bs generalizing c with
  | nil => exact (List.append_nil _).symm
  | cons b bs ih =>
    rw [List.foldl_cons, ih, hadd, List.append_assoc]
    cases hb : site? b <;> simp [hb]

/-- The places of the components of a name are those of the blocks that declare one, in order. -/
theorem sitesIn_components_ofBlocks (bs : List Block) (name : String) :
    sitesIn (ofBlocks bs).components name = bs.filterMap (Block.componentSite? name) :=
  sites_foldl_add (fun c => sitesIn c.components name)
    (fun c b => sitesIn_components_add c b name) bs empty

/-- The places of the facets of a name are those of the blocks that declare one, in order. -/
theorem sitesIn_facets_ofBlocks (bs : List Block) (name : String) :
    sitesIn (ofBlocks bs).facets name = bs.filterMap (Block.facetSite? name) :=
  sites_foldl_add (fun c => sitesIn c.facets name) (fun c b => sitesIn_facets_add c b name) bs empty

/-! ### Reports by place -/

/-- What is reported of a name that has these places as a component, and these as a facet. -/
def collision (name : String) (components facets : List Site) : List Diagnostic :=
  if components = [] ∨ facets = [] then [] else
    (components ++ facets).map fun site => .found site .conflictingName [⟨.conflicting, name⟩]

/-- What is reported of a name that has these places as a component, or as a facet. -/
def repeatedAt (code : Code) (detail : Detail) (sites : List Site) : List Diagnostic :=
  if sites.length ≤ 1 then [] else sites.map fun site => .found site code [detail]

theorem collisions_eq_flatMap_keys (c : Catalogue) :
    c.collisions = c.components.keys.flatMap fun name =>
      collision name (sitesIn c.components name) (sitesIn c.facets name) := by
  rw [collisions, Table.keys, List.flatMap_map]
  refine List.flatMap_congr fun p hp => ?_
  obtain ⟨name, component⟩ := p
  dsimp only
  rw [sitesIn_of_get? (Table.get?_eq_some_iff.2 hp), sitesIn, collision]
  cases c.facets.get? name with
  | none => exact (if_pos (Or.inr rfl)).symm
  | some facet =>
    have hne : ¬(component.sites = [] ∨ facet.sites = []) := by simp [Declared.sites]
    exact (if_neg hne).symm

theorem repetition_eq_repeatedAt {α : Type} (code : Code) (detail : Detail) (d : Declared α) :
    repetition code detail d = repeatedAt code detail d.sites := by
  rw [repetition, repeatedAt, Declared.sites, List.length_cons]
  cases d.repeated with
  | nil => rfl
  | cons site sites => rfl

theorem repetitions_eq_flatMap_keys (c : Catalogue) :
    c.repetitions =
      (c.components.keys.flatMap fun name =>
        repeatedAt .alreadyDefinedComponent ⟨.component, name⟩ (sitesIn c.components name)) ++
      c.facets.keys.flatMap fun name =>
        repeatedAt .alreadyDefinedFacet ⟨.facet, name⟩ (sitesIn c.facets name) := by
  have hkeys : ∀ {α : Type} (t : Table String (Declared α)) (code : Code)
      (detail : String → Detail),
      (t.entries.flatMap fun (name, d) => repetition code (detail name) d) =
        t.keys.flatMap fun name => repeatedAt code (detail name) (sitesIn t name) := by
    intro α t code detail
    rw [Table.keys, List.flatMap_map]
    refine List.flatMap_congr fun p hp => ?_
    rw [sitesIn_of_get? (Table.get?_eq_some_iff.2 hp)]
    exact repetition_eq_repeatedAt ..
  rw [repetitions, hkeys c.components .alreadyDefinedComponent (⟨.component, ·⟩),
    hkeys c.facets .alreadyDefinedFacet (⟨.facet, ·⟩)]

/-! ### Fewer declarations -/

theorem collision_sublist {name : String} {cs fs cs' fs' : List Site} (hc : cs'.Sublist cs)
    (hf : fs'.Sublist fs) : (collision name cs' fs').Sublist (collision name cs fs) := by
  rw [collision]
  split
  · exact List.nil_sublist _
  · next h =>
    rw [not_or] at h
    have hnonempty : ¬(cs = [] ∨ fs = []) := by
      rintro (rfl | rfl)
      · exact h.1 (List.sublist_nil.1 hc)
      · exact h.2 (List.sublist_nil.1 hf)
    rw [collision, if_neg hnonempty]
    exact (hc.append hf).map _

theorem repeatedAt_sublist {code : Code} {detail : Detail} {sites sites' : List Site}
    (h : sites'.Sublist sites) :
    (repeatedAt code detail sites').Sublist (repeatedAt code detail sites) := by
  rw [repeatedAt]
  split
  · exact List.nil_sublist _
  · next hmany =>
    rw [repeatedAt, if_neg fun hfew => hmany (h.length_le.trans hfew)]
    exact h.map _

/-- What is reported for the keys of a table is found among the reports for a table with more. -/
theorem flatMap_keys_subperm {α : Type} {t u : Table String (Declared α)}
    {report report' : String → List Diagnostic}
    (hsites : ∀ name, (sitesIn t name).Sublist (sitesIn u name))
    (hreport : ∀ name, (report name).Sublist (report' name)) :
    (t.keys.flatMap report).Subperm (u.keys.flatMap report') := by
  have hnodup : t.keys.Nodup := t.nodup
  have hkeys : t.keys.Subperm u.keys := by
    refine hnodup.subperm fun name hname => ?_
    rw [mem_keys_iff_sitesIn] at hname ⊢
    intro hnone
    have hsub := hsites name
    rw [hnone, List.sublist_nil] at hsub
    exact hname hsub
  obtain ⟨names, hperm, hsublist⟩ := hkeys
  refine ⟨names.flatMap report, hperm.flatMap_right report, ?_⟩
  exact (List.Sublist.flatMap_right names fun name _ => hreport name).trans
    (hsublist.flatMap report')

variable {bs bs' : List Block}

theorem sitesIn_components_sublist (h : bs'.Sublist bs) (name : String) :
    (sitesIn (ofBlocks bs').components name).Sublist (sitesIn (ofBlocks bs).components name) := by
  rw [sitesIn_components_ofBlocks, sitesIn_components_ofBlocks]
  exact h.filterMap _

theorem sitesIn_facets_sublist (h : bs'.Sublist bs) (name : String) :
    (sitesIn (ofBlocks bs').facets name).Sublist (sitesIn (ofBlocks bs).facets name) := by
  rw [sitesIn_facets_ofBlocks, sitesIn_facets_ofBlocks]
  exact h.filterMap _

/-- The collisions among some of the declarations are among those of all. -/
theorem collisions_subperm (h : bs'.Sublist bs) :
    (ofBlocks bs').collisions.Subperm (ofBlocks bs).collisions := by
  rw [collisions_eq_flatMap_keys, collisions_eq_flatMap_keys]
  exact flatMap_keys_subperm (sitesIn_components_sublist h) fun name =>
    collision_sublist (sitesIn_components_sublist h name) (sitesIn_facets_sublist h name)

/-- The repetitions among some of the declarations are among those of all. -/
theorem repetitions_subperm (h : bs'.Sublist bs) :
    (ofBlocks bs').repetitions.Subperm (ofBlocks bs).repetitions := by
  rw [repetitions_eq_flatMap_keys, repetitions_eq_flatMap_keys]
  refine List.Subperm.append ?_ ?_
  · exact flatMap_keys_subperm (sitesIn_components_sublist h) fun name =>
      repeatedAt_sublist (sitesIn_components_sublist h name)
  · exact flatMap_keys_subperm (sitesIn_facets_sublist h) fun name =>
      repeatedAt_sublist (sitesIn_facets_sublist h name)

/-! ### No repetition -/

/-- A name has as many places as components of that name are declared. -/
theorem length_sitesIn_components (bs : List Block) (name : String) :
    (sitesIn (ofBlocks bs).components name).length =
      ((Block.declaredComponents bs).map Prod.fst).count name := by
  rw [sitesIn_components_ofBlocks, Block.declaredComponents]
  induction bs with
  | nil => rfl
  | cons b bs ih =>
    cases b with
    | declaration site kind n inner =>
      cases kind with
      | component =>
        by_cases hn : n = name <;> simp [Block.componentSite?, Block.declaredComponent, hn, ih]
      | facet | instanceOf => exact ih
    | importOf | property | comment | blank => exact ih

/-- A name has as many places as facets of that name are declared. -/
theorem length_sitesIn_facets (bs : List Block) (name : String) :
    (sitesIn (ofBlocks bs).facets name).length =
      ((Block.declaredFacets bs).map Prod.fst).count name := by
  rw [sitesIn_facets_ofBlocks, Block.declaredFacets]
  induction bs with
  | nil => rfl
  | cons b bs ih =>
    cases b with
    | declaration site kind n inner =>
      cases kind with
      | facet => by_cases hn : n = name <;> simp [Block.facetSite?, Block.declaredFacet, hn, ih]
      | component | instanceOf => exact ih
    | importOf | property | comment | blank => exact ih

theorem length_le_one_of_repeatedAt {code : Code} {detail : Detail} {sites : List Site}
    (h : repeatedAt code detail sites = []) : sites.length ≤ 1 := by
  rw [repeatedAt] at h
  split at h
  · assumption
  · exact (List.map_eq_nil_iff.1 h) ▸ Nat.zero_le 1

/-- Nothing is repeated exactly if all components have different names, and all facets. -/
theorem repetitions_eq_nil_iff :
    (ofBlocks bs).repetitions = [] ↔ ((Block.declaredComponents bs).map Prod.fst).Nodup ∧
      ((Block.declaredFacets bs).map Prod.fst).Nodup := by
  refine ⟨fun h => ?_, fun h => repetitions_of_nodup h.1 h.2⟩
  rw [repetitions_eq_flatMap_keys, List.append_eq_nil_iff, List.flatMap_eq_nil_iff,
    List.flatMap_eq_nil_iff] at h
  have hfew : ∀ {α : Type} {t : Table String (Declared α)} {code : Code}
      (detail : String → Detail),
      (∀ name ∈ t.keys, repeatedAt code (detail name) (sitesIn t name) = []) →
        ∀ name, (sitesIn t name).length ≤ 1 := by
    intro α t code detail hnone name
    by_cases hname : name ∈ t.keys
    · exact length_le_one_of_repeatedAt (hnone name hname)
    · rw [mem_keys_iff_sitesIn, not_not] at hname
      exact hname ▸ Nat.zero_le 1
  rw [List.nodup_iff_count_le_one, List.nodup_iff_count_le_one]
  refine ⟨fun name => ?_, fun name => ?_⟩
  · rw [← length_sitesIn_components]
    exact hfew (⟨.component, ·⟩) h.1 name
  · rw [← length_sitesIn_facets]
    exact hfew (⟨.facet, ·⟩) h.2 name

end Catalogue

end Deployment
