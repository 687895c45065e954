import Deployment.Forest.Check
import Deployment.Proofs.TypeGraph.Walks
import Deployment.TypeGraph.Check

/-!
# Qualified names of variables

A type has the variables of its *kin*: those that it declares itself, and those of the types that it
inherits from. An import names a variable after a type that has it; an instance that sets a variable
names it after a type of its component, and is taken at its word only if this type declares it. The
two agree on variables that types declare themselves, but not on variables that a type inherits.

* `TypeGraph.kin`: a type and those that it inherits from;
* `exportsVariable_iff_kin`, `typeExports_iff_kin`: both searches are searches of the kin;
* `kin_trans`: the kin of the kin of a component are its kin;
* `typeExports_disagrees_iff`: the variables on which the two disagree.
-/

namespace Deployment

namespace ExportedVariable

variable {v : ExportedVariable} {owner key : String}

theorem shorten_qualified (owner key : String) : shorten owner (owner ++ "." ++ key) = key := by
  have hafter : Text.after? (owner ++ ".") (owner ++ "." ++ key) = some key := by
    rw [Text.after?, Chars.after?_eq_some_iff.2 String.toList_append, Option.map_some,
      String.ofList_toList]
  rw [shorten, hafter, Option.getD_some]

/-- A name without a point is not qualified. -/
theorem shorten_of_plain (hkey : '.' ∉ key.toList) : shorten owner key = key := by
  have hafter : Text.after? (owner ++ ".") key = none := by
    rw [Text.after?, Option.map_eq_none_iff, Option.eq_none_iff_forall_ne_some]
    intro rest hrest
    rw [Chars.after?_eq_some_iff] at hrest
    rw [hrest, String.toList_append] at hkey
    exact hkey (by simp)
  rw [shorten, hafter, Option.getD_none]

/-- A name without a point designates the variables declared under it, qualified or not. -/
theorem designatedBy_iff_of_plain (hkey : '.' ∉ key.toList) :
    v.designatedBy owner key = true ↔ v.name = key ∨ v.name = owner ++ "." ++ key := by
  rw [designatedBy, beq_iff_eq, shorten_of_plain hkey]
  constructor
  · intro h
    rw [shorten] at h
    cases hafter : Text.after? (owner ++ ".") v.name with
    | none =>
      rw [hafter, Option.getD_none] at h
      exact .inl h
    | some rest =>
      rw [hafter, Option.getD_some] at h
      subst h
      right
      obtain ⟨s, hs, rfl⟩ := Option.map_eq_some_iff.1 hafter
      rw [← String.toList_inj, Chars.after?_eq_some_iff.1 hs]
      simp
  · rintro (h | h)
    · rw [h, shorten_of_plain hkey]
    · rw [h, shorten_qualified]

/-- Of two owners, the second one matters for variables declared under its own name only. -/
theorem designatedBy_or_iff {other : String} (hkey : '.' ∉ key.toList) :
    v.designatedBy owner key = true ∨ v.designatedBy other key = true ↔
      v.designatedBy owner key = true ∨ v.name = other ++ "." ++ key := by
  rw [designatedBy_iff_of_plain hkey, designatedBy_iff_of_plain hkey]
  constructor
  · rintro (h | h | h)
    · exact .inl h
    · exact .inl (.inl h)
    · exact .inr h
  · exact Or.imp_right Or.inr

/-- A variable is designated by the name under which it was declared. -/
theorem designatedBy_name (v : ExportedVariable) (owner : String) :
    v.designatedBy owner v.name = true :=
  beq_self_eq_true _

/-- To qualify a name by the owner of a variable is not to designate another. -/
theorem designatedBy_qualified (hkey : '.' ∉ key.toList) :
    v.designatedBy owner (owner ++ "." ++ key) = v.designatedBy owner key := by
  rw [designatedBy, designatedBy, shorten_qualified, shorten_of_plain hkey]

end ExportedVariable

namespace TypeGraph

variable {g : TypeGraph} {name owner key : String}

/-- No name is both that of a component and that of a facet. -/
def Apart (g : TypeGraph) : Prop := ∀ name, g.component? name = none ∨ g.facet? name = none

/-- The variables that the type of a name declares itself. -/
def declared (g : TypeGraph) (name : String) : List ExportedVariable :=
  (g.find? name).elim [] (·.exports.values)

/-- The names of the types whose variables the type of a name has, its own among them: those of the
    lineage and of the facets of a component, or those of the facets that a facet extends. -/
def kin (g : TypeGraph) (name : String) : List String :=
  match g.find? name with
  | some (.component c) => (g.lineage c.name).map (·.name) ++ (g.allFacets c.name).toList
  | some (.facet f) => (g.facetHierarchy f.name).map (·.name)
  | none => []

theorem find?_of_component {c : Component} (hc : g.component? name = some c) :
    g.find? name = some (.component c) := by
  rw [find?, hc]
  rfl

theorem find?_of_facet {f : Facet} (hnone : g.component? name = none)
    (hf : g.facet? name = some f) : g.find? name = some (.facet f) := by
  rw [find?, hnone, hf]
  rfl

theorem Apart.component?_eq_none (hapart : g.Apart) {f : Facet} (hf : g.facet? name = some f) :
    g.component? name = none :=
  (hapart name).resolve_right fun h => Option.some_ne_none f (hf.symm.trans h)

theorem apart_iff : g.Apart ↔ ∀ name ∈ g.components.keys, name ∉ g.facets.keys := by
  refine forall_congr' fun name => ?_
  rw [component?, facet?, Table.get?_eq_none_iff, Table.get?_eq_none_iff, imp_iff_not_or]

instance : Decidable g.Apart := decidable_of_iff _ apart_iff.symm

/-! ### Searches of the kin -/

theorem declared_of_component {c : Component} (hc : g.component? name = some c) :
    g.declared name = c.exports.values := by
  rw [declared, find?_of_component hc]
  rfl

theorem Apart.declared_of_facet (hapart : g.Apart) {f : Facet} (hf : g.facet? name = some f) :
    g.declared name = f.exports.values := by
  rw [declared, find?_of_facet (hapart.component?_eq_none hf) hf]
  rfl

section Kin

variable (hkeyed : g.Keyed) (hapart : g.Apart)

include hkeyed

theorem Keyed.mem_kin_of_component {c : Component} (hc : g.component? name = some c) :
    owner ∈ g.kin name ↔
      (∃ x, g.component? owner = some x ∧ Relation.ReflTransGen g.ExtendsComponent name owner) ∨
        owner ∈ (g.allFacets name).toList := by
  obtain rfl := hkeyed.component name c hc
  rw [kin, find?_of_component hc, List.mem_append, List.mem_map]
  refine or_congr_left ?_
  simp only [hkeyed.mem_lineage_iff]
  constructor
  · rintro ⟨x, ⟨hx, hreach⟩, rfl⟩
    exact ⟨x, hx, hreach⟩
  · rintro ⟨x, hx, hreach⟩
    obtain rfl := hkeyed.component owner x hx
    exact ⟨x, ⟨hx, hreach⟩, rfl⟩

include hapart

theorem Keyed.mem_kin_of_facet {f : Facet} (hf : g.facet? name = some f) :
    owner ∈ g.kin name ↔
      ∃ x, g.facet? owner = some x ∧ Relation.ReflTransGen g.ExtendsFacet name owner := by
  obtain rfl := hkeyed.facet name f hf
  rw [kin, find?_of_facet (hapart.component?_eq_none hf) hf, List.mem_map]
  simp only [hkeyed.mem_facetHierarchy_iff]
  constructor
  · rintro ⟨x, ⟨hx, hreach⟩, rfl⟩
    exact ⟨x, hx, hreach⟩
  · rintro ⟨x, hx, hreach⟩
    obtain rfl := hkeyed.facet owner x hx
    exact ⟨x, ⟨hx, hreach⟩, rfl⟩

/-- A component exports a variable exactly if one of its kin declares it. -/
theorem Keyed.exportsVariable_iff_kin {c : Component} (hc : g.component? name = some c) :
    g.exportsVariable name key = true ↔
      ∃ owner ∈ g.kin name, ∃ v ∈ g.declared owner, v.designatedBy owner key = true := by
  simp only [exportsVariable_iff, hkeyed.mem_kin_of_component hc]
  constructor
  · rintro (⟨facet, hfacet, f, hf, v, hv, hkey⟩ | ⟨x, hx, v, hv, hkey⟩)
    · obtain rfl := hkeyed.facet facet f hf
      exact ⟨f.name, .inr hfacet, v, hapart.declared_of_facet hf ▸ hv, hkey⟩
    · obtain ⟨hdeclared, hreach⟩ := hkeyed.mem_lineage_iff.1 hx
      exact ⟨x.name, .inl ⟨x, hdeclared, hreach⟩, v, declared_of_component hdeclared ▸ hv, hkey⟩
  · rintro ⟨owner, ⟨x, hx, hreach⟩ | hfacet, v, hv, hkey⟩
    · obtain rfl := hkeyed.component owner x hx
      rw [declared_of_component hx] at hv
      exact .inr ⟨x, hkeyed.mem_lineage_iff.2 ⟨hx, hreach⟩, v, hv, hkey⟩
    · obtain ⟨f, hf⟩ := hkeyed.exists_of_mem_allFacets hfacet
      obtain rfl := hkeyed.facet owner f hf
      rw [hapart.declared_of_facet hf] at hv
      exact .inl ⟨f.name, hfacet, f, hf, v, hv, hkey⟩

/-- A type exports a variable exactly if one of its kin declares it, be it qualified by the type
    that declares it or, among facets, by the one that is asked. -/
theorem Keyed.typeExports_iff_kin (hkey : '.' ∉ key.toList) :
    g.typeExports name key = true ↔
      ∃ owner ∈ g.kin name, ∃ v ∈ g.declared owner, v.designatedBy owner key = true ∨
        g.component? name = none ∧ v.name = name ++ "." ++ key := by
  cases hc : g.component? name with
  | some c =>
    obtain rfl := hkeyed.component name c hc
    rw [typeExports, find?_of_component hc]
    simp only [hkeyed.exportsVariable_iff_kin hapart hc, reduceCtorEq, false_and, or_false]
  | none =>
    cases hf : g.facet? name with
    | none => simp [typeExports, kin, find?, hc, hf]
    | some f =>
      obtain rfl := hkeyed.facet name f hf
      rw [typeExports, find?_of_facet hc hf]
      simp only [List.any_eq_true, Bool.or_eq_true, hkeyed.mem_kin_of_facet hapart hf,
        hkeyed.mem_facetHierarchy_iff, true_and, ExportedVariable.designatedBy_or_iff hkey]
      constructor
      · rintro ⟨x, ⟨hx, hreach⟩, hexports⟩
        rw [← hapart.declared_of_facet hx] at hexports
        exact ⟨x.name, ⟨x, hx, hreach⟩, hexports⟩
      · rintro ⟨owner, ⟨x, hx, hreach⟩, hexports⟩
        obtain rfl := hkeyed.facet owner x hx
        rw [hapart.declared_of_facet hx] at hexports
        exact ⟨x, ⟨hx, hreach⟩, hexports⟩

/-- The kin of the kin of a component are its kin. -/
theorem Keyed.kin_trans {c : Component} (hc : g.component? name = some c)
    (howner : owner ∈ g.kin name) : g.kin owner ⊆ g.kin name := by
  intro x hx
  rw [hkeyed.mem_kin_of_component hc]
  rcases (hkeyed.mem_kin_of_component hc).1 howner with ⟨d, hd, hreach⟩ | hfacet
  · refine ((hkeyed.mem_kin_of_component hd).1 hx).imp ?_ ?_
    · rintro ⟨y, hy, hreach'⟩
      exact ⟨y, hy, hreach.trans hreach'⟩
    · refine fun hmem => allFacets_subset (fun y hy => ?_) hmem
      obtain ⟨hdeclared, hreach'⟩ := hkeyed.mem_lineage_iff.1 hy
      exact hkeyed.mem_lineage_iff.2 ⟨hdeclared, hreach.trans hreach'⟩
  · -- The facets that a facet of the component extends are facets of the component.
    obtain ⟨d, hd, own, hown, f, hf, rfl⟩ := mem_allFacets_iff.1 hfacet
    obtain ⟨hdeclared, hreach⟩ := hkeyed.mem_facetHierarchy_iff.1 hf
    obtain ⟨y, hy, hreach'⟩ := (hkeyed.mem_kin_of_facet hapart hdeclared).1 hx
    obtain rfl := hkeyed.facet x y hy
    exact .inr (mem_allFacets_iff.2 ⟨d, hd, own, hown, y,
      hkeyed.mem_facetHierarchy_iff.2 ⟨hy, hreach.trans hreach'⟩, rfl⟩)

end Kin

/-! ### The two searches -/

/-- An import of a variable from a type of a component is resolved, while an instance of the
    component that sets the variable under the name of this type sets none, exactly if the type
    inherits the variable from another, does not declare it itself, and no other type of the
    component declares one that the qualified name designates. -/
theorem Keyed.typeExports_disagrees_iff (hkeyed : g.Keyed) (hapart : g.Apart) {c : Component}
    (hc : g.component? name = some c) (howner : owner ∈ g.kin name) (hkey : '.' ∉ key.toList) :
    g.typeExports owner key = true ∧ g.exportsVariable name (owner ++ "." ++ key) = false ↔
      (∃ other ∈ g.kin owner, other ≠ owner ∧
        ∃ v ∈ g.declared other, v.designatedBy other key = true) ∧
      (∀ v ∈ g.declared owner, v.designatedBy owner key = false) ∧
      ∀ other ∈ g.kin name, other ≠ owner → ∀ v ∈ g.declared other,
        v.designatedBy other (owner ++ "." ++ key) = false := by
  have hsets : g.exportsVariable name (owner ++ "." ++ key) = false ↔
      (∀ v ∈ g.declared owner, v.designatedBy owner key = false) ∧
      ∀ other ∈ g.kin name, other ≠ owner → ∀ v ∈ g.declared other,
        v.designatedBy other (owner ++ "." ++ key) = false := by
    rw [← Bool.not_eq_true, hkeyed.exportsVariable_iff_kin hapart hc]
    simp only [not_exists, not_and, Bool.not_eq_true]
    constructor
    · intro h
      refine ⟨fun v hv => ?_, fun other hother _ => h other hother⟩
      rw [← ExportedVariable.designatedBy_qualified hkey]
      exact h owner howner v hv
    · rintro ⟨hown, hothers⟩ other hother v hv
      by_cases hsame : other = owner
      · subst hsame
        rw [ExportedVariable.designatedBy_qualified hkey]
        exact hown v hv
      · exact hothers other hother hsame v hv
  rw [hsets, hkeyed.typeExports_iff_kin hapart hkey]
  refine and_congr_left ?_
  rintro ⟨hown, hothers⟩
  constructor
  · rintro ⟨other, hother, v, hv, hdesignated⟩
    by_cases hsame : other = owner
    · -- The type itself declares no such variable.
      subst hsame
      have hdeclares : v.designatedBy other key = true := hdesignated.elim id fun h =>
        (ExportedVariable.designatedBy_iff_of_plain hkey).2 (.inr h.2)
      exact absurd (hdeclares.symm.trans (hown v hv)) Bool.noConfusion
    · refine ⟨other, hother, hsame, v, hv, hdesignated.resolve_right fun h => ?_⟩
      -- A variable declared under the qualified name would be accepted under it.
      have hfalse := hothers other (hkeyed.kin_trans hapart hc howner hother) hsame v hv
      rw [← h.2, v.designatedBy_name] at hfalse
      exact Bool.noConfusion hfalse
  · rintro ⟨other, hother, -, v, hv, hdesignated⟩
    exact ⟨other, hother, v, hv, .inl hdesignated⟩

/-- A web server that extends a plain server, whose address it inherits, and a client of it. -/
def servers : TypeGraph :=
  withRoots {
    components := .ofList [
      ("Server", { Component.named "Server" with
        installer := "target", exports := .ofList [("ip", ⟨"ip", none, none⟩)] }),
      ("Web", { Component.named "Web" with
        base := "Server", exports := .ofList [("port", ⟨"port", some "80", none⟩)] }),
      ("Client", { Component.named "Client" with
        installer := "target", imports := .ofList [("Web.ip", ⟨"Web.ip", false, false⟩)] })]
    facets := .empty
    roots := .empty }

/-- The web server exports the address that it inherits, but not under its own name. -/
theorem typeExports_disagrees_servers :
    servers.Keyed ∧ servers.Apart ∧ "Web" ∈ servers.kin "Web" ∧
      servers.typeExports "Web" "ip" = true ∧ servers.exportsVariable "Web" "Web.ip" = false := by
  have hkeyed : servers.Keyed := by decide +kernel
  have hapart : servers.Apart := by decide +kernel
  have hown : "Web" ∈ servers.kin "Web" := by decide +kernel
  obtain ⟨c, hc⟩ := Option.isSome_iff_exists.1
    (show (servers.component? "Web").isSome = true by decide +kernel)
  have hdisagrees := (hkeyed.typeExports_disagrees_iff hapart hc hown
    (show '.' ∉ "ip".toList by decide)).2
    ⟨by decide +kernel, by decide +kernel, by decide +kernel⟩
  exact ⟨hkeyed, hapart, hown, hdisagrees⟩

/-- A web server that sets the address under its own name. -/
def addressed : Forest :=
  .ofTrees [.node { Instance.named "web" "Web" with
    overrides := .ofList [("Web.ip", "10.0.0.1")] } []]

/-- The import of the client is resolved, but the same name set by an instance is reported. -/
theorem servers_disagree :
    servers.Keyed ∧ servers.Apart ∧ "Web" ∈ servers.kin "Web" ∧
      servers.typeExports "Web" "ip" = true ∧ servers.exportsVariable "Web" "Web.ip" = false ∧
      servers.exportsVariable "Web" "ip" = true ∧
      servers.exportsVariable "Web" "Server.ip" = true ∧ servers.check = [] ∧
      (addressed.check servers).map (·.diagnostic.code) = [.magicInstanceVariable] := by
  decide +kernel

end TypeGraph

end Deployment
