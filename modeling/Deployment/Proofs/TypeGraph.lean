import Deployment.Proofs.Table
import Deployment.TypeGraph

/-!
# Graphs that are the same

Graphs with the same components and facets under all names, and the same roots, are the same
(`TypeGraph.same_of_lookups`): where a type stands in its table does not matter.
-/

namespace Deployment

theorem Component.same_refl (c : Component) : c.same c = true := by
  have hexports := Table.same_refl (fun v : ExportedVariable => beq_self_eq_true v) c.exports
  have himports := Table.same_refl (fun v : ImportedVariable => beq_self_eq_true v) c.imports
  simp [same, hexports, himports, NameSet.same_refl]

theorem Facet.same_refl (f : Facet) : f.same f = true := by
  have hexports := Table.same_refl (fun v : ExportedVariable => beq_self_eq_true v) f.exports
  simp [same, hexports, NameSet.same_refl]

namespace TypeGraph

variable {g h : TypeGraph}

/-- Graphs that hold the same under all names are the same. -/
theorem same_of_lookups (hcomponents : g.component? = h.component?) (hfacets : g.facet? = h.facet?)
    (hroots : ∀ n, n ∈ g.roots.toList ↔ n ∈ h.roots.toList) : g.same h = true := by
  rw [same, Table.same_of_get?_eq Component.same_refl (congrFun hcomponents),
    Table.same_of_get?_eq Facet.same_refl (congrFun hfacets), NameSet.same_of_mem_iff hroots]
  rfl

theorem same_refl (g : TypeGraph) : g.same g = true := same_of_lookups rfl rfl fun _ => Iff.rfl

end TypeGraph

end Deployment
