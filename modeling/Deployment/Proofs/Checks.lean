import Deployment.Forest.Check
import Deployment.Proofs.Forest.Paths
import Deployment.TypeGraph.Check
import Mathlib.Tactic.ByContra

/-!
# What the checks of models establish

What may be relied on in a graph and a forest that the checks were content with: every component has
an installer (`TypeGraph.Installed`), whatever a component cannot do without is exported
(`TypeGraph.Supplied`), and instances stand where their components may (`Forest.Fits`). Each follows
from the absence of the diagnostics that are about it, whatever else is found.
-/

namespace Deployment

/-- Where a finding is located does not change what it is. -/
theorem Finding.code_located (f : Finding) (m : SourceMap) :
    (f.located m).code = f.diagnostic.code := by
  rw [located]
  split
  · split <;> rfl
  · rfl

/-! ### Graphs -/

namespace TypeGraph

/-- Every component has an installer, its own or an inherited one. -/
def Installed (g : TypeGraph) : Prop :=
  ∀ name, g.components.contains name → ∃ installer, g.effectiveInstaller name = some installer

/-- Whatever a component imports, unless it can do without or another application serves it, names a
    type that exports it; `*` asks for nothing in particular. -/
def Supplied (g : TypeGraph) : Prop :=
  ∀ name c, g.component? name = some c → ∀ v ∈ c.imports.values, v.optional = false →
    v.external = false → ∃ owner key, v.split = some (owner, key) ∧
      (g.components.contains owner ∨ g.facets.contains owner) ∧
      (key = "*" ∨ g.typeExports owner key)

variable {g : TypeGraph}

theorem mem_check_of_component {name : String} {c : Component} (h : g.component? name = some c)
    {f : Finding} (hf : f ∈ g.checkComponent name c) : f ∈ g.check := by
  refine List.mem_append_left _ (List.mem_append_left _ ?_)
  exact List.mem_flatMap.2 ⟨(name, c), Table.get?_eq_some_iff.1 h, hf⟩

/-- Components have installers if no lack of one is found. -/
theorem installed_of_check
    (h : ∀ f ∈ g.check, f.diagnostic.code ≠ .emptyComponentInstaller) : g.Installed := by
  intro name hname
  obtain ⟨c, hc⟩ := Option.isSome_iff_exists.1 hname
  cases hinstaller : g.effectiveInstaller name with
  | some installer => exact ⟨installer, rfl⟩
  | none =>
    have hfound : Finding.about (.component name) .emptyComponentInstaller [] ∈ g.check := by
      refine mem_check_of_component hc (List.mem_append_left _ ?_)
      rw [checkInstaller, hinstaller]
      exact List.mem_singleton_self _
    exact absurd rfl (h _ hfound)

theorem severe_unresolvedCode (owner : String) : (g.unresolvedCode owner).isSevere = true := by
  rw [unresolvedCode]
  split <;> rfl

theorem contains_of_find? {owner : String} (h : (g.find? owner).isSome = true) :
    g.components.contains owner ∨ g.facets.contains owner := by
  rw [find?, Option.isSome_or, Option.isSome_map, Option.isSome_map, Bool.or_eq_true] at h
  exact h

/-- Imports that are all qualified are supplied if nothing severe is found. -/
theorem supplied_of_check (h : ∀ f ∈ g.check, f.diagnostic.isSevere = false)
    (hqualified : ∀ name c, g.component? name = some c →
      ∀ v ∈ c.imports.values, ∃ owner key, v.split = some (owner, key)) : g.Supplied := by
  intro name c hc v hv hoptional hexternal
  obtain ⟨owner, key, hsplit⟩ := hqualified name c hc v hv
  have hresolves : g.resolves owner key = true := by
    by_contra hnot
    have hfound : Finding.about (.component name) (g.unresolvedCode owner) [⟨.variable, v.name⟩] ∈
        g.check := by
      refine mem_check_of_component hc (List.mem_append_right _ (List.mem_flatMap.2 ⟨v, hv, ?_⟩))
      rw [checkImport, hoptional, hexternal, hsplit]
      exact (if_neg hnot).symm ▸ List.mem_singleton_self _
    have hmild : (g.unresolvedCode owner).isSevere = false := h _ hfound
    rw [severe_unresolvedCode] at hmild
    exact Bool.noConfusion hmild
  rw [resolves, Bool.and_eq_true, Bool.or_eq_true, beq_iff_eq] at hresolves
  exact ⟨owner, key, hsplit, contains_of_find? hresolves.1, hresolves.2⟩

end TypeGraph

/-! ### Forests -/

namespace Forest

/-- Every instance has a component of the graph. -/
def Known (f : Forest) (g : TypeGraph) : Prop :=
  ∀ id ∈ f.all, ∃ body, f.get? id = some body ∧ g.components.contains body.component

/-- No two instances have the same path. -/
def DistinctPaths (f : Forest) : Prop :=
  ∀ i ∈ f.all, ∀ j ∈ f.all, f.path i = f.path j → i = j

/-- Instances stand where their components may: at a root if the component is a root of the graph,
    below another instance if its component has the component as an effective child. -/
structure Fits (f : Forest) (g : TypeGraph) : Prop where
  roots : ∀ id ∈ f.roots, ∃ body, f.get? id = some body ∧ body.component ∈ g.roots.toList
  children : ∀ parent ∈ f.all, ∀ id ∈ f.children parent, ∃ above body,
    f.get? parent = some above ∧ f.get? id = some body ∧
      body.component ∈ (g.effectiveChildren above.component).toList

variable {f : Forest} {g : TypeGraph}

theorem isWellPlaced_of_check
    (h : ∀ e ∈ f.check g, e.diagnostic.code ≠ .invalidInstanceParent) {id : Nat}
    {body : Instance} (hid : id ∈ f.all) (hbody : f.get? id = some body)
    (hknown : g.components.contains body.component = true) : f.isWellPlaced g id body = true := by
  by_contra hnot
  have hfound : Finding.about (.instanceAt (f.path id)) .invalidInstanceParent
      [⟨.component, body.component⟩] ∈ f.check g := by
    refine List.mem_flatMap.2 ⟨id, hid, ?_⟩
    rw [hbody]
    dsimp only
    rw [if_pos hknown, checkInstance, if_neg hnot]
    exact List.mem_append_left _ (List.mem_singleton_self _)
  exact h _ hfound rfl

/-- Instances of known components stand where these may if no wrong place is found. -/
theorem fits_of_check (hshape : f.TreeShaped) (hknown : f.Known g)
    (h : ∀ e ∈ f.check g, e.diagnostic.code ≠ .invalidInstanceParent) : f.Fits g := by
  constructor
  case roots =>
    intro id hid
    have hall := hshape.mem_all_of_mem_roots hid
    obtain ⟨body, hbody, hcomponent⟩ := hknown id hall
    have hplaced := isWellPlaced_of_check h hall hbody hcomponent
    rw [isWellPlaced, hshape.parent?_of_mem_roots hid] at hplaced
    exact ⟨body, hbody, List.contains_iff_mem.1 hplaced⟩
  case children =>
    intro parent hall id hid
    have hparent : f.parent? id = some parent := hshape.hasParent_iff.2 hid
    have hbelow := (hshape.mem_all_iff_of_parent hparent).2 hall
    obtain ⟨body, hbody, hcomponent⟩ := hknown id hbelow
    obtain ⟨above, habove, -⟩ := hknown parent hall
    have hplaced := isWellPlaced_of_check h hbelow hbody hcomponent
    rw [isWellPlaced, hparent] at hplaced
    dsimp only at hplaced
    rw [habove] at hplaced
    exact ⟨above, body, habove, hbody, List.contains_iff_mem.1 hplaced⟩

end Forest

end Deployment
