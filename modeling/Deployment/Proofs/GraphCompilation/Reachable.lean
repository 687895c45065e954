import Deployment.Proofs.GraphCompilation.Modes
import Mathlib.Order.WellFoundedSet

/-!
# Where types hang

In a graph that holds together every type can be traced back, from child to parent, to one that
nothing has as a child (`HoldsTogether.hangsOn`): the containment of finitely many types has no
cycle, so that going up ends.

If a component is at the top, it is a root. But a facet may be there too: its children become those
of the components that carry it, which are no parents of the facet itself. So what a clean
compilation guarantees is that every component is below a root or below a facet that is nobody's
child (`compile_hangsOn`), and it does not guarantee more (`not_rooted_borrowing`).
-/

namespace Deployment

namespace TypeGraph

variable {g : TypeGraph} {a b : String}

/-- The name of a component or of a facet. -/
def Declares (g : TypeGraph) (name : String) : Prop :=
  g.components.contains name ∨ g.facets.contains name

/-- Only what is declared has children. -/
theorem HasChild.declares (h : g.HasChild a b) : g.Declares a := by
  rcases h with ⟨c, hc, -⟩ | ⟨f, hf, -⟩
  · exact .inl (Option.isSome_of_eq_some hc)
  · exact .inr (Option.isSome_of_eq_some hf)

theorem finite_declares (g : TypeGraph) : {name | g.Declares name}.Finite := by
  have hnames : {name | g.Declares name} = {name | name ∈ g.components.keys ++ g.facets.keys} := by
    ext name
    simp only [Declares, Set.mem_ofPred_eq, List.mem_append, Table.contains_iff]
  rw [hnames]
  exact List.finite_toSet _

/-- Going up from parent to parent ends, as finitely many types have no cycle. -/
theorem HoldsTogether.wellFoundedOn_hasChild (h : g.HoldsTogether) :
    {name | g.Declares name}.WellFoundedOn (Relation.TransGen g.HasChild) := by
  have : IsTrans String (Relation.TransGen g.HasChild) := ⟨fun _ _ _ => Relation.TransGen.trans⟩
  have : Std.Irrefl (Relation.TransGen g.HasChild) := ⟨h.hasChild_acyclic⟩
  have : IsStrictOrder String (Relation.TransGen g.HasChild) := {}
  exact g.finite_declares.wellFoundedOn

/-- A root, or a facet that nothing has as a child. -/
def IsTop (g : TypeGraph) (name : String) : Prop :=
  name ∈ g.roots.toList ∨ g.facets.contains name ∧ ∀ a, ¬g.HasChild a name

/-- Whether a type can be reached from the top by going from types to their children. -/
def HangsOn (g : TypeGraph) (name : String) : Prop :=
  ∃ top, g.IsTop top ∧ Relation.ReflTransGen g.HasChild top name

/-- A type without parent is at the top. -/
theorem HoldsTogether.isTop (h : g.HoldsTogether) {name : String} (hname : g.Declares name)
    (hparent : ∀ a, ¬g.HasChild a name) : g.IsTop name :=
  hname.imp (fun hcomponent => (h.roots name).2 ⟨hcomponent, hparent⟩) fun hfacet =>
    ⟨hfacet, hparent⟩

/-- Every type hangs below the top. -/
theorem HoldsTogether.hangsOn (h : g.HoldsTogether) {name : String} (hname : g.Declares name) :
    g.HangsOn name := by
  refine h.wellFoundedOn_hasChild.induction (P := g.HangsOn) hname fun name hname ih => ?_
  by_cases hparent : ∃ a, g.HasChild a name
  · obtain ⟨a, ha⟩ := hparent
    obtain ⟨top, htop, hreaches⟩ := ih a ha.declares (.single ha)
    exact ⟨top, htop, hreaches.tail ha⟩
  · exact ⟨name, h.isTop hname (not_exists.1 hparent), .refl⟩

end TypeGraph

namespace GraphCompilation

variable {loader : Loader} {root dir : Path} {c : GraphCompilation}

/-- Every component of a graph that was compiled without a diagnostic can be reached from a root, or
    from a facet that nothing has as a child, by going from types to their children. -/
theorem compile_hangsOn (h : compile loader Block.check root dir false = .ok c)
    (hclean : c.diagnostics = []) :
    ∀ name, c.graph.components.contains name → c.graph.HangsOn name := by
  obtain ⟨closure, -, rfl⟩ := exists_of_map_eq_ok h
  have htogether := holdsTogether_ofClosure (.inr (isSevere_of_clean hclean))
  exact fun name hname => htogether.hangsOn (.inl hname)

/-- A machine without children of its own, which carries a facet that has one. -/
def borrowing : FileDefinition :=
  let site : Site := ⟨⟨"borrowing.graph"⟩, 1⟩
  .ofBlocks ⟨"borrowing.graph"⟩
    [.declaration site .facet "host" [.property site "children" "App"],
      .declaration site .component "VM"
        [.property site "installer" "target", .property site "facets" "host"],
      .declaration site .component "App" [.property site "installer" "script"]]

/-- The compilation of the machine and its application. -/
def borrowed : GraphCompilation := ofClosure false (.single Block.check .types borrowing)

theorem compile_borrowing :
    compile (FileStore.empty.insert borrowing).loader Block.check borrowing.file ⟨""⟩ false =
      .ok borrowed :=
  compile_single rfl Block.check ⟨""⟩ false

theorem diagnostics_borrowed : borrowed.diagnostics = [] := by decide +kernel

theorem compile_hangsOn_borrowing :
    compile (FileStore.empty.insert borrowing).loader Block.check borrowing.file ⟨""⟩ false =
        .ok borrowed ∧
      borrowed.diagnostics = [] ∧
      ∀ name, borrowed.graph.components.contains name → borrowed.graph.HangsOn name :=
  ⟨compile_borrowing, diagnostics_borrowed,
    compile_hangsOn compile_borrowing diagnostics_borrowed⟩

/-- The machine is the only root, and the application is no child of it, but of its facet. -/
theorem not_rooted_borrowing :
    ∃ c, compile (FileStore.empty.insert borrowing).loader Block.check borrowing.file ⟨""⟩ false =
        .ok c ∧
      c.diagnostics = [] ∧ c.graph.components.contains "App" ∧
      ∀ top ∈ c.graph.roots.toList, ¬Relation.ReflTransGen c.graph.HasChild top "App" := by
  refine ⟨borrowed, compile_borrowing, diagnostics_borrowed, by decide +kernel, ?_⟩
  have hroots : borrowed.graph.roots.toList = ["VM"] := by decide +kernel
  have hmachine : (borrowed.graph.component? "VM").map (·.children.toList) = some [] := by
    decide +kernel
  have hfacet : borrowed.graph.facet? "VM" = none := by rfl
  intro top htop hreaches
  rw [hroots, List.mem_singleton] at htop
  subst htop
  rcases hreaches.cases_head with heq | ⟨child, ⟨m, hm, hchild⟩ | ⟨f, hf, -⟩, -⟩
  · exact absurd heq (by decide)
  · rw [hm, Option.map_some, Option.some.injEq] at hmachine
    exact absurd (hmachine ▸ hchild) List.not_mem_nil
  · exact nomatch hfacet.symm.trans hf

end GraphCompilation

end Deployment
