import Deployment.Proofs.Catalogue.Sites
import Deployment.Proofs.GraphCompilation.Clean
import Deployment.Proofs.TypeGraph

/-!
# The order of declarations

What is compiled depends on what is declared, not on where: neither on the order of the
declarations nor on the files that they stand in. A type may mention one that is declared later, and
although the walk through the declarations decides which cycle is found first, whether there is one
does not depend on it.

* `Block.typeDeclarations`: what some blocks declare, places aside;
* `Catalogue.Sound.of_perm`, `Catalogue.Sound.same_graph`: the same declarations in another order;
* `compile_perm`: compilations of the same declarations.
-/

namespace Deployment

namespace Block

/-- What a block declares as a type: its kind, its name and its properties. -/
def typeDeclaration? : Block → Option (DeclarationKind × String × List (String × String))
  | .declaration _ .component name inner => some (.component, name, properties inner)
  | .declaration _ .facet name inner => some (.facet, name, properties inner)
  | _ => none

/-- What some blocks declare as types, places aside. -/
def typeDeclarations (bs : List Block) :
    List (DeclarationKind × String × List (String × String)) :=
  bs.filterMap typeDeclaration?

/-- The component that such a declaration describes, with its name. -/
def describedComponent :
    DeclarationKind × String × List (String × String) → Option (String × Component)
  | (.component, name, properties) =>
    some (name, properties.foldl Component.addProperty (.named name))
  | _ => none

/-- The facet that such a declaration describes, with its name. -/
def describedFacet : DeclarationKind × String × List (String × String) → Option (String × Facet)
  | (.facet, name, properties) => some (name, properties.foldl Facet.addProperty (.named name))
  | _ => none

theorem declaredComponents_eq (bs : List Block) :
    declaredComponents bs = (typeDeclarations bs).filterMap describedComponent := by
  rw [declaredComponents, typeDeclarations, List.filterMap_filterMap]
  refine List.filterMap_congr fun b _ => ?_
  cases b with
  | declaration site kind name inner => cases kind <;> rfl
  | importOf | property | comment | blank => rfl

theorem declaredFacets_eq (bs : List Block) :
    declaredFacets bs = (typeDeclarations bs).filterMap describedFacet := by
  rw [declaredFacets, typeDeclarations, List.filterMap_filterMap]
  refine List.filterMap_congr fun b _ => ?_
  cases b with
  | declaration site kind name inner => cases kind <;> rfl
  | importOf | property | comment | blank => rfl

variable {bs bs' : List Block}

/-- The same declarations describe the same components. -/
theorem declaredComponents_perm (h : (typeDeclarations bs).Perm (typeDeclarations bs')) :
    (declaredComponents bs).Perm (declaredComponents bs') := by
  rw [declaredComponents_eq, declaredComponents_eq]
  exact h.filterMap _

/-- The same declarations describe the same facets. -/
theorem declaredFacets_perm (h : (typeDeclarations bs).Perm (typeDeclarations bs')) :
    (declaredFacets bs).Perm (declaredFacets bs') := by
  rw [declaredFacets_eq, declaredFacets_eq]
  exact h.filterMap _

end Block

namespace Catalogue

variable {bs bs' : List Block} {name : String}

/-- Without repetitions, a catalogue describes what is declared. -/
theorem component?_eq_some_iff (h : (ofBlocks bs).repetitions = []) {c : Component} :
    (ofBlocks bs).component? name = some c ↔ (name, c) ∈ Block.declaredComponents bs := by
  rw [← entries_components_graph (repetitions_eq_nil_iff.1 h).1, ← component?_graph]
  exact Table.get?_eq_some_iff

theorem facet?_eq_some_iff (h : (ofBlocks bs).repetitions = []) {f : Facet} :
    (ofBlocks bs).facet? name = some f ↔ (name, f) ∈ Block.declaredFacets bs := by
  rw [← entries_facets_graph (repetitions_eq_nil_iff.1 h).2, ← facet?_graph]
  exact Table.get?_eq_some_iff

theorem repetitions_of_perm (hperm : (Block.typeDeclarations bs).Perm (Block.typeDeclarations bs'))
    (h : (ofBlocks bs).repetitions = []) : (ofBlocks bs').repetitions = [] := by
  rw [repetitions_eq_nil_iff] at h ⊢
  exact ⟨((Block.declaredComponents_perm hperm).map _).nodup_iff.1 h.1,
    ((Block.declaredFacets_perm hperm).map _).nodup_iff.1 h.2⟩

/-- The same declarations, none of them repeated, are described alike in any order. -/
theorem lookups_of_perm (hperm : (Block.typeDeclarations bs).Perm (Block.typeDeclarations bs'))
    (h : (ofBlocks bs).repetitions = []) :
    (ofBlocks bs).component? = (ofBlocks bs').component? ∧
      (ofBlocks bs).facet? = (ofBlocks bs').facet? := by
  have h' := repetitions_of_perm hperm h
  constructor
  · funext name
    refine Option.ext fun c => ?_
    rw [component?_eq_some_iff h, component?_eq_some_iff h']
    exact (Block.declaredComponents_perm hperm).mem_iff
  · funext name
    refine Option.ext fun f => ?_
    rw [facet?_eq_some_iff h, facet?_eq_some_iff h']
    exact (Block.declaredFacets_perm hperm).mem_iff

theorem collisions_eq_nil_iff_lookups {c : Catalogue} :
    c.collisions = [] ↔ ∀ n, c.component? n ≠ none → c.facet? n = none := by
  rw [collisions_eq_nil_iff]
  refine forall_congr' fun n => ?_
  rw [component?, facet?, Ne, Option.map_eq_none_iff, Option.map_eq_none_iff,
    Table.get?_eq_none_iff, Table.get?_eq_none_iff, not_not]

variable {c d : Catalogue}

/-- The roots are determined by what a catalogue describes under every name. -/
theorem mem_roots_congr (hcomponents : d.component? = c.component?) (hfacets : d.facet? = c.facet?)
    (n : String) : n ∈ d.graph.roots.toList ↔ n ∈ c.graph.roots.toList := by
  have hchild : d.graph.HasChild = c.graph.HasChild := by
    funext a b
    rw [TypeGraph.HasChild, TypeGraph.HasChild, component?_graph, component?_graph, facet?_graph,
      facet?_graph, hcomponents, hfacets]
  rw [mem_roots_graph, mem_roots_graph, hchild, contains_components_graph,
    contains_components_graph, hcomponents]

/-- Whether the types hold together is determined by what a catalogue describes under every name. -/
theorem holdsTogether_congr (hcomponents : d.component? = c.component?)
    (hfacets : d.facet? = c.facet?) (h : c.graph.HoldsTogether) : d.graph.HoldsTogether := by
  refine h.congr ?_ ?_ ?_ ?_ ?_ ?_ (mem_roots_congr hcomponents hfacets)
  · intro n
    rw [contains_components_graph, contains_components_graph, hcomponents]
  · intro n
    rw [contains_facets_graph, contains_facets_graph, hfacets]
  · funext a b
    rw [TypeGraph.ExtendsComponent, TypeGraph.ExtendsComponent, component?_graph, component?_graph,
      hcomponents]
  · funext a b
    rw [TypeGraph.ExtendsFacet, TypeGraph.ExtendsFacet, facet?_graph, facet?_graph, hfacets]
  · funext a b
    rw [TypeGraph.Carries, TypeGraph.Carries, component?_graph, component?_graph, hcomponents]
  · funext a b
    rw [TypeGraph.HasChild, TypeGraph.HasChild, component?_graph, component?_graph, facet?_graph,
      facet?_graph, hcomponents, hfacets]

/-- Declarations are sound in any order. -/
theorem Sound.of_perm (hperm : (Block.typeDeclarations bs).Perm (Block.typeDeclarations bs'))
    (h : (ofBlocks bs).Sound) : (ofBlocks bs').Sound := by
  obtain ⟨hcomponents, hfacets⟩ := lookups_of_perm hperm h.repetitions
  constructor
  case collisions =>
    have hcollisions := collisions_eq_nil_iff_lookups.1 h.collisions
    rw [hcomponents, hfacets] at hcollisions
    exact collisions_eq_nil_iff_lookups.2 hcollisions
  case repetitions => exact repetitions_of_perm hperm h.repetitions
  case together => exact holdsTogether_congr hcomponents.symm hfacets.symm h.together

/-- In any order, sound declarations describe the same graph. -/
theorem Sound.same_graph (hperm : (Block.typeDeclarations bs).Perm (Block.typeDeclarations bs'))
    (h : (ofBlocks bs).Sound) : (ofBlocks bs).graph.same (ofBlocks bs').graph = true := by
  obtain ⟨hcomponents, hfacets⟩ := lookups_of_perm hperm h.repetitions
  refine TypeGraph.same_of_lookups ?_ ?_ (mem_roots_congr hcomponents hfacets)
  · rw [component?_graph, component?_graph, hcomponents]
  · rw [facet?_graph, facet?_graph, hfacets]

end Catalogue

namespace GraphCompilation

variable {loader loader' : Loader} {check : BlockCheck} {root root' dir dir' : Path}
  {closure closure' : Closure}

/-- Whether a strict compilation of files without severe diagnostics finds anything severe depends
    on what the files declare only. -/
theorem isSevere_of_perm
    (hperm : (Block.typeDeclarations closure.blocks).Perm (Block.typeDeclarations closure'.blocks))
    (hmild' : Diagnostic.anySevere closure'.diagnostics = false)
    (h : (ofClosure false closure).isSevere = false) :
    (ofClosure false closure').isSevere = false := by
  obtain ⟨-, hsound⟩ := isSevere_ofClosure_eq_false_iff.1 h
  exact isSevere_ofClosure_eq_false_iff.2 ⟨hmild', hsound.of_perm hperm⟩

/-- Files in which nothing severe is found, and which declare the same types in any order and in any
    files, compile alike: something severe is found in both compilations or in neither, and if in
    neither, their graphs are the same. -/
theorem compile_perm (hwalk : Closure.walk loader check .types root dir = .ok closure)
    (hwalk' : Closure.walk loader' check .types root' dir' = .ok closure')
    (hmild : Diagnostic.anySevere closure.diagnostics = false)
    (hmild' : Diagnostic.anySevere closure'.diagnostics = false)
    (hperm :
      (Block.typeDeclarations closure.blocks).Perm (Block.typeDeclarations closure'.blocks)) :
    ∃ c c', compile loader check root dir false = .ok c ∧
      compile loader' check root' dir' false = .ok c' ∧
      c.isSevere = c'.isSevere ∧ (c.isSevere = false → c.graph.same c'.graph = true) := by
  have hcompile : ∀ {loader : Loader} {root dir : Path} {closure : Closure},
      Closure.walk loader check .types root dir = .ok closure →
        compile loader check root dir false = .ok (ofClosure false closure) := by
    intro loader root dir closure h
    rw [compile, h]
    rfl
  refine ⟨_, _, hcompile hwalk, hcompile hwalk', ?_, fun hnone => ?_⟩
  · rw [← Bool.not_inj_iff, Bool.eq_iff_iff, Bool.not_eq_true', Bool.not_eq_true']
    exact ⟨isSevere_of_perm hperm hmild', isSevere_of_perm hperm.symm hmild⟩
  · have hnone' := isSevere_of_perm hperm hmild' hnone
    rw [ofClosure_graph_of_mild hnone, ofClosure_graph_of_mild hnone']
    exact (isSevere_ofClosure_eq_false_iff.1 hnone).2.same_graph hperm

/-- A machine that may carry an application. -/
def machineAt (site : Site) : Block :=
  .declaration site .component "VM" [.property site "children" "App"]

/-- The application. -/
def applicationAt (site : Site) : Block := .declaration site .component "App" []

/-- Both in one file, the machine first. -/
def together : FileDefinition :=
  let file : Path := ⟨"together.graph"⟩
  .ofBlocks file [machineAt ⟨file, 1⟩, applicationAt ⟨file, 4⟩]

/-- The application in a file that imports the one of the machine. -/
def apart : FileStore :=
  let first : Path := ⟨"applications.graph"⟩
  let second : Path := ⟨"machines.graph"⟩
  (FileStore.empty.insert (.ofBlocks first
    [.importOf ⟨first, 1⟩ "machines.graph", applicationAt ⟨first, 2⟩])).insert
      (.ofBlocks second [machineAt ⟨second, 1⟩])

theorem compile_perm_apart :
    ∃ c c',
      compile (FileStore.empty.insert together).loader Block.check together.file ⟨""⟩ false =
        .ok c ∧
      compile apart.loader Block.check ⟨"applications.graph"⟩ ⟨""⟩ false = .ok c' ∧
      c.isSevere = false ∧ c'.isSevere = false ∧ c.graph.same c'.graph = true := by
  have hwalk := FileStore.walk_single together Block.check .types ⟨""⟩ rfl
  obtain ⟨closure', hwalk', hmild', hperm⟩ : ∃ closure',
      Closure.walk apart.loader Block.check .types ⟨"applications.graph"⟩ ⟨""⟩ = .ok closure' ∧
        Diagnostic.anySevere closure'.diagnostics = false ∧
        (Block.typeDeclarations (Closure.single Block.check .types together).blocks).Perm
          (Block.typeDeclarations (Closure.blocks closure')) :=
    ⟨_, rfl, rfl, List.Perm.swap _ _ _⟩
  obtain ⟨c, c', hc, hc', hsevere, hsame⟩ := compile_perm hwalk hwalk' rfl hmild' hperm
  have hnone : c.isSevere = false := by
    obtain rfl := Except.ok.inj (hc.symm.trans (compile_single rfl Block.check ⟨""⟩ false))
    rfl
  exact ⟨c, c', hc, hc', hnone, hsevere ▸ hnone, hsame hnone⟩

end GraphCompilation

end Deployment
