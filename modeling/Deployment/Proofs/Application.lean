import Deployment.Application
import Deployment.Proofs.Diagnostic.Order
import Deployment.Proofs.GraphCompilation.Modes
import Deployment.Proofs.InstanceCompilation.Sound
import Deployment.Proofs.Write.Types

/-!
# Applications without severe diagnostics

An application that is loaded without severe diagnostics can be relied on: its types hold together
and its instances stand where they may, although the steps of loading are conditional on each other
and the report leaves things out.

A report for a recipe leaves out what makes no sense there. What it leaves out may be severe, and if
a file itself carries such a diagnostic, a strict compilation passes over the file, or does not make
the checks that would follow, and the report tells nothing about it (`loadDescribed_masked`). This
is the only way in which a part of an application may be wrong unnoticed.

* `anySevere_report_eq_false_iff`: what a report without severe diagnostics says about everything
  that was found;
* `TypesCarry`, `FilesCarry`: what the files of an application carry;
* `loadDescribed_sound`: what an application without severe diagnostics guarantees.
-/

namespace Deployment

/-! ### Results of steps -/

/-- What comes of two steps comes of a success of the first. -/
theorem exists_of_bind_eq_ok {ε α β : Type} {x : Except ε α} {f : α → Except ε β} {b : β}
    (h : (x >>= f) = .ok b) : ∃ a, x = .ok a ∧ f a = .ok b := by
  cases x with
  | error e => exact nomatch h
  | ok a => exact ⟨a, rfl, h⟩

theorem exists_of_any_toOption {ε α : Type} {x : Except ε α} {p : α → Bool}
    (h : x.toOption.any p = true) : ∃ a, x = .ok a ∧ p a = true := by
  cases x with
  | error e => exact nomatch h
  | ok a => exact ⟨a, rfl, h⟩

/-! ### Imports -/

theorem ImportedVariable.exists_split {v : ImportedVariable} (h : isQualified v.name = true) :
    ∃ owner key, v.split = some (owner, key) := by
  rw [isQualified] at h
  split at h
  · next owner key hcut => exact ⟨owner, key, hcut⟩
  · exact nomatch h

theorem Component.importsValid_ofBlocks (name : String) (inner : List Block) :
    ImportsValid (ofBlocks name inner).imports := by
  have hnone : ImportsValid (named name).imports := Table.filed_empty
  refine List.foldlRecOn (motive := fun c : Component => ImportsValid c.imports) _ _ hnone
    fun c hc p _ => ?_
  unfold addProperty
  split
  case h_5 => exact importsValid_importsOf hc _
  all_goals exact hc

/-- Whatever is imported in a graph as it was declared is qualified. -/
theorem Catalogue.exists_split_of_graph {bs : List Block} {name : String} {c : Component}
    (h : (ofBlocks bs).graph.component? name = some c) {v : ImportedVariable}
    (hv : v ∈ c.imports.values) : ∃ owner key, v.split = some (owner, key) := by
  rw [component?_graph, component?_ofBlocks] at h
  obtain ⟨site, inner, -, rfl⟩ := exists_of_firstComponent h
  have hvalid := Component.importsValid_ofBlocks name inner
  exact ImportedVariable.exists_split (hvalid.of_mem_values hv)

namespace Application

variable {loader : Loader} {project : Path} {d : Descriptor} {a b : Application}
  {options : CompileOptions}

/-! ### Reports -/

/-- Whatever severe there is in a list is left out of the report, as it makes no sense for a
    recipe. -/
def Excused (options : CompileOptions) (ds : List Diagnostic) : Prop :=
  ∀ e ∈ ds, e.isSevere = true → options.recipe = true ∧ e.code ∈ Diagnostic.recipeIrrelevant

/-- A report has nothing severe exactly if whatever severe was found is left out. -/
theorem anySevere_report_eq_false_iff {ds : List Diagnostic} :
    Diagnostic.anySevere (report options ds) = false ↔ Excused options ds := by
  rw [Diagnostic.anySevere_eq_false, report, Excused]
  cases options.recipe with
  | false => simp [Diagnostic.mem_sorted]
  | true =>
    simp only [if_true, Diagnostic.mem_sorted, Diagnostic.forRecipe, Diagnostic.without,
      List.mem_filter, Bool.not_eq_true', and_imp, true_and]
    refine forall₂_congr fun e _ => ?_
    rw [← Bool.not_eq_true, ← Bool.not_eq_true, not_imp_not, List.contains_iff_mem]

/-- What makes no sense for a recipe is found by the checks of models. -/
theorem family_of_mem_recipeIrrelevant {code : Code} (h : code ∈ Diagnostic.recipeIrrelevant) :
    code.family = .runtimeModel := by
  revert code
  decide

namespace Excused

variable {ds : List Diagnostic}

theorem code_ne (h : Excused options ds) {code : Code} (hsevere : code.isSevere = true)
    (hnot : code ∉ Diagnostic.recipeIrrelevant) : ∀ e ∈ ds, e.code ≠ code := by
  rintro e he rfl
  exact hnot (h e he hsevere).2

theorem no_conversion (h : Excused options ds) : ∀ e ∈ ds, e.code.family ≠ .conversion := by
  intro e he hfamily
  have hleft := (h e he (Code.isSevere_of_conversion hfamily)).2
  exact nomatch hfamily.symm.trans (family_of_mem_recipeIrrelevant hleft)

theorem mild (h : Excused options ds) (hrecipe : options.recipe = false) :
    Diagnostic.anySevere ds = false := by
  refine Diagnostic.anySevere_eq_false.2 fun e he => ?_
  by_contra hsevere
  exact nomatch hrecipe.symm.trans (h e he (Bool.eq_true_of_not_eq_false hsevere)).1

end Excused

/-! ### Steps of loading -/

/-- An application before it is compiled. -/
def described (d : Descriptor) : Application := { unknown [] with descriptor := some d }

/-- The application with its instances, if it has any. -/
def withInstances (loader : Loader) (project : Path) (d : Descriptor) (a : Application) :
    Except LoadFailure Application :=
  match d.instanceFile project with
  | none => .ok a
  | some file => loadInstances loader d.options (Descriptor.instanceDirectory project) a file

/-- Loading ends without types, or goes on to instances and checks. -/
theorem loadDescribed_cases (h : loadDescribed loader project d = .ok a) :
    a.diagnostics = report d.options [⟨.missingGraphEp, [.file (d.graphFile project)]⟩] ∨
      ∃ types built,
        GraphCompilation.compile loader Block.check (d.graphFile project)
          (Descriptor.graphDirectory project) d.options.flexible = .ok types ∧
        withInstances loader project d ((described d).addTypes types) = .ok built ∧
        a = (built.checkModels d.options).finish d.options := by
  rw [loadDescribed] at h
  dsimp only at h
  split at h
  · left
    rw [← Except.ok.inj h]
    rfl
  · right
    obtain ⟨types, htypes, h⟩ := exists_of_bind_eq_ok h
    refine ⟨types, ?_⟩
    rw [withInstances]
    cases hfile : d.instanceFile project with
    | none =>
      rw [hfile] at h
      exact ⟨_, htypes, rfl, (Except.ok.inj h).symm⟩
    | some file =>
      rw [hfile] at h
      obtain ⟨built, hbuilt, h⟩ := exists_of_bind_eq_ok h
      exact ⟨built, htypes, hbuilt, (Except.ok.inj h).symm⟩

/-- Further diagnostics. -/
def noteAll (a : Application) (notes : List Diagnostic) : Application :=
  { a with diagnostics := a.diagnostics ++ notes }

theorem noteAll_nil (a : Application) : a.noteAll [] = a := by
  rw [noteAll, List.append_nil]

theorem note_noteAll (a : Application) (notes : List Diagnostic) (e : Diagnostic) :
    (a.noteAll notes).note e = a.noteAll (notes ++ [e]) := by
  rw [noteAll, noteAll, note, List.append_assoc]

/-- The instances are those of a file, or there are none. What is noted besides is that there is no
    such file, or that a recipe has instances. -/
theorem withInstances_cases (h : withInstances loader project d a = .ok b) :
    ∃ notes, (∀ e ∈ notes, e.code = .unexpectedInstances ∨ e.code = .missingInstanceEp) ∧
      (b = a.noteAll notes ∨ ∃ file c, d.instanceFile project = some file ∧
        loader.has file = true ∧
        InstanceCompilation.compile loader Block.check a.graph file
          (Descriptor.instanceDirectory project) = .ok c ∧
        b = (a.noteAll notes).addInstances c) := by
  rw [withInstances] at h
  split at h
  · cases h
    exact ⟨[], fun e he => absurd he List.not_mem_nil, .inl a.noteAll_nil.symm⟩
  · next file hfile =>
    rw [loadInstances] at h
    -- The instances of a recipe are noted first.
    have hrecipe : ∃ notes,
        (∀ e ∈ notes, e.code = .unexpectedInstances ∨ e.code = .missingInstanceEp) ∧
        (if d.options.recipe then a.note ⟨.unexpectedInstances, [.file file]⟩ else a) =
          a.noteAll notes := by
      split
      · refine ⟨[⟨.unexpectedInstances, [.file file]⟩], fun e he => ?_, rfl⟩
        exact .inl (by rw [List.mem_singleton.1 he])
      · exact ⟨[], fun e he => absurd he List.not_mem_nil, a.noteAll_nil.symm⟩
    obtain ⟨notes, hcodes, hnoted⟩ := hrecipe
    rw [hnoted] at h
    split at h
    · cases h
      refine ⟨notes ++ [⟨.missingInstanceEp, [.file file]⟩], fun e he => ?_,
        .inl (a.note_noteAll notes _)⟩
      rcases List.mem_append.1 he with he | he
      · exact hcodes e he
      · exact .inr (by rw [List.mem_singleton.1 he])
    · next hhas =>
      rw [Bool.not_eq_true', Bool.not_eq_false] at hhas
      split at h
      · obtain ⟨c, hc, rfl⟩ := exists_of_map_eq_ok h
        exact ⟨notes, hcodes, .inr ⟨file, c, hfile, hhas, hc, rfl⟩⟩
      · cases h
        exact ⟨notes, hcodes, .inl rfl⟩

/-- The application with its types, before anything is known about its instances, and after. The
    instances are those of a compilation, or there are none. -/
structure Extends (loader : Loader) (project : Path) (d : Descriptor) (a b : Application) :
    Prop where
  graph : b.graph = a.graph
  subset : a.diagnostics ⊆ b.diagnostics
  instances : b.forest = a.forest ∨ ∃ file c, d.instanceFile project = some file ∧
    InstanceCompilation.compile loader Block.check a.graph file
      (Descriptor.instanceDirectory project) = .ok c ∧
    b.forest = c.forest ∧ c.diagnostics ⊆ b.diagnostics
  found : ∀ e ∈ b.diagnostics, e ∈ a.diagnostics ∨
    e.code = .unexpectedInstances ∨ e.code = .missingInstanceEp ∨
    ∃ file c, d.instanceFile project = some file ∧
      InstanceCompilation.compile loader Block.check a.graph file
        (Descriptor.instanceDirectory project) = .ok c ∧ e ∈ c.diagnostics

/-- An application with its instances extends the one before. -/
theorem extends_of_withInstances (h : withInstances loader project d a = .ok b) :
    Extends loader project d a b := by
  obtain ⟨notes, hcodes, rfl | ⟨file, c, hfile, -, hc, rfl⟩⟩ := withInstances_cases h
  · refine ⟨rfl, List.subset_append_left _ _, .inl rfl, fun e he => ?_⟩
    rcases List.mem_append.1 he with he | he
    · exact .inl he
    · exact .inr ((hcodes e he).imp_right .inl)
  · refine ⟨rfl, fun e he => ?_, .inr ⟨file, c, hfile, hc, rfl, List.subset_append_right _ _⟩,
      fun e he => ?_⟩
    · exact List.mem_append_left _ (List.mem_append_left _ he)
    · rcases List.mem_append.1 he with he | he
      · rcases List.mem_append.1 he with he | he
        · exact .inl he
        · exact .inr ((hcodes e he).imp_right .inl)
      · exact .inr (.inr (.inr ⟨file, c, hfile, hc, he⟩))

theorem graph_checkModels (a : Application) : (a.checkModels options).graph = a.graph := by
  rw [checkModels]
  split <;> rfl

theorem forest_checkModels (a : Application) : (a.checkModels options).forest = a.forest := by
  rw [checkModels]
  split <;> rfl

theorem subset_checkModels (a : Application) :
    a.diagnostics ⊆ (a.checkModels options).diagnostics := by
  rw [checkModels]
  split
  · exact List.subset_append_left _ _
  · exact List.Subset.refl _

/-- Where the checks are made, what they find is reported. -/
theorem findings_subset (h : goesOn options a = true) :
    a.findings ⊆ (a.checkModels options).diagnostics := by
  rw [checkModels, if_pos h]
  exact List.subset_append_right _ _

/-! ### What is guaranteed -/

/-- A file with the types of an application carries a diagnostic. -/
def TypesCarry (loader : Loader) (project : Path) (d : Descriptor) (e : Diagnostic) : Prop :=
  ∃ closure, Closure.walk loader Block.check .types (d.graphFile project)
    (Descriptor.graphDirectory project) = .ok closure ∧ e ∈ closure.carried

/-- A file of an application carries a diagnostic, be it one with types or one with instances. -/
def FilesCarry (loader : Loader) (project : Path) (d : Descriptor) (e : Diagnostic) : Prop :=
  TypesCarry loader project d e ∨
    ∃ file closure, d.instanceFile project = some file ∧
      Closure.walk loader Block.check .instances file (Descriptor.instanceDirectory project) =
        .ok closure ∧ e ∈ closure.carried

/-- If an application is a recipe and is compiled strictly, the files in question carry nothing
    severe that the report leaves out. -/
def Unmasked (options : CompileOptions) (carry : Diagnostic → Prop) : Prop :=
  options.recipe = true → options.flexible = false → ∀ e, carry e → e.isSevere = true →
    e.code ∉ Diagnostic.recipeIrrelevant

/-- Whatever is severe in a list is reported by a strict compilation if what is left out can only
    have been carried by files that carry nothing of the kind. -/
theorem Excused.mild_of_unmasked {ds : List Diagnostic} {carry : Diagnostic → Prop}
    (h : Excused options ds)
    (hcarried : ∀ e ∈ ds, e.code ∈ Diagnostic.recipeIrrelevant → carry e)
    (hunmasked : Unmasked options carry) (hstrict : options.flexible = false) :
    Diagnostic.anySevere ds = false := by
  refine Diagnostic.anySevere_eq_false.2 fun e he => ?_
  by_contra hsevere
  have hsevere := Bool.eq_true_of_not_eq_false hsevere
  obtain ⟨hrecipe, hcode⟩ := h e he hsevere
  exact hunmasked hrecipe hstrict e (hcarried e he hcode) hsevere hcode

variable {types : GraphCompilation}

/-- The instances of an application make trees. -/
theorem Extends.treeShaped (h : Extends loader project d ((described d).addTypes types) b) :
    b.forest.TreeShaped := by
  rcases h.instances with hforest | ⟨file, c, -, hc, hforest, -⟩
  · rw [hforest]
    exact Forest.treeShaped_empty
  · obtain ⟨closure, -, rfl⟩ := exists_of_map_eq_ok hc
    rw [hforest]
    exact InstanceCompilation.treeShaped_ofClosure _ closure

/-- If nothing severe is reported, the instances have known components and different paths. -/
theorem Extends.sound (h : Extends loader project d ((described d).addTypes types) b)
    (hexcused : Excused options b.diagnostics) :
    b.forest.Known b.graph ∧ b.forest.DistinctPaths := by
  rcases h.instances with hforest | ⟨file, c, -, hc, hforest, hsubset⟩
  · rw [hforest]
    exact ⟨fun _ hid => absurd hid List.not_mem_nil, fun _ hid => absurd hid List.not_mem_nil⟩
  · obtain ⟨closure, hwalk, rfl⟩ := exists_of_map_eq_ok hc
    rw [hforest, h.graph]
    exact InstanceCompilation.sound_of_no_conversion (Closure.visits_of_walk hwalk) fun e he =>
      hexcused.no_conversion e (hsubset he)

/-- What is found when types are compiled, although it belongs to the checks of models, was carried
    by a file. -/
theorem typesCarry_of_compile
    (htypes : GraphCompilation.compile loader Block.check (d.graphFile project)
      (Descriptor.graphDirectory project) d.options.flexible = .ok types) {e : Diagnostic}
    (he : e ∈ types.diagnostics) (hfamily : e.code.family = .runtimeModel) :
    TypesCarry loader project d e := by
  obtain ⟨closure, hwalk, rfl⟩ := exists_of_map_eq_ok htypes
  exact ⟨closure, hwalk,
    GraphCompilation.carried_of_runtimeModel (Closure.visits_of_walk hwalk) he hfamily⟩

/-- What is found before the checks of models, although it belongs to them, was carried by a
    file. -/
theorem Extends.filesCarry
    (htypes : GraphCompilation.compile loader Block.check (d.graphFile project)
      (Descriptor.graphDirectory project) d.options.flexible = .ok types)
    (h : Extends loader project d ((described d).addTypes types) b) {e : Diagnostic}
    (he : e ∈ b.diagnostics) (hfamily : e.code.family = .runtimeModel) :
    FilesCarry loader project d e := by
  rcases h.found e he with he | hnote | hnote | ⟨file, c, hfile, hc, he⟩
  · exact .inl (typesCarry_of_compile htypes he hfamily)
  · rw [hnote] at hfamily
    exact nomatch hfamily
  · rw [hnote] at hfamily
    exact nomatch hfamily
  · obtain ⟨closure, hwalk, rfl⟩ := exists_of_map_eq_ok hc
    exact .inr ⟨file, closure, hfile, hwalk, InstanceCompilation.carried_of_runtimeModel
      (Closure.visits_of_walk hwalk) he hfamily⟩

/-- What is compiled without severe diagnostics imports qualified variables. -/
theorem exists_split_of_compile
    (htypes : GraphCompilation.compile loader Block.check (d.graphFile project)
      (Descriptor.graphDirectory project) d.options.flexible = .ok types)
    (hmild : types.isSevere = false) :
    ∀ name c, types.graph.component? name = some c → ∀ v ∈ c.imports.values,
      ∃ owner key, v.split = some (owner, key) := by
  obtain ⟨closure, -, rfl⟩ := exists_of_map_eq_ok htypes
  have hstrict := GraphCompilation.ofClosure_of_not_severe hmild
  rw [hstrict] at hmild ⊢
  rw [GraphCompilation.ofClosure_graph_of_mild hmild]
  exact fun name c hc v hv => Catalogue.exists_split_of_graph hc hv

/-- Where the checks are made, whatever they find is found in the application, with its place. -/
theorem located_mem_checkModels (hgoes : goesOn options a = true) {f : Finding}
    (hf : f ∈ a.graph.check ++ a.forest.check a.graph) :
    f.located a.sourceMap ∈ (a.checkModels options).diagnostics :=
  findings_subset hgoes (List.mem_map_of_mem hf)

section Checked

variable
  (htypes : GraphCompilation.compile loader Block.check (d.graphFile project)
    (Descriptor.graphDirectory project) d.options.flexible = .ok types)
  (h : Extends loader project d ((described d).addTypes types) b)

include htypes h

/-- Unless an application is a recipe, whatever its components cannot do without is exported. -/
theorem Extends.supplied (hexcused : Excused d.options (b.checkModels d.options).diagnostics)
    (hrecipe : d.options.recipe = false) : b.graph.Supplied := by
  have hnone := hexcused.mild hrecipe
  have hbefore := Diagnostic.anySevere_of_subset (subset_checkModels b) hnone
  have hgoes : goesOn d.options b = true := by
    rw [goesOn, isSevere, hbefore]
    exact Bool.or_true _
  refine TypeGraph.supplied_of_check (fun f hf => ?_) ?_
  · have hfound := located_mem_checkModels hgoes (List.mem_append_left _ hf)
    have hfine := Diagnostic.anySevere_eq_false.1 hnone _ hfound
    rwa [Diagnostic.isSevere, Finding.code_located] at hfine
  · rw [h.graph]
    exact exists_split_of_compile htypes (Diagnostic.anySevere_of_subset h.subset hbefore)

/-- Unless a file with types carries something severe that is left out, the types hold together. -/
theorem Extends.holdsTogether (hexcused : Excused d.options b.diagnostics)
    (hunmasked : Unmasked d.options (TypesCarry loader project d)) : b.graph.HoldsTogether := by
  have hexcusedTypes : Excused d.options types.diagnostics := fun e he => hexcused e (h.subset he)
  have hmildTypes := hexcusedTypes.mild_of_unmasked
    (fun e he hcode => typesCarry_of_compile htypes he (family_of_mem_recipeIrrelevant hcode))
    hunmasked
  have hgraph : b.graph = types.graph := h.graph
  rw [hgraph]
  obtain ⟨closure, hwalk, rfl⟩ := exists_of_map_eq_ok htypes
  refine GraphCompilation.holdsTogether_ofClosure ?_
  cases hflexible : d.options.flexible with
  | true => exact .inl rfl
  | false =>
    have hmild := hmildTypes hflexible
    rw [hflexible] at hmild
    exact .inr hmild

/-- Unless any file carries something severe that is left out, every component has an installer and
    the instances stand where their components may. -/
theorem Extends.placed (hexcused : Excused d.options (b.checkModels d.options).diagnostics)
    (hunmasked : Unmasked d.options (FilesCarry loader project d)) :
    b.graph.Installed ∧ b.forest.Fits b.graph := by
  have hbefore : Excused d.options b.diagnostics := fun e he => hexcused e (subset_checkModels b he)
  have hgoes : goesOn d.options b = true := by
    rw [goesOn, Bool.or_eq_true, isSevere]
    cases hflexible : d.options.flexible with
    | true => exact .inl rfl
    | false =>
      have hmild := hbefore.mild_of_unmasked
        (fun e he hcode => h.filesCarry htypes he (family_of_mem_recipeIrrelevant hcode)) hunmasked
        hflexible
      exact .inr (by rw [hmild]; rfl)
  have hnot : ∀ {code : Code}, code.isSevere = true → code ∉ Diagnostic.recipeIrrelevant →
      ∀ f ∈ b.graph.check ++ b.forest.check b.graph, f.diagnostic.code ≠ code := by
    intro code hsevere hleft f hf
    rw [← f.code_located b.sourceMap]
    exact hexcused.code_ne hsevere hleft _ (located_mem_checkModels hgoes hf)
  constructor
  · refine TypeGraph.installed_of_check fun f hf => ?_
    exact hnot rfl (by decide) f (List.mem_append_left _ hf)
  · obtain ⟨hknown, -⟩ := h.sound hbefore
    refine Forest.fits_of_check h.treeShaped hknown fun f hf => ?_
    exact hnot rfl (by decide) f (List.mem_append_right _ hf)

end Checked

/-- An application that is loaded without severe diagnostics has instances of known components only,
    with different paths; and unless it is a recipe, whatever its components cannot do without is
    exported. Unless a file with types carries something severe that is left out of the report of a
    strictly compiled recipe, the types hold together; and unless any file does, every component has
    an installer and the instances stand where their components may. -/
theorem loadDescribed_sound (h : loadDescribed loader project d = .ok a)
    (hmild : a.isSevere = false) :
    a.forest.Known a.graph ∧ a.forest.DistinctPaths ∧
      (d.options.recipe = false → a.graph.Supplied) ∧
      (Unmasked d.options (TypesCarry loader project d) → a.graph.HoldsTogether) ∧
      (Unmasked d.options (FilesCarry loader project d) →
        a.graph.Installed ∧ a.forest.Fits a.graph) := by
  rcases loadDescribed_cases h with hmissing | ⟨types, built, htypes, hbuilt, rfl⟩
  · -- Without types, something severe is reported.
    rw [isSevere, hmissing, anySevere_report_eq_false_iff] at hmild
    have hnot : Code.missingGraphEp ∉ Diagnostic.recipeIrrelevant := by decide
    exact absurd rfl (hmild.code_ne rfl hnot _ (List.mem_singleton_self _))
  · have hextends := extends_of_withInstances hbuilt
    have hexcused := anySevere_report_eq_false_iff.1 hmild
    have hbefore : Excused d.options built.diagnostics := fun e he =>
      hexcused e (subset_checkModels built he)
    obtain ⟨hknown, hpaths⟩ := hextends.sound hbefore
    -- Neither the checks nor the report change the graph and the forest.
    have hgraph : ((built.checkModels d.options).finish d.options).graph = built.graph :=
      graph_checkModels built
    have hforest : ((built.checkModels d.options).finish d.options).forest = built.forest :=
      forest_checkModels built
    rw [hgraph, hforest]
    exact ⟨hknown, hpaths, hextends.supplied htypes hexcused,
      hextends.holdsTogether htypes hbefore, hextends.placed htypes hexcused⟩

/-- A descriptor of files under their usual names. -/
def describing (instances : Option String) (options : CompileOptions) : Descriptor :=
  { name := "shop", qualifier := none, description := none, language := none
    graphEntryPoint := Descriptor.defaultGraphEntryPoint, instanceEntryPoint := instances, options }

/-- A machine with a server on it. -/
def deployed : FileStore :=
  let graph : Path := ⟨"shop/graph/main.graph"⟩
  let instances : Path := ⟨"shop/instances/model.instances"⟩
  (FileStore.empty.insert (.ofBlocks graph
    [.declaration ⟨graph, 1⟩ .component "VM"
      [.property ⟨graph, 2⟩ "installer" "target", .property ⟨graph, 3⟩ "children" "Server"],
    .declaration ⟨graph, 5⟩ .component "Server" [.property ⟨graph, 6⟩ "installer" "script"]])).insert
      (.ofBlocks instances [.declaration ⟨instances, 1⟩ .instanceOf "VM"
        [.property ⟨instances, 2⟩ "name" "vm", .declaration ⟨instances, 3⟩ .instanceOf "Server"
          [.property ⟨instances, 4⟩ "name" "server"]]])

theorem loadDescribed_sound_deployed :
    ∃ a, loadDescribed deployed.loader ⟨"shop"⟩ (describing (some "model.instances") .strict) =
        .ok a ∧
      a.isSevere = false ∧ a.forest.all = [0, 1] ∧ a.forest.Known a.graph ∧
      a.forest.DistinctPaths ∧ a.graph.Supplied ∧ a.graph.HoldsTogether ∧ a.graph.Installed ∧
      a.forest.Fits a.graph := by
  have hloaded : (loadDescribed deployed.loader ⟨"shop"⟩
      (describing (some "model.instances") .strict)).toOption.any (fun a =>
        !a.isSevere && a.forest.all == [0, 1]) = true := by
    decide +kernel
  obtain ⟨a, h, hfound⟩ := exists_of_any_toOption hloaded
  rw [Bool.and_eq_true, Bool.not_eq_true', beq_iff_eq] at hfound
  obtain ⟨hmild, hall⟩ := hfound
  obtain ⟨hknown, hpaths, hsupplied, htogether, hplaced⟩ := loadDescribed_sound h hmild
  exact ⟨a, h, hmild, hall, hknown, hpaths, hsupplied rfl,
    htogether fun hrecipe => (nomatch hrecipe),
    hplaced fun hrecipe => nomatch hrecipe⟩

/-- A machine that may carry an application, and a file with this application that carries a
    diagnostic which makes no sense for a recipe. -/
def masked : FileStore :=
  let first : Path := ⟨"shop/graph/main.graph"⟩
  let second : Path := ⟨"shop/graph/other.graph"⟩
  (FileStore.empty.insert (.ofBlocks first [.importOf ⟨first, 1⟩ "other.graph",
    .declaration ⟨first, 2⟩ .component "VM" [.property ⟨first, 3⟩ "children" "App"]])).insert
      { FileDefinition.ofBlocks second [.declaration ⟨second, 1⟩ .component "App" []] with
        diagnostics := [⟨.unresolvableFacetVariable, []⟩] }

/-- The compilation of a recipe passes over the file, because what it carries is severe, and nothing
    is reported: the machine is left with a child that no type declares. -/
theorem loadDescribed_masked :
    ∃ a, loadDescribed masked.loader ⟨"shop"⟩
        (describing none { flexible := false, recipe := true }) = .ok a ∧
      a.isSevere = false ∧ ¬a.graph.HoldsTogether := by
  have hloaded : (loadDescribed masked.loader ⟨"shop"⟩
      (describing none { flexible := false, recipe := true })).toOption.any (fun a =>
        !a.isSevere &&
          (a.graph.component? "VM").any (fun vm => vm.children.toList.contains "App") &&
          !(a.graph.components.contains "App" || a.graph.facets.contains "App")) = true := by
    decide +kernel
  obtain ⟨a, h, hfound⟩ := exists_of_any_toOption hloaded
  simp only [Option.any_eq_true, Bool.and_eq_true, Bool.not_eq_true', List.contains_iff_mem]
    at hfound
  obtain ⟨⟨hmild, vm, hvm, hchild⟩, hnone⟩ := hfound
  refine ⟨a, h, hmild, fun htogether => ?_⟩
  have hdeclared := Bool.or_eq_true_iff.2 (htogether.hasChild "VM" "App" (.inl ⟨vm, hvm, hchild⟩))
  exact Bool.false_ne_true (hnone.symm.trans hdeclared)

end Application

end Deployment
