import Deployment.Proofs.Application
import Deployment.Proofs.Findings
import Deployment.Proofs.GraphCompilation.SourceMap
import Deployment.Proofs.InstanceCompilation.SourceMap

/-!
# Places of what the checks of models find

What the checks of models find in an application is reported with a file and a line: those of the
declaration of what it is about. For a type this is the first declaration of its name, for an
instance the declaration that it is a copy of, however deep it stands and however many copies were
made of what stands around it (`DeclaredAt`).

The places of types and of instances come from two source maps, and none hides the other, as their
subjects differ. The one of instances is empty if something severe was found in compiling them. A
strictly compiled application is then not checked any more, but a flexible one is, and what is
found in its instances has no place.

* `DeclaredAt.unique`: a subject is declared at one place;
* `loadDescribed_places`: the places of what the checks find.
-/

namespace Deployment.Application

open Deployment.Tree Draft

variable {loader : Loader} {project : Path} {d : Descriptor} {a b : Application}
  {types : GraphCompilation} {f : Finding}

/-! ### Declarations -/

/-- The place of the declaration of a subject among the files of an application with a given
    forest. -/
inductive DeclaredAt (loader : Loader) (project : Path) (d : Descriptor) (forest : Forest) :
    Subject → Site → Prop
  /-- A component stands where its name is declared first. -/
  | component {closure : Closure} {name : String} {site : Site} :
      Closure.walk loader Block.check .types (d.graphFile project)
        (Descriptor.graphDirectory project) = .ok closure →
      closure.blocks.findSome? (Block.componentSite? name) = some site →
      DeclaredAt loader project d forest (.component name) site
  /-- So does a facet. -/
  | facet {closure : Closure} {name : String} {site : Site} :
      Closure.walk loader Block.check .types (d.graphFile project)
        (Descriptor.graphDirectory project) = .ok closure →
      closure.blocks.findSome? (Block.facetSite? name) = some site →
      DeclaredAt loader project d forest (.facet name) site
  /-- An instance stands where the last declaration of its chain does. -/
  | instanceAt {file : Path} {closure : Closure}
      {locate : List (Pick × InstanceDeclaration) → Nat} {l : List (Pick × InstanceDeclaration)}
      {q : Pick × InstanceDeclaration} {path : String} :
      d.instanceFile project = some file →
      Closure.walk loader Block.check .instances file (Descriptor.instanceDirectory project) =
        .ok closure →
      Expands forest closure.blocks InstanceDeclaration.copies InstanceDeclaration.copyBody
        locate →
      Chain InstanceDeclaration.copies closure.blocks (l ++ [q]) →
      forest.path (locate (l ++ [q])) = path →
      DeclaredAt loader project d forest (.instanceAt path) q.2.site

/-- If no two instances share a path, no subject is declared at two places. -/
theorem DeclaredAt.unique {forest : Forest} {subject : Subject} {site site' : Site}
    (hpaths : (forest.all.map forest.path).Nodup)
    (h : DeclaredAt loader project d forest subject site)
    (h' : DeclaredAt loader project d forest subject site') : site' = site := by
  cases h with
  | component hwalk hsite =>
    obtain ⟨hwalk', hsite'⟩ := h'
    obtain rfl := Except.ok.inj (hwalk.symm.trans hwalk')
    exact Option.some.inj (hsite'.symm.trans hsite)
  | facet hwalk hsite =>
    obtain _ | ⟨hwalk', hsite'⟩ := h'
    obtain rfl := Except.ok.inj (hwalk.symm.trans hwalk')
    exact Option.some.inj (hsite'.symm.trans hsite)
  | instanceAt hfile hwalk hexpands hl hpath =>
    obtain _ | _ | ⟨hfile', hwalk', hexpands', hl', hpath'⟩ := h'
    obtain rfl := Option.some.inj (hfile.symm.trans hfile')
    obtain rfl := Except.ok.inj (hwalk.symm.trans hwalk')
    have heq := hexpands.chain_eq hexpands' hpaths hl hl' (hpath.trans hpath'.symm)
    have hlast := List.singleton_injective (List.append_inj' heq rfl).2
    rw [hlast]

/-! ### Source maps -/

/-- Before there are instances, the places of an application are those of its types. -/
theorem get?_sourceMap_addTypes (d : Descriptor) (types : GraphCompilation) (subject : Subject) :
    ((described d).addTypes types).sourceMap.get? subject = types.sourceMap.get? subject :=
  (SourceMap.get?_merge .empty types.sourceMap subject).trans Option.none_or

/-- The places of types stay when instances are added. -/
theorem get?_sourceMap_of_types
    (hbuilt : withInstances loader project d ((described d).addTypes types) = .ok b)
    {subject : Subject} {site : Site} (h : types.sourceMap.get? subject = some site) :
    b.sourceMap.get? subject = some site := by
  have htypes := (get?_sourceMap_addTypes d types subject).trans h
  obtain ⟨notes, -, rfl | ⟨file, c, -, -, -, rfl⟩⟩ := withInstances_cases hbuilt
  · exact htypes
  · change (SourceMap.merge ((described d).addTypes types).sourceMap c.sourceMap).get? subject = _
    rw [SourceMap.get?_merge, htypes, Option.some_or]

/-- The compilation of instances that comes with loading an application, unless something severe was
    found before. -/
def CompilesInstances (loader : Loader) (project : Path) (d : Descriptor)
    (c : InstanceCompilation) : Prop :=
  loader.has (d.graphFile project) = true ∧ ∃ types file,
    GraphCompilation.compile loader Block.check (d.graphFile project)
      (Descriptor.graphDirectory project) d.options.flexible = .ok types ∧
    d.instanceFile project = some file ∧ loader.has file = true ∧
    InstanceCompilation.compile loader Block.check types.graph file
      (Descriptor.instanceDirectory project) = .ok c

/-- The instances of an application are those of a compilation that found nothing severe, and so are
    their places; or there are no instances. -/
structure InstancesFrom (loader : Loader) (project : Path) (d : Descriptor) (g : TypeGraph)
    (a : Application) (file : Path) (closure : Closure) : Prop where
  entryPoint : d.instanceFile project = some file
  walk : Closure.walk loader Block.check .instances file (Descriptor.instanceDirectory project) =
    .ok closure
  mild : (InstanceCompilation.ofClosure g closure).isSevere = false
  forest : a.forest = (InstanceCompilation.ofClosure g closure).forest
  sourceMap : ∀ path, a.sourceMap.get? (.instanceAt path) =
    (InstanceCompilation.ofClosure g closure).sourceMap.get? (.instanceAt path)

/-- No two instances of such an application share a path. -/
theorem InstancesFrom.nodup_paths {g : TypeGraph} {file : Path} {closure : Closure}
    (h : InstancesFrom loader project d g a file closure) :
    (a.forest.all.map a.forest.path).Nodup := by
  rw [h.forest]
  exact InstanceCompilation.nodup_paths_of_mild (Closure.visits_of_walk h.walk) h.mild

/-- Each of its instances has the place of a declaration that it is a copy of. -/
theorem InstancesFrom.exists_site {g : TypeGraph} {file : Path} {closure : Closure}
    (h : InstancesFrom loader project d g a file closure) {id : Nat} (hid : id ∈ a.forest.all) :
    ∃ site, DeclaredAt loader project d a.forest (.instanceAt (a.forest.path id)) site ∧
      a.sourceMap.get? (.instanceAt (a.forest.path id)) = some site := by
  obtain ⟨locate, hexpands, hsites⟩ :=
    InstanceCompilation.get?_sourceMap_of_mild (Closure.visits_of_walk h.walk) h.mild
  rw [← h.forest] at hexpands hsites
  obtain ⟨l, hl, rfl⟩ := hexpands.bijOn.surjOn hid
  obtain ⟨l, q, rfl⟩ := (List.eq_nil_or_concat' l).resolve_left (Chain.ne_nil hl)
  refine ⟨q.2.site, .instanceAt h.entryPoint h.walk hexpands hl rfl, ?_⟩
  exact (h.sourceMap _).trans (hsites l q hl)

/-! ### Applications that are checked -/

section Checked

variable (hhas : loader.has (d.graphFile project) = true)
  (htypes : GraphCompilation.compile loader Block.check (d.graphFile project)
    (Descriptor.graphDirectory project) d.options.flexible = .ok types)
  (hbuilt : withInstances loader project d ((described d).addTypes types) = .ok b)
  (hgoes : goesOn d.options b = true)

include htypes hbuilt hgoes

/-- The types come from all files of their closure, as nothing severe was found in a strict
    compilation. -/
theorem exists_types_closure : ∃ closure,
    Closure.walk loader Block.check .types (d.graphFile project)
      (Descriptor.graphDirectory project) = .ok closure ∧
    types = GraphCompilation.ofClosure d.options.flexible closure ∧
    GraphCompilation.acceptedFiles d.options.flexible closure = closure.files := by
  obtain ⟨closure, hwalk, rfl⟩ := exists_of_map_eq_ok htypes
  refine ⟨closure, hwalk, rfl, ?_⟩
  rw [goesOn, Bool.or_eq_true, Bool.not_eq_true', isSevere] at hgoes
  rcases hgoes with hflexible | hmild
  · rw [hflexible, GraphCompilation.acceptedFiles_flexible]
  · refine GraphCompilation.acceptedFiles_of_mild _ (Diagnostic.anySevere_of_subset ?_ hmild)
    have hextends := (extends_of_withInstances hbuilt).subset
    intro e he
    refine hextends ((GraphCompilation.gather_sublist _ closure).subset ?_)
    exact List.mem_append_left _ (List.mem_append_left _ he)

/-- What is found in the types is about a type whose place is known. -/
theorem exists_site_of_graph (hf : f ∈ b.graph.check) :
    ∃ site, DeclaredAt loader project d b.forest f.subject site ∧
      b.sourceMap.get? f.subject = some site := by
  obtain ⟨closure, hwalk, rfl, haccepted⟩ := exists_types_closure htypes hbuilt hgoes
  have hgraph : b.graph = (GraphCompilation.ofClosure d.options.flexible closure).graph :=
    (extends_of_withInstances hbuilt).graph
  rw [hgraph] at hf
  obtain ⟨hcomponent, hfacet, -⟩ :=
    GraphCompilation.get?_sourceMap_ofClosure d.options.flexible closure
  have hblocks : GraphCompilation.blocksOf closure.files = closure.blocks := rfl
  rw [haccepted, hblocks] at hcomponent hfacet
  obtain ⟨⟨name, hsubject, hname⟩ | ⟨name, hsubject, hname⟩, -⟩ := TypeGraph.subject_of_mem_check hf
  · obtain ⟨site, hsite⟩ := (GraphCompilation.exists_site _ closure name).1 hname
    rw [hsubject]
    exact ⟨site, .component hwalk ((hcomponent name).symm.trans hsite),
      get?_sourceMap_of_types hbuilt hsite⟩
  · obtain ⟨site, hsite⟩ := (GraphCompilation.exists_site _ closure name).2 hname
    rw [hsubject]
    exact ⟨site, .facet hwalk ((hfacet name).symm.trans hsite),
      get?_sourceMap_of_types hbuilt hsite⟩

include hhas

/-- Either there are no instances, or they come from a compilation that found nothing severe. -/
theorem forest_cases (hmild : d.options.flexible = false ∨
      ∀ c, CompilesInstances loader project d c → c.isSevere = false) :
    b.forest = .empty ∨
      ∃ file closure, InstancesFrom loader project d types.graph b file closure := by
  have hnone : ∀ path, types.sourceMap.get? (.instanceAt path) = none := by
    obtain ⟨closure, -, rfl, -⟩ := exists_types_closure htypes hbuilt hgoes
    exact (GraphCompilation.get?_sourceMap_ofClosure _ closure).2.2
  obtain ⟨notes, -, rfl | ⟨file, c, hfile, hthere, hc, rfl⟩⟩ := withInstances_cases hbuilt
  · exact .inl rfl
  · right
    have hsound : c.isSevere = false := by
      rcases hmild with hstrict | hmild
      · rw [goesOn, hstrict, Bool.false_or, Bool.not_eq_true'] at hgoes
        exact Diagnostic.anySevere_of_subset (List.subset_append_right _ _) hgoes
      · exact hmild c ⟨hhas, types, file, htypes, hfile, hthere, hc⟩
    obtain ⟨closure, hwalk, rfl⟩ := exists_of_map_eq_ok hc
    refine ⟨file, closure, hfile, hwalk, hsound, rfl, fun path => ?_⟩
    -- The types have recorded no places of instances.
    change (SourceMap.merge ((described d).addTypes types).sourceMap _).get? _ = _
    rw [SourceMap.get?_merge, get?_sourceMap_addTypes, hnone, Option.none_or]
    rfl

/-- The source map gives whatever is found by the checks the one place where its subject is
    declared. -/
theorem exists_site_of_checks (hmild : d.options.flexible = false ∨
      ∀ c, CompilesInstances loader project d c → c.isSevere = false)
    (hf : f ∈ b.graph.check ++ b.forest.check b.graph) :
    ∃ site, DeclaredAt loader project d b.forest f.subject site ∧
      (∀ site', DeclaredAt loader project d b.forest f.subject site' → site' = site) ∧
      b.sourceMap.get? f.subject = some site := by
  have hforest := forest_cases hhas htypes hbuilt hgoes hmild
  have hpaths : (b.forest.all.map b.forest.path).Nodup := by
    rcases hforest with hnone | ⟨file, closure, hfrom⟩
    · rw [hnone]
      exact List.nodup_nil
    · exact hfrom.nodup_paths
  have hsite : ∃ site, DeclaredAt loader project d b.forest f.subject site ∧
      b.sourceMap.get? f.subject = some site := by
    rcases List.mem_append.1 hf with hf | hf
    · exact exists_site_of_graph htypes hbuilt hgoes hf
    · obtain ⟨⟨id, hid, hsubject⟩, -⟩ := Forest.subject_of_mem_check hf
      rw [hsubject]
      rcases hforest with hnone | ⟨file, closure, hfrom⟩
      · rw [hnone] at hid
        exact absurd hid List.not_mem_nil
      · exact hfrom.exists_site hid
  obtain ⟨site, hdeclared, hget⟩ := hsite
  exact ⟨site, hdeclared, fun site' h' => hdeclared.unique hpaths h', hget⟩

end Checked

/-! ### What is reported -/

/-- Whether a finding is reported with the file and the line of the declaration of its subject,
    which is declared nowhere else. -/
def AtDeclaration (loader : Loader) (project : Path) (d : Descriptor) (a : Application)
    (f : Finding) : Prop :=
  ∃ site, DeclaredAt loader project d a.forest f.subject site ∧
    (∀ site', DeclaredAt loader project d a.forest f.subject site' → site' = site) ∧
    f.located a.sourceMap = f.diagnostic.located site ∧
    (f.located a.sourceMap).find? .file = some site.file.text ∧
    (f.located a.sourceMap).find? .line = some (toString site.line)

/-- A report of what was found before the checks of models, and of what these find, each finding at
    the declaration of its subject. Whatever was found before although it belongs to the checks was
    carried by a file. The checks are made unless something severe was found. -/
structure ReportsPlaces (loader : Loader) (project : Path) (d : Descriptor) (a : Application)
    (before : List Diagnostic) (checks : List Finding) : Prop where
  reported : a.diagnostics =
    report d.options (before ++ checks.map fun f => f.located a.sourceMap)
  carried : ∀ e ∈ before, e.code.family = .runtimeModel → FilesCarry loader project d e
  made : checks = a.graph.check ++ a.forest.check a.graph ∨
    checks = [] ∧ Diagnostic.anySevere before = true
  places : ∀ f ∈ checks, AtDeclaration loader project d a f

/-- Loading that finds no file with types makes no checks. -/
theorem has_graphFile_or_missing (h : loadDescribed loader project d = .ok a) :
    loader.has (d.graphFile project) = true ∨
      a.diagnostics = report d.options [⟨.missingGraphEp, [.file (d.graphFile project)]⟩] := by
  cases hhas : loader.has (d.graphFile project) with
  | true => exact .inl rfl
  | false =>
    rw [loadDescribed, hhas] at h
    rw [← Except.ok.inj h]
    exact .inr rfl

theorem reportsPlaces_of_missing
    (h : a.diagnostics = report d.options [⟨.missingGraphEp, [.file (d.graphFile project)]⟩]) :
    ReportsPlaces loader project d a [⟨.missingGraphEp, [.file (d.graphFile project)]⟩] [] := by
  refine ⟨h, fun e he hfamily => ?_, .inr ⟨rfl, rfl⟩, fun f hf => absurd hf List.not_mem_nil⟩
  rw [List.mem_singleton.1 he] at hfamily
  exact nomatch hfamily

theorem diagnostics_checkModels (options : CompileOptions) (a : Application) :
    (a.checkModels options).diagnostics =
      a.diagnostics ++ if goesOn options a then a.findings else [] := by
  rw [checkModels]
  split
  · rfl
  · exact (List.append_nil _).symm

theorem sourceMap_checkModels (options : CompileOptions) (a : Application) :
    (a.checkModels options).sourceMap = a.sourceMap := by
  rw [checkModels]
  split <;> rfl

/-- What the checks of models find is reported with the file and the line of the declaration of its
    subject, if the application is compiled strictly or nothing severe is found in compiling its
    instances. -/
theorem loadDescribed_places (h : loadDescribed loader project d = .ok a)
    (hmild : d.options.flexible = false ∨
      ∀ c, CompilesInstances loader project d c → c.isSevere = false) :
    ∃ before checks, ReportsPlaces loader project d a before checks := by
  rcases has_graphFile_or_missing h with hhas | hmissing
  case inr => exact ⟨_, _, reportsPlaces_of_missing hmissing⟩
  rcases loadDescribed_cases h with hmissing | ⟨types, built, htypes, hbuilt, rfl⟩
  case inl => exact ⟨_, _, reportsPlaces_of_missing hmissing⟩
  -- Neither the checks nor the report change the models and their places.
  have hgraph : ((built.checkModels d.options).finish d.options).graph = built.graph :=
    graph_checkModels built
  have hforest : ((built.checkModels d.options).finish d.options).forest = built.forest :=
    forest_checkModels built
  have hmap : ((built.checkModels d.options).finish d.options).sourceMap = built.sourceMap :=
    sourceMap_checkModels d.options built
  refine ⟨built.diagnostics,
    if goesOn d.options built then built.graph.check ++ built.forest.check built.graph else [],
    ?_, fun e he hfamily => (extends_of_withInstances hbuilt).filesCarry htypes he hfamily, ?_,
    fun f hf => ?_⟩
  · change report d.options (built.checkModels d.options).diagnostics = _
    rw [diagnostics_checkModels, hmap]
    split <;> rfl
  · rw [hgraph, hforest]
    split
    · exact .inl rfl
    · next hstops =>
      rw [goesOn, Bool.or_eq_true, not_or, Bool.not_eq_true', Bool.not_eq_false] at hstops
      exact .inr ⟨rfl, hstops.2⟩
  · rw [AtDeclaration, hforest, hmap]
    split at hf
    · next hgoes =>
      obtain ⟨site, hdeclared, hunique, hget⟩ :=
        exists_site_of_checks hhas htypes hbuilt hgoes hmild hf
      have hplaceless : f.diagnostic.Placeless := (List.mem_append.1 hf).elim
        (fun hf => (TypeGraph.subject_of_mem_check hf).2)
        fun hf => (Forest.subject_of_mem_check hf).2
      have hlocated := Finding.located_of_get? hplaceless hget
      rw [hlocated]
      exact ⟨site, hdeclared, hunique, rfl, hplaceless.find?_located site⟩
    · exact absurd hf List.not_mem_nil

/-- Two machines with two servers on each, which give a value to a variable that they do not export,
    and a facet that nothing carries. -/
def overriding : FileStore :=
  let graph : Path := ⟨"shop/graph/main.graph"⟩
  let instances : Path := ⟨"shop/instances/model.instances"⟩
  (FileStore.empty.insert (.ofBlocks graph
    [.declaration ⟨graph, 1⟩ .component "VM"
      [.property ⟨graph, 2⟩ "installer" "target", .property ⟨graph, 3⟩ "children" "Server"],
    .declaration ⟨graph, 5⟩ .component "Server" [.property ⟨graph, 6⟩ "installer" "script"],
    .declaration ⟨graph, 8⟩ .facet "web" []])).insert
      (.ofBlocks instances [.declaration ⟨instances, 1⟩ .instanceOf "VM"
        [.property ⟨instances, 2⟩ "name" "vm", .property ⟨instances, 3⟩ "count" "2",
          .declaration ⟨instances, 4⟩ .instanceOf "Server"
            [.property ⟨instances, 5⟩ "name" "server", .property ⟨instances, 6⟩ "count" "2",
              .property ⟨instances, 7⟩ "port" "80"]]])

theorem loadDescribed_places_overriding :
    ∃ a before, loadDescribed overriding.loader ⟨"shop"⟩
        (describing (some "model.instances") .strict) = .ok a ∧
      a.isSevere = false ∧
      ReportsPlaces overriding.loader ⟨"shop"⟩ (describing (some "model.instances") .strict) a before
        (a.graph.check ++ a.forest.check a.graph) ∧
      ∃ f ∈ a.forest.check a.graph, f.subject = .instanceAt "/vm2/server2" := by
  have hloaded : (loadDescribed overriding.loader ⟨"shop"⟩
      (describing (some "model.instances") .strict)).toOption.any (fun a =>
        !a.isSevere && (a.forest.check a.graph).any fun f =>
          decide (f.subject = .instanceAt "/vm2/server2")) = true := by
    decide +kernel
  obtain ⟨a, h, hfound⟩ := exists_of_any_toOption hloaded
  rw [Bool.and_eq_true, Bool.not_eq_true', List.any_eq_true] at hfound
  obtain ⟨hmild, f, hf, hsubject⟩ := hfound
  obtain ⟨before, checks, hplaces⟩ := loadDescribed_places h (.inl rfl)
  refine ⟨a, before, h, hmild, ?_, f, hf, of_decide_eq_true hsubject⟩
  rcases hplaces.made with rfl | ⟨-, hsevere⟩
  · exact hplaces
  · -- Nothing severe was found, so the checks were made.
    rw [isSevere, hplaces.reported, anySevere_report_eq_false_iff] at hmild
    have hbefore := hmild.mild rfl
    rw [Diagnostic.anySevere_append, hsevere] at hbefore
    exact Bool.noConfusion hbefore

end Deployment.Application
