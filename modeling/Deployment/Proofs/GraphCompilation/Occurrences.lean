import Deployment.Proofs.Catalogue.Losses
import Deployment.Proofs.GraphCompilation.SourceMap

/-!
# Occurrences of declarations

A name may be declared any number of times, as a component and as a facet, in any of the files that
were accepted. The first declaration of each sort describes the type and gives its place; what the
others say is not looked at, but the place of every one of them is reported, once for each rule that
it breaks.

* `Block.occurrences`: the declarations of a name, with their places and contents;
* `ReportsAt`: the reports of a code are one for each of some places, and no others;
* `ReportsNames`: what is reported of names declared more than once;
* `DescribesFirst`: the types and places of a compilation, by first declaration;
* `GraphCompilation.compile_occurrences`: both, for every compilation.
-/

namespace Deployment

namespace Block

/-- The place and the content of a block that declares a type of a sort under a name. -/
def occurrence? (kind : DeclarationKind) (name : String) : Block → Option (Site × List Block)
  | .declaration site k n inner => if k = kind ∧ n = name then some (site, inner) else none
  | _ => none

/-- The declarations of a name as a type of a sort, in order. -/
def occurrences (kind : DeclarationKind) (name : String) (bs : List Block) :
    List (Site × List Block) :=
  bs.filterMap (occurrence? kind name)

/-- The places where a name is declared as a type of a sort, in order. -/
def occurrenceSites (kind : DeclarationKind) (name : String) (bs : List Block) : List Site :=
  (occurrences kind name bs).map Prod.fst

variable {name : String}

theorem componentSite?_eq (b : Block) :
    b.componentSite? name = (b.occurrence? .component name).map Prod.fst := by
  cases b with
  | declaration site kind n inner =>
    cases kind <;> by_cases hn : n = name <;> simp [componentSite?, occurrence?, hn]
  | importOf | property | comment | blank => rfl

theorem facetSite?_eq (b : Block) :
    b.facetSite? name = (b.occurrence? .facet name).map Prod.fst := by
  cases b with
  | declaration site kind n inner =>
    cases kind <;> by_cases hn : n = name <;> simp [facetSite?, occurrence?, hn]
  | importOf | property | comment | blank => rfl

theorem component?_eq (b : Block) :
    b.component? name =
      (b.occurrence? .component name).map fun o => Component.ofBlocks name o.2 := by
  cases b with
  | declaration site kind n inner =>
    cases kind <;> by_cases hn : n = name <;> simp [component?, occurrence?, hn]
  | importOf | property | comment | blank => rfl

theorem facet?_eq (b : Block) :
    b.facet? name = (b.occurrence? .facet name).map fun o => Facet.ofBlocks name o.2 := by
  cases b with
  | declaration site kind n inner =>
    cases kind <;> by_cases hn : n = name <;> simp [facet?, occurrence?, hn]
  | importOf | property | comment | blank => rfl

end Block

open Block

/-! ### First occurrences -/

theorem firstComponent_eq (bs : List Block) (name : String) :
    firstComponent bs name =
      (occurrences .component name bs).head?.map fun o => Component.ofBlocks name o.2 := by
  rw [occurrences, List.head?_filterMap, List.map_findSome?, firstComponent]
  exact congrArg (fun f => bs.findSome? f) (funext component?_eq)

theorem firstFacet_eq (bs : List Block) (name : String) :
    firstFacet bs name =
      (occurrences .facet name bs).head?.map fun o => Facet.ofBlocks name o.2 := by
  rw [occurrences, List.head?_filterMap, List.map_findSome?, firstFacet]
  exact congrArg (fun f => bs.findSome? f) (funext facet?_eq)

theorem findSome?_componentSite? (bs : List Block) (name : String) :
    bs.findSome? (componentSite? name) = (occurrenceSites .component name bs).head? := by
  rw [occurrenceSites, occurrences, List.map_filterMap, List.head?_filterMap]
  exact congrArg (fun f => bs.findSome? f) (funext componentSite?_eq)

theorem findSome?_facetSite? (bs : List Block) (name : String) :
    bs.findSome? (facetSite? name) = (occurrenceSites .facet name bs).head? := by
  rw [occurrenceSites, occurrences, List.map_filterMap, List.head?_filterMap]
  exact congrArg (fun f => bs.findSome? f) (funext facetSite?_eq)

/-! ### Reports by place -/

/-- The reports of a code are one for each of some places of each name, about this name. -/
structure ReportsAt (reports : List Diagnostic) (code : Code) (kind : DetailKind)
    (sites : String → List Site) : Prop where
  each : ∀ name, reports.filter (fun d => d.code = code ∧ d.details.head? = some ⟨kind, name⟩) =
    (sites name).map fun site => .found site code [⟨kind, name⟩]
  only : ∀ d ∈ reports, d.code = code → ∃ name, d.details.head? = some ⟨kind, name⟩

/-- One report of a code for each of some places of each name. -/
def reportsByName (code : Code) (kind : DetailKind) (names : List String)
    (sites : String → List Site) : List Diagnostic :=
  names.flatMap fun name => (sites name).map fun site => .found site code [⟨kind, name⟩]

theorem mem_reportsByName {code : Code} {kind : DetailKind} {names : List String}
    {sites : String → List Site} {d : Diagnostic} :
    d ∈ reportsByName code kind names sites ↔
      ∃ name ∈ names, ∃ site ∈ sites name, .found site code [⟨kind, name⟩] = d := by
  simp only [reportsByName, List.mem_flatMap, List.mem_map]

theorem code_of_mem_reportsByName {code : Code} {kind : DetailKind} {names : List String}
    {sites : String → List Site} {d : Diagnostic} (h : d ∈ reportsByName code kind names sites) :
    d.code = code := by
  obtain ⟨_, _, _, _, rfl⟩ := mem_reportsByName.1 h
  rfl

/-- Of keys that differ from each other at most one is a given name. -/
theorem flatMap_ite_of_nodup {α : Type} {keys : List String} (hnodup : keys.Nodup) (name : String)
    (values : List α) :
    (keys.flatMap fun n => if n = name then values else []) =
      if name ∈ keys then values else [] := by
  induction keys with
  | nil => rfl
  | cons key keys ih =>
    obtain ⟨hkey, hnodup⟩ := List.nodup_cons.1 hnodup
    rw [List.flatMap_cons, ih hnodup]
    by_cases h : key = name
    · subst h
      simp [hkey]
    · simp [h, Ne.symm h]

namespace ReportsAt

variable {reports others : List Diagnostic} {code : Code} {kind : DetailKind}
  {sites : String → List Site}

theorem filter_of_others (hothers : ∀ d ∈ others, d.code ≠ code) (detail : Detail) :
    others.filter (fun d => d.code = code ∧ d.details.head? = some detail) = [] := by
  rw [List.filter_eq_nil_iff]
  intro d hd
  simp [hothers d hd]

/-- Reports of other codes do not matter. -/
theorem append (h : ReportsAt reports code kind sites) (hothers : ∀ d ∈ others, d.code ≠ code) :
    ReportsAt (reports ++ others) code kind sites where
  each name := by rw [List.filter_append, h.each, filter_of_others hothers, List.append_nil]
  only d hd hcode := (List.mem_append.1 hd).elim (fun hd => h.only d hd hcode)
    fun hd => absurd hcode (hothers d hd)

theorem append_left (h : ReportsAt reports code kind sites)
    (hothers : ∀ d ∈ others, d.code ≠ code) : ReportsAt (others ++ reports) code kind sites where
  each name := by rw [List.filter_append, h.each, filter_of_others hothers, List.nil_append]
  only d hd hcode := (List.mem_append.1 hd).elim (fun hd => absurd hcode (hothers d hd))
    fun hd => h.only d hd hcode

/-- Reports made name by name are about this name each. -/
theorem reportsByName {names : List String} (hnodup : names.Nodup)
    (hsites : ∀ name, name ∉ names → sites name = []) :
    ReportsAt (reportsByName code kind names sites) code kind sites where
  each name := by
    have hown : ∀ n, ((sites n).map fun site => Diagnostic.found site code [⟨kind, n⟩]).filter
        (fun d => d.code = code ∧ d.details.head? = some ⟨kind, name⟩) =
          if n = name then (sites name).map fun site => .found site code [⟨kind, name⟩]
          else [] := by
      intro n
      split
      · next hn =>
        subst hn
        refine List.filter_eq_self.2 fun d hd => ?_
        obtain ⟨site, -, rfl⟩ := List.mem_map.1 hd
        exact decide_eq_true ⟨rfl, rfl⟩
      · next hn =>
        refine List.filter_eq_nil_iff.2 fun d hd => ?_
        obtain ⟨site, -, rfl⟩ := List.mem_map.1 hd
        simp [Diagnostic.found, Diagnostic.located, Diagnostic.add, hn]
    rw [Deployment.reportsByName, List.filter_flatMap, List.flatMap_congr fun n _ => hown n,
      flatMap_ite_of_nodup hnodup]
    split
    · rfl
    · next hname => rw [hsites name hname, List.map_nil]
  only d hd _ := by
    obtain ⟨name, _, _, _, rfl⟩ := mem_reportsByName.1 hd
    exact ⟨name, rfl⟩

end ReportsAt

/-! ### Names declared more than once -/

/-- The codes of what is reported of names declared more than once. -/
def nameCodes : List Code := [.conflictingName, .alreadyDefinedComponent, .alreadyDefinedFacet]

theorem family_of_nameCodes {code : Code} (h : code ∈ nameCodes) : code.family = .conversion := by
  revert h
  cases code <;> decide

/-- The places of a name that is declared both as a component and as a facet. -/
def conflictSites (bs : List Block) (name : String) : List Site :=
  let components := occurrenceSites .component name bs
  let facets := occurrenceSites .facet name bs
  if 0 < components.length ∧ 0 < facets.length then components ++ facets else []

/-- The places of a name that is declared more than once as a type of a sort. -/
def repeatSites (kind : DeclarationKind) (bs : List Block) (name : String) : List Site :=
  let sites := occurrenceSites kind name bs
  if 1 < sites.length then sites else []

/-- What is reported of names declared more than once among some blocks: each of the places of a
    name that is both a component and a facet, each of the places of a component, and of a facet,
    that has more than one; and nothing else. -/
structure ReportsNames (bs : List Block) (reports : List Diagnostic) : Prop where
  conflicts : ReportsAt reports .conflictingName .conflicting (conflictSites bs)
  components : ReportsAt reports .alreadyDefinedComponent .component (repeatSites .component bs)
  facets : ReportsAt reports .alreadyDefinedFacet .facet (repeatSites .facet bs)

namespace Catalogue

theorem sitesIn_components_eq (bs : List Block) (name : String) :
    sitesIn (ofBlocks bs).components name = occurrenceSites .component name bs := by
  rw [sitesIn_components_ofBlocks, occurrenceSites, occurrences, List.map_filterMap]
  exact congrArg (fun f => bs.filterMap f) (funext componentSite?_eq)

theorem sitesIn_facets_eq (bs : List Block) (name : String) :
    sitesIn (ofBlocks bs).facets name = occurrenceSites .facet name bs := by
  rw [sitesIn_facets_ofBlocks, occurrenceSites, occurrences, List.map_filterMap]
  exact congrArg (fun f => bs.filterMap f) (funext facetSite?_eq)

theorem collision_eq_map (bs : List Block) (name : String) :
    collision name (sitesIn (ofBlocks bs).components name) (sitesIn (ofBlocks bs).facets name) =
      (conflictSites bs name).map fun site =>
        .found site .conflictingName [⟨.conflicting, name⟩] := by
  rw [sitesIn_components_eq, sitesIn_facets_eq, collision, conflictSites]
  simp only [List.length_pos_iff]
  split <;> split <;> simp_all

theorem repeatedAt_eq_map (kind : DeclarationKind) (bs : List Block) (name : String) (code : Code)
    (detail : Detail) :
    repeatedAt code detail (occurrenceSites kind name bs) =
      (repeatSites kind bs name).map fun site => .found site code [detail] := by
  rw [repeatedAt, repeatSites]
  split <;> split <;> first | rfl | omega

theorem occurrenceSites_component_of_not_mem {bs : List Block} {name : String}
    (h : name ∉ (ofBlocks bs).components.keys) : occurrenceSites .component name bs = [] := by
  rw [← sitesIn_components_eq]
  exact not_not.1 (mt mem_keys_iff_sitesIn.2 h)

theorem occurrenceSites_facet_of_not_mem {bs : List Block} {name : String}
    (h : name ∉ (ofBlocks bs).facets.keys) : occurrenceSites .facet name bs = [] := by
  rw [← sitesIn_facets_eq]
  exact not_not.1 (mt mem_keys_iff_sitesIn.2 h)

/-- A catalogue reports its repeated names at all of their places. -/
theorem reportsNames (bs : List Block) :
    ReportsNames bs ((ofBlocks bs).collisions ++ (ofBlocks bs).repetitions) := by
  let conflicts := reportsByName .conflictingName .conflicting (ofBlocks bs).components.keys
    (conflictSites bs)
  let components := reportsByName .alreadyDefinedComponent .component
    (ofBlocks bs).components.keys (repeatSites .component bs)
  let facets := reportsByName .alreadyDefinedFacet .facet (ofBlocks bs).facets.keys
    (repeatSites .facet bs)
  have hcollisions : (ofBlocks bs).collisions = conflicts := by
    rw [collisions_eq_flatMap_keys, List.flatMap_congr fun name _ => collision_eq_map bs name]
    rfl
  have hrepetitions : (ofBlocks bs).repetitions = components ++ facets := by
    rw [repetitions_eq_flatMap_keys]
    simp only [sitesIn_components_eq, sitesIn_facets_eq, repeatedAt_eq_map, components, facets,
      reportsByName]
  have hother : ∀ {code code' kind names sites}, code' ≠ code →
      ∀ d ∈ reportsByName code' kind names sites, d.code ≠ code := fun hne d hd hcode =>
    hne ((code_of_mem_reportsByName hd).symm.trans hcode)
  rw [hcollisions, hrepetitions]
  constructor
  case conflicts =>
    refine .append (.reportsByName (ofBlocks bs).components.nodup fun name hname => if_neg ?_) ?_
    · rw [occurrenceSites_component_of_not_mem hname]
      exact fun h => absurd h.1 (lt_irrefl 0)
    · exact List.forall_mem_append.2 ⟨hother Code.noConfusion, hother Code.noConfusion⟩
  case components =>
    refine .append_left (.append (.reportsByName (ofBlocks bs).components.nodup
      fun name hname => if_neg ?_) (hother Code.noConfusion)) (hother Code.noConfusion)
    rw [occurrenceSites_component_of_not_mem hname]
    exact Nat.not_lt_zero 1
  case facets =>
    refine .append_left (.append_left (.reportsByName (ofBlocks bs).facets.nodup
      fun name hname => if_neg ?_) (hother Code.noConfusion)) (hother Code.noConfusion)
    rw [occurrenceSites_facet_of_not_mem hname]
    exact Nat.not_lt_zero 1

end Catalogue

/-- Reports of the loss of mentions are about no name in itself. -/
theorem Explains.code_not_mem {component? : String → Option Component}
    {facet? : String → Option Facet} {d : Diagnostic} {m : Mention}
    (h : Explains component? facet? d m) : d.code ∉ nameCodes := by
  cases h with
  | @dangling r =>
    change r.danglingCode ∉ nameCodes
    unfold Reference.danglingCode
    cases r.bond <;> decide
  | @closing m _ code _ _ hcode =>
    change code ∉ nameCodes
    revert hcode
    cases m.bond <;> rintro ⟨⟩ <;> decide

/-- Reports of other codes are not about names declared more than once. -/
theorem ReportsNames.append {bs : List Block} {reports others : List Diagnostic}
    (h : ReportsNames bs reports) (hothers : ∀ d ∈ others, d.code ∉ nameCodes) :
    ReportsNames bs (reports ++ others) := by
  have hother : ∀ code ∈ nameCodes, ∀ d ∈ others, d.code ≠ code := fun code hcode d hd heq =>
    hothers d hd (heq ▸ hcode)
  exact ⟨h.conflicts.append (hother _ (by decide)), h.components.append (hother _ (by decide)),
    h.facets.append (hother _ (by decide))⟩

/-! ### Compilations -/

namespace GraphCompilation

/-- The types of a compilation and their places are those of the first declarations of their names
    among some blocks, but for mentions that are lost. -/
structure DescribesFirst (c : GraphCompilation) (bs : List Block) (lost : List Mention) :
    Prop where
  componentSite : ∀ name, c.sourceMap.get? (.component name) =
    (occurrences .component name bs).head?.map Prod.fst
  facetSite : ∀ name, c.sourceMap.get? (.facet name) =
    (occurrences .facet name bs).head?.map Prod.fst
  component : ∀ name, c.graph.component? name = (occurrences .component name bs).head?.map
    fun o => (Component.ofBlocks name o.2).without lost name
  facet : ∀ name, c.graph.facet? name = (occurrences .facet name bs).head?.map
    fun o => (Facet.ofBlocks name o.2).without lost name

variable {loader : Loader} {check : BlockCheck} {root dir : Path} {flexible : Bool}
  {closure : Closure}

/-- What a walk finds about names declared more than once was carried by a file, or comes from a
    check of blocks other than the usual one. -/
theorem carried_of_nameCodes {expected : Expectation} (hexpected : expected.wrongKind ∉ nameCodes)
    (h : ∀ v ∈ closure, Closure.Made loader check expected v) {d : Diagnostic}
    (hd : d ∈ closure.diagnostics) (hcode : d.code ∈ nameCodes) :
    d ∈ closure.carried ∨ ∃ b ∈ closure.blocks, d ∈ check b ∧ d ∉ b.check := by
  obtain ⟨v, hv, hd⟩ := List.mem_flatMap.1 hd
  rcases h v hv with ⟨request, rfl⟩ | ⟨path, f, -, rfl⟩
  · rw [Visit.diagnostics, List.mem_singleton] at hd
    have hunreachable : d.code = .unreachableFile := by
      rw [hd, Request.unreachable]
      cases request.importer <;> rfl
    rw [hunreachable] at hcode
    exact absurd hcode (by decide)
  · have hfile : Closure.takeIn check expected path f ∈ closure.files :=
      List.mem_filterMap.2 ⟨_, hv, rfl⟩
    rw [Visit.diagnostics, Closure.takeIn, List.mem_append, List.mem_append] at hd
    rcases hd with (hd | hd) | hd
    · exact .inl (List.mem_flatMap.2 ⟨_, hfile, hd⟩)
    · obtain ⟨b, hb, hd⟩ := List.mem_flatMap.1 hd
      refine .inr ⟨b, List.mem_flatMap.2 ⟨_, hfile, hb⟩, hd, fun husual => ?_⟩
      -- The usual check raises diagnostics of single blocks.
      have hfamily := (Block.local_of_mem_check husual).family
      rw [family_of_nameCodes hcode] at hfamily
      exact absurd hfamily (by decide)
    · split_ifs at hd
      · exact absurd hd List.not_mem_nil
      · rw [List.mem_singleton.1 hd] at hcode
        exact absurd hcode hexpected

/-- The types of a catalogue that describes first declarations, but for mentions that are lost. -/
theorem describesFirst_ofClosure {bs : List Block} {lost : List Mention}
    (hbs : bs = blocksOf (acceptedFiles flexible closure))
    (hcomponent : ∀ name, (ofClosure flexible closure).graph.component? name =
      (firstComponent bs name).map (Component.without lost name))
    (hfacet : ∀ name, (ofClosure flexible closure).graph.facet? name =
      (firstFacet bs name).map (Facet.without lost name)) :
    (ofClosure flexible closure).DescribesFirst bs lost := by
  subst hbs
  obtain ⟨hcomponents, hfacets, -⟩ := get?_sourceMap_ofClosure flexible closure
  constructor
  case componentSite =>
    intro name
    rw [hcomponents, findSome?_componentSite?, occurrenceSites, List.head?_map]
  case facetSite =>
    intro name
    rw [hfacets, findSome?_facetSite?, occurrenceSites, List.head?_map]
  case component =>
    intro name
    rw [hcomponent, firstComponent_eq, Option.map_map]
    rfl
  case facet =>
    intro name
    rw [hfacet, firstFacet_eq, Option.map_map]
    rfl

/-- Every compilation reports the names declared more than once among the blocks of the accepted
    files, at each of their places, and raises nothing else about them. Its types are described by
    the first declarations of their names alone, but for mentions whose loss is reported. -/
theorem compile_occurrences {c : GraphCompilation}
    (h : compile loader check root dir flexible = .ok c) :
    ∃ closure reports, Closure.walk loader check .types root dir = .ok closure ∧
      c.diagnostics = closure.diagnostics ++ reports ∧
      ReportsNames (blocksOf (acceptedFiles flexible closure)) reports ∧
      (∀ d ∈ closure.diagnostics, d.code ∈ nameCodes →
        d ∈ closure.carried ∨ ∃ b ∈ closure.blocks, d ∈ check b ∧ d ∉ b.check) ∧
      ∃ lost losses, losses <:+ reports ∧
        List.Forall₂ (Explains (firstComponent (blocksOf (acceptedFiles flexible closure)))
          (firstFacet (blocksOf (acceptedFiles flexible closure)))) losses lost ∧
        c.DescribesFirst (blocksOf (acceptedFiles flexible closure)) lost := by
  obtain ⟨closure, hwalk, rfl⟩ := exists_of_map_eq_ok h
  have hcarried := fun d => carried_of_nameCodes (d := d) (by decide) (Closure.visits_of_walk hwalk)
  let bs := blocksOf (acceptedFiles flexible closure)
  let catalogue := Catalogue.ofBlocks bs
  let repeated := catalogue.collisions ++ catalogue.repetitions
  have hnames : ReportsNames bs repeated := Catalogue.reportsNames bs
  have hgather : gather flexible closure = (catalogue, closure.diagnostics ++ repeated) := by
    simp only [gather, repeated, catalogue, bs, List.append_assoc]
  by_cases hresolves : flexible = true ∨ Diagnostic.anySevere (gather flexible closure).2 = false
  · have hsettle := settle_of_resolves hresolves
    rw [hgather] at hsettle
    obtain ⟨lost, hlosses, hcomponent, hfacet⟩ := catalogue.exists_left
    rw [Catalogue.component?_ofBlocks, Catalogue.facet?_ofBlocks] at hlosses
    have hothers : ∀ d ∈ catalogue.resolve.2, d.code ∉ nameCodes :=
      ((List.forall₂_and_left _ _).1 (hlosses.imp fun _ _ h => ⟨h.code_not_mem, h⟩)).1
    refine ⟨closure, repeated ++ catalogue.resolve.2, hwalk, ?_, hnames.append hothers, hcarried,
      lost, catalogue.resolve.2, List.suffix_append _ _, hlosses, ?_⟩
    · rw [ofClosure, hgather, hsettle]
      exact List.append_assoc _ _ _
    · refine describesFirst_ofClosure rfl (fun name => ?_) fun name => ?_
      · rw [ofClosure, hgather, hsettle, Catalogue.component?_graph, hcomponent,
          Catalogue.component?_ofBlocks]
      · rw [ofClosure, hgather, hsettle, Catalogue.facet?_graph, hfacet,
          Catalogue.facet?_ofBlocks]
  · -- Nothing is resolved, and nothing is lost.
    have hsettle : settle flexible (gather flexible closure) = gather flexible closure := by
      rw [not_or, Bool.not_eq_true, Bool.not_eq_false] at hresolves
      rw [settle, hresolves.2, hresolves.1]
      rfl
    rw [hgather] at hsettle
    refine ⟨closure, repeated, hwalk, ?_, hnames, hcarried, [], [], List.nil_suffix, .nil, ?_⟩
    · rw [ofClosure, hgather, hsettle]
    · refine describesFirst_ofClosure rfl (fun name => ?_) fun name => ?_
      · rw [ofClosure, hgather, hsettle, Catalogue.component?_graph, Catalogue.component?_ofBlocks,
          Component.without_nil, Option.map_id_fun, id_eq]
      · rw [ofClosure, hgather, hsettle, Catalogue.facet?_graph, Catalogue.facet?_ofBlocks,
          Facet.without_nil, Option.map_id_fun, id_eq]

/-- A machine declared twice as a component, and once as a facet. -/
def repeatedly : FileDefinition :=
  let file : Path := ⟨"repeatedly.graph"⟩
  .ofBlocks file
    [.declaration ⟨file, 1⟩ .component "VM" [.property ⟨file, 2⟩ "installer" "target"],
      .declaration ⟨file, 4⟩ .facet "VM" [],
      .declaration ⟨file, 6⟩ .component "VM" [.property ⟨file, 7⟩ "installer" "script"]]

/-- All three places are reported; the machine is the first one. -/
theorem compile_occurrences_repeatedly :
    ∃ c, compile (FileStore.empty.insert repeatedly).loader Block.check repeatedly.file ⟨""⟩ true =
        .ok c ∧
      ∃ reports, ReportsNames repeatedly.blocks reports ∧
        (reports.filter fun d =>
          d.code = .conflictingName ∧ d.details.head? = some ⟨.conflicting, "VM"⟩).length = 3 ∧
        ∃ lost, c.DescribesFirst repeatedly.blocks lost := by
  have himports : repeatedly.imports = [] := rfl
  have h := compile_single himports Block.check ⟨""⟩ true
  obtain ⟨closure, reports, hwalk, -, hnames, -, lost, -, -, -, hfirst⟩ := compile_occurrences h
  rw [FileStore.walk_single repeatedly Block.check .types ⟨""⟩ himports] at hwalk
  obtain rfl := Except.ok.inj hwalk
  refine ⟨_, h, reports, hnames, ?_, lost, hfirst⟩
  rw [hnames.conflicts.each, List.length_map]
  rfl

end GraphCompilation

end Deployment
