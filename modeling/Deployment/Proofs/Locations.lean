import Deployment.Proofs.GraphCompilation.Clean
import Deployment.Proofs.InstanceCompilation.Paths

/-!
# Diagnostics and files

What the compilations raise themselves, beside the diagnostics that files carry, is about
declarations, and a diagnostic tells where they are: it names a file. Nothing names the file of a
start that is not there, as no import asked for it (`Closure.RootMissing`). And no file is named
where a copy meets an instance of its name, although both were declared somewhere.

* `Closure.hasLocation_of_mem_raised`: what a walk raises;
* `GraphCompilation.hasLocation_eq_false_iff`, `InstanceCompilation.hasLocation_eq_false_iff`: what
  is raised against declarations;
* `compile_hasLocation_iff`: which diagnostics of the two compilations name no file.
-/

namespace Deployment

namespace Diagnostic

/-- A diagnostic at a place names its file. -/
@[simp]
theorem hasLocation_located (d : Diagnostic) (site : Site) :
    (d.located site).hasLocation = true := by
  simp [hasLocation, find?, located, add, Detail.file]

@[simp]
theorem hasLocation_found (site : Site) (code : Code) (details : List Detail) :
    (found site code details).hasLocation = true :=
  hasLocation_located _ _

theorem Local.hasLocation {d : Diagnostic} (h : d.Local) : d.hasLocation = true := by
  obtain ⟨site, code, details, rfl, -⟩ := h
  exact hasLocation_found site code details

theorem Linking.hasLocation {d : Diagnostic} (h : d.Linking) : d.hasLocation = true := by
  obtain ⟨site, code, details, rfl, -⟩ := h
  exact hasLocation_found site code details

end Diagnostic

/-! ### What a walk raises -/

namespace Closure

variable {loader : Loader} {check : BlockCheck} {expected : Expectation} {root dir : Path}
  {c : Closure} {d : Diagnostic}

/-- The report of a start that is not there. -/
def RootMissing (loader : Loader) (root : Path) (d : Diagnostic) : Prop :=
  loader.has root.normalize = false ∧ d = Request.unreachable ⟨root.normalize, none⟩

theorem RootMissing.hasLocation (h : RootMissing loader root d) : d.hasLocation = false := by
  rw [h.2]
  rfl

/-- What is put on the queue was asked for by an import. -/
theorem mem_of_mem_enqueue {visited : List Path} {queue : List Request}
    {imports : List (String × Site)} {r : Request} (h : r ∈ enqueue dir visited queue imports)
    (hr : r.importer = none) : r ∈ queue := by
  induction imports generalizing queue with
  | nil => exact h
  | cons i imports ih =>
    rw [enqueue] at h
    split_ifs at h
    · exact ih h
    · rcases List.mem_append.1 (ih h) with h | h
      · exact h
      · rw [List.mem_singleton.1 h] at hr
        cases hr

/-- A missing path that no import asked for stood on the queue from the start. -/
theorem missing_of_walkFrom {fuel : Nat} {visited : List Path} {queue : List Request}
    (h : walkFrom loader check expected dir fuel visited queue = .ok c) {r : Request}
    (hmem : .missing r ∈ c) (hr : r.importer = none) : loader.has r.path = false ∧ r ∈ queue := by
  induction fuel generalizing visited queue c with
  | zero =>
    cases queue with
    | nil =>
      cases h
      cases hmem
    | cons => cases h
  | succ fuel ih =>
    cases queue with
    | nil =>
      cases h
      cases hmem
    | cons request queue =>
      rw [walkFrom] at h
      split at h
      · split at h
        · cases h
        · obtain ⟨rest, hrest, rfl⟩ := exists_of_map_eq_ok h
          rcases List.mem_cons.1 hmem with heq | hmem
          · cases heq
          · obtain ⟨hhas, hqueue⟩ := ih hrest hmem
            exact ⟨hhas, List.mem_cons_of_mem _ (mem_of_mem_enqueue hqueue hr)⟩
      · next hhas =>
        obtain ⟨rest, hrest, rfl⟩ := exists_of_map_eq_ok h
        rcases List.mem_cons.1 hmem with heq | hmem
        · cases heq
          exact ⟨eq_false_of_ne_true hhas, List.mem_cons_self⟩
        · exact (ih hrest hmem).imp_right (List.mem_cons_of_mem _)

/-- The walk names the file of whatever it raises, unless the start is missing. -/
theorem hasLocation_of_mem_raised
    (h : walk loader Block.check expected root dir = .ok c) (hd : d ∈ c.raised) :
    d.hasLocation = true ∨ RootMissing loader root d := by
  obtain ⟨v, hv, hd⟩ := List.mem_flatMap.1 hd
  rcases visits_of_walk h v hv with ⟨request, rfl⟩ | ⟨path, f, -, rfl⟩
  · obtain rfl := List.mem_singleton.1 hd
    cases hrequest : request.importer with
    | some site =>
      left
      rw [Request.unreachable, hrequest]
      exact Diagnostic.hasLocation_located _ _
    | none =>
      right
      obtain ⟨hhas, hqueue⟩ := missing_of_walkFrom h hv hrequest
      obtain rfl := List.mem_singleton.1 hqueue
      exact ⟨hhas, rfl⟩
  · left
    rw [Visit.raised, raised_takeIn, List.mem_append, List.mem_flatMap] at hd
    rcases hd with ⟨b, -, hd⟩ | hd
    · exact (Block.local_of_mem_check hd).hasLocation
    · split_ifs at hd
      · cases hd
      · rw [List.mem_singleton.1 hd]
        rfl

end Closure

/-! ### What is raised against declarations of types -/

namespace GraphCompilation

variable {loader : Loader} {check : BlockCheck} {flexible : Bool} {closure : Closure}

/-- What resolution reports, if it takes place. -/
def resolution (flexible : Bool) (closure : Closure) : List Diagnostic :=
  if !flexible && Diagnostic.anySevere (gather flexible closure).2 then []
  else (gather flexible closure).1.resolve.2

/-- What the compilation of a closure raises itself, beside what the files carry. -/
def raised (flexible : Bool) (closure : Closure) : List Diagnostic :=
  closure.raised ++ (gather flexible closure).1.collisions ++
    (gather flexible closure).1.repetitions ++ resolution flexible closure

theorem diagnostics_ofClosure_perm
    (hmade : ∀ v ∈ closure, Closure.Made loader check .types v) :
    (ofClosure flexible closure).diagnostics.Perm (closure.carried ++ raised flexible closure) := by
  have hsettle : (ofClosure flexible closure).diagnostics =
      (gather flexible closure).2 ++ resolution flexible closure := by
    change (settle flexible (gather flexible closure)).2 = _
    rw [settle, resolution]
    split_ifs
    · rw [List.append_nil]
    · rfl
  rw [hsettle, raised, ← List.append_assoc, ← List.append_assoc, ← List.append_assoc]
  exact (((Closure.diagnostics_perm hmade).append_right _).append_right _).append_right _

/-- The compilation names the file of whatever it raises, unless the start is missing. -/
theorem hasLocation_eq_false_iff {root dir : Path}
    (h : Closure.walk loader Block.check .types root dir = .ok closure) :
    ∀ d ∈ raised flexible closure,
      d.hasLocation = false ↔ Closure.RootMissing loader root d := by
  intro d hd
  refine ⟨fun hnone => ?_, Closure.RootMissing.hasLocation⟩
  by_contra hroot
  refine Bool.false_ne_true (hnone.symm.trans ?_)
  rcases List.mem_append.1 hd with hd | hd
  · rcases List.mem_append.1 hd with hd | hd
    · rcases List.mem_append.1 hd with hd | hd
      · exact (Closure.hasLocation_of_mem_raised h hd).resolve_right hroot
      · exact (Catalogue.linking_of_mem_collisions hd).hasLocation
    · exact (Catalogue.linking_of_mem_repetitions hd).hasLocation
  · rw [resolution] at hd
    split_ifs at hd
    · exact nomatch hd
    · exact (Catalogue.linking_of_mem_resolve hd).hasLocation

end GraphCompilation

/-! ### What is raised against instances -/

namespace InstanceCompilation

variable {loader : Loader} {g : TypeGraph} {closure : Closure} {ts : List (Tree Draft)}
  {d : Diagnostic}

theorem hasLocation_of_mem_unknownComponents (h : d ∈ unknownComponents g ts) :
    d.hasLocation = true := by
  obtain ⟨draft, -, h⟩ := List.mem_flatMap.1 h
  rw [unknownComponent] at h
  split_ifs at h
  · cases h
  · rw [List.mem_singleton.1 h, Diagnostic.hasLocation_found]

theorem hasLocation_of_mem_repetitions (h : d ∈ repetitions ts) : d.hasLocation = true := by
  obtain ⟨path, -, h⟩ := List.mem_flatMap.1 h
  dsimp only at h
  split_ifs at h
  · exact nomatch h
  · obtain ⟨p, -, rfl⟩ := List.mem_map.1 h
    exact Diagnostic.hasLocation_found _ _ _

/-- A clash names the path of a copy, and no file. -/
theorem hasLocation_of_mem_clashes (h : d ∈ clashes ts) : d.hasLocation = false := by
  obtain ⟨path, -, rfl⟩ := List.mem_map.1 h
  rfl

/-- Only a clash has the code of one. -/
theorem mem_clashes_of_code (hmade : ∀ v ∈ closure, Closure.Made loader Block.check .instances v)
    (hd : d ∈ raised g closure) (hcode : d.code = .conflictingInferredInstance) :
    d ∈ clashes (settledDrafts g closure) := by
  have hother : ∀ {code : Code}, d.code = code → code ≠ .conflictingInferredInstance → False :=
    fun h hne => hne (h.symm.trans hcode)
  rcases List.mem_append.1 hd with hd | hd
  · rcases List.mem_append.1 hd with hd | hd
    · exfalso
      rcases List.mem_append.1 hd with hd | hd
      · rcases Closure.mem_raised hmade hd with h | h | h
        · exact hother h (by decide)
        · exact hother h (by decide)
        · rcases h.family with h | h <;> rw [hcode] at h <;> exact nomatch h
      · exact hother (code_of_mem_unknownComponents hd) (by decide)
    · exact hd
  · exact (hother (code_of_mem_repetitions hd) (by decide)).elim

/-- The compilation names the file of whatever it raises, unless the start is missing or a copy
    meets an instance of its name. -/
theorem hasLocation_eq_false_iff {root dir : Path}
    (h : Closure.walk loader Block.check .instances root dir = .ok closure) :
    ∀ d ∈ raised g closure, d.hasLocation = false ↔
      Closure.RootMissing loader root d ∨ d.code = .conflictingInferredInstance := by
  intro d hd
  constructor
  · intro hnone
    have hnot : d.hasLocation ≠ true := ne_true_of_eq_false hnone
    rcases List.mem_append.1 hd with hd | hd
    · rcases List.mem_append.1 hd with hd | hd
      · rcases List.mem_append.1 hd with hd | hd
        · exact .inl ((Closure.hasLocation_of_mem_raised h hd).resolve_left hnot)
        · exact absurd (hasLocation_of_mem_unknownComponents hd) hnot
      · exact .inr (code_of_mem_clashes hd)
    · exact absurd (hasLocation_of_mem_repetitions hd) hnot
  · rintro (hroot | hcode)
    · exact hroot.hasLocation
    · exact hasLocation_of_mem_clashes (mem_clashes_of_code (Closure.visits_of_walk h) hd hcode)

end InstanceCompilation

/-! ### The compilations -/

/-- A compilation of types names the file of whatever it raises beside what the files carry, unless
    the start is missing; one of instances does so too, unless a copy meets an instance of its
    name. -/
theorem compile_hasLocation_iff (loader : Loader) (root dir : Path) :
    (∀ flexible c, GraphCompilation.compile loader Block.check root dir flexible = .ok c →
      ∃ closure, Closure.walk loader Block.check .types root dir = .ok closure ∧
        c.diagnostics.Perm (closure.carried ++ GraphCompilation.raised flexible closure) ∧
        ∀ d ∈ GraphCompilation.raised flexible closure,
          d.hasLocation = false ↔ Closure.RootMissing loader root d) ∧
    ∀ g c, InstanceCompilation.compile loader Block.check g root dir = .ok c →
      ∃ closure, Closure.walk loader Block.check .instances root dir = .ok closure ∧
        c.diagnostics.Perm (closure.carried ++ InstanceCompilation.raised g closure) ∧
        ∀ d ∈ InstanceCompilation.raised g closure, d.hasLocation = false ↔
          Closure.RootMissing loader root d ∨ d.code = .conflictingInferredInstance := by
  constructor
  · intro flexible c h
    obtain ⟨closure, hwalk, rfl⟩ := exists_of_map_eq_ok h
    have hmade := Closure.visits_of_walk hwalk
    exact ⟨closure, hwalk, GraphCompilation.diagnostics_ofClosure_perm hmade,
      GraphCompilation.hasLocation_eq_false_iff hwalk⟩
  · intro g c h
    obtain ⟨closure, hwalk, rfl⟩ := exists_of_map_eq_ok h
    have hmade := Closure.visits_of_walk hwalk
    exact ⟨closure, hwalk, InstanceCompilation.diagnostics_ofClosure_perm hmade,
      InstanceCompilation.hasLocation_eq_false_iff hwalk⟩

section

open InstanceCompilation GraphCompilation

/-- A graph with a cycle and an unknown name, and two copies of which one meets an instance. -/
theorem compile_hasLocation_iff_tangled_twins :
    (∃ c closure, GraphCompilation.compile (FileStore.empty.insert tangled).loader Block.check
          tangled.file ⟨""⟩ true = .ok c ∧
        c.diagnostics.Perm (closure.carried ++ GraphCompilation.raised true closure) ∧
        ∀ d ∈ GraphCompilation.raised true closure, d.hasLocation = false ↔
          Closure.RootMissing (FileStore.empty.insert tangled).loader tangled.file d) ∧
      ∃ c closure, InstanceCompilation.compile (FileStore.empty.insert twins).loader Block.check
          machines twins.file ⟨""⟩ = .ok c ∧
        c.diagnostics.Perm (closure.carried ++ InstanceCompilation.raised machines closure) ∧
        ∀ d ∈ InstanceCompilation.raised machines closure, d.hasLocation = false ↔
          Closure.RootMissing (FileStore.empty.insert twins).loader twins.file d ∨
            d.code = .conflictingInferredInstance := by
  have htypes := GraphCompilation.compile_single (d := tangled) rfl Block.check ⟨""⟩ true
  have hinstances := InstanceCompilation.compile_single (d := twins) rfl Block.check machines ⟨""⟩
  obtain ⟨types, -, htypes'⟩ := (compile_hasLocation_iff _ _ _).1 _ _ htypes
  obtain ⟨instances, -, hinstances'⟩ := (compile_hasLocation_iff _ _ _).2 _ _ hinstances
  exact ⟨⟨_, types, htypes, htypes'⟩, _, instances, hinstances, hinstances'⟩

/-- The second copy of `web` meets the instance `web2`. Of both it is known where they were
    declared, but the report names no file. -/
theorem compile_no_location_twins :
    ∃ c d, InstanceCompilation.compile (FileStore.empty.insert twins).loader Block.check machines
        twins.file ⟨""⟩ = .ok c ∧
      twins.diagnostics = [] ∧ c.diagnostics = [d] ∧ d.code = .conflictingInferredInstance ∧
        d.hasLocation = false :=
  ⟨_, ⟨.conflictingInferredInstance, [⟨.instancePath, "/web2"⟩]⟩,
    InstanceCompilation.compile_single (d := twins) rfl Block.check machines ⟨""⟩, rfl,
    by decide +kernel, rfl, rfl⟩

end

end Deployment
