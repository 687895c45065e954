import Deployment.Closure
import Deployment.Proofs.Block.Check

/-!
# What a walk finds

The diagnostics of a closure are those that its files carry and those that the walk raises.

* `Closure.visits_of_walk`: what became of every request;
* `Closure.diagnostics_perm`: the two parts of what is found;
* `Closure.mem_raised`: what the walk raises when it checks blocks in the usual way;
* `Closure.carried_of_runtimeModel`: what can only have been carried;
* `Closure.check_of_walk`, `Closure.check_eq_nil_of_walk`: if nothing severe is found, or nothing
  at all, the check of no block of a file finds anything severe, or anything.
-/

namespace Deployment

/-- What comes of a result comes of a success. -/
theorem exists_of_map_eq_ok {ε α β : Type} {f : α → β} {result : Except ε α} {b : β}
    (h : result.map f = .ok b) : ∃ a, result = .ok a ∧ f a = b := by
  cases result with
  | error e => exact nomatch h
  | ok a => exact ⟨a, rfl, Except.ok.inj h⟩

/-- What was found in a file beside the diagnostics that it carries. -/
def LoadedFile.raised (f : LoadedFile) : List Diagnostic :=
  f.diagnostics.drop f.definition.diagnostics.length

/-- What was found on a visit beside the diagnostics that the file carries. -/
def Visit.raised : Visit → List Diagnostic
  | .missing request => [request.unreachable]
  | .loaded file => file.raised

namespace Closure

/-- The diagnostics that the files of a closure carry. -/
def carried (c : Closure) : List Diagnostic := c.files.flatMap (·.definition.diagnostics)

/-- What the walk raised. -/
def raised (c : Closure) : List Diagnostic := c.flatMap Visit.raised

/-- The blocks of the files of a closure, file after file. -/
def blocks (c : Closure) : List Block := c.files.flatMap (·.definition.blocks)

/-- A visit as the walk makes it: to a missing file, or to a file as it is taken in. -/
def Made (loader : Loader) (check : BlockCheck) (expected : Expectation) (v : Visit) : Prop :=
  (∃ request, v = .missing request) ∨
    ∃ path d, loader.load path = .ok d ∧ v = .loaded (takeIn check expected path d)

variable {loader : Loader} {check : BlockCheck} {expected : Expectation} {root dir : Path}
  {c : Closure}

theorem visits_of_walkFrom {fuel : Nat} {visited : List Path} {queue : List Request}
    (h : walkFrom loader check expected dir fuel visited queue = .ok c) :
    ∀ v ∈ c, Made loader check expected v := by
  induction fuel generalizing visited queue c with
  | zero =>
    cases queue with
    | nil =>
      cases h
      exact fun v hv => nomatch hv
    | cons => exact nomatch h
  | succ fuel ih =>
    cases queue with
    | nil =>
      cases h
      exact fun v hv => nomatch hv
    | cons request queue =>
      rw [walkFrom] at h
      split at h
      · split at h
        · exact nomatch h
        · next d hload =>
          -- The file is there: the rest of the walk comes after its visit.
          obtain ⟨rest, hrest, rfl⟩ := exists_of_map_eq_ok h
          exact List.forall_mem_cons.2 ⟨.inr ⟨_, d, hload, rfl⟩, ih hrest⟩
      · obtain ⟨rest, hrest, rfl⟩ := exists_of_map_eq_ok h
        exact List.forall_mem_cons.2 ⟨.inl ⟨request, rfl⟩, ih hrest⟩

/-- Every visit is to a missing file, or to a file as it is taken in. -/
theorem visits_of_walk (h : walk loader check expected root dir = .ok c) :
    ∀ v ∈ c, Made loader check expected v :=
  visits_of_walkFrom h

theorem raised_takeIn (path : Path) (d : FileDefinition) :
    (takeIn check expected path d).raised = d.blocks.flatMap check ++
      (if expected.accepted.contains d.kind then []
        else [⟨expected.wrongKind, [.file path]⟩]) := by
  rw [LoadedFile.raised, takeIn, List.append_assoc, List.drop_left]

/-- What is found is what the files carry and what the walk raises. -/
theorem diagnostics_perm (h : ∀ v ∈ c, Made loader check expected v) :
    c.diagnostics.Perm (c.carried ++ c.raised) := by
  induction c with
  | nil => exact .refl _
  | cons v c ih =>
    have ih := ih fun v hv => h v (List.mem_cons_of_mem _ hv)
    rcases h v List.mem_cons_self with ⟨request, rfl⟩ | ⟨path, d, -, rfl⟩
    · exact (ih.cons _).trans List.perm_middle.symm
    · have hsplit : (takeIn check expected path d).diagnostics =
          d.diagnostics ++ (takeIn check expected path d).raised := by
        rw [raised_takeIn, takeIn, List.append_assoc]
      have hall : (diagnostics (.loaded (takeIn check expected path d) :: c)) =
          d.diagnostics ++ (takeIn check expected path d).raised ++ diagnostics c := by
        rw [← hsplit]
        rfl
      rw [hall]
      refine (ih.append_left _).trans ?_
      change (d.diagnostics ++ _ ++ (carried c ++ raised c)).Perm
        ((d.diagnostics ++ carried c) ++ ((takeIn check expected path d).raised ++ raised c))
      rw [List.append_assoc, List.append_assoc]
      refine List.Perm.append_left _ ?_
      rw [← List.append_assoc, ← List.append_assoc]
      exact List.perm_append_comm.append_right _

/-- What the walk raises is that a file is missing, that it is of the wrong kind, or something
    about a single block. -/
theorem mem_raised (h : ∀ v ∈ c, Made loader Block.check expected v) {d : Diagnostic}
    (hd : d ∈ c.raised) :
    d.code = .unreachableFile ∨ d.code = expected.wrongKind ∨ d.Local := by
  obtain ⟨v, hv, hd⟩ := List.mem_flatMap.1 hd
  rcases h v hv with ⟨request, rfl⟩ | ⟨path, f, -, rfl⟩
  · left
    rw [Visit.raised, List.mem_singleton] at hd
    rw [hd, Request.unreachable]
    cases request.importer <;> rfl
  · right
    rw [Visit.raised, raised_takeIn, List.mem_append, List.mem_flatMap] at hd
    rcases hd with ⟨b, -, hd⟩ | hd
    · exact .inr (Block.local_of_mem_check hd)
    · split_ifs at hd
      · exact nomatch hd
      · left
        rw [List.mem_singleton.1 hd]

/-- Whatever is of a family that belongs to the checks of models was carried by a file. -/
theorem carried_of_runtimeModel (h : ∀ v ∈ c, Made loader Block.check expected v)
    (hkind : expected.wrongKind.family = .conversion) {d : Diagnostic} (hd : d ∈ c.diagnostics)
    (hfamily : d.code.family = .runtimeModel) : d ∈ c.carried := by
  refine (List.mem_append.1 ((diagnostics_perm h).mem_iff.1 hd)).resolve_right fun hraised => ?_
  rcases mem_raised h hraised with hcode | hcode | hlocal
  · rw [hcode] at hfamily
    exact nomatch hfamily
  · rw [hcode, hkind] at hfamily
    exact nomatch hfamily
  · rcases hlocal.family with hlocal | hlocal
    · exact nomatch hlocal.symm.trans hfamily
    · exact nomatch hlocal.symm.trans hfamily

/-- If nothing severe is found, the check of no block of a file finds anything severe. -/
theorem check_of_walk (h : ∀ v ∈ c, Made loader check expected v)
    (hc : Diagnostic.anySevere c.diagnostics = false) {f : LoadedFile} (hf : f ∈ c.files)
    {b : Block} (hb : b ∈ f.definition.blocks) : Diagnostic.anySevere (check b) = false := by
  obtain ⟨v, hv, hfile⟩ := List.mem_filterMap.1 hf
  rcases h v hv with ⟨request, rfl⟩ | ⟨path, d, -, rfl⟩
  · exact nomatch hfile
  · cases hfile
    refine List.any_eq_false.2 fun e he => List.any_eq_false.1 hc e ?_
    refine List.mem_flatMap_of_mem hv ?_
    exact List.mem_append_left _ (List.mem_append_right _ (List.mem_flatMap_of_mem hb he))

/-- If nothing at all is found, the check of no block finds anything. -/
theorem check_eq_nil_of_walk (h : ∀ v ∈ c, Made loader check expected v) (hc : c.diagnostics = [])
    {b : Block} (hb : b ∈ c.blocks) : check b = [] := by
  obtain ⟨f, hf, hb⟩ := List.mem_flatMap.1 hb
  obtain ⟨v, hv, hfile⟩ := List.mem_filterMap.1 hf
  have hnone := List.flatMap_eq_nil_iff.1 hc v hv
  rcases h v hv with ⟨request, rfl⟩ | ⟨path, d, -, rfl⟩
  · exact nomatch hfile
  · cases hfile
    have hchecks := (List.append_eq_nil_iff.1 (List.append_eq_nil_iff.1 hnone).1).2
    exact List.flatMap_eq_nil_iff.1 hchecks b hb

end Closure

end Deployment
