import Deployment.Proofs.Closure.Walk

/-!
# How often a file is taken in

A walk goes once through every path that it reaches, and tells paths apart by how they read. A store
keeps a file under the normal form of its path. Targets of imports are brought to normal form, but
for remote ones, which are kept as they are written. So a file of a store is taken in once for each
way in which reachable paths spell its key, and more than once only if a remote target spells a key
that it is not.

* `FileStore.Registered`: files are kept under their own paths;
* `FileStore.Plain`: no remote target that is not in normal form;
* `Closure.walk_takes_once`: which files a walk takes in at most once.
-/

namespace Deployment

namespace FileStore

variable {s : FileStore} {p q : Path}

/-- Every file is kept under its own path. -/
def Registered (s : FileStore) : Prop := ∀ k d, s.files.get? k = some d → key d.file = k

/-- No file imports a remote target that reads otherwise than its normal form. -/
def Plain (s : FileStore) : Prop :=
  ∀ d ∈ s.files.values, ∀ i ∈ d.imports, Path.isRemote (Text.trim i.1) = true →
    (Path.mk (Text.trim i.1)).same (Path.mk (Text.trim i.1)).normalize = true

instance (s : FileStore) : Decidable s.Plain :=
  inferInstanceAs (Decidable (∀ d ∈ s.files.values, ∀ i ∈ d.imports, _ → _))

theorem registered_empty : empty.Registered := fun _ _ h => nomatch h

theorem Registered.insert (h : s.Registered) (d : FileDefinition) : (s.insert d).Registered := by
  intro k d' hget
  rw [FileStore.insert, Table.get?_insert] at hget
  split at hget
  · next hk =>
    cases hget
    exact hk
  · exact h k d' hget

theorem Registered.insertFault (h : s.Registered) (path : Path) (fault : Fault) :
    (s.insertFault path fault).Registered :=
  h

/-- Paths that read like their normal forms read alike if they have the same key. -/
theorem same_of_key (hp : p.same p.normalize = true) (hq : q.same q.normalize = true)
    (hkey : key p = key q) : p.same q = true := by
  rw [Path.same_iff] at hp hq ⊢
  rw [hp, hq, show p.normalize = q.normalize from congrArg Path.mk hkey]

theorem same_normalize (p : Path) : p.normalize.same p.normalize.normalize = true := by
  rw [Path.normalize_normalize]
  exact Path.same_iff.2 rfl

/-- Whatever is reachable from a plain store reads like its normal form. -/
theorem Plain.same_normalize (h : s.Plain) {root dir : Path}
    (hp : s.loader.Reachable root dir p) : p.same p.normalize = true := by
  cases hp with
  | root => exact FileStore.same_normalize root
  | @imported _ d uri site _ _ hload himport =>
    rw [Path.resolve]
    split
    · next hremote => exact h d (mem_values_of_load hload) (uri, site) himport hremote
    · exact FileStore.same_normalize _

end FileStore

namespace Closure

open FileStore

variable {s : FileStore} {check : BlockCheck} {expected : Expectation} {root dir : Path}
  {c : Closure}

/-- How often the file kept under a key was taken in. -/
def timesTaken (c : Closure) (k : String) : Nat :=
  (c.files.map fun f => key f.definition.file).count k

/-- The requests that were answered by the file kept under a key. -/
def requestsFor (s : FileStore) (rs : List Request) (k : String) : List Request :=
  rs.filter fun r => s.has r.path && key r.path == k

theorem mem_requestsFor {rs : List Request} {r : Request} {k : String} :
    r ∈ requestsFor s rs k ↔ r ∈ rs ∧ s.has r.path = true ∧ key r.path = k := by
  rw [requestsFor, List.mem_filter, Bool.and_eq_true, beq_iff_eq]

/-- A file is taken in once for each request that it answers. -/
theorem timesTaken_eq (hs : s.Registered) {rs : List Request}
    (h : Complete s.loader check expected root dir rs c) (k : String) :
    c.timesTaken k = (requestsFor s rs k).length := by
  have hkeys : ∀ {rs : List Request} {fs : List LoadedFile}, List.Forall₂
      (fun r f => ∃ d, s.loader.load r.path = .ok d ∧ f = takeIn check expected r.path d) rs fs →
      fs.map (fun f => key f.definition.file) = rs.map fun r => key r.path := by
    intro rs fs hfs
    induction hfs with
    | nil => rfl
    | cons hf _ ih =>
      obtain ⟨d, hload, rfl⟩ := hf
      rw [List.map_cons, List.map_cons, ih]
      exact congrArg (· :: _) (hs _ d (get?_of_load hload))
  rw [timesTaken, hkeys h.files, List.count, List.countP_map, List.countP_filter,
    List.countP_eq_length_filter, requestsFor]
  congr 1
  refine List.filter_congr fun r _ => ?_
  rw [Function.comp_apply, Bool.and_comm]
  rfl

/-- A list whose elements differ in some respect has at most one exactly if all agree in it. -/
theorem length_le_one_iff_of_nodup {α β : Type} {f : α → β} {l : List α} (h : (l.map f).Nodup) :
    l.length ≤ 1 ↔ ∀ a ∈ l, ∀ b ∈ l, f a = f b := by
  match l with
  | [] => simp
  | [a] => simp
  | a :: b :: rest =>
    have hne : f a ≠ f b := fun heq => (List.nodup_cons.1 h).1 (heq ▸ List.mem_cons_self)
    constructor
    · intro hlength
      simp at hlength
    · intro hall
      exact absurd (hall a List.mem_cons_self b (List.mem_cons_of_mem _ List.mem_cons_self)) hne

/-- A file is taken in at most once exactly if all reachable paths with its key read alike. -/
theorem timesTaken_le_one_iff (hs : s.Registered) {rs : List Request}
    (h : Complete s.loader check expected root dir rs c) (k : String) :
    c.timesTaken k ≤ 1 ↔ ∀ p q, s.loader.Reachable root dir p → s.loader.Reachable root dir q →
      s.has p = true → key p = k → key q = k → p.same q = true := by
  -- Requests differ in how their paths read.
  have hnodup : ((requestsFor s rs k).map Request.key).Nodup :=
    h.order.nodup.1.sublist (List.filter_sublist.map _)
  rw [timesTaken_eq hs h, length_le_one_iff_of_nodup hnodup]
  constructor
  · intro hall p q hp hq hhas hkp hkq
    have hanswered : ∀ p, s.loader.Reachable root dir p → s.has p = true → key p = k →
        ∃ r ∈ requestsFor s rs k, r.path.same p = true := by
      intro p hp hhas hk
      obtain ⟨r, hr, hsame⟩ := h.order.exists_same s.alike_loader hp
      refine ⟨r, mem_requestsFor.2 ⟨hr, ?_, (key_of_same hsame).trans hk⟩, hsame⟩
      exact (s.alike_loader.has _ _ hsame).trans hhas
    have hhas' : s.has q = true := by
      rw [has, hkq, ← hkp]
      exact hhas
    obtain ⟨r, hr, hsame⟩ := hanswered p hp hhas hkp
    obtain ⟨r', hr', hsame'⟩ := hanswered q hq hhas' hkq
    rw [Path.same_iff] at hsame hsame' ⊢
    exact hsame.symm.trans ((hall r hr r' hr').trans hsame')
  · intro hsame r hr r' hr'
    obtain ⟨hmem, hhas, hk⟩ := mem_requestsFor.1 hr
    obtain ⟨hmem', -, hk'⟩ := mem_requestsFor.1 hr'
    exact Path.same_iff.1 (hsame _ _ (h.reachable r hmem) (h.reachable r' hmem') hhas hk hk')

/-- A walk takes a registered file in at most once exactly if all reachable paths with its key read
    alike. So it does if no file imports a remote target that is not in normal form. -/
theorem walk_takes_once (hs : s.Registered)
    (h : walk s.loader check expected root dir = .ok c) :
    (∀ k, c.timesTaken k ≤ 1 ↔ ∀ p q, s.loader.Reachable root dir p →
      s.loader.Reachable root dir q → s.has p = true → key p = k → key q = k →
        p.same q = true) ∧
      (s.Plain → ∀ k, c.timesTaken k ≤ 1) := by
  obtain ⟨hexact, hstore⟩ := walk_exact check expected root dir
  obtain ⟨halike, hlimit⟩ := hstore s
  obtain ⟨rs, hrs⟩ := (hexact s.loader halike hlimit).2.2 c h
  refine ⟨timesTaken_le_one_iff hs hrs, fun hplain k => ?_⟩
  rw [timesTaken_le_one_iff hs hrs]
  intro p q hp hq _ hkp hkq
  exact same_of_key (hplain.same_normalize hp) (hplain.same_normalize hq) (hkp.trans hkq.symm)

/-- In the knot, files are imported in several spellings, none of them remote. -/
theorem walk_takes_once_knot :
    knot.Registered ∧ ∃ c, walk knot.loader Block.check .types ⟨"./main.graph"⟩ ⟨""⟩ = .ok c ∧
      ∀ k, c.timesTaken k ≤ 1 := by
  have hregistered : knot.Registered :=
    ((registered_empty.insert _).insert _).insert _
  have hwalk : (walk knot.loader Block.check .types ⟨"./main.graph"⟩ ⟨""⟩).toOption.isSome := by
    decide +kernel
  cases h : walk knot.loader Block.check .types ⟨"./main.graph"⟩ ⟨""⟩ with
  | error e =>
    rw [h] at hwalk
    exact nomatch hwalk
  | ok c => exact ⟨hregistered, c, rfl, (walk_takes_once hregistered h).2 (by decide +kernel)⟩

/-- A file that is imported twice, once in the spelling of a remote target. -/
def respelled : FileStore :=
  let main : Path := ⟨"main.graph"⟩
  let machines : Path := ⟨"machines.graph"⟩
  (FileStore.empty.insert (.ofBlocks main
    [.importOf ⟨main, 1⟩ "machines.graph", .importOf ⟨main, 2⟩ "a://../machines.graph"])).insert
      (.ofBlocks machines [.declaration ⟨machines, 1⟩ .component "VM" []])

/-- The file is taken in twice, and the machine that it declares once is reported as declared
    twice. -/
theorem respelled_taken_twice :
    (walk respelled.loader Block.check .types ⟨"main.graph"⟩ ⟨""⟩).toOption.map
        (·.timesTaken "machines.graph") = some 2 ∧
      (GraphCompilation.compile respelled.loader Block.check ⟨"main.graph"⟩ ⟨""⟩ false).toOption.map
          (·.diagnostics.map (·.code)) =
        some [.alreadyDefinedComponent, .alreadyDefinedComponent] := by
  decide +kernel

end Closure

end Deployment
