import Deployment.Proofs.Closure.BreadthFirst
import Deployment.Proofs.FileStore
import Mathlib.Data.List.Perm.Subperm

/-!
# Walks

A walk goes through the paths that it reaches in breadth-first order, each once, and stops where a
file that is there cannot be loaded (`walk_exact`). Its queue holds the first request for every path
that was asked for and not answered yet (`pending`); when a request is answered, what is left of the
queue and the requests of the file that are new are what is pending then (`pending_append`).

* `Closure.Outcome`: what a walk that goes on from some answered requests comes to;
* `Closure.Complete`: the visits of a walk that comes to an end.
-/

namespace Deployment

namespace Closure

/-! ### The queue -/

/-- Of some requests, those for paths for which none was answered, the first one for each path. -/
def fresh (done : List Request) : List Request → List Request
  | [] => []
  | r :: rs => if isNew done r then r :: fresh (done ++ [r]) rs else fresh done rs

variable {done done' rs as bs queue : List Request} {r : Request}

theorem isNew_congr (h : ∀ k, k ∈ done.map Request.key ↔ k ∈ done'.map Request.key) :
    isNew done = isNew done' := by
  funext r
  rw [Bool.eq_iff_iff, isNew_iff, isNew_iff, h]

theorem fresh_congr (h : ∀ k, k ∈ done.map Request.key ↔ k ∈ done'.map Request.key)
    (rs : List Request) : fresh done rs = fresh done' rs := by
  induction rs generalizing done done' with
  | nil => rfl
  | cons r rs ih =>
    have hmore : ∀ k, k ∈ (done ++ [r]).map Request.key ↔ k ∈ (done' ++ [r]).map Request.key := by
      intro k
      rw [List.map_append, List.map_append, List.mem_append, List.mem_append, h]
    rw [fresh, fresh, isNew_congr h, ih h, ih hmore]

/-- The paths that fresh requests are for. -/
theorem mem_map_key_fresh {k : List Path.Segment} :
    k ∈ (fresh done rs).map Request.key ↔ k ∈ rs.map Request.key ∧ k ∉ done.map Request.key := by
  induction rs generalizing done with
  | nil => simp [fresh]
  | cons r rs ih =>
    rw [fresh]
    split
    · next hnew =>
      rw [isNew_iff] at hnew
      rw [List.map_cons, List.mem_cons, ih, List.map_cons, List.mem_cons, List.map_append,
        List.mem_append, List.map_singleton, List.mem_singleton]
      by_cases hk : k = r.key
      · simp [hk, hnew]
      · simp [hk]
    · next hold =>
      rw [isNew_iff, not_not] at hold
      rw [ih, List.map_cons, List.mem_cons]
      constructor
      · exact fun ⟨hmem, hnot⟩ => ⟨.inr hmem, hnot⟩
      · rintro ⟨rfl | hmem, hnot⟩
        · exact absurd hold hnot
        · exact ⟨hmem, hnot⟩

theorem fresh_append (done as bs : List Request) :
    fresh done (as ++ bs) = fresh done as ++ fresh (done ++ as) bs := by
  induction as generalizing done with
  | nil => rw [List.nil_append, List.append_nil]; rfl
  | cons r as ih =>
    rw [List.cons_append, fresh, fresh]
    split
    · rw [ih, List.append_assoc, List.singleton_append, List.cons_append]
    · next hold =>
      -- The request is for a path that was answered already, so that what comes after it is as new
      -- with it as without.
      rw [isNew_iff, not_not] at hold
      rw [ih]
      congr 1
      refine fresh_congr (fun k => ?_) bs
      simp only [List.map_append, List.map_cons, List.mem_append, List.mem_cons]
      constructor
      · exact fun h => h.imp_right .inr
      · rintro (h | rfl | h)
        · exact .inl h
        · exact .inl hold
        · exact .inr h

theorem head?_fresh (done rs : List Request) : (fresh done rs).head? = rs.find? (isNew done) := by
  induction rs with
  | nil => rfl
  | cons r rs ih =>
    rw [fresh, List.find?_cons]
    cases isNew done r with
    | false => exact ih
    | true => rfl

/-- Once the first of them was answered, the others are fresh. -/
theorem fresh_tail (h : fresh done rs = r :: queue) : fresh (done ++ [r]) rs = queue := by
  induction rs with
  | nil => exact nomatch h
  | cons q rs ih =>
    rw [fresh] at h
    split at h
    · obtain ⟨rfl, rfl⟩ := List.cons.inj h
      rw [fresh, if_neg]
      rw [isNew_iff, not_not]
      simp
    · next hold =>
      rw [isNew_iff, not_not] at hold
      rw [fresh, if_neg, ih h]
      rw [isNew_iff, not_not, List.map_append]
      exact List.mem_append_left _ hold

/-- A file puts those of its requests on the queue that are for paths neither visited nor on the
    queue. -/
theorem enqueue_eq {visited : List Path} {dir : Path}
    (hvisited : ∀ p, visited.any (·.same p) = done.any (·.path.same p)) (queue : List Request)
    (imports : List (String × Site)) :
    enqueue dir visited queue imports =
      queue ++ fresh (done ++ queue) (imports.map (.ofImport dir)) := by
  induction imports generalizing queue with
  | nil => rw [enqueue, List.map_nil, fresh, List.append_nil]
  | cons i imports ih =>
    obtain ⟨uri, site⟩ := i
    have hnew : isNew (done ++ queue) (.ofImport dir (uri, site)) =
        !(visited.any (·.same (.resolve dir uri)) ||
          queue.any (·.path.same (.resolve dir uri))) := by
      rw [isNew, Request.path_ofImport, List.any_append, hvisited]
    have hrequest : ∀ queue : List Request, queue ++ [⟨.resolve dir uri, some site⟩] =
        queue ++ [.ofImport dir (uri, site)] := fun _ => rfl
    rw [enqueue, List.map_cons, fresh, hnew]
    cases visited.any (·.same (.resolve dir uri)) || queue.any (·.path.same (.resolve dir uri)) with
    | true => exact ih queue
    | false =>
      rw [hrequest, if_neg Bool.false_ne_true, ih]
      simp

section Pending

variable {loader : Loader} {root dir : Path}

variable (loader root dir) in
/-- The requests that were made and not answered yet, the first one for each path. -/
def pending (done : List Request) : List Request := fresh done (made loader root dir done)

theorem next?_eq_head?_pending (done : List Request) :
    next? loader root dir done = (pending loader root dir done).head? :=
  (head?_fresh _ _).symm

/-- What is pending after an answer is what was pending, and what the answer asks for. -/
theorem pending_append (h : pending loader root dir done = r :: queue) :
    pending loader root dir (done ++ [r]) =
      queue ++ fresh (done ++ [r] ++ queue) (asks loader dir r) := by
  rw [pending, made_append, List.flatMap_singleton, fresh_append, fresh_tail h]
  congr 1
  refine fresh_congr (fun k => ?_) _
  -- What was made is for a path that was answered, or that is pending.
  have hkey : k ∈ (pending loader root dir done).map Request.key ↔
      k ∈ (made loader root dir done).map Request.key ∧ k ∉ done.map Request.key :=
    mem_map_key_fresh
  rw [h] at hkey
  rw [List.map_cons, List.mem_cons] at hkey
  simp only [List.map_append, List.map_singleton, List.mem_append, List.mem_singleton]
  constructor
  · rintro (hanswered | hmade)
    · exact .inl hanswered
    · by_cases hdone : k ∈ done.map Request.key
      · exact .inl (.inl hdone)
      · exact (hkey.2 ⟨hmade, hdone⟩).imp_left .inr
  · exact fun hk => hk.imp_right fun hqueue => (hkey.1 (.inr hqueue)).1

/-- What is pending after a path that asks for nothing. -/
theorem pending_of_asks_nil (h : pending loader root dir done = r :: queue)
    (hnone : asks loader dir r = []) : pending loader root dir (done ++ [r]) = queue := by
  rw [pending_append h, hnone, fresh, List.append_nil]

end Pending

/-! ### What a walk comes to -/

section Walk

variable (loader : Loader) (check : BlockCheck) (expected : Expectation) (root dir : Path)

/-- The visit of a path that was asked for: to nothing, or to the file as it is taken in. -/
def Answers (r : Request) : Visit → Prop
  | .missing r' => loader.has r.path = false ∧ r' = r
  | .loaded f => loader.has r.path = true ∧
      ∃ d, loader.load r.path = .ok d ∧ f = takeIn check expected r.path d

/-- What a walk comes to after some requests were answered: to the failure of a reachable file that
    is there, or to the answers of all further requests. -/
def Outcome (done : List Request) : Except LoadFailure Closure → Prop
  | .error e => ∃ p, loader.Reachable root dir p ∧ loader.has p = true ∧ loader.load p = .error e
  | .ok c => ∃ rs, Follows loader root dir done rs ∧
      List.Forall₂ (Answers loader check expected) rs c

variable {loader check expected root dir}

theorem Outcome.cons {v : Visit} {result : Except LoadFailure Closure}
    (hnext : next? loader root dir done = some r) (hv : Answers loader check expected r v)
    (h : Outcome loader check expected root dir (done ++ [r]) result) :
    Outcome loader check expected root dir done (result.map (v :: ·)) := by
  cases result with
  | error e => exact h
  | ok c =>
    obtain ⟨rs, hrs, hanswers⟩ := h
    exact ⟨r :: rs, .next hnext hrs, .cons hv hanswers⟩

variable (loader root dir) in
/-- Requests for different reachable paths, as a walk may have answered them. -/
structure Answered (done : List Request) : Prop where
  reachable : ∀ r ∈ done, loader.Reachable root dir r.path
  nodup : (done.map Request.key).Nodup

namespace Answered

variable (h : Answered loader root dir done)

include h

theorem append (hnext : next? loader root dir done = some r) :
    Answered loader root dir (done ++ [r]) where
  reachable := by
    rw [List.forall_mem_append, List.forall_mem_singleton]
    exact ⟨h.reachable, reachable_of_next? h.reachable hnext⟩
  nodup := by
    rw [List.map_append, List.map_singleton, List.nodup_append_comm]
    exact List.nodup_cons.2 ⟨not_mem_of_next? hnext, h.nodup⟩

/-- There are no more of them than reachable paths. -/
theorem length_le {ps : List Path}
    (hps : ∀ p, loader.Reachable root dir p → ∃ q ∈ ps, q.same p = true) :
    done.length ≤ ps.length := by
  have hsubset : done.map Request.key ⊆ ps.map Path.segments := by
    intro k hk
    obtain ⟨r, hr, rfl⟩ := List.mem_map.1 hk
    obtain ⟨q, hq, hsame⟩ := hps r.path (h.reachable r hr)
    exact List.mem_map.2 ⟨q, hq, Path.same_iff.1 hsame⟩
  simpa using (h.nodup.subperm hsubset).length_le

end Answered

theorem next?_of_pending (h : pending loader root dir done = r :: queue) :
    next? loader root dir done = some r := by
  rw [next?_eq_head?_pending, h]
  rfl

theorem outcome_of_pending_nil (h : pending loader root dir done = []) (fuel : Nat)
    (visited : List Path) :
    Outcome loader check expected root dir done
      (walkFrom loader check expected dir fuel visited []) := by
  have hnone : next? loader root dir done = none := by
    rw [next?_eq_head?_pending, h]
    rfl
  have hwalk : walkFrom loader check expected dir fuel visited [] = .ok [] := by
    cases fuel <;> rfl
  rw [hwalk]
  exact ⟨[], .stop hnone, .nil⟩

/-- A walk that goes on with what is pending has an outcome, if it may ask for as many paths as are
    reachable. -/
theorem walkFrom_outcome {ps : List Path}
    (hps : ∀ p, loader.Reachable root dir p → ∃ q ∈ ps, q.same p = true) {fuel : Nat}
    (h : Answered loader root dir done) (hfuel : ps.length ≤ done.length + fuel) :
    Outcome loader check expected root dir done
      (walkFrom loader check expected dir fuel (done.map (·.path)).reverse
        (pending loader root dir done)) := by
  induction fuel generalizing done with
  | zero =>
    cases hpending : pending loader root dir done with
    | nil => exact outcome_of_pending_nil hpending _ _
    | cons r queue =>
      -- One more answer, and there would be more of them than reachable paths.
      have hlength := (h.append (next?_of_pending hpending)).length_le hps
      rw [List.length_append, List.length_singleton] at hlength
      omega
  | succ fuel ih =>
    cases hpending : pending loader root dir done with
    | nil => exact outcome_of_pending_nil hpending _ _
    | cons r queue =>
      -- The first request that is pending is answered, and the walk goes on with what is pending
      -- then; this is the queue without it, and what the file asks for.
      have hnext := next?_of_pending hpending
      have hrest := ih (h.append hnext) (by rw [List.length_append, List.length_singleton]; omega)
      have hvisited : ((done ++ [r]).map (·.path)).reverse =
          r.path :: (done.map (·.path)).reverse := by
        simp
      rw [hvisited] at hrest
      rw [walkFrom]
      cases hhas : loader.has r.path with
      | false =>
        rw [pending_of_asks_nil hpending (asks_of_missing hhas)] at hrest
        exact hrest.cons hnext ⟨hhas, rfl⟩
      | true =>
        rw [if_pos rfl]
        cases hload : loader.load r.path with
        | error e => exact ⟨r.path, reachable_of_next? h.reachable hnext, hhas, hload⟩
        | ok d =>
          have hseen : ∀ p, (r.path :: (done.map (·.path)).reverse).any (·.same p) =
              (done ++ [r]).any (·.path.same p) := by
            intro p
            rw [← hvisited, List.any_reverse, List.any_map]
            rfl
          rw [pending_append hpending, asks_of_load hhas hload, ← enqueue_eq hseen] at hrest
          exact hrest.cons hnext ⟨hhas, d, hload, rfl⟩

/-! ### The closure -/

variable (loader check expected root dir) in
/-- The visits of a walk that comes to an end. They answer requests in breadth-first order: one for
    every reachable path, none before one for a path that is fewer imports away, each the first that
    was made for its path. The files are those of the paths that designate one, and besides what is
    found in the files there is one report for each path that does not. -/
structure Complete (rs : List Request) (c : Closure) : Prop where
  order : Follows loader root dir [] rs
  answers : List.Forall₂ (Answers loader check expected) rs c
  reachable : ∀ r ∈ rs, loader.Reachable root dir r.path
  once : ∀ p, loader.Reachable root dir p → rs.countP (fun r => r.path.same p) = 1
  nearest : rs.Pairwise fun r r' =>
    ∀ n, loader.Within root dir n r'.path → loader.Within root dir n r.path
  first : ∀ r ∈ rs, (made loader root dir rs).find? (·.path.same r.path) = some r
  files : List.Forall₂
    (fun r f => ∃ d, loader.load r.path = .ok d ∧ f = takeIn check expected r.path d)
    (rs.filter fun r => loader.has r.path) c.files
  unreachable : c.diagnostics.Perm (c.files.flatMap (·.diagnostics) ++
    (rs.filter fun r => !loader.has r.path).map Request.unreachable)

section Answers

variable {c : Closure} (h : List.Forall₂ (Answers loader check expected) rs c)

include h

theorem files_of_answers : List.Forall₂
    (fun r f => ∃ d, loader.load r.path = .ok d ∧ f = takeIn check expected r.path d)
    (rs.filter fun r => loader.has r.path) c.files := by
  induction h with
  | nil => exact .nil
  | @cons r v rs c hv _ ih =>
    cases v with
    | missing r' =>
      rw [List.filter_cons_of_neg (by simp [hv.1])]
      exact ih
    | loaded f =>
      rw [List.filter_cons_of_pos (by simp [hv.1])]
      exact .cons hv.2 ih

theorem diagnostics_of_answers : c.diagnostics.Perm (c.files.flatMap (·.diagnostics) ++
    (rs.filter fun r => !loader.has r.path).map Request.unreachable) := by
  induction h with
  | nil => exact .refl _
  | @cons r v rs c hv _ ih =>
    cases v with
    | missing r' =>
      obtain ⟨hhas, rfl⟩ := hv
      rw [List.filter_cons_of_pos (by simp [hhas]), List.map_cons]
      exact (ih.cons _).trans List.perm_middle.symm
    | loaded f =>
      rw [List.filter_cons_of_neg (by simp [hv.1])]
      have hfiles : (files (.loaded f :: c)).flatMap (·.diagnostics) =
          f.diagnostics ++ (files c).flatMap (·.diagnostics) :=
        rfl
      rw [hfiles, List.append_assoc]
      exact ih.append_left _

theorem exists_load_of_answers (hr : r ∈ rs) (hhas : loader.has r.path = true) :
    ∃ d, loader.load r.path = .ok d := by
  induction h with
  | nil => exact nomatch hr
  | @cons r' v rs c hv _ ih =>
    rcases List.mem_cons.1 hr with rfl | hr
    · cases v with
      | missing r' => exact nomatch hv.1.symm.trans hhas
      | loaded f =>
        obtain ⟨-, d, hload, -⟩ := hv
        exact ⟨d, hload⟩
    · exact ih hr

end Answers

theorem Complete.of_follows {c : Closure} (halike : loader.Alike)
    (hrs : Follows loader root dir [] rs)
    (hanswers : List.Forall₂ (Answers loader check expected) rs c) :
    Complete loader check expected root dir rs c where
  order := hrs
  answers := hanswers
  reachable := hrs.reachable fun _ h => nomatch h
  once _ := hrs.countP_same halike
  nearest := hrs.pairwise_within halike
  first _ := hrs.find?_made
  files := files_of_answers hanswers
  unreachable := diagnostics_of_answers hanswers

/-- No reachable file that is there failed to load. -/
theorem Complete.exists_load {c : Closure} (h : Complete loader check expected root dir rs c)
    (halike : loader.Alike) {p : Path} (hp : loader.Reachable root dir p)
    (hhas : loader.has p = true) : ∃ d, loader.load p = .ok d := by
  obtain ⟨r, hr, hsame⟩ := h.order.exists_same halike hp
  have hhas' := (halike.has r.path p hsame).trans hhas
  obtain ⟨d, hload⟩ := exists_load_of_answers h.answers hr hhas'
  exact ⟨d, (halike.file_of_same hsame hhas' hload).2⟩

end Walk

end Closure

namespace Loader

/-- No more than some number of paths are reachable. -/
def ReachesAtMost (loader : Loader) (root dir : Path) (n : Nat) : Prop :=
  ∃ ps : List Path, ps.length ≤ n ∧ ∀ p, loader.Reachable root dir p → ∃ q ∈ ps, q.same p = true

end Loader

/-! ### Files in memory -/

namespace FileStore

theorem key_of_same {p q : Path} (h : p.same q = true) : key p = key q := by
  rw [key, key, Path.normalize, Path.normalize, Path.fold, Path.fold, Path.same_iff.1 h]

/-- A store answers alike on paths that read alike. -/
theorem alike_loader (s : FileStore) : s.loader.Alike where
  has p q h := by
    change s.has p = s.has q
    rw [has, has, key_of_same h]
  load p q h := by
    change (s.load p).toOption = (s.load q).toOption
    rw [load, load, key_of_same h]
    cases s.faults.get? (key q) with
    | some fault => rfl
    | none => cases s.files.get? (key q) <;> rfl

/-- The file that a path designates is kept under the key of the path. -/
theorem get?_of_load {s : FileStore} {p : Path} {d : FileDefinition}
    (h : s.loader.load p = .ok d) : s.files.get? (key p) = some d := by
  change s.load p = .ok d at h
  rw [load] at h
  split at h
  · cases h
  · split at h
    · next hget =>
      cases h
      exact hget
    · cases h

theorem mem_values_of_load {s : FileStore} {p : Path} {d : FileDefinition}
    (h : s.loader.load p = .ok d) : d ∈ s.files.values :=
  Table.mem_values_iff.2 ⟨_, get?_of_load h⟩

/-- From a store, only the start and what its files import is reachable. -/
theorem reachesAtMost_limit (s : FileStore) (root dir : Path) :
    s.loader.ReachesAtMost root dir s.loader.limit := by
  refine ⟨root.normalize ::
    (s.files.values.flatMap (·.imports)).map fun i => .resolve dir i.1, ?_, ?_⟩
  · rw [List.length_cons, List.length_map]
    exact Nat.le_refl _
  · intro p hp
    refine ⟨p, ?_, Path.same_iff.2 rfl⟩
    cases hp with
    | root => exact List.mem_cons_self
    | imported _ _ hload himport =>
      exact List.mem_cons_of_mem _ <| List.mem_map.2
        ⟨_, List.mem_flatMap.2 ⟨_, mem_values_of_load hload, himport⟩, rfl⟩

end FileStore

/-! ### Walks -/

namespace Closure

/-- With a loader that answers alike on paths that read alike, and that admits as many paths as are
    reachable, a walk fails only as a reachable file that is there fails, comes to an end exactly if
    there is no such file, and then is complete. A store answers alike, and admits as many paths as
    are reachable, whatever its files import. -/
theorem walk_exact (check : BlockCheck) (expected : Expectation) (root dir : Path) :
    (∀ loader : Loader, loader.Alike → loader.ReachesAtMost root dir loader.limit →
      (∀ e, walk loader check expected root dir = .error e →
        ∃ p, loader.Reachable root dir p ∧ loader.has p = true ∧ loader.load p = .error e) ∧
      ((∃ c, walk loader check expected root dir = .ok c) ↔
        ∀ p, loader.Reachable root dir p → loader.has p = true → ∃ d, loader.load p = .ok d) ∧
      ∀ c, walk loader check expected root dir = .ok c →
        ∃ rs, Complete loader check expected root dir rs c) ∧
    ∀ s : FileStore, s.loader.Alike ∧ s.loader.ReachesAtMost root dir s.loader.limit := by
  refine ⟨fun loader halike hlimit => ?_, fun s => ⟨s.alike_loader, s.reachesAtMost_limit root dir⟩⟩
  have houtcome : Outcome loader check expected root dir []
      (walk loader check expected root dir) := by
    obtain ⟨ps, hlength, hps⟩ := hlimit
    have hstart : Answered loader root dir [] := ⟨fun _ h => (nomatch h), List.nodup_nil⟩
    exact walkFrom_outcome hps hstart (by rw [List.length_nil, Nat.zero_add]; exact hlength)
  have hfailure : ∀ e, walk loader check expected root dir = .error e →
      ∃ p, loader.Reachable root dir p ∧ loader.has p = true ∧ loader.load p = .error e := by
    intro e he
    rwa [he] at houtcome
  have hcomplete : ∀ c, walk loader check expected root dir = .ok c →
      ∃ rs, Complete loader check expected root dir rs c := by
    intro c hc
    rw [hc] at houtcome
    obtain ⟨rs, hrs, hanswers⟩ := houtcome
    exact ⟨rs, .of_follows halike hrs hanswers⟩
  refine ⟨hfailure, ⟨?_, fun hload => ?_⟩, hcomplete⟩
  · rintro ⟨c, hc⟩ p hp hhas
    obtain ⟨rs, hrs⟩ := hcomplete c hc
    exact hrs.exists_load halike hp hhas
  · cases hwalk : walk loader check expected root dir with
    | ok c => exact ⟨c, rfl⟩
    | error e =>
      obtain ⟨p, hp, hhas, he⟩ := hfailure e hwalk
      obtain ⟨d, hd⟩ := hload p hp hhas
      exact nomatch he.symm.trans hd

/-- Files that import each other and, in several spellings, one that is not there. -/
def knot : FileStore :=
  let file (path : Path) (uris : List String) : FileDefinition :=
    .ofBlocks path (uris.map (.importOf ⟨path, 1⟩))
  ((FileStore.empty.insert (file ⟨"main.graph"⟩ ["lib/a.graph", "b.graph", "main.graph"])).insert
    (file ⟨"lib/a.graph"⟩ ["./b.graph", "lib/gone.graph", "main.graph"])).insert
      (file ⟨"b.graph"⟩ ["lib/../lib//gone.graph", "lib/a.graph"])

theorem walk_exact_knot :
    ∃ c rs, walk knot.loader Block.check .types ⟨"./main.graph"⟩ ⟨""⟩ = .ok c ∧
      Complete knot.loader Block.check .types ⟨"./main.graph"⟩ ⟨""⟩ rs c ∧
      c.files.map (·.definition.file.text) = ["main.graph", "lib/a.graph", "b.graph"] ∧
      c.diagnostics = [Request.unreachable ⟨⟨"lib/gone.graph"⟩, some ⟨⟨"lib/a.graph"⟩, 1⟩⟩] := by
  obtain ⟨hexact, hstore⟩ := walk_exact Block.check .types ⟨"./main.graph"⟩ ⟨""⟩
  obtain ⟨halike, hlimit⟩ := hstore knot
  obtain ⟨-, -, hcomplete⟩ := hexact knot.loader halike hlimit
  have hfound : (walk knot.loader Block.check .types ⟨"./main.graph"⟩ ⟨""⟩).toOption.map
      (fun c => (c.files.map (·.definition.file.text), c.diagnostics)) =
        some (["main.graph", "lib/a.graph", "b.graph"],
          [Request.unreachable ⟨⟨"lib/gone.graph"⟩, some ⟨⟨"lib/a.graph"⟩, 1⟩⟩]) := by
    decide +kernel
  cases hwalk : walk knot.loader Block.check .types ⟨"./main.graph"⟩ ⟨""⟩ with
  | error e =>
    rw [hwalk] at hfound
    exact nomatch hfound
  | ok c =>
    rw [hwalk] at hfound
    obtain ⟨hfiles, hdiagnostics⟩ := Prod.mk.inj (Option.some.inj hfound)
    obtain ⟨rs, hrs⟩ := hcomplete c hwalk
    exact ⟨c, rs, rfl, hrs, hfiles, hdiagnostics⟩

end Closure

end Deployment
