import Deployment.Closure
import Mathlib.Data.List.Basic
import Mathlib.Data.List.Nodup

/-!
# Breadth-first order

Which paths a walk reaches, and the order in which it should go through them, without the queue of
the walk: the next path is always the first one that was asked for, by the start or by the imports
of the files gone through so far, and that was not gone through yet (`Closure.Follows`).

In this order no path comes twice (`Follows.nodup`), every reachable path comes
(`Follows.exists_same`), none before one that is fewer imports away (`Follows.pairwise_within`), and
each stands for the import that asked for it first (`Follows.find?_made`).

* `Loader.Reachable`, `Loader.Within`: the paths that a start leads to, and those that it leads to
  in some number of imports;
* `Loader.Alike`: the loaders to whom paths that read alike are the same.
-/

namespace Deployment

theorem Path.same_iff {p q : Path} : p.same q = true ↔ p.segments = q.segments := beq_iff_eq

/-! ### What a start leads to -/

namespace Loader

variable (loader : Loader)

/-- A loader that answers alike on paths that read alike. -/
structure Alike : Prop where
  has : ∀ p q : Path, p.same q = true → loader.has p = loader.has q
  load : ∀ p q : Path, p.same q = true → (loader.load p).toOption = (loader.load q).toOption

/-- The paths that a start leads to: the start, and whatever is imported by a file that is there,
    can be loaded, and is led to. -/
inductive Reachable (root dir : Path) : Path → Prop
  | root : Reachable root dir root.normalize
  | imported {p : Path} {d : FileDefinition} {uri : String} {site : Site} :
      Reachable root dir p → loader.has p = true → loader.load p = .ok d →
      (uri, site) ∈ d.imports → Reachable root dir (.resolve dir uri)

/-- The paths that a start leads to in at most some number of imports. -/
inductive Within (root dir : Path) : Nat → Path → Prop
  | root {n : Nat} : Within root dir n root.normalize
  | imported {n : Nat} {p : Path} {d : FileDefinition} {uri : String} {site : Site} :
      Within root dir n p → loader.has p = true → loader.load p = .ok d →
      (uri, site) ∈ d.imports → Within root dir (n + 1) (.resolve dir uri)

variable {loader} {root dir : Path}

/-- The reachable paths are those that some number of imports leads to. -/
theorem reachable_iff_exists_within {p : Path} :
    loader.Reachable root dir p ↔ ∃ n, loader.Within root dir n p := by
  constructor
  · intro h
    induction h with
    | root => exact ⟨0, .root⟩
    | imported _ hhas hload himport ih =>
      obtain ⟨n, hn⟩ := ih
      exact ⟨n + 1, .imported hn hhas hload himport⟩
  · rintro ⟨n, hn⟩
    induction hn with
    | root => exact .root
    | imported _ hhas hload himport ih => exact .imported ih hhas hload himport

theorem Within.succ {n : Nat} {p : Path} (h : loader.Within root dir n p) :
    loader.Within root dir (n + 1) p := by
  induction h with
  | root => exact .root
  | imported _ hhas hload himport ih => exact .imported ih hhas hload himport

/-- To a loader that answers alike, the file under a path is that under a path that reads alike. -/
theorem Alike.file_of_same (halike : loader.Alike) {p q : Path} (hsame : p.same q = true)
    {d : FileDefinition} (hhas : loader.has p = true) (hload : loader.load p = .ok d) :
    loader.has q = true ∧ loader.load q = .ok d := by
  refine ⟨(halike.has p q hsame).symm.trans hhas, ?_⟩
  have hoption := halike.load p q hsame
  rw [hload] at hoption
  cases hq : loader.load q with
  | error e =>
    rw [hq] at hoption
    exact nomatch hoption
  | ok d' =>
    rw [hq] at hoption
    rw [Option.some.inj hoption]

end Loader

/-! ### The order of the requests -/

namespace Request

/-- Requests for paths that read alike have the same key. -/
def key (r : Request) : List Path.Segment := r.path.segments

/-- What an import asks for. -/
def ofImport (dir : Path) (i : String × Site) : Request := ⟨.resolve dir i.1, some i.2⟩

theorem path_ofImport (dir : Path) (i : String × Site) :
    (ofImport dir i).path = .resolve dir i.1 := by
  dsimp only [ofImport]

end Request

namespace Closure

variable (loader : Loader) (root dir : Path)

/-- What the file that a request is for asks for: its imports, if it is there and can be loaded. -/
def asks (r : Request) : List Request :=
  if loader.has r.path then
    match loader.load r.path with
    | .error _ => []
    | .ok d => d.imports.map (.ofImport dir)
  else []

/-- What is asked for once some requests were answered, the start included. -/
def made (done : List Request) : List Request :=
  ⟨root.normalize, none⟩ :: done.flatMap (asks loader dir)

/-- Whether a request is for another path than those that were answered. -/
def isNew (done : List Request) (r : Request) : Bool := !done.any (·.path.same r.path)

/-- The first request for a path for which none was answered. -/
def next? (done : List Request) : Option Request := (made loader root dir done).find? (isNew done)

/-- Requests that follow others in breadth-first order, up to the last: the next one is always the
    first that was made for a path for which none was answered. -/
inductive Follows : List Request → List Request → Prop
  | stop {done : List Request} : next? loader root dir done = none → Follows done []
  | next {done : List Request} {r : Request} {rs : List Request} :
      next? loader root dir done = some r → Follows (done ++ [r]) rs → Follows done (r :: rs)

variable {loader root dir} {done rs : List Request} {r : Request}

theorem isNew_iff : isNew done r = true ↔ r.key ∉ done.map Request.key := by
  rw [isNew, Bool.not_eq_true', List.any_eq_false]
  simp only [Path.same_iff, List.mem_map, not_exists, not_and]
  rfl

theorem mem_asks_iff {q : Request} : q ∈ asks loader dir r ↔
    loader.has r.path = true ∧ ∃ d, loader.load r.path = .ok d ∧
      ∃ i ∈ d.imports, q = .ofImport dir i := by
  rw [asks]
  cases hhas : loader.has r.path with
  | false => simp
  | true =>
    cases hload : loader.load r.path with
    | error e => simp
    | ok d => simp [eq_comm]

theorem asks_of_missing (h : loader.has r.path = false) : asks loader dir r = [] := by
  rw [asks, h, if_neg Bool.false_ne_true]

theorem asks_of_load {d : FileDefinition} (hhas : loader.has r.path = true)
    (hload : loader.load r.path = .ok d) : asks loader dir r = d.imports.map (.ofImport dir) := by
  rw [asks, hhas, if_pos rfl, hload]

theorem made_append (done more : List Request) :
    made loader root dir (done ++ more) =
      made loader root dir done ++ more.flatMap (asks loader dir) := by
  rw [made, made, List.flatMap_append, List.cons_append]

/-- What is asked for is the start, or an import of a file that was asked for. -/
theorem of_mem_made {P : Path → Prop} (hroot : P root.normalize)
    (hr : r ∈ made loader root dir done)
    (himport : ∀ q ∈ done, loader.has q.path = true → ∀ d, loader.load q.path = .ok d →
      ∀ i ∈ d.imports, P (.resolve dir i.1)) : P r.path := by
  rw [made, List.mem_cons, List.mem_flatMap] at hr
  rcases hr with rfl | ⟨q, hq, hr⟩
  · exact hroot
  · obtain ⟨hhas, d, hload, i, hi, rfl⟩ := mem_asks_iff.1 hr
    rw [Request.path_ofImport]
    exact himport q hq hhas d hload i hi

theorem mem_made_of_next? (h : next? loader root dir done = some r) :
    r ∈ made loader root dir done :=
  List.mem_of_find?_eq_some h

theorem not_mem_of_next? (h : next? loader root dir done = some r) :
    r.key ∉ done.map Request.key :=
  isNew_iff.1 (List.find?_some h)

theorem reachable_of_next? (hdone : ∀ r ∈ done, loader.Reachable root dir r.path)
    (h : next? loader root dir done = some r) : loader.Reachable root dir r.path :=
  of_mem_made .root (mem_made_of_next? h) fun q hq hhas _ hload _ hi =>
    .imported (hdone q hq) hhas hload hi

namespace Follows

/-- No path comes twice. -/
theorem nodup (h : Follows loader root dir done rs) :
    (rs.map Request.key).Nodup ∧ ∀ r ∈ rs, r.key ∉ done.map Request.key := by
  induction h with
  | stop => exact ⟨List.nodup_nil, fun _ h => nomatch h⟩
  | @next done r rs hnext _ ih =>
    simp only [List.map_append, List.map_cons, List.map_nil, List.mem_append, List.mem_singleton,
      not_or] at ih
    refine ⟨List.nodup_cons.2 ⟨fun hmem => ?_, ih.1⟩, ?_⟩
    · obtain ⟨q, hq, heq⟩ := List.mem_map.1 hmem
      exact (ih.2 q hq).2 heq
    · exact List.forall_mem_cons.2 ⟨not_mem_of_next? hnext, fun q hq => (ih.2 q hq).1⟩

/-- Only reachable paths come. -/
theorem reachable (h : Follows loader root dir done rs)
    (hdone : ∀ r ∈ done, loader.Reachable root dir r.path) :
    ∀ r ∈ rs, loader.Reachable root dir r.path := by
  induction h with
  | stop => exact fun _ h => nomatch h
  | @next done r rs hnext _ ih =>
    have hr := reachable_of_next? hdone hnext
    refine List.forall_mem_cons.2 ⟨hr, ih ?_⟩
    rw [List.forall_mem_append, List.forall_mem_singleton]
    exact ⟨hdone, hr⟩

/-- What comes later follows what comes before it. -/
theorem of_append {before after : List Request}
    (h : Follows loader root dir done (before ++ after)) :
    Follows loader root dir (done ++ before) after := by
  induction before generalizing done with
  | nil => rwa [List.append_nil]
  | cons q before ih =>
    cases h with
    | next _ hrest =>
      have hrest := ih hrest
      rwa [List.append_assoc, List.singleton_append] at hrest

/-- For a path that was asked for early, a request comes before any that was made later. -/
theorem exists_prefix (h : Follows loader root dir done rs) {early : List Request}
    (hearly : early <+: made loader root dir done) {m : Request} (hm : m ∈ early)
    (hnew : m.key ∉ done.map Request.key) :
    ∃ near, near <+: rs ∧ (∃ r ∈ near, r.key = m.key) ∧ near ⊆ early := by
  induction h with
  | stop hstop =>
    have hold := List.find?_eq_none.1 hstop m (hearly.subset hm)
    exact absurd (isNew_iff.2 hnew) hold
  | @next done r rs hnext _ ih =>
    obtain ⟨late, hmade⟩ := hearly
    -- The next request is among the early ones, because one of them is new.
    have hr : r ∈ early := by
      have hsome : (early.find? (isNew done)).isSome :=
        List.find?_isSome.2 ⟨m, hm, isNew_iff.2 hnew⟩
      rw [next?, ← hmade, List.find?_append, Option.or_of_isSome hsome] at hnext
      exact List.mem_of_find?_eq_some hnext
    by_cases hkey : r.key = m.key
    · refine ⟨[r], ⟨rs, rfl⟩, ⟨r, List.mem_cons_self, hkey⟩, ?_⟩
      exact fun q hq => List.mem_singleton.1 hq ▸ hr
    · have hlater : early <+: made loader root dir (done ++ [r]) :=
        ⟨late ++ [r].flatMap (asks loader dir), by rw [made_append, ← hmade, List.append_assoc]⟩
      obtain ⟨near, ⟨rest, rfl⟩, ⟨q, hq, hqkey⟩, hsubset⟩ := ih hlater (by simp_all [eq_comm])
      exact ⟨r :: near, ⟨rest, rfl⟩, ⟨q, List.mem_cons_of_mem _ hq, hqkey⟩,
        List.cons_subset.2 ⟨hr, hsubset⟩⟩

/-- Each path stands for the first request that was made for it. -/
theorem find?_made (h : Follows loader root dir [] rs) (hr : r ∈ rs) :
    (made loader root dir rs).find? (·.path.same r.path) = some r := by
  obtain ⟨before, after, rfl⟩ := List.append_of_mem hr
  cases h.of_append with
  | next hnext _ =>
    rw [List.nil_append, next?, List.find?_eq_some_iff_append] at hnext
    obtain ⟨hnew, as, bs, hmade, has⟩ := hnext
    -- The requests made before it are for paths that were answered by then; its own was not.
    have hfirst : ∀ a ∈ as, !a.path.same r.path := by
      intro a ha
      rw [Bool.not_eq_true', Bool.eq_false_iff, ne_eq, Path.same_iff]
      intro hsame
      have hold := has a ha
      rw [Bool.not_eq_true', Bool.eq_false_iff, ne_eq, isNew_iff] at hold
      have hkey : a.key = r.key := hsame
      exact hold (hkey ▸ isNew_iff.1 hnew)
    rw [made_append, hmade, List.find?_eq_some_iff_append]
    exact ⟨Path.same_iff.2 rfl, as, _, by rw [List.append_assoc, List.cons_append], hfirst⟩

section Alike

variable (halike : loader.Alike) (h : Follows loader root dir [] rs)

include halike h

/-- Up to some request for a path, only paths come that are no more imports away. -/
theorem exists_prefix_within {n : Nat} {p : Path} (hp : loader.Within root dir n p) :
    ∃ near, near <+: rs ∧ (∃ r ∈ near, r.path.same p = true) ∧
      ∀ r ∈ near, loader.Within root dir n r.path := by
  induction hp with
  | root =>
    obtain ⟨near, hprefix, ⟨r, hr, hkey⟩, hsubset⟩ :=
      h.exists_prefix (List.prefix_refl _) List.mem_cons_self List.not_mem_nil
    refine ⟨near, hprefix, ⟨r, hr, Path.same_iff.2 hkey⟩, fun q hq => ?_⟩
    exact of_mem_made .root (hsubset hq) fun _ hq => nomatch hq
  | @imported n p d uri site _ hhas hload himport ih =>
    obtain ⟨near, ⟨rest, rfl⟩, ⟨r, hr, hsame⟩, hwithin⟩ := ih
    -- The file is asked for its imports under the path that comes.
    have hback : p.same r.path = true := Path.same_iff.2 (Path.same_iff.1 hsame).symm
    obtain ⟨hhas, hload⟩ := halike.file_of_same hback hhas hload
    have hasked : .ofImport dir (uri, site) ∈ made loader root dir near :=
      List.mem_cons_of_mem _ <| List.mem_flatMap.2
        ⟨r, hr, mem_asks_iff.2 ⟨hhas, d, hload, (uri, site), himport, rfl⟩⟩
    rw [← Request.path_ofImport dir (uri, site)]
    generalize Request.ofImport dir (uri, site) = m at hasked ⊢
    by_cases hnew : m.key ∈ near.map Request.key
    · obtain ⟨q, hq, hkey⟩ := List.mem_map.1 hnew
      exact ⟨near, ⟨rest, rfl⟩, ⟨q, hq, Path.same_iff.2 hkey⟩, fun q hq => (hwithin q hq).succ⟩
    · obtain ⟨next, ⟨rest', rfl⟩, ⟨q, hq, hkey⟩, hsubset⟩ :=
        h.of_append.exists_prefix (List.prefix_refl _) hasked hnew
      refine ⟨near ++ next, ⟨rest', List.append_assoc ..⟩,
        ⟨q, List.mem_append_right _ hq, Path.same_iff.2 hkey⟩, ?_⟩
      rw [List.forall_mem_append]
      refine ⟨fun q hq => (hwithin q hq).succ, fun q hq => ?_⟩
      exact of_mem_made .root (hsubset hq) fun q hq hhas _ hload _ hi =>
        .imported (hwithin q hq) hhas hload hi

/-- Every reachable path comes. -/
theorem exists_same {p : Path} (hp : loader.Reachable root dir p) :
    ∃ r ∈ rs, r.path.same p = true := by
  obtain ⟨n, hn⟩ := Loader.reachable_iff_exists_within.1 hp
  obtain ⟨near, hprefix, ⟨r, hr, hsame⟩, -⟩ := h.exists_prefix_within halike hn
  exact ⟨r, hprefix.subset hr, hsame⟩

/-- Every reachable path comes exactly once. -/
theorem countP_same {p : Path} (hp : loader.Reachable root dir p) :
    rs.countP (fun r => r.path.same p) = 1 := by
  obtain ⟨r, hr, hsame⟩ := h.exists_same halike hp
  have hcount : (rs.map Request.key).count p.segments = 1 :=
    List.count_eq_one_of_mem h.nodup.1 (List.mem_map.2 ⟨r, hr, Path.same_iff.1 hsame⟩)
  rwa [List.count, List.countP_map] at hcount

/-- No path comes before one that is fewer imports away. -/
theorem pairwise_within : rs.Pairwise fun r r' =>
    ∀ n, loader.Within root dir n r'.path → loader.Within root dir n r.path := by
  rw [List.pairwise_iff_getElem]
  intro i j hi hj hij n hn
  obtain ⟨near, ⟨rest, rfl⟩, ⟨r, hr, hsame⟩, hwithin⟩ := h.exists_prefix_within halike hn
  rcases Nat.lt_or_ge i near.length with hnear | hfar
  · rw [List.getElem_append_left hnear]
    exact hwithin _ (List.getElem_mem hnear)
  · -- A path cannot come both near and far.
    have hfar' : near.length ≤ j := Nat.le_trans hfar (Nat.le_of_lt hij)
    rw [List.getElem_append_right hfar'] at hsame
    have hnodup := h.nodup.1
    rw [List.map_append, List.nodup_append] at hnodup
    exact absurd (Path.same_iff.1 hsame) <|
      hnodup.2.2 _ (List.mem_map_of_mem hr) _ (List.mem_map_of_mem (List.getElem_mem _))

end Alike

end Follows

end Closure

end Deployment
