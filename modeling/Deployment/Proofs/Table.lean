import Deployment.Table

/-!
# Tables and their changes

What a table holds for a key after it was changed (`get?_map`, `get?_modify`, `get?_extend`), and
what is left of its order: values that are inserted again under their keys make the same table
(`Filed.foldl_insert_values`, `NameSet.insertMany_toList`).
-/

universe u v w

namespace Deployment.Table

variable {κ : Type u} {α : Type v} {β : Type w}

theorem ext_entries {t u : Table κ α} (h : t.entries = u.entries) : t = u := by
  cases t
  cases u
  cases h
  rfl

variable [DecidableEq κ]

@[simp] theorem get?_map (f : κ → α → β) (t : Table κ α) (k : κ) :
    (t.map f).get? k = (t.get? k).map (f k) := by
  have hfind : ∀ xs : List (κ × α),
      find? k (xs.map fun p => (p.1, f p.1 p.2)) = (find? k xs).map (f k) := by
    intro xs
    induction xs with
    | nil => rfl
    | cons x xs ih =>
      obtain ⟨k', v⟩ := x
      by_cases h : k' = k
      · subst h
        simp [find?]
      · simp [find?, h, ih]
  exact hfind t.entries

theorem get?_modify (t : Table κ α) (k j : κ) (f : α → α) :
    (t.modify k f).get? j = if j = k then (t.get? j).map f else t.get? j := by
  rw [modify, get?_map]
  split
  · rfl
  · exact Option.map_id'

@[simp] theorem keys_modify (t : Table κ α) (k : κ) (f : α → α) :
    (t.modify k f).keys = t.keys :=
  keys_map _ t

/-! ### Entries in a list -/

theorem find?_append (k : κ) (xs ys : List (κ × α)) :
    find? k (xs ++ ys) = (find? k xs).or (find? k ys) := by
  induction xs with
  | nil => rfl
  | cons x xs ih =>
    obtain ⟨k', v⟩ := x
    rw [List.cons_append, find?, find?, ih]
    split <;> rfl

/-- Entries under other keys are found under these. -/
theorem find?_map_key {κ' : Type w} [DecidableEq κ'] {key : κ → κ'}
    (hkey : ∀ j k, key j = key k → j = k) (f : α → β) (k : κ) (xs : List (κ × α)) :
    find? (key k) (xs.map fun p => (key p.1, f p.2)) = (find? k xs).map f := by
  induction xs with
  | nil => rfl
  | cons x xs ih =>
    obtain ⟨k', v⟩ := x
    rw [List.map_cons, find?, find?, ih]
    by_cases h : k' = k
    · rw [if_pos h, if_pos (congrArg key h)]
      rfl
    · rw [if_neg h, if_neg fun heq => h (hkey _ _ heq)]

/-- Under each of some keys stands what a function has for it. -/
theorem find?_filterMap_key (value : κ → Option α) (k : κ) (ks : List κ) :
    find? k (ks.filterMap fun j => (value j).map (Prod.mk j)) =
      if k ∈ ks then value k else none := by
  induction ks with
  | nil => rfl
  | cons j ks ih =>
    rw [List.filterMap_cons]
    by_cases hj : j = k
    · subst hj
      rw [if_pos List.mem_cons_self]
      cases hvalue : value j with
      | none =>
        rw [hvalue, ite_self] at ih
        exact ih
      | some v =>
        rw [Option.map_some, find?, if_pos rfl]
    · have hmem : k ∈ j :: ks ↔ k ∈ ks := by
        rw [List.mem_cons, or_iff_right (Ne.symm hj)]
      simp only [hmem, ← ih]
      cases value j with
      | none => rfl
      | some v =>
        rw [Option.map_some, find?, if_neg hj]

/-- The other keys keep their values when one is taken out. -/
theorem get?_erase_of_ne (t : Table κ α) {k j : κ} (h : j ≠ k) : (t.erase k).get? j = t.get? j := by
  have hfilter : ∀ xs : List (κ × α),
      find? j (xs.filter fun x => x.1 != k) = find? j xs := by
    intro xs
    induction xs with
    | nil => rfl
    | cons x xs ih =>
      obtain ⟨k', v⟩ := x
      by_cases hk : k' = k
      · rw [List.filter_cons_of_neg (by simpa using hk), ih, find?, if_neg (hk ▸ h.symm)]
      · rw [List.filter_cons_of_pos (by simpa using hk), find?, find?, ih]
  exact hfilter t.entries

/-- A value is only inserted under a new key. -/
theorem get?_insertNew (t : Table κ α) (k j : κ) (v : α) :
    (t.insertNew k v).get? j = (t.get? j).or (find? j [(k, v)]) := by
  rw [insertNew, find?, find?]
  split
  · next h =>
    obtain ⟨w, hw⟩ := Option.isSome_iff_exists.1 h
    split
    · next hk => rw [← hk, hw, Option.some_or]
    · rw [Option.or_none]
  · next h =>
    rw [contains, Option.not_isSome_iff_eq_none] at h
    rw [get?_insert]
    split
    · next hk => rw [← hk, h, Option.none_or]
    · rw [Option.or_none]

/-- What a table holds stays when entries are added; what is added first stays too. -/
theorem get?_extend (t : Table κ α) (xs : List (κ × α)) (k : κ) :
    (t.extend xs).get? k = (t.get? k).or (find? k xs) := by
  induction xs generalizing t with
  | nil => exact (Option.or_none).symm
  | cons x xs ih =>
    obtain ⟨k', v⟩ := x
    have hstep : t.extend ((k', v) :: xs) = (t.insertNew k' v).extend xs := rfl
    rw [hstep, ih, get?_insertNew, Option.or_assoc, ← find?_append, List.singleton_append]

theorem get?_empty_extend (xs : List (κ × α)) (k : κ) :
    ((empty : Table κ α).extend xs).get? k = find? k xs := by
  rw [get?_extend]
  rfl

/-! ### Insertion in order -/

theorem put_of_not_mem {k : κ} {v : α} {xs : List (κ × α)} (h : k ∉ xs.map Prod.fst) :
    put k v xs = xs ++ [(k, v)] := by
  induction xs with
  | nil => rfl
  | cons x xs ih =>
    rw [List.map_cons, List.mem_cons, not_or] at h
    rw [put, if_neg (Ne.symm h.1), ih h.2]
    rfl

/-- Entries with new keys go to the end. -/
theorem entries_foldl_insert (xs : List (κ × α)) (t : Table κ α)
    (h : (t.keys ++ xs.map Prod.fst).Nodup) :
    (xs.foldl (fun t p => t.insert p.1 p.2) t).entries = t.entries ++ xs := by
  induction xs generalizing t with
  | nil => simp
  | cons p xs ih =>
    have hnew : p.1 ∉ t.keys := fun hmem =>
      (List.nodup_append.1 h).2.2 _ hmem _ List.mem_cons_self rfl
    have hinsert : (t.insert p.1 p.2).entries = t.entries ++ [p] := put_of_not_mem hnew
    have hkeys : (t.insert p.1 p.2).keys = t.keys ++ [p.1] := by
      rw [keys, hinsert, List.map_append]
      rfl
    rw [List.foldl_cons, ih _ (by rw [hkeys]; simpa using h), hinsert]
    simp

/-- The entries of a table make the table. -/
theorem foldl_insert_entries (t : Table κ α) :
    t.entries.foldl (fun t p => t.insert p.1 p.2) empty = t :=
  ext_entries (entries_foldl_insert t.entries empty t.nodup)

/-- Values of some kind, each under its own key. -/
def Filed (t : Table κ α) (key : α → κ) (P : α → Prop) : Prop :=
  ∀ k v, t.get? k = some v → key v = k ∧ P v

variable {t : Table κ α} {key : α → κ} {P : α → Prop}

theorem filed_iff : t.Filed key P ↔ ∀ p ∈ t.entries, key p.2 = p.1 ∧ P p.2 := by
  simp only [Filed, get?_eq_some_iff]
  exact ⟨fun h p hp => h p.1 p.2 hp, fun h k v hv => h (k, v) hv⟩

instance [DecidablePred P] : Decidable (t.Filed key P) := decidable_of_iff _ filed_iff.symm

theorem filed_empty : (empty : Table κ α).Filed key P := fun _ _ h => nomatch h

theorem mem_values_iff {v : α} : v ∈ t.values ↔ ∃ k, t.get? k = some v := by
  simp only [values, List.mem_map, get?_eq_some_iff]
  exact ⟨fun ⟨p, hp, hv⟩ => ⟨p.1, hv ▸ hp⟩, fun ⟨k, hk⟩ => ⟨(k, v), hk, rfl⟩⟩

namespace Filed

theorem of_mem_values (h : t.Filed key P) {v : α} (hv : v ∈ t.values) : P v := by
  obtain ⟨k, hk⟩ := mem_values_iff.1 hv
  exact (h k v hk).2

theorem map_key_values (h : t.Filed key P) : t.values.map key = t.keys := by
  rw [values, keys, List.map_map]
  exact List.map_congr_left fun p hp => (h p.1 p.2 (get?_eq_some_iff.2 hp)).1

theorem nodup_map_key (h : t.Filed key P) : (t.values.map key).Nodup := by
  rw [h.map_key_values]
  exact t.nodup

/-- Further values are filed under their keys. -/
theorem foldl_insert (h : t.Filed key P) {xs : List α} (hxs : ∀ v ∈ xs, P v) :
    (xs.foldl (fun t v => t.insert (key v) v) t).Filed key P := by
  induction xs generalizing t with
  | nil => exact h
  | cons x xs ih =>
    refine ih (fun k v hv => ?_) fun v hv => hxs v (List.mem_cons_of_mem _ hv)
    rw [get?_insert] at hv
    split at hv
    · next hk =>
      cases hv
      exact ⟨hk, hxs x List.mem_cons_self⟩
    · exact h k v hv

/-- The values of a table, inserted under their keys, make the table. -/
theorem foldl_insert_values (h : t.Filed key P) :
    t.values.foldl (fun t v => t.insert (key v) v) empty = t := by
  have hentries : t.entries = t.values.map fun v => (key v, v) := by
    rw [values, List.map_map]
    refine ((List.map_congr_left fun p hp => ?_).trans (List.map_id _)).symm
    exact Prod.ext (h p.1 p.2 (get?_eq_some_iff.2 hp)).1 rfl
  have hinsert := t.foldl_insert_entries
  rwa [hentries, List.foldl_map] at hinsert

end Filed

/-! ### Sameness -/

theorem get?_of_same {eq : α → α → Bool} {t u : Table κ α} (h : t.same eq u = true) {k : κ} {v : α}
    (hv : t.get? k = some v) : ∃ w, u.get? k = some w ∧ eq v w = true := by
  rw [same, Bool.and_eq_true, List.all_eq_true] at h
  exact (Option.any_eq_true _ _).1 (h.2 (k, v) (get?_eq_some_iff.1 hv))

theorem perm_keys_of_get?_eq {t u : Table κ α} (h : ∀ k, t.get? k = u.get? k) :
    t.keys.Perm u.keys := by
  refine (List.perm_ext_iff_of_nodup t.nodup u.nodup).2 fun k => ?_
  change k ∈ t.keys ↔ k ∈ u.keys
  rw [← contains_iff, ← contains_iff, contains, contains, h]

/-- Tables that hold the same under all keys are the same. -/
theorem same_of_get?_eq {eq : α → α → Bool} (heq : ∀ v, eq v v = true) {t u : Table κ α}
    (h : ∀ k, t.get? k = u.get? k) : t.same eq u = true := by
  have hsize : t.size = u.size := by
    have hlength := (perm_keys_of_get?_eq h).length_eq
    rwa [keys, keys, List.length_map, List.length_map] at hlength
  rw [same, Bool.and_eq_true, List.all_eq_true]
  refine ⟨beq_iff_eq.2 hsize, fun p hp => ?_⟩
  obtain ⟨k, v⟩ := p
  dsimp only
  rw [← h, get?_eq_some_iff.2 hp]
  exact heq v

theorem same_refl {eq : α → α → Bool} (heq : ∀ v, eq v v = true) (t : Table κ α) :
    t.same eq t = true :=
  same_of_get?_eq heq fun _ => rfl

end Deployment.Table

namespace Deployment.NameSet

theorem insertMany_append (s : NameSet) {names : List String} (h : (s.toList ++ names).Nodup) :
    (s.insertMany names).toList = s.toList ++ names := by
  induction names generalizing s with
  | nil => simp [insertMany]
  | cons name names ih =>
    have hnew : name ∉ s.toList := fun hmem =>
      (List.nodup_append.1 h).2.2 _ hmem _ List.mem_cons_self rfl
    have hinsert : (s.insert name).toList = s.toList ++ [name] := by
      rw [insert, dif_neg hnew]
    rw [insertMany, List.foldl_cons]
    exact (ih (s.insert name) (by rw [hinsert]; simpa using h)).trans (by rw [hinsert]; simp)

/-- The names of a set make the set. -/
theorem insertMany_toList (s : NameSet) : empty.insertMany s.toList = s := by
  have hlist : (empty.insertMany s.toList).toList = s.toList := insertMany_append empty s.nodup
  cases h : empty.insertMany s.toList
  cases s
  rw [h] at hlist
  cases hlist
  rfl

/-- Sets of the same names are the same. -/
theorem same_of_mem_iff {s t : NameSet} (h : ∀ n, n ∈ s.toList ↔ n ∈ t.toList) :
    s.same t = true := by
  have hsize := ((List.perm_ext_iff_of_nodup s.nodup t.nodup).2 h).length_eq
  rw [same, Bool.and_eq_true, List.all_eq_true]
  exact ⟨beq_iff_eq.2 hsize, fun name hname => List.contains_iff_mem.2 ((h name).1 hname)⟩

theorem same_refl (s : NameSet) : s.same s = true := same_of_mem_iff fun _ => Iff.rfl

end Deployment.NameSet
