/-!
# Tables and sets in insertion order

A deployment is described in an order that its reports keep: the components of a
graph, the variables of a component, the channels of an instance all come out as they
went in. Two containers hold such data.

* `Table κ α`: entries with distinct keys. A new key goes to the end; a key that is
  present keeps its place when its value changes.
* `NameSet`: distinct names, a new one going to the end.

Both carry the proof that nothing is held twice. Their order shows in reports, but two
of them are the *same* (`Table.same`, `NameSet.same`) when they hold the same entries in
any order.
-/

universe u v w

namespace Deployment

/-- Entries with distinct keys, in insertion order. -/
structure Table (κ : Type u) (α : Type v) where
  /-- The keys with their values. -/
  entries : List (κ × α)
  /-- No key occurs twice. -/
  nodup : (entries.map Prod.fst).Nodup

namespace Table

variable {κ : Type u} {α : Type v} {β : Type w}

/-- The table without entries. -/
def empty : Table κ α := ⟨[], List.nodup_nil⟩

instance : Inhabited (Table κ α) := ⟨empty⟩

/-- The keys, in order. -/
def keys (t : Table κ α) : List κ := t.entries.map Prod.fst

/-- The values, in the order of their keys. -/
def values (t : Table κ α) : List α := t.entries.map Prod.snd

/-- The number of entries. -/
def size (t : Table κ α) : Nat := t.entries.length

/-- Whether the table has no entry. -/
def isEmpty (t : Table κ α) : Bool := t.entries.isEmpty

/-- Every value changed by a function that also sees its key. -/
def map (f : κ → α → β) (t : Table κ α) : Table κ β where
  entries := t.entries.map fun (k, v) => (k, f k v)
  nodup := by simpa [List.map_map, Function.comp_def] using t.nodup

@[simp] theorem keys_map (f : κ → α → β) (t : Table κ α) : (t.map f).keys = t.keys := by
  simp [keys, map, List.map_map, Function.comp_def]

/-- The entries that pass a test. -/
def filter (p : κ → α → Bool) (t : Table κ α) : Table κ α where
  entries := t.entries.filter fun (k, v) => p k v
  nodup := t.nodup.sublist (List.filter_sublist.map _)

variable [DecidableEq κ]

/-! ### Look-up -/

/-- The value that a list of entries holds first for a key. -/
def find? (k : κ) : List (κ × α) → Option α
  | [] => none
  | (k', v) :: rest => if k' = k then some v else find? k rest

/-- The value of a key, if the table has it. -/
def get? (t : Table κ α) (k : κ) : Option α := find? k t.entries

/-- Whether the table has a key. -/
def contains (t : Table κ α) (k : κ) : Bool := (t.get? k).isSome

theorem find?_eq_none_iff {k : κ} {xs : List (κ × α)} :
    find? k xs = none ↔ k ∉ xs.map Prod.fst := by
  induction xs with
  | nil => simp [find?]
  | cons x xs ih =>
    obtain ⟨k', v⟩ := x
    by_cases h : k' = k
    · simp [find?, h]
    · simp [find?, h, Ne.symm h, ih]

theorem find?_eq_some_iff {k : κ} {v : α} {xs : List (κ × α)}
    (hxs : (xs.map Prod.fst).Nodup) : find? k xs = some v ↔ (k, v) ∈ xs := by
  induction xs with
  | nil => simp [find?]
  | cons x xs ih =>
    obtain ⟨k', v'⟩ := x
    simp only [List.map_cons, List.nodup_cons] at hxs
    by_cases h : k' = k
    · subst h
      have hnot : (k', v) ∉ xs := fun hv => hxs.1 (List.mem_map_of_mem (f := Prod.fst) hv)
      simp [find?, hnot, eq_comm]
    · simp [find?, h, Ne.symm h, ih hxs.2]

/-- A key has a value exactly if the pair is an entry. -/
theorem get?_eq_some_iff {t : Table κ α} {k : κ} {v : α} :
    t.get? k = some v ↔ (k, v) ∈ t.entries :=
  find?_eq_some_iff t.nodup

/-- A key has no value exactly if it is not among the keys. -/
theorem get?_eq_none_iff {t : Table κ α} {k : κ} : t.get? k = none ↔ k ∉ t.keys :=
  find?_eq_none_iff

/-- The table has exactly its keys. -/
theorem contains_iff {t : Table κ α} {k : κ} : t.contains k = true ↔ k ∈ t.keys := by
  rw [contains, Option.isSome_iff_ne_none, ne_eq, get?_eq_none_iff, Decidable.not_not]

/-! ### Change -/

/-- The entries with a value for a key: in the key's place if it is present, at the end
    otherwise. -/
def put (k : κ) (v : α) : List (κ × α) → List (κ × α)
  | [] => [(k, v)]
  | (k', v') :: rest => if k' = k then (k, v) :: rest else (k', v') :: put k v rest

theorem keys_put (k : κ) (v : α) (xs : List (κ × α)) :
    (put k v xs).map Prod.fst =
      if k ∈ xs.map Prod.fst then xs.map Prod.fst else xs.map Prod.fst ++ [k] := by
  induction xs with
  | nil => simp [put]
  | cons x xs ih =>
    obtain ⟨k', v'⟩ := x
    by_cases h : k' = k
    · simp [put, h]
    · simp only [put, h, if_false, List.map_cons, ih, List.mem_cons, Ne.symm h, false_or]
      split <;> simp

theorem find?_put (k j : κ) (v : α) (xs : List (κ × α)) :
    find? j (put k v xs) = if k = j then some v else find? j xs := by
  induction xs with
  | nil => simp [put, find?]
  | cons x xs ih =>
    obtain ⟨k', v'⟩ := x
    by_cases h : k' = k
    · subst h
      by_cases hj : k' = j <;> simp [put, find?, hj]
    · simp only [put, h, if_false, find?, ih]
      by_cases hj : k' = j
      · subst hj
        simp [Ne.symm h]
      · simp [hj]

/-- A value for a key: in the key's place if it is present, at the end otherwise. -/
def insert (t : Table κ α) (k : κ) (v : α) : Table κ α where
  entries := put k v t.entries
  nodup := by
    rw [keys_put]
    split
    · exact t.nodup
    · next h =>
      refine List.nodup_append.2 ⟨t.nodup, by simp, ?_⟩
      intro a ha b hb hab
      simp only [List.mem_singleton] at hb
      exact h (hb ▸ hab ▸ ha)

theorem get?_insert (t : Table κ α) (k j : κ) (v : α) :
    (t.insert k v).get? j = if k = j then some v else t.get? j :=
  find?_put k j v t.entries

/-- A value for a key that the table does not have; a key that is present keeps its
    value. -/
def insertNew (t : Table κ α) (k : κ) (v : α) : Table κ α :=
  if t.contains k then t else t.insert k v

/-- The table without a key; the others keep their order. -/
def erase (t : Table κ α) (k : κ) : Table κ α := t.filter fun k' _ => k' != k

/-- The value of a key changed; nothing happens if the key is absent. -/
def modify (t : Table κ α) (k : κ) (f : α → α) : Table κ α :=
  t.map fun k' v => if k' = k then f v else v

/-- The table of a list of entries; a repeated key keeps its first place and takes its
    last value. -/
def ofList (xs : List (κ × α)) : Table κ α := xs.foldl (fun t (k, v) => t.insert k v) empty

/-- Further entries, for the keys that the table does not have. -/
def extend (t : Table κ α) (xs : List (κ × α)) : Table κ α :=
  xs.foldl (fun t (k, v) => t.insertNew k v) t

/-- Same keys with related values, in any order. -/
def same (eq : α → α → Bool) (t u : Table κ α) : Bool :=
  t.size == u.size && t.entries.all fun (k, v) => (u.get? k).any (eq v)

end Table

/-- Distinct names, in insertion order. -/
structure NameSet where
  /-- The names. -/
  toList : List String
  /-- No name occurs twice. -/
  nodup : toList.Nodup
deriving DecidableEq

namespace NameSet

/-- The set without names. -/
def empty : NameSet := ⟨[], List.nodup_nil⟩

instance : Inhabited NameSet := ⟨empty⟩

/-- Whether a name is in the set. -/
def contains (s : NameSet) (name : String) : Bool := s.toList.contains name

/-- Whether the set has no name. -/
def isEmpty (s : NameSet) : Bool := s.toList.isEmpty

/-- The number of names. -/
def size (s : NameSet) : Nat := s.toList.length

/-- A name more, at the end unless it is present. -/
def insert (s : NameSet) (name : String) : NameSet :=
  if h : name ∈ s.toList then s
  else ⟨s.toList ++ [name], List.nodup_append.2 ⟨s.nodup, by simp, by
    intro a ha b hb hab
    simp only [List.mem_singleton] at hb
    exact h (hb ▸ hab ▸ ha)⟩⟩

@[simp] theorem mem_insert {s : NameSet} {name n : String} :
    n ∈ (s.insert name).toList ↔ n ∈ s.toList ∨ n = name := by
  unfold insert
  split
  · constructor
    · exact .inl
    · rintro (h | rfl)
      · exact h
      · assumption
  · simp

/-- The names of a list more, in order. -/
def insertMany (s : NameSet) (names : List String) : NameSet := names.foldl insert s

@[simp] theorem mem_insertMany {s : NameSet} {names : List String} {n : String} :
    n ∈ (s.insertMany names).toList ↔ n ∈ s.toList ∨ n ∈ names := by
  induction names generalizing s with
  | nil => simp [insertMany]
  | cons a as ih =>
    have := ih (s := s.insert a)
    simp only [insertMany, List.foldl_cons] at this ⊢
    rw [this]
    simp [or_assoc]

/-- The set of the names of a list; a repeated name keeps its first place. -/
def ofList (names : List String) : NameSet := empty.insertMany names

@[simp] theorem mem_ofList {names : List String} {n : String} :
    n ∈ (ofList names).toList ↔ n ∈ names := by
  simp [ofList, empty]

/-- The set without a name; the others keep their order. -/
def erase (s : NameSet) (name : String) : NameSet :=
  ⟨s.toList.erase name, s.nodup.erase name⟩

/-- Same names, in any order. -/
def same (s t : NameSet) : Bool := s.size == t.size && s.toList.all t.contains

end NameSet

end Deployment
