import Deployment.Proofs.Draft.Body
import Deployment.Proofs.Write.Types

/-!
# Written instances

An instance is written without its status, its data or its overrides if the options leave them out
(`Instance.kept`). What is written of a valid instance is read as it was, but for its name, which is
trimmed, and for its channels (`Instance.reread`); and nothing is wrong with it exactly if every
property has a value.

* `foldl_instancePairs`: what is read;
* `clean_iff`: when the declaration is clean;
* `Instance.same_reread_iff`: when the same instance is read.
-/

namespace Deployment

namespace Instance

variable {i : Instance} {options : WriteOptions}

/-- An instance without what the options leave out. -/
def kept (options : WriteOptions) (i : Instance) : Instance :=
  { i with
    status := if options.state then i.status else .notDeployed
    data := if options.data then i.data else .empty
    overrides := if options.overrides then i.overrides else .empty }

/-- A written instance as it is read. -/
def reread (i : Instance) : Instance :=
  { i with name := Text.unquote i.name, channels := i.channels.reread }

/-- An instance whose name is not padded, whose channels are neither padded nor quoted nor have
    commas that separate, and whose data are not empty: it is read as it was. -/
structure Writable (i : Instance) : Prop where
  name : Text.unquote i.name = i.name
  channels : ∀ n ∈ i.channels.toList, Text.names n = [n]
  data : ∀ value ∈ i.data.values, value ≠ ""

instance : DecidablePred Writable := fun i =>
  decidable_of_iff (Text.unquote i.name = i.name ∧ (∀ n ∈ i.channels.toList, Text.names n = [n]) ∧
      ∀ value ∈ i.data.values, value ≠ "")
    ⟨fun ⟨hname, hchannels, hdata⟩ => ⟨hname, hchannels, hdata⟩,
      fun h => ⟨h.name, h.channels, h.data⟩⟩

theorem Valid.kept (h : i.Valid) (options : WriteOptions) : (i.kept options).Valid where
  name := h.name
  component := h.component
  channels := h.channels
  overrides key value hget := by
    rw [Instance.kept] at hget
    dsimp only at hget
    split at hget
    · exact h.overrides key value hget
    · cases hget

theorem reread_of_writable (h : i.Valid) (hw : i.Writable) : i.reread = i := by
  rw [reread, hw.name, NameSet.reread_of_single h.channels hw.channels]

/-- A valid instance is read as the same instance exactly if its name and its channels are. -/
theorem same_reread_iff (h : i.Valid) :
    i.same i.reread = true ↔
      Text.unquote i.name = i.name ∧ ∀ n ∈ i.channels.toList, Text.names n = [n] := by
  have htables : ∀ t : Table String String, t.same (· == ·) t = true :=
    Table.same_refl fun v => beq_self_eq_true v
  rw [same, ← NameSet.same_reread_iff h.channels, reread]
  simp only [beq_self_eq_true, Bool.and_true, htables, Bool.and_eq_true, beq_iff_eq]
  exact and_congr_left fun _ => eq_comm

end Instance

namespace Write

open Instance

variable {i : Instance} {options : WriteOptions}

/-! ### Properties -/

/-- The properties that an instance is written as. -/
def instancePairs (i : Instance) : List (String × String) :=
  [("name", i.name)] ++ listPairs "channels" i.channels.toList ++
    (if i.status = .notDeployed then [] else [("state", i.status.name)]) ++
    (i.data.entries.map fun p => ("data." ++ p.1, Text.quoted p.2)) ++
    i.overrides.entries.map fun p => (p.1, Text.quoted p.2)

theorem properties_map_property {α : Type} (name value : α → String) (xs : List α) :
    Block.properties (xs.map fun x => property (name x) (value x)) =
      xs.map fun x => (name x, value x) := by
  rw [Block.properties, List.filterMap_map, ← List.filterMap_eq_map]
  rfl

theorem properties_instanceProperties (options : WriteOptions) (i : Instance) :
    Block.properties (instanceProperties options i) = instancePairs (i.kept options) := by
  have hstate : ∀ (written : Bool) (status : Status),
      Block.properties (if written && status != .notDeployed then
        [property "state" status.name] else []) =
          if (if written then status else .notDeployed) = .notDeployed then []
          else [("state", (if written then status else .notDeployed).name)] := by
    intro written status
    cases written <;> cases status <;> rfl
  have htable : ∀ (name : String → String) (written : Bool) (t : Table String String),
      Block.properties (if written then
        t.entries.map fun p => property (name p.1) (Text.quoted p.2) else []) =
          (if written then t else .empty).entries.map fun p => (name p.1, Text.quoted p.2) := by
    intro name written t
    cases written with
    | false => rfl
    | true => exact properties_map_property _ _ _
  rw [instanceProperties, properties_append, properties_append, properties_append,
    properties_append, properties_listProperty, hstate, htable ("data." ++ ·),
    htable fun key => key]
  rfl

/-! ### What is read -/

theorem parse_name (status : Status) : Status.parse (Text.unquote status.name) = some status := by
  cases status <;> decide

theorem unquote_quoted (value : String) : Text.unquote (Text.quoted value) = value := by
  rw [Text.unquote, Text.quoted, String.toList_ofList, Chars.unquote_quoted, String.ofList_toList]

theorem foldl_data (entries : List (String × String)) (i : Instance) :
    (entries.map fun p => ("data." ++ p.1, Text.quoted p.2)).foldl addProperty i =
      { i with data := entries.foldl (fun t p => t.insert p.1 p.2) i.data } := by
  induction entries generalizing i with
  | nil => rfl
  | cons p entries ih =>
    rw [List.map_cons, List.foldl_cons, addProperty_data, ih, unquote_quoted]
    rfl

theorem foldl_overrides {entries : List (String × String)} (h : ∀ p ∈ entries, IsOverride p.1)
    (i : Instance) :
    (entries.map fun p => (p.1, Text.quoted p.2)).foldl addProperty i =
      { i with overrides := entries.foldl (fun t p => t.insert p.1 p.2) i.overrides } := by
  induction entries generalizing i with
  | nil => rfl
  | cons p entries ih =>
    rw [List.map_cons, List.foldl_cons, addProperty_override _ (h p List.mem_cons_self),
      ih fun q hq => h q (List.mem_cons_of_mem _ hq), unquote_quoted]
    rfl

theorem isOverride_of_mem (h : i.Valid) {p : String × String} (hp : p ∈ i.overrides.entries) :
    IsOverride p.1 :=
  (h.overrides p.1 p.2 (Table.get?_eq_some_iff.2 hp)).1

/-- A valid instance is read as it was written, up to its name and its channels. -/
theorem foldl_instancePairs (h : i.Valid) :
    (instancePairs i).foldl addProperty (.named "" i.component) = i.reread := by
  have hfirst : (listPairs "channels" i.channels.toList).foldl addProperty
      ([("name", i.name)].foldl addProperty (.named "" i.component)) =
        { named (Text.unquote i.name) i.component with channels := i.channels.reread } := by
    rw [foldl_listPairs rfl]
    rfl
  have hstate : ∀ j : Instance, j.status = .notDeployed →
      (if i.status = .notDeployed then [] else [("state", i.status.name)]).foldl addProperty j =
        { j with status := i.status } := by
    intro j hj
    split
    · next heq =>
      rw [heq, ← hj]
      rfl
    · exact congrArg (fun s : Option Status => { j with status := s.getD .notDeployed })
        (parse_name i.status)
  rw [instancePairs]
  simp only [List.foldl_append]
  rw [hfirst, hstate _ rfl, foldl_data, foldl_overrides fun p hp => isOverride_of_mem h hp]
  dsimp only [named]
  rw [Table.foldl_insert_entries, Table.foldl_insert_entries]
  rfl

/-! ### What is checked -/

/-- Nothing is written twice. -/
theorem nodup_instancePairs (h : i.Valid) : ((instancePairs i).map Prod.fst).Nodup := by
  have hown : (([("name", i.name)] ++ listPairs "channels" i.channels.toList ++
      if i.status = .notDeployed then [] else [("state", i.status.name)]).map Prod.fst).Sublist
        ["name", "channels", "state"] := by
    rw [List.map_append, List.map_append]
    refine ((List.Sublist.refl ["name"]).append (map_fst_listPairs _ _)).append ?_
    split
    · exact List.nil_sublist _
    · exact List.Sublist.refl _
  have hreserved : ∀ key ∈ ["name", "channels", "state"], key ∈ ownProperties := by decide
  have hdata : (i.data.entries.map fun p => "data." ++ p.1).Nodup := by
    have hinj : Function.Injective ("data." ++ · : String → String) := fun _ _ heq =>
      (String.append_right_inj _).1 heq
    have hkeys := List.Nodup.map hinj i.data.nodup
    rwa [List.map_map] at hkeys
  rw [instancePairs, List.map_append, List.map_append, List.map_map, List.map_map,
    List.append_assoc]
  refine List.Nodup.append (hown.nodup (by decide))
    (List.Nodup.append hdata i.overrides.nodup ?_) ?_
  · -- The name of an override does not begin like that of an entry of the data.
    rintro key hkey hoverride
    obtain ⟨p, -, rfl⟩ := List.mem_map.1 hkey
    obtain ⟨q, hq, heq⟩ := List.mem_map.1 hoverride
    have hnone := (isOverride_of_mem h hq).data
    rw [Function.comp_apply] at heq
    rw [heq] at hnone
    exact nomatch hnone.symm.trans (after?_data p.1)
  · intro key hkey hother
    have hkey := hreserved key (hown.subset hkey)
    rcases List.mem_append.1 hother with hother | hother
    · obtain ⟨p, -, rfl⟩ := List.mem_map.1 hother
      exact data_not_mem_ownProperties p.1 hkey
    · obtain ⟨q, hq, rfl⟩ := List.mem_map.1 hother
      exact (isOverride_of_mem h hq).own hkey

/-- Which properties are written. -/
theorem property_of_mem (h : i.Valid) {p : String × String} (hp : p ∈ instancePairs i) :
    p.1 = "name" ∨ p.1 = "channels" ∨ p = ("state", i.status.name) ∨ p.1 ∉ ownProperties := by
  rw [instancePairs] at hp
  simp only [List.mem_append] at hp
  rcases hp with (((hp | hp) | hp) | hp) | hp
  · exact .inl (congrArg Prod.fst (List.mem_singleton.1 hp))
  · have hname := (map_fst_listPairs _ _).subset (List.mem_map_of_mem hp)
    exact .inr (.inl (List.mem_singleton.1 hname))
  · split at hp
    · exact nomatch hp
    · exact .inr (.inr (.inl (List.mem_singleton.1 hp)))
  · obtain ⟨q, -, rfl⟩ := List.mem_map.1 hp
    exact .inr (.inr (.inr (data_not_mem_ownProperties q.1)))
  · obtain ⟨q, hq, rfl⟩ := List.mem_map.1 hp
    exact .inr (.inr (.inr (isOverride_of_mem h hq).own))

theorem ne_count_of_mem (h : i.Valid) {p : String × String} (hp : p ∈ instancePairs i) :
    p.1 ≠ "count" := by
  rcases property_of_mem h hp with hname | hchannels | rfl | hother
  · rw [hname]
    decide
  · rw [hchannels]
    decide
  · have hne : "state" ≠ "count" := by decide
    exact hne
  · exact fun hcount => hother (hcount ▸ by decide)

/-- A written instance does not ask for copies. -/
theorem filter_count_instancePairs (h : i.Valid) : (instancePairs i).filter (·.1 = "count") = [] :=
  List.filter_eq_nil_iff.2 fun p hp => by simpa using ne_count_of_mem h hp

/-- About each property that is written, the check says nothing. -/
theorem checkInstanceProperty_of_mem (h : i.Valid) {p : String × String}
    (hp : p ∈ instancePairs i) (site : Site) : Block.checkInstanceProperty site p.1 p.2 = [] := by
  rw [Block.checkInstanceProperty, if_neg (ne_count_of_mem h hp)]
  split
  · next hstate =>
    rcases property_of_mem h hp with hname | hchannels | rfl | hother
    · exact absurd (hname.symm.trans hstate) (by decide)
    · exact absurd (hchannels.symm.trans hstate) (by decide)
    · rw [parse_name]
      rfl
    · exact absurd (hstate ▸ by decide) hother
  · rfl

/-- The declaration of a written instance is clean exactly if each of its properties has a value. -/
theorem clean_iff (h : i.Valid) {site : Site} {inner : List Block}
    (hinner : Block.properties inner = instancePairs i) :
    InstanceDeclaration.Clean ⟨site, i.component, inner⟩ ↔
      ∀ p ∈ instancePairs i, Text.unquote p.2 ≠ "" := by
  constructor
  · exact fun hclean => hinner ▸ hclean.value
  · intro hvalue
    refine ⟨h.component, ?_, ?_, i.name, ?_, isInstanceName_unquote h.name⟩
    · rw [hinner]
      exact nodup_instancePairs h
    · rwa [hinner]
    · rw [Block.lookup, hinner]
      exact List.lookup_cons_self

/-- Each property of a written instance has a value if the channels have one and no datum is
    empty. -/
theorem forall_value_iff (h : i.Valid) :
    (∀ p ∈ instancePairs i, Text.unquote p.2 ≠ "") ↔
      (i.channels.toList ≠ [] → Text.unquote (Text.join ", " i.channels.toList) ≠ "") ∧
        ∀ value ∈ i.data.values, value ≠ "" := by
  have hname : Text.unquote i.name ≠ "" := isInstanceName_ne_empty (isInstanceName_unquote h.name)
  have hstate : ∀ p ∈ (if i.status = .notDeployed then [] else [("state", i.status.name)]),
      Text.unquote p.2 ≠ "" := by
    intro p hp
    split at hp
    · exact nomatch hp
    · rw [List.mem_singleton.1 hp]
      cases i.status <;> decide
  have hoverrides : ∀ p ∈ i.overrides.entries, p.2 ≠ "" := fun p hp =>
    (h.overrides p.1 p.2 (Table.get?_eq_some_iff.2 hp)).2
  rw [instancePairs, Table.values]
  simp only [List.forall_mem_append, List.forall_mem_singleton, forall_mem_listPairs,
    List.forall_mem_map, unquote_quoted]
  constructor
  · rintro ⟨⟨⟨⟨-, hchannels⟩, -⟩, hdata⟩, -⟩
    exact ⟨hchannels, hdata⟩
  · rintro ⟨hchannels, hdata⟩
    exact ⟨⟨⟨⟨hname, hchannels⟩, hstate⟩, hdata⟩, hoverrides⟩

/-- Each property of a writable instance has a value. -/
theorem forall_value_of_writable (h : i.Valid) (hw : i.Writable) :
    ∀ p ∈ instancePairs i, Text.unquote p.2 ≠ "" :=
  (forall_value_iff h).2 ⟨fun hne => Text.unquote_join_ne_of_single hne hw.channels, hw.data⟩

end Write

end Deployment
