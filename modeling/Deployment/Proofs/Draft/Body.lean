import Deployment.Proofs.Block.Clean
import Deployment.Proofs.InstanceCompilation.Chains
import Deployment.Proofs.Write.Channels

/-!
# Instances of clean declarations

What can be said of an instance whose declaration is clean (`Instance.Valid`): its names are valid,
at most the last of its channels has a quote without a partner, and it gives values to variables
under names that mean nothing else.

* `Instance.addProperty_data`, `Instance.addProperty_override`: the properties of other names;
* `InstanceDeclaration.Clean.valid_copyBody`: the copies of a clean declaration are valid.
-/

namespace Deployment

namespace Instance

variable {i : Instance} {key value : String}

/-! ### Properties -/

/-- The names of the properties that say something about an instance itself. -/
def ownProperties : List String := ["name", "channels", "state", "count", "data"]

theorem mem_ownProperties : key ∈ ownProperties ↔
    key = "name" ∨ key = "channels" ∨ key = "state" ∨ key = "count" ∨ key = "data" := by
  simp [ownProperties]

/-- A name under which a value is given to an exported variable. -/
structure IsOverride (key : String) : Prop where
  own : key ∉ ownProperties
  data : Text.after? "data." key = none

instance : DecidablePred IsOverride := fun key =>
  decidable_of_iff (key ∉ ownProperties ∧ Text.after? "data." key = none)
    ⟨fun ⟨hown, hdata⟩ => ⟨hown, hdata⟩, fun h => ⟨h.own, h.data⟩⟩

theorem addProperty_of_not_own (i : Instance) (h : key ∉ ownProperties) (value : String) :
    i.addProperty (key, value) = match Text.after? "data." key with
      | some key => { i with data := i.data.insert key (Text.unquote value) }
      | none => { i with overrides := i.overrides.insert key (Text.unquote value) } := by
  unfold addProperty
  split
  case h_6 heq =>
    cases heq
    rfl
  all_goals
    next heq =>
    obtain ⟨rfl, -⟩ := Prod.mk.inj heq
    exact absurd (by decide) h

theorem after?_data (key : String) : Text.after? "data." ("data." ++ key) = some key := by
  rw [Text.after?, String.toList_append, Chars.after?_eq_some_iff.2 rfl, Option.map_some,
    String.ofList_toList]

theorem after?_of_mem_ownProperties (h : key ∈ ownProperties) : Text.after? "data." key = none := by
  revert key
  decide

theorem data_not_mem_ownProperties (key : String) : "data." ++ key ∉ ownProperties :=
  fun h => nomatch (after?_of_mem_ownProperties h).symm.trans (after?_data key)

/-- A property whose name begins with `data.` is an entry of the data. -/
theorem addProperty_data (i : Instance) (key value : String) :
    i.addProperty ("data." ++ key, value) =
      { i with data := i.data.insert key (Text.unquote value) } := by
  rw [addProperty_of_not_own i (data_not_mem_ownProperties key), after?_data]

theorem addProperty_override (i : Instance) (h : IsOverride key) (value : String) :
    i.addProperty (key, value) =
      { i with overrides := i.overrides.insert key (Text.unquote value) } := by
  rw [addProperty_of_not_own i h.own, h.data]

/-- A property gives a value to a variable, or does not change what is given. -/
theorem overrides_addProperty (i : Instance) (p : String × String) :
    (i.addProperty p).overrides = i.overrides ∨
      IsOverride p.1 ∧ (i.addProperty p).overrides = i.overrides.insert p.1 (Text.unquote p.2) := by
  unfold addProperty
  split
  case h_6 key value _ hname hchannels hstate hcount hdata =>
    split
    · exact .inl rfl
    · next hnone =>
      refine .inr ⟨⟨fun hown => ?_, hnone⟩, rfl⟩
      rcases mem_ownProperties.1 hown with h | h | h | h | h
      · exact hname h
      · exact hchannels h
      · exact hstate h
      · exact hcount h
      · exact hdata h
  all_goals exact .inl rfl

theorem channels_addProperty (i : Instance) (p : String × String) :
    (i.addProperty p).channels =
      if p.1 = "channels" then i.channels.insertMany (Text.names p.2) else i.channels := by
  unfold addProperty
  split
  case h_6 key value _ _ hchannels _ _ _ =>
    rw [if_neg hchannels]
    split <;> rfl
  all_goals rfl

/-- The channels that properties give an instance are those of all `channels` among them. -/
theorem channels_foldl_addProperty (props : List (String × String)) (i : Instance) :
    (props.foldl addProperty i).channels =
      (props.filter (·.1 = "channels")).foldl (fun s p => s.insertMany (Text.names p.2))
        i.channels :=
  InstanceDeclaration.read_foldl channels (fun s value => s.insertMany (Text.names value))
    channels_addProperty props i

/-! ### Valid instances -/

/-- An instance whose names are valid, whose channels were read off one list, and which gives values
    to variables only under names that mean nothing else. -/
structure Valid (i : Instance) : Prop where
  name : isInstanceName i.name
  component : isTypeName i.component
  channels : i.channels.toList.Pairwise fun n _ => Chars.between false n.toList = false
  overrides : ∀ key value, i.overrides.get? key = some value → IsOverride key ∧ value ≠ ""

end Instance

namespace InstanceDeclaration.Clean

variable {b : InstanceDeclaration} (h : b.Clean)

include h

theorem pairwise_channels :
    b.draft.body.channels.toList.Pairwise fun n _ => Chars.between false n.toList = false := by
  have hchannels : b.draft.body.channels = _ :=
    Instance.channels_foldl_addProperty (Block.properties b.inner) (.named "" b.component)
  rw [hchannels, filter_of_lookup h.nodup]
  cases (Block.properties b.inner).lookup "channels" with
  | none => exact .nil
  | some value =>
    -- The set keeps the order of the names in the list.
    exact (Text.pairwise_names value).sublist (NameSet.insertMany_sublist .empty _)

theorem overrides_valid (key value : String) (hget : b.draft.body.overrides.get? key = some value) :
    Instance.IsOverride key ∧ value ≠ "" := by
  revert key value
  refine List.foldlRecOn (motive := fun i : Instance => ∀ key value,
    i.overrides.get? key = some value → Instance.IsOverride key ∧ value ≠ "") _ _
    (fun _ _ h => nomatch h) fun i hi p hp => ?_
  rcases i.overrides_addProperty p with heq | ⟨hkey, heq⟩
  · rw [heq]
    exact hi
  · intro key value hget
    rw [heq, Table.get?_insert] at hget
    split at hget
    · next hp' =>
      cases hget
      exact ⟨hp' ▸ hkey, h.value p hp⟩
    · exact hi key value hget

/-- The instance of a clean declaration is valid under any valid name. -/
theorem valid_body {name : String} (hname : isInstanceName name) :
    Instance.Valid { b.draft.body with name } where
  name := hname
  component := b.draft_component.symm ▸ h.component
  channels := h.pairwise_channels
  overrides := h.overrides_valid

theorem isInstanceName_copyName (i : Nat) : isInstanceName (b.copyName i) := by
  obtain ⟨value, hvalue, hname⟩ := h.name
  have hdeclared : isInstanceName b.name := by
    rw [InstanceDeclaration.name, hvalue]
    exact hname
  rw [copyName]
  split
  · exact hdeclared
  · exact isInstanceName_append_padded hdeclared _ _

/-- The copies of a clean declaration are valid. -/
theorem valid_copyBody (i : Nat) : (b.copyBody i).Valid :=
  h.valid_body (h.isInstanceName_copyName i)

end InstanceDeclaration.Clean

end Deployment
