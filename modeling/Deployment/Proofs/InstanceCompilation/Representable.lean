import Deployment.Proofs.Forest.Trees
import Deployment.Proofs.InstanceCompilation.RoundTrip

/-!
# Representable forests

A forest need not be compiled to be written. Any forest of instances of known components, under
valid names that are not padded and differ side by side, with channels that are plain entries of
lists, and with values that are not empty, is written as a file that compiles without diagnostics to
the same forest, except for what the options leave out (`compile_written_of_representable`).

* `Forest.Representable`: such forests;
* `Instance.Representable.kept`, `Instance.Representable.readBack_eq`: what the options leave of a
  representable instance is representable, and read as it was written.
-/

namespace Deployment

open Deployment.Tree

/-! ### Representable instances -/

/-- A name that is an entry of a list value as it stands: not empty, not padded, and without commas
    and quotes. -/
structure Text.Entry (s : String) : Prop where
  ne_empty : s ≠ ""
  trimmed : Text.trim s = s
  comma : ',' ∉ s.toList
  quote : '"' ∉ s.toList

instance : DecidablePred Text.Entry := fun s =>
  decidable_of_iff (s ≠ "" ∧ Text.trim s = s ∧ ',' ∉ s.toList ∧ '"' ∉ s.toList)
    ⟨fun ⟨hne, htrimmed, hcomma, hquote⟩ => ⟨hne, htrimmed, hcomma, hquote⟩,
      fun h => ⟨h.ne_empty, h.trimmed, h.comma, h.quote⟩⟩

theorem Text.Entry.inert {s : String} (h : Text.Entry s) : Inert s.toList where
  trimmed := by
    have htrim := congrArg String.toList h.trimmed
    rw [Text.trim, String.toList_ofList] at htrim
    rw [← htrim]
    exact Chars.trimmed_trim _
  ne_nil hnil := h.ne_empty (String.toList_injective hnil)
  comma := h.comma
  quote := h.quote

theorem Text.Entry.names_eq {s : String} (h : Text.Entry s) : Text.names s = [s] := by
  obtain ⟨c, r, hs, -, hquote⟩ := h.inert.exists_cons
  have hentries := Chars.entries_of_shielded h.inert.trimmed h.inert.ne_nil
    (Chars.shielded_of_not_mem h.comma)
  have htrim := Chars.trim_of_trimmed h.inert.trimmed
  have hunquote : Chars.unquote s.toList = s.toList := by
    rw [Chars.unquote_of_head, htrim]
    rw [htrim, hs, List.head?_cons]
    simpa using hquote
  rw [Text.names, hentries, List.map_singleton, hunquote, String.ofList_toList]

namespace Instance

/-- An instance of a known component under a valid name that is not padded, whose channels are
    entries of a list, whose values are not empty, and which gives values to variables under names
    that mean nothing else. -/
structure Representable (g : TypeGraph) (i : Instance) : Prop where
  name : isInstanceName i.name
  trimmed : Text.trim i.name = i.name
  component : isTypeName i.component
  known : g.components.contains i.component
  channels : ∀ n ∈ i.channels.toList, Text.Entry n
  data : ∀ value ∈ i.data.values, value ≠ ""
  overrides : ∀ p ∈ i.overrides.entries, IsOverride p.1 ∧ p.2 ≠ ""

instance (g : TypeGraph) : DecidablePred (Representable g) := fun i =>
  decidable_of_iff (isInstanceName i.name ∧ Text.trim i.name = i.name ∧ isTypeName i.component ∧
      g.components.contains i.component ∧ (∀ n ∈ i.channels.toList, Text.Entry n) ∧
      (∀ value ∈ i.data.values, value ≠ "") ∧
      ∀ p ∈ i.overrides.entries, IsOverride p.1 ∧ p.2 ≠ "")
    ⟨fun ⟨hname, htrimmed, hcomponent, hknown, hchannels, hdata, hoverrides⟩ =>
        ⟨hname, htrimmed, hcomponent, hknown, hchannels, hdata, hoverrides⟩,
      fun h => ⟨h.name, h.trimmed, h.component, h.known, h.channels, h.data, h.overrides⟩⟩

theorem same_refl (i : Instance) : i.same i = true := by
  have htables : ∀ t : Table String String, t.same (· == ·) t = true :=
    Table.same_refl fun v => beq_self_eq_true v
  simp [same, htables, NameSet.same_refl]

namespace Representable

variable {g : TypeGraph} {i : Instance} (h : i.Representable g)

include h

theorem valid : i.Valid where
  name := h.name
  component := h.component
  channels := by
    refine List.pairwise_of_forall_mem_list fun n hn _ _ => ?_
    exact Chars.between_of_not_mem (h.channels n hn).quote
  overrides key value hget := h.overrides (key, value) (Table.get?_eq_some_iff.1 hget)

theorem writable : i.Writable where
  name := (unquote_of_isInstanceName h.name).trans h.trimmed
  channels n hn := (h.channels n hn).names_eq
  data := h.data

/-- What the options leave of a representable instance is representable. -/
theorem kept (options : WriteOptions) : (i.kept options).Representable g where
  name := h.name
  trimmed := h.trimmed
  component := h.component
  known := h.known
  channels := h.channels
  data value hvalue := by
    rw [Instance.kept] at hvalue
    dsimp only at hvalue
    split at hvalue
    · exact h.data value hvalue
    · cases hvalue
  overrides p hp := by
    rw [Instance.kept] at hp
    dsimp only at hp
    split at hp
    · exact h.overrides p hp
    · cases hp

/-- A representable instance is read as what the options leave of it. -/
theorem readBack_eq (options : WriteOptions) : i.readBack options = i.kept options :=
  reread_of_writable (h.kept options).valid (h.kept options).writable

end Representable

end Instance

/-! ### Representable forests -/

namespace Forest

/-- A forest of representable instances whose names differ among the roots and among the children of
    every instance. -/
structure Representable (g : TypeGraph) (f : Forest) : Prop where
  instances : ∀ id ∈ f.all, ∀ i ∈ f.get? id, i.Representable g
  roots : (f.namesOf f.roots).Nodup
  children : ∀ id ∈ f.all, (f.namesOf (f.children id)).Nodup

theorem same_of_toTrees_eq {f g : Forest} (h : g.toTrees = f.toTrees) : f.same g = true := by
  have hsame : sameAll Instance.same f.toTrees (mapAll id f.toTrees) = true :=
    sameAll_mapAll_iff.2 fun i _ => i.same_refl
  rw [mapAll_id] at hsame
  rw [same, h, hsame]

variable {f : Forest} {g : TypeGraph}

/-- Where the names of the instances of a forest are valid and differ side by side, the paths of
    those that are written differ. -/
theorem Representable.nodup_paths (h : f.Representable g) (options : WriteOptions) :
    ((lineagesAll (mapAll (Instance.kept options) f.toTrees)).map fun l =>
      pathOf (l.map (·.name))).Nodup := by
  have hinstances := f.forall_mem_preorders_toTrees.2 h.instances
  have hslash : ∀ l ∈ lineagesAll f.toTrees, ∀ i ∈ l, '/' ∉ i.name.toList := fun l hl i hi =>
    slash_not_mem_of_isInstanceName (hinstances i (mem_preorders_of_mem_lineagesAll hl hi)).name
  -- Without slashes in names, paths differ where the names on them do.
  have hnodup := (nodup_map_pathOf_iff hslash).2 (f.distinctAll_toTrees h.roots h.children)
  rw [mapAll_eq_map, lineagesAll_map, List.map_map]
  refine (congrArg List.Nodup (List.map_congr_left fun l _ => ?_)).mp hnodup
  rw [Function.comp_apply, List.map_map]
  rfl

end Forest

namespace InstanceCompilation

variable {f : Forest} {g : TypeGraph}

/-- A representable forest is written as a file that compiles without diagnostics to the same
    forest, without what the options leave out, whatever the file is called and whatever comments it
    has. The instances of a forest are those that stand below its roots; how they are linked does
    not matter. -/
theorem compile_written_of_representable (h : f.Representable g) (path dir : Path)
    (options : WriteOptions) :
    ∃ again, compile (FileStore.empty.insert (f.toFile path options)).loader Block.check g path
        dir = .ok again ∧
      again.diagnostics = [] ∧
      (f.mapInstances (Instance.kept options)).same again.forest = true := by
  have hinstances := f.forall_mem_preorders_toTrees.2 h.instances
  have hvalid : ∀ i ∈ preorders f.toTrees, i.Valid := fun i hi => (hinstances i hi).valid
  have hread : mapAll (Instance.readBack options) f.toTrees =
      mapAll (Instance.kept options) f.toTrees :=
    mapAll_congr fun i hi => (hinstances i hi).readBack_eq options
  have htrees := toTrees_ofClosure_toFile hvalid path options g
  have hclean := diagnostics_ofClosure_toFile_iff hvalid path options
    fun i hi => (hinstances i hi).known
  rw [hread] at htrees hclean
  refine ⟨_, compile_single Forest.imports_toFile Block.check g dir,
    hclean.2 ⟨fun i hi => ?_, ?_⟩, ?_⟩
  · have hkept := (hinstances i hi).kept options
    exact Write.forall_value_of_writable hkept.valid hkept.writable
  · exact h.nodup_paths options
  · exact Forest.same_of_toTrees_eq (htrees.trans (f.toTrees_mapInstances _).symm)

/-- Two machines, the second of which comes first in the list of nodes, with two servers on it. -/
def racked : Forest :=
  let server (name : String) : Instance :=
    { Instance.named name "VM" with
      status := .deployedStarted
      channels := .ofList ["demo", "test lab"]
      data := .ofList [("owner", "\"ops\", dev"), ("", "none")]
      overrides := .ofList [("ip", "10.0.0.1 "), ("VM.port", "80, 81")] }
  { nodes := #[⟨server "web", some 2, []⟩, ⟨.named "spare" "VM", none, []⟩,
      ⟨{ Instance.named "vm 1" "VM" with status := .problem }, none, [3, 0]⟩,
      ⟨server "db", some 2, []⟩]
    roots := [2, 1] }

/-- The statuses are left out, and without them it is another forest. -/
theorem compile_written_of_representable_racked :
    let options := { WriteOptions.full with state := false, comments := true }
    racked.Representable machines ∧
      (∃ again, compile (FileStore.empty.insert (racked.toFile ⟨"a.instances"⟩ options)).loader
          Block.check machines ⟨"a.instances"⟩ ⟨""⟩ = .ok again ∧
        again.diagnostics = [] ∧
        (racked.mapInstances (Instance.kept options)).same again.forest = true) ∧
      (racked.mapInstances (Instance.kept options)).same racked = false := by
  have h : racked.Representable machines :=
    { instances := by decide +kernel
      roots := by decide +kernel
      children := by decide +kernel }
  exact ⟨h, compile_written_of_representable h _ _ _, by decide +kernel⟩

end InstanceCompilation

end Deployment
