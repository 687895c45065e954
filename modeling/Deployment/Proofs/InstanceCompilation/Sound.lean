import Deployment.Proofs.Checks
import Deployment.Proofs.InstanceCompilation.Chains
import Deployment.Proofs.InstanceCompilation.Paths

/-!
# Forests without faults of conversion

A compilation of instances that reports nothing of its own results in a forest of known components
with different paths (`sound_of_no_conversion`), whatever was found in the files: this may keep
drafts from being copied, but not from being instances.
-/

namespace Deployment.InstanceCompilation

open Deployment.Tree Draft

variable {loader : Loader} {g : TypeGraph} {closure : Closure}

/-- Every instance of a compiled forest has the component of a declaration. -/
theorem exists_component {id : Nat} (hid : id ∈ (ofClosure g closure).forest.all) :
    ∃ b body, Block.Within closure.blocks b ∧ (ofClosure g closure).forest.get? id = some body ∧
      body.component = b.component := by
  obtain ⟨locate, hexpands, -⟩ := exists_expands g closure
  obtain ⟨b, i, hb, hbody⟩ := hexpands.exists_declaration hid
  have hsettle : (settle g closure b.draft).body = b.draft.body := by
    rw [settle]
    split <;> rfl
  refine ⟨b, _, hb, hbody, ?_⟩
  change (settle g closure b.draft).body.component = b.component
  rw [hsettle, b.draft_component]

/-- If no unknown component is reported, all declared components are known. -/
theorem contains_of_unknownComponents (h : unknownComponents g (draftsOf closure) = [])
    {b : InstanceDeclaration} (hb : Block.Within closure.blocks b) :
    g.components.contains b.component = true := by
  rw [draftsOf_eq] at h
  have hmem := (flatMap_breadthFirst_perm _).mem_iff.2 (mem_preorders_ofBlocks hb)
  have hnone := List.flatMap_eq_nil_iff.1 h _ hmem
  rw [unknownComponent, b.draft_component] at hnone
  by_contra hnot
  rw [if_neg hnot] at hnone
  exact List.cons_ne_nil _ _ hnone

/-- A compilation raises nothing that belongs to the checks of models. -/
theorem carried_of_runtimeModel
    (hmade : ∀ v ∈ closure, Closure.Made loader Block.check .instances v) {d : Diagnostic}
    (hd : d ∈ (ofClosure g closure).diagnostics) (hfamily : d.code.family = .runtimeModel) :
    d ∈ closure.carried := by
  have hnot : ∀ {code : Code}, code.family = .conversion → d.code ≠ code := by
    rintro code hcode rfl
    exact nomatch hcode.symm.trans hfamily
  rw [diagnostics_ofClosure, early_eq] at hd
  rcases List.mem_append.1 hd with hd | hd
  · rcases List.mem_append.1 hd with hd | hd
    · rcases List.mem_append.1 hd with hd | hd
      · exact Closure.carried_of_runtimeModel hmade rfl hd hfamily
      · exact absurd (code_of_mem_unknownComponents hd) (hnot rfl)
    · exact absurd (code_of_mem_clashes hd) (hnot rfl)
  · exact absurd (code_of_mem_repetitions hd) (hnot rfl)

/-- What a compilation reports of its own are faults of conversion. -/
theorem eq_nil_of_no_conversion
    (h : ∀ d ∈ (ofClosure g closure).diagnostics, d.code.family ≠ .conversion) :
    unknownComponents g (draftsOf closure) = [] ∧ clashes (settledDrafts g closure) = [] ∧
      repetitions (settledDrafts g closure) = [] := by
  have hdiagnostics := diagnostics_ofClosure g closure
  rw [early_eq] at hdiagnostics
  have hnone : ∀ {ds : List Diagnostic} {code : Code}, ds ⊆ (ofClosure g closure).diagnostics →
      (∀ d ∈ ds, d.code = code) → code.family = .conversion → ds = [] := by
    intro ds code hsubset hcode hfamily
    refine List.eq_nil_iff_forall_not_mem.2 fun d hd => h d (hsubset hd) ?_
    rw [hcode d hd, hfamily]
  refine ⟨hnone (fun d hd => ?_) (fun _ => code_of_mem_unknownComponents) rfl,
    hnone (fun d hd => ?_) (fun _ => code_of_mem_clashes) rfl,
    hnone (fun d hd => ?_) (fun _ => code_of_mem_repetitions) rfl⟩
  · rw [hdiagnostics]
    exact List.mem_append_left _ (List.mem_append_left _ (List.mem_append_right _ hd))
  · rw [hdiagnostics]
    exact List.mem_append_left _ (List.mem_append_right _ hd)
  · rw [hdiagnostics]
    exact List.mem_append_right _ hd

/-- Without faults of conversion, all components are known and all paths different. -/
theorem sound_of_no_conversion
    (hmade : ∀ v ∈ closure, Closure.Made loader Block.check .instances v)
    (h : ∀ d ∈ (ofClosure g closure).diagnostics, d.code.family ≠ .conversion) :
    (ofClosure g closure).forest.Known g ∧ (ofClosure g closure).forest.DistinctPaths := by
  obtain ⟨hknown, hpaths⟩ := eq_nil_of_no_conversion h
  constructor
  · intro id hid
    obtain ⟨b, body, hb, hbody, hcomponent⟩ := exists_component hid
    exact ⟨body, hbody, hcomponent ▸ contains_of_unknownComponents hknown hb⟩
  · have hnodup := (nodup_paths_iff hmade).2 hpaths
    exact fun i hi j hj hpath => List.inj_on_of_nodup_map hnodup hi hj hpath

end Deployment.InstanceCompilation
