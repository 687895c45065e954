import Deployment.Proofs.Catalogue.Sites
import Deployment.Proofs.GraphCompilation.Clean

/-!
# Strict and flexible compilations

A strict compilation passes over files and may stop before it resolves references; a flexible one
does neither. Whatever the strict one reports the flexible one reports too, because fewer
declarations mean fewer reports, and the two do the same if nothing severe is found.

* `gather_subperm`: what a strict compilation finds before it resolves;
* `compile_modes_agree`: how the two compilations relate.
-/

namespace Deployment.GraphCompilation

variable {loader : Loader} {check : BlockCheck} {root dir : Path} {closure : Closure}

theorem acceptedFiles_flexible (closure : Closure) : acceptedFiles true closure = closure.files :=
  List.filter_eq_self.2 fun _ _ => rfl

/-- A strict compilation takes some of the blocks that a flexible one takes. -/
theorem blocks_sublist (closure : Closure) :
    (blocksOf (acceptedFiles false closure)).Sublist (blocksOf (acceptedFiles true closure)) := by
  rw [acceptedFiles_flexible]
  exact List.filter_sublist.flatMap _

/-- What is found in a strict compilation before references are resolved is also found in a
    flexible one, as many times. -/
theorem gather_subperm (closure : Closure) :
    (gather false closure).2.Subperm (gather true closure).2 :=
  ((List.Subperm.refl _).append (Catalogue.collisions_subperm (blocks_sublist closure))).append
    (Catalogue.repetitions_subperm (blocks_sublist closure))

/-- A strict compilation stops after something severe. -/
theorem settle_strict_of_severe {gathered : Catalogue × List Diagnostic}
    (h : Diagnostic.anySevere gathered.2 = true) : settle false gathered = gathered :=
  if_pos h

/-- Before anything severe is found, both compilations do the same. -/
theorem ofClosure_strict_of_mild (h : Diagnostic.anySevere (gather false closure).2 = false) :
    ofClosure false closure = ofClosure true closure := by
  have hfiles : Diagnostic.anySevere closure.diagnostics = false := by
    refine Diagnostic.anySevere_of_subset (fun d hd => ?_) h
    exact List.mem_append_left _ (List.mem_append_left _ hd)
  have hsettle : ∀ gathered : Catalogue × List Diagnostic,
      Diagnostic.anySevere gathered.2 = false → settle false gathered = settle true gathered := by
    intro gathered hmild
    rw [settle, settle, hmild]
    rfl
  rw [ofClosure, hsettle _ h, gather_of_mild false hfiles, acceptedFiles_of_mild false hfiles,
    ofClosure, gather_of_mild true hfiles, acceptedFiles_of_mild true hfiles]

/-- If a strict compilation finds nothing, then so does the flexible one, and they are the same. -/
theorem ofClosure_of_clean (h : (ofClosure false closure).diagnostics = []) (flexible : Bool) :
    ofClosure flexible closure = ofClosure false closure := by
  cases flexible with
  | false => rfl
  | true =>
    have hmild := isSevere_of_clean h
    have hsubset := (gather_sublist false closure).subset
    exact (ofClosure_strict_of_mild (Diagnostic.anySevere_of_subset hsubset hmild)).symm

/-- A compilation in which nothing severe is found is the strict one. -/
theorem ofClosure_of_not_severe {flexible : Bool}
    (h : (ofClosure flexible closure).isSevere = false) :
    ofClosure flexible closure = ofClosure false closure := by
  cases flexible with
  | false => rfl
  | true =>
    have hsubset := ((gather_subperm closure).trans (gather_sublist true closure).subperm).subset
    exact (ofClosure_strict_of_mild (Diagnostic.anySevere_of_subset hsubset h)).symm

/-- A graph holds together if the compilation is flexible, or if nothing severe is found. -/
theorem holdsTogether_ofClosure {flexible : Bool}
    (h : flexible = true ∨ (ofClosure flexible closure).isSevere = false) :
    (ofClosure flexible closure).graph.HoldsTogether := by
  rcases h with rfl | h
  · exact Catalogue.holdsTogether_resolve _
  · have hstrict := ofClosure_of_not_severe h
    rw [hstrict] at h ⊢
    rw [ofClosure_graph_of_mild h]
    exact (isSevere_ofClosure_eq_false_iff.1 h).2.together

/-- Whatever a strict compilation reports, a flexible one of the same files reports too, as many
    times. Nothing severe is found in the one exactly if nothing severe is found in the other, and
    then they come to the same graph, diagnostics, places and remarks. -/
theorem compile_modes_agree (h : Closure.walk loader check .types root dir = .ok closure) :
    ∃ strict flexible, compile loader check root dir false = .ok strict ∧
      compile loader check root dir true = .ok flexible ∧
      strict.diagnostics.Subperm flexible.diagnostics ∧
      (strict.isSevere = false ↔ flexible.isSevere = false) ∧
      (strict.isSevere = false → strict = flexible) := by
  have hcompile : ∀ mode, compile loader check root dir mode = .ok (ofClosure mode closure) := by
    intro mode
    rw [compile, h]
    rfl
  refine ⟨ofClosure false closure, ofClosure true closure, hcompile false, hcompile true, ?_⟩
  cases hgathered : Diagnostic.anySevere (gather false closure).2 with
  | false =>
    rw [ofClosure_strict_of_mild hgathered]
    exact ⟨.refl _, Iff.rfl, fun _ => rfl⟩
  | true =>
    -- The strict compilation reports what it gathered, and this is severe for both.
    have hstrict : (ofClosure false closure).diagnostics = (gather false closure).2 :=
      congrArg Prod.snd (settle_strict_of_severe hgathered)
    have hsubperm := (gather_subperm closure).trans (gather_sublist true closure).subperm
    have hsevere : (ofClosure false closure).isSevere ≠ false := by
      rw [isSevere, hstrict, hgathered]
      exact Bool.noConfusion
    have hsevere' : (ofClosure true closure).isSevere ≠ false := by
      intro hmild
      rw [ofClosure_of_not_severe hmild] at hmild
      exact hsevere hmild
    rw [hstrict]
    exact ⟨hsubperm, iff_of_false hsevere hsevere', fun hmild => absurd hmild hsevere⟩

/-- A machine under a name that no type may have. -/
def misnamed : FileDefinition :=
  let site : Site := ⟨⟨"misnamed.graph"⟩, 1⟩
  .ofBlocks ⟨"misnamed.graph"⟩ [.declaration site .component "V M" []]

/-- The strict compilation passes over the machine, the flexible one takes it. Both report it, and
    as this is severe, they need not come to the same graph. -/
theorem compile_modes_agree_misnamed :
    ∃ strict flexible,
      compile (FileStore.empty.insert misnamed).loader Block.check misnamed.file ⟨""⟩ false =
        .ok strict ∧
      compile (FileStore.empty.insert misnamed).loader Block.check misnamed.file ⟨""⟩ true =
        .ok flexible ∧
      strict.diagnostics.Subperm flexible.diagnostics ∧
      (strict.isSevere = false ↔ flexible.isSevere = false) ∧
      (strict.isSevere = false → strict = flexible) ∧
      strict.isSevere = true ∧ flexible.isSevere = true ∧
      strict.graph.components.keys = [] ∧ flexible.graph.components.keys = ["V M"] := by
  have hwalk := FileStore.walk_single misnamed Block.check .types ⟨""⟩ rfl
  have hcompile : ∀ mode, compile (FileStore.empty.insert misnamed).loader Block.check
      misnamed.file ⟨""⟩ mode = .ok (ofClosure mode (.single Block.check .types misnamed)) := by
    intro mode
    rw [compile, hwalk]
    rfl
  obtain ⟨strict, flexible, hstrict, hflexible, hsubperm, hsevere, hsame⟩ :=
    compile_modes_agree hwalk
  obtain rfl := Except.ok.inj (hstrict.symm.trans (hcompile false))
  obtain rfl := Except.ok.inj (hflexible.symm.trans (hcompile true))
  exact ⟨_, _, hstrict, hflexible, hsubperm, hsevere, hsame, by rfl, by rfl, by rfl, by rfl⟩

end Deployment.GraphCompilation
