import Deployment.Block.Check
import Deployment.Proofs.Tree

/-!
# Diagnostics of single blocks

The check of a block raises diagnostics of its own families only, each at the place of the
block or of one of its inner blocks (`local_of_mem_check`). None of them can thus be taken for
one that a compilation raises when it compares declarations. Whatever the check of a type raises is
severe (`grave_of_mem_checkType`).
-/

namespace Deployment

/-- A diagnostic of a single block: at a place, with a code of the reading or of the checks of
    blocks. -/
def Diagnostic.Local (d : Diagnostic) : Prop :=
  ∃ site code details, d = .found site code details ∧
    (code.family = .parsing ∨ code.family = .parsingModel)

theorem Diagnostic.Local.family {d : Diagnostic} (h : d.Local) :
    d.code.family = .parsing ∨ d.code.family = .parsingModel := by
  obtain ⟨site, code, details, rfl, hcode⟩ := h
  exact hcode

/-- A severe diagnostic of a single block. -/
structure Diagnostic.Grave (d : Diagnostic) : Prop where
  raised : d.Local
  severe : d.isSevere = true

theorem Diagnostic.Grave.of_mem_singleton {d : Diagnostic} {site : Site} {code : Code}
    {details : List Detail} (h : d ∈ [.found site code details])
    (hfamily : code.family = .parsing ∨ code.family = .parsingModel)
    (hsevere : code.isSevere = true) : d.Grave := by
  obtain rfl := List.mem_singleton.1 h
  exact ⟨⟨site, code, details, rfl, hfamily⟩, hsevere⟩

namespace Block

variable {d : Diagnostic}

theorem grave_of_mem_checkTypeName {site : Site} {name : String}
    (h : d ∈ checkTypeName site name) : d.Grave := by
  unfold checkTypeName at h
  split_ifs at h
  · exact .of_mem_singleton h (.inr rfl) rfl
  · exact nomatch h
  · exact .of_mem_singleton h (.inr rfl) rfl

theorem grave_of_mem_checkShape {seen : List String} {blocks : List Block}
    (h : d ∈ checkShape seen blocks) : d.Grave := by
  induction blocks generalizing seen with
  | nil => exact nomatch h
  | cons b bs ih =>
    cases b with
    | property site name value =>
      rw [checkShape, List.mem_append, List.mem_append] at h
      rcases h with (h | h) | h
      · split_ifs at h
        · exact .of_mem_singleton h (.inr rfl) rfl
        · exact nomatch h
      · split_ifs at h
        · exact .of_mem_singleton h (.inr rfl) rfl
        · exact nomatch h
      · exact ih h
    | declaration | importOf | comment | blank => exact ih h

theorem grave_of_mem_checkEntries {site : Site} {name value : String}
    (h : d ∈ checkEntries site name value) : d.Grave := by
  unfold checkEntries at h
  split_ifs at h
  · obtain ⟨e, -, rfl⟩ := List.mem_map.1 h
    exact ⟨⟨_, _, _, rfl, .inr rfl⟩, rfl⟩
  · obtain ⟨e, -, rfl⟩ := List.mem_map.1 h
    exact ⟨⟨_, _, _, rfl, .inr rfl⟩, rfl⟩
  · obtain ⟨e, -, rfl⟩ := List.mem_map.1 h
    exact ⟨⟨_, _, _, rfl, .inr rfl⟩, rfl⟩
  · exact nomatch h

theorem grave_of_mem_checkTypeProperty {kind : DeclarationKind} {owner : String}
    {allowed : List String} {site : Site} {name value : String}
    (h : d ∈ checkTypeProperty kind owner allowed site name value) : d.Grave := by
  unfold checkTypeProperty at h
  split_ifs at h
  · rw [List.mem_append] at h
    rcases h with h | h
    · exact grave_of_mem_checkEntries h
    · exact .of_mem_singleton h (.inr rfl) rfl
  · rw [List.append_nil] at h
    exact grave_of_mem_checkEntries h
  · exact .of_mem_singleton h (.inr rfl) rfl

/-- Whatever is wrong with the declaration of a type is severe. -/
theorem grave_of_mem_checkType {site : Site} {kind : DeclarationKind} {allowed : List String}
    {name : String} {inner : List Block} (h : d ∈ checkType site kind allowed name inner) :
    d.Grave := by
  rw [checkType, List.mem_append, List.mem_append] at h
  rcases h with (h | h) | h
  · exact grave_of_mem_checkTypeName h
  · exact grave_of_mem_checkShape h
  · obtain ⟨b, -, h⟩ := List.mem_flatMap.1 h
    cases b with
    | property => exact grave_of_mem_checkTypeProperty h
    | comment | blank => exact nomatch h
    | declaration | importOf => exact .of_mem_singleton h (.inl rfl) rfl

theorem local_of_mem_checkInstanceItself {site : Site} {component : String} {inner : List Block}
    (h : d ∈ checkInstanceItself site component inner) : d.Local := by
  rw [checkInstanceItself, List.mem_append, List.mem_append] at h
  rcases h with (h | h) | h
  · exact (grave_of_mem_checkTypeName h).raised
  · exact (grave_of_mem_checkShape h).raised
  · unfold checkInstanceName at h
    split at h
    · exact ⟨_, _, _, List.mem_singleton.1 h, .inr rfl⟩
    · split_ifs at h
      · exact ⟨_, _, _, List.mem_singleton.1 h, .inr rfl⟩
      · exact nomatch h
      · exact ⟨_, _, _, List.mem_singleton.1 h, .inr rfl⟩

theorem local_of_mem_checkInstanceProperty {site : Site} {name value : String}
    (h : d ∈ checkInstanceProperty site name value) : d.Local := by
  unfold checkInstanceProperty at h
  split_ifs at h
  · exact nomatch h
  · exact ⟨_, _, _, List.mem_singleton.1 h, .inr rfl⟩
  · exact nomatch h
  · exact ⟨_, _, _, List.mem_singleton.1 h, .inr rfl⟩
  · exact nomatch h

mutual

theorem local_of_mem_checkInner : (b : Block) → d ∈ checkInner b → d.Local
  | .property .., h => local_of_mem_checkInstanceProperty h
  | .declaration _ .instanceOf _ inner, h => (List.mem_append.1 h).elim
      local_of_mem_checkInstanceItself (local_of_mem_checkInners inner)
  | .declaration _ .component _ _, h => ⟨_, _, _, List.mem_singleton.1 h, .inl rfl⟩
  | .declaration _ .facet _ _, h => ⟨_, _, _, List.mem_singleton.1 h, .inl rfl⟩
  | .importOf .., h => ⟨_, _, _, List.mem_singleton.1 h, .inl rfl⟩
  | .comment .., h => nomatch h
  | .blank .., h => nomatch h

theorem local_of_mem_checkInners : (bs : List Block) → d ∈ checkInners bs → d.Local
  | [], h => nomatch h
  | b :: bs, h => (List.mem_append.1 h).elim (local_of_mem_checkInner b)
      (local_of_mem_checkInners bs)

end

/-- The check of a block raises diagnostics of single blocks only. -/
theorem local_of_mem_check {b : Block} (h : d ∈ b.check) : d.Local := by
  unfold check at h
  split at h
  · exact (grave_of_mem_checkType h).raised
  · exact (grave_of_mem_checkType h).raised
  · exact (List.mem_append.1 h).elim local_of_mem_checkInstanceItself
      (local_of_mem_checkInners _)
  · split_ifs at h
    · exact ⟨_, _, _, List.mem_singleton.1 h, .inr rfl⟩
    · exact nomatch h
  · exact nomatch h

end Block

end Deployment
