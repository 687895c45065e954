import Deployment.Proofs.Block.Types

/-!
# Declarations of instances in which nothing is found

What it takes for the check of the declaration of an instance to raise nothing: a valid component
and a valid name, different properties with values (`InstanceDeclaration.Clean`), and the same of
every declaration inside it.

* `checkInstance_eq_nil_iff`: the check of a declaration;
* `InstanceDeclaration.clean_of_within`: all declarations among blocks in which nothing is found.
-/

namespace Deployment

/-- A declaration about which, apart from its inner blocks, the check says nothing. -/
structure InstanceDeclaration.Clean (b : InstanceDeclaration) : Prop where
  component : isTypeName b.component
  nodup : ((Block.properties b.inner).map Prod.fst).Nodup
  value : ∀ p ∈ Block.properties b.inner, Text.unquote p.2 ≠ ""
  name : ∃ value, Block.lookup b.inner "name" = some value ∧ isInstanceName (Text.unquote value)

namespace Block

variable {site : Site} {component : String} {inner : List Block}

theorem checkInstanceName_eq_nil_iff :
    checkInstanceName site inner = [] ↔
      ∃ value, lookup inner "name" = some value ∧ isInstanceName (Text.unquote value) := by
  rw [checkInstanceName]
  cases lookup inner "name" with
  | none =>
    refine iff_of_false (List.cons_ne_nil _ _) ?_
    rintro ⟨_, h, -⟩
    cases h
  | some value =>
    rw [Option.map_some]
    dsimp only
    constructor
    · intro h
      split_ifs at h with hempty hname
      exact ⟨value, rfl, hname⟩
    · rintro ⟨v, hv, hname⟩
      cases hv
      rw [if_neg (isInstanceName_ne_empty hname), if_pos hname]

theorem checkInstance_eq_nil_iff :
    checkInstance site component inner = [] ↔
      InstanceDeclaration.Clean ⟨site, component, inner⟩ ∧ ∀ b ∈ inner, checkInner b = [] := by
  rw [checkInstance, List.append_eq_nil_iff, checkInstanceItself, List.append_eq_nil_iff,
    List.append_eq_nil_iff, checkTypeName_eq_nil_iff, checkShape_eq_nil_iff,
    checkInstanceName_eq_nil_iff, checkInners_eq_flatMap, List.flatMap_eq_nil_iff]
  constructor
  · rintro ⟨⟨⟨hcomponent, hnodup, -, hvalue⟩, hname⟩, hinner⟩
    exact ⟨⟨hcomponent, hnodup, hvalue, hname⟩, hinner⟩
  · rintro ⟨⟨hcomponent, hnodup, hvalue, hname⟩, hinner⟩
    exact ⟨⟨⟨hcomponent, hnodup, fun _ _ => List.not_mem_nil, hvalue⟩, hname⟩, hinner⟩

end Block

namespace InstanceDeclaration

/-- Among blocks in which nothing is found, every declaration at any depth is clean. -/
theorem clean_of_within {blocks : List Block} {b : InstanceDeclaration}
    (h : ∀ c ∈ Block.instances blocks, c.check = []) (hb : Block.Within blocks b) : b.Clean := by
  induction hb with
  | here hb => exact (Block.checkInstance_eq_nil_iff.1 (h _ hb)).1
  | inside hb _ ih =>
    have hinner := (Block.checkInstance_eq_nil_iff.1 (h _ hb)).2
    exact ih fun c hc => hinner _ (Block.mem_instances.1 hc)

end InstanceDeclaration

end Deployment
