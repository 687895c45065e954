import Deployment.Proofs.GraphCompilation
import Deployment.Proofs.Relation.Kept

/-!
# Graphs that hold as much as possible

Resolution drops a mention only if it has to: the name mentioned is not declared, or the mentions
that are kept lead from there back to the type that mentions it, so that the mention would close a
cycle among them.

* `Mention.ClosesCycle`: a mention that would close a cycle;
* `Catalogue.dangles_or_closesCycle`: what resolution loses;
* `cuts_needed`: no cut could have been spared, in a relation or in a compiled graph.
-/

namespace Deployment

/-- Among some components and facets, mentions of the kinds that may close a cycle with a mention
    lead from its target back to its owner. -/
structure Mention.ClosesCycle (component? : String → Option Component)
    (facet? : String → Option Facet) (m : Mention) : Prop where
  kin : m.bond ∈ m.bond.kin
  back : Relation.ReflTransGen
    (fun a b => ∃ bond ∈ m.bond.kin, Mention.HeldBy component? facet? ⟨a, bond, b⟩) m.target m.owner

namespace Catalogue

variable {c : Catalogue}

/-- The relation in which mentions of a kind may close cycles; none for the facets that a component
    carries. -/
def linking (c : Catalogue) : Bond → Relation
  | .extendsComponent => c.componentInheritance
  | .carries => .empty
  | .componentChild => c.containment
  | .extendsFacet => c.facetInheritance
  | .facetChild => c.containment

theorem linking_of_mem_kin {bond bond' : Bond} (h : bond' ∈ bond.kin) :
    c.linking bond' = c.linking bond := by
  cases bond <;> simp only [Bond.kin, List.mem_cons, List.not_mem_nil, or_false] at h
  case componentChild | facetChild => rcases h with rfl | rfl <;> rfl
  all_goals rw [h]

theorem relates_linking (c : Catalogue) (bond : Bond) : c.Relates bond.kin (c.linking bond) := by
  cases bond with
  | extendsComponent => exact c.relates_componentInheritance
  | carries => exact fun _ _ => rfl
  | componentChild => exact c.relates_containment
  | extendsFacet => exact c.relates_facetInheritance
  | facetChild => exact c.relates_containment

/-- A mention closes a cycle if its edge is the last one of a cycle of its relation. -/
theorem mem_closingMentions_iff {m : Mention} :
    m ∈ c.closingMentions ↔
      m.bond ∈ m.bond.kin ∧ m.edge ∈ (c.linking m.bond).breakCycles.2.map Cycle.edge := by
  obtain ⟨owner, bond, target⟩ := m
  rw [closingMentions, List.mem_append, List.mem_append, mem_closings, mem_closings, mem_closings]
  cases bond <;> simp [Bond.kin, linking, Mention.edge]

/-- What is kept of a relation is mentioned by the resolved types. -/
theorem holds_resolve_of_kept {bond : Bond} {a b : String}
    (h : b ∈ (c.withoutDangling.1.linking bond).breakCycles.1.targets a) :
    ∃ bond' ∈ bond.kin, c.resolve.1.Holds ⟨a, bond', b⟩ := by
  obtain ⟨hedge, hkept⟩ := Relation.mem_targets_breakCycles_iff.1 h
  obtain ⟨bond', hkin, hholds⟩ := (relates_linking _ bond).mem_targets_iff.1 hedge
  refine ⟨bond', hkin, holds_resolve.2 ⟨hholds, fun hclosing => hkept ?_⟩⟩
  rw [← linking_of_mem_kin hkin]
  exact (mem_closingMentions_iff.1 hclosing).2

/-- What resolution loses are mentions of undeclared names, and mentions that would close a cycle
    among those that it keeps. -/
theorem dangles_or_closesCycle {m : Mention} (hholds : c.Holds m) (hlost : ¬c.resolve.1.Holds m) :
    m.Dangles c.resolve.1.component? c.resolve.1.facet? ∨
      m.ClosesCycle c.resolve.1.component? c.resolve.1.facet? := by
  by_cases hdangles : m.Dangles c.component? c.facet?
  · rw [resolve_eq, dangles_dropAll]
    exact .inl hdangles
  have hclosing : m ∈ c.withoutDangling.1.closingMentions := by
    by_contra hnot
    exact hlost (holds_resolve.2 ⟨holds_withoutDangling.2 ⟨hholds, hdangles⟩, hnot⟩)
  obtain ⟨hkin, hedge⟩ := mem_closingMentions_iff.1 hclosing
  obtain ⟨cycle, hcycle, hends⟩ := List.mem_map.1 hedge
  obtain ⟨hlast, hstart⟩ := Prod.ext_iff.1 hends
  -- The cycle is still there but for its last edge, which is the mention.
  have hback := Cycle.reflTransGen (Relation.chain_breakCycles hcycle)
  rw [show cycle.start = m.target from hstart, show cycle.last = m.owner from hlast] at hback
  exact .inr ⟨hkin, Relation.ReflTransGen.mono (fun _ _ => holds_resolve_of_kept) _ _ hback⟩

/-- The graph of a resolved catalogue has whatever the catalogue mentions and can be kept. -/
theorem heldBy_graph_resolve_or {m : Mention} (hholds : c.Holds m) :
    m.HeldBy c.resolve.1.graph.component? c.resolve.1.graph.facet? ∨
      m.Dangles c.resolve.1.graph.component? c.resolve.1.graph.facet? ∨
      m.ClosesCycle c.resolve.1.graph.component? c.resolve.1.graph.facet? := by
  rw [component?_graph, facet?_graph]
  exact or_iff_not_imp_left.2 (dangles_or_closesCycle hholds)

end Catalogue

namespace GraphCompilation

/-- No cut could have been spared. In a relation whose cycles are broken, what is left leads from
    the end of a cut edge back to its beginning, and the edge, if it is put back, closes the cycle
    for which it was cut. In a graph that a compilation resolved, whatever the first declarations
    mention and the graph does not is not declared, or would close a cycle. -/
theorem cuts_needed :
    (∀ (r : Relation) (u v : String),
      (r.breakCycles.1.targets u).count v < (r.targets u).count v →
        Relation.ReflTransGen (fun a b => b ∈ r.breakCycles.1.targets a) v u ∧
        ∃ cycle ∈ r.breakCycles.2, cycle.edge = (u, v) ∧
          (r.breakCycles.1.restore u v).IsCycle cycle) ∧
    ∀ (loader : Loader) (check : BlockCheck) (root dir : Path) (flexible : Bool)
      (c : GraphCompilation), compile loader check root dir flexible = .ok c →
        ∃ closure, Closure.walk loader check .types root dir = .ok closure ∧
          (flexible = true ∨ Diagnostic.anySevere (gather flexible closure).2 = false →
            ∀ m : Mention, FirstMention (blocksOf (acceptedFiles flexible closure)) m →
              m.HeldBy c.graph.component? c.graph.facet? ∨
              m.Dangles c.graph.component? c.graph.facet? ∨
              m.ClosesCycle c.graph.component? c.graph.facet?) := by
  constructor
  · intro r u v hless
    obtain ⟨cycle, hcycle, hedge⟩ := Relation.exists_cycle_of_count_lt hless
    obtain ⟨rfl, rfl⟩ := Prod.ext_iff.1 hedge
    exact ⟨Cycle.reflTransGen (Relation.chain_breakCycles hcycle), cycle, hcycle, rfl,
      Relation.isCycle_restore hcycle⟩
  · intro loader check root dir flexible c h
    obtain ⟨closure, hwalk, rfl⟩ := exists_of_map_eq_ok h
    refine ⟨closure, hwalk, fun hresolves m hm => ?_⟩
    rw [ofClosure, settle_of_resolves hresolves]
    exact Catalogue.heldBy_graph_resolve_or (Catalogue.holds_ofBlocks.2 hm)

/-- Two names that lead to each other, one of them twice. -/
def knot : Relation := .ofList [("a", ["b"]), ("b", ["a", "c", "a"])]

/-- Both edges from `b` to `a` are cut, and a component that has itself as a child loses this
    child. -/
theorem cuts_needed_tangled :
    ((knot.breakCycles.1.targets "b").count "a" < (knot.targets "b").count "a" ∧
      ∃ cycle ∈ knot.breakCycles.2, cycle.edge = ("b", "a") ∧
        (knot.breakCycles.1.restore "b" "a").IsCycle cycle) ∧
    ∃ c, compile (FileStore.empty.insert tangled).loader Block.check ⟨"tangled.graph"⟩ ⟨""⟩ true =
        .ok c ∧
      FirstMention tangled.blocks ⟨"VM", .componentChild, "VM"⟩ ∧
      Mention.ClosesCycle c.graph.component? c.graph.facet? ⟨"VM", .componentChild, "VM"⟩ := by
  have hless : (knot.breakCycles.1.targets "b").count "a" < (knot.targets "b").count "a" := by
    decide +kernel
  have himports : tangled.imports = [] := rfl
  have h := compile_single himports Block.check ⟨""⟩ true
  obtain ⟨closure, hwalk, hneeded⟩ := cuts_needed.2 _ _ _ _ _ _ h
  rw [FileStore.walk_single tangled Block.check .types ⟨""⟩ himports] at hwalk
  obtain rfl := Except.ok.inj hwalk
  have hfirst : FirstMention tangled.blocks ⟨"VM", .componentChild, "VM"⟩ :=
    ⟨_, rfl, by decide +kernel⟩
  refine ⟨⟨hless, (cuts_needed.1 knot "b" "a" hless).2⟩, _, h, hfirst, ?_⟩
  -- The component is declared, and what is left of it has no child.
  have hleft : ((ofClosure true (.single Block.check .types tangled)).graph.component? "VM").map
      (·.children.toList) = some [] := by
    decide +kernel
  obtain ⟨vm, hvm, hchildren⟩ := Option.map_eq_some_iff.1 hleft
  rcases hneeded (.inl rfl) _ hfirst with ⟨vm', hvm', hheld⟩ | hdangles | hcloses
  · obtain rfl := Option.some.inj (hvm.symm.trans hvm')
    exact absurd (hchildren ▸ hheld) List.not_mem_nil
  · exact absurd (hvm.symm.trans hdangles.1) (Option.some_ne_none vm)
  · exact hcloses

end GraphCompilation

end Deployment
