import Deployment.Proofs.GraphCompilation.Reachable
import Deployment.Proofs.GraphCompilation.RoundTrip
import Deployment.Proofs.Write.Remarks

/-!
# Remarks written and captured again

A graph that was compiled without diagnostics, written as a file under the remarks that were
captured with it, and compiled from this file alone. If the graph is readable, every remark is
captured that is on one of its types, as far as reading leaves something of it
(`get?_remarks_of_readable`). If it is not, the compilation passes over the file, and none is
(`remarks_of_not_readable`).

So the remarks are captured as they were exactly if there are none, or if the graph is readable and
each of them is on a type and loses nothing (`remarks_toFile_iff`). A run of comments that ends with
an empty one makes a remark that does lose something (`remarks_toFile_bare`).
-/

namespace Deployment.GraphCompilation

variable {loader : Loader} {root dir path : Path} {c : GraphCompilation} {g : TypeGraph}
  {options : WriteOptions}

/-- The file of a graph counts exactly if the graph is readable. -/
theorem acceptedFiles_toFile (h : g.Valid) (path : Path) (options : WriteOptions) :
    (g.Readable → acceptedFiles false (.single Block.check .types (g.toFile path options)) =
        (Closure.single Block.check .types (g.toFile path options)).files) ∧
      (¬g.Readable →
        acceptedFiles false (.single Block.check .types (g.toFile path options)) = []) := by
  have hsevere : Diagnostic.anySevere
      (Closure.single Block.check .types (g.toFile path options)).diagnostics = false ↔
        g.Readable := by
    rw [Closure.diagnostics_single rfl TypeGraph.kind_toFile,
      TypeGraph.anySevere_check_toFile_iff h]
  refine ⟨fun hread => acceptedFiles_of_mild false (hsevere.2 hread), fun hread => ?_⟩
  have hfile : (Closure.takeIn Block.check .types (g.toFile path options).file.normalize
      (g.toFile path options)).isSevere = true := by
    rw [← hsevere, Bool.not_eq_false] at hread
    rw [LoadedFile.isSevere, ← hread, Closure.single, Closure.diagnostics, List.flatMap_cons,
      List.flatMap_nil, List.append_nil]
    rfl
  exact List.filter_eq_nil_iff.2 fun file hmem => by
    rw [List.mem_singleton.1 hmem, hfile]
    decide

/-- From the file of a readable graph every remark on one of its types is captured, as far as
    reading leaves something of it. -/
theorem get?_remarks_of_readable (h : g.Valid) (hread : g.Readable)
    (hcomments : options.comments = false) (name : String) :
    (ofClosure false (.single Block.check .types (g.toFile path options))).remarks.get? name =
      if name ∈ g.components.keys ++ g.facets.keys then
        (options.remarks.get? name).bind Text.reread
      else none := by
  have hremarks : (ofClosure false (.single Block.check .types (g.toFile path options))).remarks =
      Table.empty.extend (Block.remarks (g.toFile path options).blocks ++ []) := by
    change remarksOf (acceptedFiles _ _) = _
    rw [(acceptedFiles_toFile h path options).1 hread]
    rfl
  rw [hremarks, Table.get?_empty_extend, List.append_nil, TypeGraph.remarks_toFile h hcomments,
    Table.find?_filterMap_key]

theorem remarks_of_not_readable (h : g.Valid) (hread : ¬g.Readable) :
    (ofClosure false (.single Block.check .types (g.toFile path options))).remarks = .empty := by
  change remarksOf (acceptedFiles _ _) = _
  rw [(acceptedFiles_toFile h path options).2 hread]
  rfl

theorem mem_keys_iff_declares {name : String} :
    name ∈ g.components.keys ++ g.facets.keys ↔ g.Declares name := by
  rw [List.mem_append, TypeGraph.Declares, Table.contains_iff, Table.contains_iff]

/-- The remarks that were captured with a graph are captured again from its file exactly if there
    are none, or if the file has nothing faulty and every remark is on a type of the graph and loses
    nothing when it is read line by line. -/
theorem remarks_toFile_iff (h : compile loader Block.check root dir false = .ok c)
    (hclean : c.diagnostics = []) (path dir' : Path) (options : WriteOptions) :
    ∃ again, compile (FileStore.empty.insert (c.graph.toFile path
        { options with comments := false, remarks := c.remarks })).loader Block.check path dir'
          false = .ok again ∧
      (c.remarks.same (· == ·) again.remarks = true ↔
        c.remarks.entries = [] ∨ c.graph.Readable ∧ ∀ name remark,
          c.remarks.get? name = some remark → c.graph.Declares name ∧ Text.IsRemark remark) := by
  obtain ⟨hvalid, -⟩ := valid_of_clean h hclean
  refine ⟨_, compile_single TypeGraph.imports_toFile _ dir' _, ?_⟩
  constructor
  · intro hsame
    by_cases hread : c.graph.Readable
    · refine .inr ⟨hread, fun name remark hremark => ?_⟩
      obtain ⟨w, hw, heq⟩ := Table.get?_of_same hsame hremark
      obtain rfl := beq_iff_eq.1 heq
      rw [get?_remarks_of_readable hvalid hread rfl] at hw
      split at hw
      · next hname =>
        rw [hremark, Option.bind_some, Text.reread_eq_some_iff] at hw
        exact ⟨mem_keys_iff_declares.1 hname, hw⟩
      · cases hw
    · rw [remarks_of_not_readable hvalid hread, Table.same, Bool.and_eq_true, beq_iff_eq] at hsame
      exact .inl (List.length_eq_zero_iff.1 hsame.1)
  · intro hkept
    refine Table.same_of_get?_eq (fun v => beq_self_eq_true v) fun name => ?_
    have hnone : c.remarks.entries = [] → c.remarks.get? name = none := by
      intro hentries
      rw [Table.get?, hentries]
      rfl
    by_cases hread : c.graph.Readable
    · rw [get?_remarks_of_readable hvalid hread rfl]
      cases hremark : c.remarks.get? name with
      | none => rw [Option.bind_none, ite_self]
      | some remark =>
        rcases hkept with hentries | ⟨-, hall⟩
        · rw [hnone hentries] at hremark
          cases hremark
        · obtain ⟨hname, hlines⟩ := hall name remark hremark
          rw [if_pos (mem_keys_iff_declares.2 hname), Option.bind_some,
            Text.reread_eq_some_iff.2 hlines]
    · rw [remarks_of_not_readable hvalid hread]
      exact hnone (hkept.resolve_right fun hnot => hread hnot.1)

/-- A machine under three comments, an empty one between the others, and a facet under none. -/
def annotated : FileDefinition :=
  let site : Site := ⟨⟨"annotated.graph"⟩, 1⟩
  .ofBlocks ⟨"annotated.graph"⟩
    [.comment site "# Shared.", .blank site "", .comment site "## Machines.", .comment site "#",
      .comment site "#\tof all kinds",
      .declaration site .component "VM" [.property site "installer" "target"],
      .declaration site .facet "web" []]

theorem remarks_toFile_iff_annotated :
    ∃ c again,
      compile (FileStore.empty.insert annotated).loader Block.check annotated.file ⟨""⟩ false =
        .ok c ∧
      c.diagnostics = [] ∧ c.remarks.entries = [("VM", "Machines.\n\nof all kinds")] ∧
      compile (FileStore.empty.insert (c.graph.toFile ⟨"again.graph"⟩
        { WriteOptions.plain with remarks := c.remarks })).loader Block.check ⟨"again.graph"⟩
          ⟨""⟩ false = .ok again ∧
      c.remarks.same (· == ·) again.remarks = true := by
  have himports : annotated.imports = [] := rfl
  have h := compile_single himports Block.check ⟨""⟩ false
  have hclean : (ofClosure false (.single Block.check .types annotated)).diagnostics = [] := by rfl
  have hremarks : (ofClosure false (.single Block.check .types annotated)).remarks.entries =
      [("VM", "Machines.\n\nof all kinds")] := by
    rfl
  have hcomponents :
      (ofClosure false (.single Block.check .types annotated)).graph.components.entries =
        [("VM", { Component.named "VM" with installer := some "target" })] := by
    rfl
  have hfacets : (ofClosure false (.single Block.check .types annotated)).graph.facets.entries =
      [("web", Facet.named "web")] := by
    rfl
  obtain ⟨again, hagain, hiff⟩ :=
    remarks_toFile_iff h hclean ⟨"again.graph"⟩ ⟨""⟩ .plain
  refine ⟨_, again, h, hclean, hremarks, hagain, hiff.2 (.inr ⟨?_, fun name remark hremark => ?_⟩)⟩
  · constructor
    case components =>
      intro n c hc
      have hmem := Table.get?_eq_some_iff.1 hc
      rw [hcomponents, List.mem_singleton] at hmem
      cases hmem
      exact ⟨fun s hs => Option.some.inj hs ▸ by decide, fun e he => nomatch he⟩
    case facets =>
      intro n f hf
      have hmem := Table.get?_eq_some_iff.1 hf
      rw [hfacets, List.mem_singleton] at hmem
      cases hmem
      exact fun e he => nomatch he
  · have hmem := Table.get?_eq_some_iff.1 hremark
    rw [hremarks, List.mem_singleton] at hmem
    cases hmem
    exact ⟨.inl rfl, by decide⟩

/-- A machine under an empty comment. -/
def bare : FileDefinition :=
  let site : Site := ⟨⟨"bare.graph"⟩, 1⟩
  .ofBlocks ⟨"bare.graph"⟩
    [.comment site "#", .declaration site .component "VM" [.property site "installer" "target"]]

/-- The remark that an empty comment makes has no line: nothing is written of it. -/
theorem remarks_toFile_bare :
    ∃ c again,
      compile (FileStore.empty.insert bare).loader Block.check bare.file ⟨""⟩ false = .ok c ∧
      c.diagnostics = [] ∧ c.remarks.entries = [("VM", "")] ∧
      compile (FileStore.empty.insert (c.graph.toFile ⟨"again.graph"⟩
        { WriteOptions.plain with remarks := c.remarks })).loader Block.check ⟨"again.graph"⟩
          ⟨""⟩ false = .ok again ∧
      again.diagnostics = [] ∧ again.remarks.entries = [] ∧
      c.remarks.same (· == ·) again.remarks = false :=
  ⟨_, _, compile_single rfl Block.check ⟨""⟩ false, by rfl, by rfl,
    compile_single TypeGraph.imports_toFile Block.check ⟨""⟩ false, by rfl, by rfl, by rfl⟩

end Deployment.GraphCompilation
