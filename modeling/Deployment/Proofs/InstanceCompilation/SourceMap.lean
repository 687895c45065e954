import Deployment.Proofs.InstanceCompilation.Sound

/-!
# Places of instances

Without severe diagnostics, the source map of a compilation gives every instance the place of the
declaration that it is a copy of, at whatever depth it stands: a copy has got the origin of what it
copies, and no two instances share a path.

* `get?_sourceMap_eq`: the place of an instance is its origin;
* `get?_sourceMap_of_mild`: the place of the instance of a chain is that of its last declaration.
-/

namespace Deployment.InstanceCompilation

open Deployment.Tree Draft

/-- If all instances have different paths, the places recorded have different subjects. -/
theorem nodup_keys_places {f : Forest} (h : (f.all.map f.path).Nodup) (site? : Nat → Option Site) :
    ((f.all.filterMap fun id =>
      (site? id).map fun site => (Subject.instanceAt (f.path id), site)).map Prod.fst).Nodup := by
  rw [List.map_filterMap]
  refine List.Pairwise.filterMap _ (fun i j hij s hs t ht => ?_) (List.pairwise_map.1 h)
  simp only [Option.map_map, Option.map_eq_some_iff] at hs ht
  obtain ⟨-, -, rfl⟩ := hs
  obtain ⟨-, -, rfl⟩ := ht
  exact fun heq => hij (Subject.instanceAt.inj heq)

/-! ### The compilation -/

variable {loader : Loader} {g : TypeGraph} {closure : Closure}

/-- What was found early is found. -/
theorem early_of_mild (h : (ofClosure g closure).isSevere = false) :
    Diagnostic.anySevere (early g closure) = false :=
  Diagnostic.anySevere_of_subset (fun _ hd => diagnostics_ofClosure g closure ▸
    List.mem_append_left _ (List.mem_append_left _ hd)) h

/-- Without severe diagnostics, no two instances share a path. -/
theorem nodup_paths_of_mild (hmade : ∀ v ∈ closure, Closure.Made loader Block.check .instances v)
    (h : (ofClosure g closure).isSevere = false) :
    ((ofClosure g closure).forest.all.map (ofClosure g closure).forest.path).Nodup := by
  refine (nodup_paths_iff hmade).2 (eq_nil_of_no_conversion fun d hd hfamily => ?_).2
  have hmild := Diagnostic.anySevere_eq_false.1 h d hd
  rw [Diagnostic.isSevere, Code.isSevere_of_conversion hfamily] at hmild
  exact Bool.noConfusion hmild

/-- Without severe diagnostics, the place of an instance is its origin. -/
theorem get?_sourceMap_eq (hmade : ∀ v ∈ closure, Closure.Made loader Block.check .instances v)
    (h : (ofClosure g closure).isSevere = false) {id : Nat}
    (hid : id ∈ (ofClosure g closure).forest.all) {site : Site}
    (hsite : (copied g closure).origins.get? id = some site) :
    (ofClosure g closure).sourceMap.get? (.instanceAt ((ofClosure g closure).forest.path id)) =
      some site := by
  have hmap : (ofClosure g closure).sourceMap = Table.empty.extend
      ((ofClosure g closure).forest.all.filterMap fun id =>
        ((copied g closure).origins.get? id).map fun site =>
          (.instanceAt ((ofClosure g closure).forest.path id), site)) :=
    if_neg (ne_true_of_eq_false h)
  rw [hmap, Table.get?_empty_extend,
    Table.find?_eq_some_iff (nodup_keys_places (nodup_paths_of_mild hmade h) _)]
  refine List.mem_filterMap.2 ⟨id, hid, ?_⟩
  rw [hsite, Option.map_some]

/-- Without severe diagnostics, a compiled forest expands the declarations of its closure, and the
    place of every instance is that of the declaration that it is a copy of. -/
theorem get?_sourceMap_of_mild
    (hmade : ∀ v ∈ closure, Closure.Made loader Block.check .instances v)
    (h : (ofClosure g closure).isSevere = false) :
    ∃ locate, Expands (ofClosure g closure).forest closure.blocks InstanceDeclaration.copies
        InstanceDeclaration.copyBody locate ∧
      ∀ l q, Chain InstanceDeclaration.copies closure.blocks (l ++ [q]) →
        (ofClosure g closure).sourceMap.get? (.instanceAt
          ((ofClosure g closure).forest.path (locate (l ++ [q])))) = some q.2.site := by
  obtain ⟨locate, hexpands, hsites⟩ := expands_of_mild hmade (early_of_mild h)
  refine ⟨locate, hexpands, fun l q hl => ?_⟩
  exact get?_sourceMap_eq hmade h (hexpands.bijOn.mapsTo hl) (hsites l q hl)

end Deployment.InstanceCompilation
