import Deployment.Proofs.Forest.Operations
import Deployment.Proofs.Path

/-!
# Paths and where they lead

The path of an instance is made on the way up, from parent to parent; the instance with a path is
found on the way down, from name to name, the first instance with a name being taken at every level.
In a tree-shaped forest the two ways are the same if paths can be taken apart again and names tell
what stands side by side apart (`WellNamed`).

* `pathOf_inj`: names without slashes can be read off the path that they make;
* `TreeShaped.descend_roots_iff`: some names lead from the roots down to an instance exactly if the
  walk up from it goes through them;
* `TreeShaped.find?_eq_some_iff`: an instance is found by its path, and by nothing else but slashes
  in front of it;
* `Renames`: instances get other names. Whatever they are called afterwards, they keep their index
  and are found under it by their new paths (`TreeShaped.find?_inverts_path`).
-/

namespace Deployment.Forest

/-! ### Paths and names -/

theorem toList_pathOf (names : List String) :
    (pathOf names).toList = '/' :: ['/'].intercalate (names.map String.toList) := by
  rw [pathOf, String.toList_append, Text.join, String.toList_ofList]
  simp

/-- Names without slashes can be read off the path that they make. -/
theorem pathOf_inj {a b : List String} (ha : a ≠ []) (hb : b ≠ [])
    (hsa : ∀ s ∈ a, '/' ∉ s.toList) (hsb : ∀ s ∈ b, '/' ∉ s.toList)
    (h : pathOf a = pathOf b) : a = b := by
  have hsplit : ∀ l : List String, l ≠ [] → (∀ s ∈ l, '/' ∉ s.toList) →
      Chars.splitAll '/' (['/'].intercalate (l.map String.toList)) = l.map String.toList := by
    intro l hl hs
    obtain ⟨s, l, rfl⟩ := List.exists_cons_of_ne_nil hl
    have hparts : ∀ part ∈ (s :: l).map String.toList, '/' ∉ part := List.forall_mem_map.2 hs
    exact Chars.splitAll_intercalate hparts
  have hlist := congrArg String.toList h
  rw [toList_pathOf, toList_pathOf] at hlist
  have hparts := congrArg (Chars.splitAll '/') (List.cons.inj hlist).2
  rw [hsplit a ha hsa, hsplit b hb hsb] at hparts
  exact List.map_injective_iff.2 (fun _ _ => String.toList_injective) hparts

/-- A path without the slashes that it begins with. -/
def stripped (path : String) : String := .ofList (path.toList.dropWhile (· = '/'))

/-- The names that a path goes through: what is between its slashes, those at its beginning
    aside. -/
def namesIn (path : String) : List String :=
  (Chars.splitAll '/' (stripped path).toList).map String.ofList

theorem map_toList_namesIn (path : String) :
    (namesIn path).map String.toList = Chars.splitAll '/' (stripped path).toList := by
  simp [namesIn]

theorem namesIn_ne_nil (path : String) : namesIn path ≠ [] :=
  fun h => Chars.splitAll_ne_nil '/' _ (List.map_eq_nil_iff.1 h)

theorem slash_not_mem_namesIn {path name : String} (h : name ∈ namesIn path) :
    '/' ∉ name.toList := by
  have hpart := List.mem_map_of_mem (f := String.toList) h
  rw [map_toList_namesIn] at hpart
  exact Chars.not_mem_of_mem_splitAll hpart

/-- The names of a path make the path again, with one slash at its beginning. -/
theorem pathOf_namesIn (path : String) : pathOf (namesIn path) = "/" ++ stripped path := by
  rw [← String.toList_inj, toList_pathOf, map_toList_namesIn, Chars.intercalate_splitAll]
  simp

/-- A path begins with one slash, if the first name on it is not empty and has none. -/
theorem stripped_pathOf {name : String} {names : List String} (hempty : name ≠ "")
    (hslash : '/' ∉ name.toList) :
    "/" ++ stripped (pathOf (name :: names)) = pathOf (name :: names) := by
  have hne : name.toList ≠ [] := by simpa using hempty
  have hhead := Path.head?_intercalate hne names
  obtain ⟨c, s, hname⟩ := List.exists_cons_of_ne_nil hne
  rw [hname] at hhead hslash
  obtain ⟨r, hr⟩ : ∃ r, ['/'].intercalate ((name :: names).map String.toList) = c :: r :=
    List.head?_eq_some_iff.1 hhead
  have hc : c ≠ '/' := fun e => hslash (e ▸ List.mem_cons_self)
  rw [← String.toList_inj, String.toList_append, stripped, String.toList_ofList, toList_pathOf, hr,
    List.dropWhile_cons_of_pos (by simp), List.dropWhile_cons_of_neg (by simpa using hc),
    String.toList_ofList]
  rfl

/-! ### Well-named forests -/

/-- Paths can be taken apart again, and no two instances side by side have the same name. -/
structure WellNamed (f : Forest) : Prop where
  ne_empty : ∀ name ∈ f.namesOf f.all, name ≠ ""
  slash : ∀ name ∈ f.namesOf f.all, '/' ∉ name.toList
  roots : (f.namesOf f.roots).Nodup
  children : ∀ id ∈ f.all, (f.namesOf (f.children id)).Nodup

instance (f : Forest) : Decidable f.WellNamed :=
  decidable_of_iff
    ((∀ name ∈ f.namesOf f.all, name ≠ "") ∧ (∀ name ∈ f.namesOf f.all, '/' ∉ name.toList) ∧
      (f.namesOf f.roots).Nodup ∧ ∀ id ∈ f.all, (f.namesOf (f.children id)).Nodup)
    ⟨fun ⟨hempty, hslash, hroots, hchildren⟩ => ⟨hempty, hslash, hroots, hchildren⟩,
      fun h => ⟨h.ne_empty, h.slash, h.roots, h.children⟩⟩

variable {f g : Forest} {id parent : Nat} {name : String} {names names' : List String}
  {ids : List Nat}

theorem mem_namesOf_iff : name ∈ f.namesOf ids ↔ ∃ id ∈ ids, (f.get? id).map (·.name) = some name :=
  List.mem_filterMap

theorem hasName_iff : f.hasName name.toList id = true ↔ (f.get? id).map (·.name) = some name := by
  rw [hasName, Option.any_eq_true, Option.map_eq_some_iff]
  simp only [beq_iff_eq, String.toList_inj]

/-- Where names differ, the instance with a name that is found first is the only one. -/
theorem find?_hasName_iff (hnodup : (f.namesOf ids).Nodup) :
    ids.find? (f.hasName name.toList) = some id ↔
      id ∈ ids ∧ (f.get? id).map (·.name) = some name := by
  induction ids with
  | nil => simp
  | cons first ids ih =>
    by_cases hfirst : (f.get? first).map (·.name) = some name
    · have hcons : f.namesOf (first :: ids) = name :: f.namesOf ids :=
        List.filterMap_cons_some hfirst
      rw [hcons, List.nodup_cons] at hnodup
      rw [List.find?_cons_of_pos (hasName_iff.2 hfirst), Option.some.injEq, List.mem_cons]
      constructor
      · rintro rfl
        exact ⟨.inl rfl, hfirst⟩
      · rintro ⟨rfl | hid, hname⟩
        · rfl
        · exact absurd (mem_namesOf_iff.2 ⟨id, hid, hname⟩) hnodup.1
    · have hrest : (f.namesOf ids).Nodup :=
        hnodup.sublist ((List.sublist_cons_self first ids).filterMap _)
      rw [List.find?_cons_of_neg (fun h => hfirst (hasName_iff.1 h)), ih hrest, List.mem_cons]
      refine ⟨fun ⟨hid, hname⟩ => ⟨.inr hid, hname⟩, fun ⟨hid, hname⟩ => ⟨?_, hname⟩⟩
      exact hid.resolve_left fun heq => hfirst (heq ▸ hname)

/-! ### The way up -/

/-- A walk up through some names comes from an instance with the last one, and goes on from its
    parent through the others. -/
theorem climbs_concat_iff :
    f.Climbs (some id) (names ++ [name]) ↔
      ∃ n, f.node? id = some n ∧ n.body.name = name ∧ f.Climbs n.parent names := by
  constructor
  · intro h
    generalize hnames : names ++ [name] = all at h
    cases h with
    | next hn hparent =>
      obtain ⟨rfl, hname⟩ := List.append_inj' hnames rfl
      exact ⟨_, hn, (List.cons.inj hname).1.symm, hparent⟩
  · rintro ⟨n, hn, rfl, hparent⟩
    exact .next hn hparent

theorem climbs_nil_iff {current : Option Nat} : f.Climbs current [] ↔ current = none := by
  constructor
  · intro h
    generalize hnames : ([] : List String) = names at h
    cases h with
    | done => rfl
    | next => exact absurd hnames.symm (List.append_ne_nil_of_right_ne_nil _ (List.cons_ne_nil _ _))
  · rintro rfl
    exact .done

/-- There is one walk up from an instance. -/
theorem Climbs.unique {current : Option Nat} (h : f.Climbs current names)
    (h' : f.Climbs current names') : names = names' := by
  induction h generalizing names' with
  | done =>
    cases h'
    rfl
  | next hn _ ih =>
    cases h' with
    | next hn' h' =>
      obtain rfl := Option.some.inj (hn.symm.trans hn')
      rw [ih h']

namespace TreeShaped

variable (h : f.TreeShaped)

include h

/-- What has no parent stands below the roots if it is one of them. -/
theorem mem_all_iff_of_top (htop : f.parent? id = none) : id ∈ f.all ↔ id ∈ f.roots := by
  rw [h.mem_all_iff_exists]
  constructor
  · rintro ⟨root, hroot, hreach⟩
    rcases hreach.cases_head with rfl | ⟨above, habove, -⟩
    · exact hroot
    · exact nomatch htop.symm.trans habove
  · exact fun hroot => ⟨id, hroot, .refl⟩

/-- What has a parent stands below the roots if its parent does. -/
theorem mem_all_iff_of_parent (hparent : f.parent? id = some parent) :
    id ∈ f.all ↔ parent ∈ f.all := by
  rw [h.mem_all_iff_exists, h.mem_all_iff_exists]
  refine exists_congr fun root => and_congr_right fun hroot => ⟨fun hreach => ?_, .head hparent⟩
  rcases hreach.cases_head with rfl | ⟨above, habove, hrest⟩
  · exact nomatch (h.parent?_of_mem_roots hroot).symm.trans hparent
  · obtain rfl := Option.some.inj (hparent.symm.trans habove)
    exact hrest

/-- On the way up from an instance, all names are those of instances below the roots. -/
theorem mem_namesOf_of_climbs (hid : id ∈ f.all) (hclimbs : f.Climbs (some id) names) :
    ∀ name ∈ names, name ∈ f.namesOf f.all := by
  generalize hcurrent : some id = current at hclimbs
  induction hclimbs generalizing id with
  | done => exact fun _ hname => absurd hname List.not_mem_nil
  | @next own n names hn hparent ih =>
    obtain rfl := Option.some.inj hcurrent
    intro name hname
    rcases List.mem_append.1 hname with hname | hname
    · cases hp : n.parent with
      | none =>
        rw [hp] at hparent
        cases hparent
        exact absurd hname List.not_mem_nil
      | some parent =>
        have habove := (h.mem_all_iff_of_parent ((parent?_of_node? hn).trans hp)).1 hid
        exact ih habove hp.symm name hname
    · rw [List.mem_singleton.1 hname]
      exact mem_namesOf_iff.2 ⟨id, hid, by rw [get?_of_node? hn]; rfl⟩

/-- An instance below the roots has a path, which is made of the names on the way up. -/
theorem exists_climbs (hid : id ∈ f.all) :
    ∃ names, f.Climbs (some id) names ∧ f.path id = pathOf names ∧ names ≠ [] := by
  have hlt : id < f.nodes.size := by
    obtain ⟨root, hroot, hreach⟩ := h.mem_all_iff_exists.1 hid
    rcases hreach.cases_head with rfl | ⟨_, hparent, -⟩
    · exact h.within id hroot
    · exact lt_of_parent? hparent
  obtain ⟨names, hclimbs, hpath⟩ := h.climbs_path hlt
  refine ⟨names, hclimbs, hpath, ?_⟩
  rintro rfl
  exact absurd (climbs_nil_iff.1 hclimbs) (Option.some_ne_none id)

end TreeShaped

/-! ### The way down -/

/-- To go down by one name more is to look for it among the children of where the others lead. -/
theorem descend_concat (hnames : names ≠ []) (ids : List Nat) :
    f.descend ((names ++ [name]).map String.toList) ids =
      (f.descend (names.map String.toList) ids).bind fun id =>
        (f.children id).find? (f.hasName name.toList) := by
  induction names generalizing ids with
  | nil => exact absurd rfl hnames
  | cons first names ih =>
    cases names with
    | nil => rfl
    | cons second names =>
      have hrest : ∀ ids, f.descend ((second :: names ++ [name]).map String.toList) ids =
          (f.descend ((second :: names).map String.toList) ids).bind fun id =>
            (f.children id).find? (f.hasName name.toList) :=
        ih (List.cons_ne_nil _ _)
      have hstep : ∀ rest : List String,
          f.descend ((first :: second :: rest).map String.toList) ids =
            (ids.find? (f.hasName first.toList)).bind fun id =>
              f.descend ((second :: rest).map String.toList) (f.children id) := fun _ => rfl
      rw [List.cons_append, List.cons_append, hstep, hstep, Option.bind_assoc]
      exact congrArg _ (funext fun id => hrest (f.children id))

namespace TreeShaped

variable (h : f.TreeShaped) (hnamed : f.WellNamed)

include h hnamed

/-- Names lead from the roots down to an instance if they are those on the way up from it. The
    induction is on the names from the last one on, since the way up begins there. -/
theorem descend_roots_iff :
    f.descend (names.map String.toList) f.roots = some id ↔
      id ∈ f.all ∧ f.Climbs (some id) names := by
  induction names using List.reverseRecOn generalizing id with
  | nil =>
    rw [climbs_nil_iff]
    exact iff_of_false (fun heq => nomatch heq) fun heq => nomatch heq.2
  | append_singleton names name ih =>
    have hname : ∀ {n : Node}, f.node? id = some n →
        ((f.get? id).map (·.name) = some name ↔ n.body.name = name) := by
      intro n hn
      rw [get?_of_node? hn, Option.map_some, Option.some.injEq]
    rw [climbs_concat_iff]
    by_cases hnames : names = []
    · -- One name leads to a root, and the way up from a root has one name.
      subst hnames
      have hone : f.descend (([] ++ [name]).map String.toList) f.roots =
          f.roots.find? (f.hasName name.toList) := rfl
      rw [hone, find?_hasName_iff hnamed.roots]
      constructor
      · rintro ⟨hroot, hown⟩
        obtain ⟨n, hn⟩ := exists_node?_of_lt (h.within id hroot)
        have htop := h.parent?_of_mem_roots hroot
        refine ⟨(h.mem_all_iff_of_top htop).2 hroot, n, hn, (hname hn).1 hown, ?_⟩
        rw [climbs_nil_iff, ← parent?_of_node? hn, htop]
      · rintro ⟨hid, n, hn, hown, hclimbs⟩
        have htop := (parent?_of_node? hn).trans (climbs_nil_iff.1 hclimbs)
        exact ⟨(h.mem_all_iff_of_top htop).1 hid, (hname hn).2 hown⟩
    · -- The names before the last one lead to the parent.
      rw [descend_concat hnames, Option.bind_eq_some_iff]
      constructor
      · rintro ⟨parent, habove, hchild⟩
        obtain ⟨hparent, hclimbs⟩ := ih.1 habove
        obtain ⟨hmem, hown⟩ := (find?_hasName_iff (hnamed.children parent hparent)).1 hchild
        have hlink := h.hasParent_iff.2 hmem
        obtain ⟨n, hn⟩ := exists_node?_of_lt (lt_of_parent? hlink)
        refine ⟨(h.mem_all_iff_of_parent hlink).2 hparent, n, hn, (hname hn).1 hown, ?_⟩
        rw [← parent?_of_node? hn, show f.parent? id = some parent from hlink]
        exact hclimbs
      · rintro ⟨hid, n, hn, hown, hclimbs⟩
        cases hp : n.parent with
        | none =>
          rw [hp] at hclimbs
          cases hclimbs
          exact absurd rfl hnames
        | some parent =>
          have hlink := (parent?_of_node? hn).trans hp
          have hparent := (h.mem_all_iff_of_parent hlink).1 hid
          rw [hp] at hclimbs
          refine ⟨parent, ih.2 ⟨hparent, hclimbs⟩, ?_⟩
          exact (find?_hasName_iff (hnamed.children parent hparent)).2
            ⟨h.hasParent_iff.1 hlink, (hname hn).2 hown⟩

/-- An instance is found by its path, with any number of slashes at its beginning, and by nothing
    else. -/
theorem find?_eq_some_iff {path : String} :
    f.find? path = some id ↔ id ∈ f.all ∧ f.path id = "/" ++ stripped path := by
  have hfind : f.find? path = f.descend ((namesIn path).map String.toList) f.roots := by
    rw [find?, map_toList_namesIn, stripped, String.toList_ofList]
  rw [hfind, h.descend_roots_iff hnamed]
  refine and_congr_right fun hid => ?_
  obtain ⟨names, hclimbs, hpath, hne⟩ := h.exists_climbs hid
  rw [hpath, ← pathOf_namesIn]
  constructor
  · intro hclimbs'
    rw [hclimbs.unique hclimbs']
  · intro heq
    have hslash : ∀ name ∈ names, '/' ∉ name.toList := fun name hname =>
      hnamed.slash name (h.mem_namesOf_of_climbs hid hclimbs name hname)
    rw [← pathOf_inj hne (namesIn_ne_nil path) hslash (fun _ => slash_not_mem_namesIn) heq]
    exact hclimbs

/-- Every instance below the roots is found by its path. -/
theorem find?_path (hid : id ∈ f.all) : f.find? (f.path id) = some id := by
  refine (h.find?_eq_some_iff hnamed).2 ⟨hid, ?_⟩
  obtain ⟨names, hclimbs, hpath, hne⟩ := h.exists_climbs hid
  have hnames := h.mem_namesOf_of_climbs hid hclimbs
  obtain ⟨first, rest, rfl⟩ := List.exists_cons_of_ne_nil hne
  have hfirst := hnames first List.mem_cons_self
  rw [hpath, stripped_pathOf (hnamed.ne_empty first hfirst) (hnamed.slash first hfirst)]

end TreeShaped

/-! ### Renamed instances -/

/-- One forest comes of another by giving an instance another name. -/
def Renames (f g : Forest) : Prop := ∃ id name, g = f.rename id name

/-- What stands below the roots is a matter of the links alone. -/
theorem all_congr (hroots : g.roots = f.roots) (hsize : g.nodes.size = f.nodes.size)
    (hchildren : ∀ id, g.children id = f.children id) : g.all = f.all := by
  have hlevels : ∀ (fuel : Nat) (level : List Nat), g.levelsFrom fuel level =
      f.levelsFrom fuel level := by
    intro fuel
    induction fuel with
    | zero => exact fun _ => rfl
    | succ fuel ih =>
      intro level
      rw [levelsFrom, levelsFrom, ih, funext hchildren]
  rw [all, all, hroots]
  refine List.flatMap_congr fun root _ => ?_
  rw [hierarchy, hierarchy, hsize, hlevels]

/-- However often instances are renamed, the forest stays tree-shaped, with the same instances below
    its roots. -/
theorem TreeShaped.renames (h : f.TreeShaped) (hrenames : Relation.ReflTransGen Renames f g) :
    g.TreeShaped ∧ g.all = f.all := by
  induction hrenames with
  | refl => exact ⟨h, rfl⟩
  | tail _ hstep ih =>
    obtain ⟨id, name, rfl⟩ := hstep
    refine ⟨ih.1.modifyInstance id _, Eq.trans ?_ ih.2⟩
    exact all_congr rfl (size_modify ..) (children_modifyInstance _ id _)

/-- In a well-named forest, what is found by a path is the instance below the roots that has it,
    slashes at its beginning aside. So every instance is found by its path, and it is the same one
    that is found by its new path after any renaming that leaves the forest well-named. -/
theorem TreeShaped.find?_inverts_path (h : f.TreeShaped) (hnamed : f.WellNamed) :
    (∀ path id, f.find? path = some id ↔ id ∈ f.all ∧ f.path id = "/" ++ stripped path) ∧
      ∀ g, Relation.ReflTransGen Renames f g → g.WellNamed →
        ∀ id ∈ f.all, g.find? (g.path id) = some id := by
  refine ⟨fun path id => h.find?_eq_some_iff hnamed, fun g hrenames hnamed' id hid => ?_⟩
  obtain ⟨hshape, hall⟩ := h.renames hrenames
  exact hshape.find?_path hnamed' (hall ▸ hid)

/-- Two machines with servers of the same name. -/
def servers : Forest :=
  .ofTrees [
    .node (.named "vm" "VM") [
      .node (.named "server" "Server") [.node (.named "app" "App") []],
      .node (.named "db" "Database") []],
    .node (.named "vm 2" "VM") [.node (.named "server" "Server") []]]

/-- A machine and an application with other names. -/
def renamedServers : Forest := (servers.rename 0 "vm1").rename 2 "shop"

/-- Servers of the same name on different machines are told apart, and the application keeps its
    index under another path. -/
theorem find?_inverts_path_servers :
    servers.TreeShaped ∧ servers.WellNamed ∧ Relation.ReflTransGen Renames servers renamedServers ∧
      renamedServers.WellNamed ∧ servers.find? "//vm 2/server" = some 5 ∧
      servers.find? "vm/server/" = none ∧ renamedServers.path 2 = "/vm1/server/shop" ∧
      renamedServers.find? (renamedServers.path 2) = some 2 := by
  have hshape : servers.TreeShaped := treeShaped_ofTrees _
  have hnamed : servers.WellNamed := by decide +kernel
  have hrenames : Relation.ReflTransGen Renames servers renamedServers :=
    (Relation.ReflTransGen.refl.tail ⟨0, "vm1", rfl⟩).tail ⟨2, "shop", rfl⟩
  have hnamed' : renamedServers.WellNamed := by decide +kernel
  obtain ⟨hfind, hrenamed⟩ := hshape.find?_inverts_path hnamed
  refine ⟨hshape, hnamed, hrenames, hnamed', (hfind _ _).2 (by decide +kernel), ?_,
    by decide +kernel, hrenamed _ hrenames hnamed' 2 (by decide +kernel)⟩
  decide +kernel

end Deployment.Forest
