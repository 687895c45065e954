import Deployment.Block.Check
import Deployment.Draft
import Deployment.Proofs.Name
import Mathlib.Data.List.Nodup

/-!
# Declarations of instances

What a declaration of an instance says once its check found nothing severe: every property
stands once, the name is valid and the number of copies readable. The draft that is read off
the properties then has the name and the number of copies that their only mention gives.

* `Block.Within`: the declarations inside some blocks, at any depth;
* `InstanceDeclaration.Sound`: what the check grants, for every declaration (`sound_of_within`);
* `draft_component`, `draft_name`, `draft_countText`: the component and the name of the draft, and
  what it says about copies;
* `slash_not_mem_of_isInstanceName`: a valid name has no slash.
-/

namespace Deployment

namespace Block

/-- A declaration among some blocks, or inside a declaration among them. -/
inductive Within : List Block → InstanceDeclaration → Prop
  | here {blocks : List Block} {b : InstanceDeclaration} : b ∈ instances blocks → Within blocks b
  | inside {blocks : List Block} {b c : InstanceDeclaration} :
      b ∈ instances blocks → Within b.inner c → Within blocks c

theorem mem_instances {blocks : List Block} {b : InstanceDeclaration} :
    b ∈ instances blocks ↔ .declaration b.site .instanceOf b.component b.inner ∈ blocks := by
  rw [instances, List.mem_filterMap]
  constructor
  · rintro ⟨c, hc, hb⟩
    unfold instance? at hb
    split at hb
    · cases hb
      exact hc
    · exact nomatch hb
  · exact fun h => ⟨_, h, rfl⟩

theorem mem_properties {blocks : List Block} {name value : String} :
    (name, value) ∈ properties blocks ↔ ∃ site, .property site name value ∈ blocks := by
  rw [properties, List.mem_filterMap]
  constructor
  · rintro ⟨b, hb, hp⟩
    unfold property? at hp
    split at hp
    · cases hp
      exact ⟨_, hb⟩
    · exact nomatch hp
  · rintro ⟨site, h⟩
    exact ⟨_, h, rfl⟩

/-! ### Blocks checked without severe diagnostics -/

theorem checkInners_eq_flatMap (blocks : List Block) :
    checkInners blocks = blocks.flatMap checkInner := by
  induction blocks with
  | nil => rfl
  | cons b bs ih => rw [checkInners, ih, List.flatMap_cons]

/-- Without a severe diagnostic about their shape, properties have different names, none of
    them seen before. -/
theorem nodup_of_checkShape {seen : List String} {blocks : List Block}
    (h : Diagnostic.anySevere (checkShape seen blocks) = false) :
    ((properties blocks).map Prod.fst).Nodup ∧
      ∀ name ∈ (properties blocks).map Prod.fst, name ∉ seen := by
  induction blocks generalizing seen with
  | nil => exact ⟨List.nodup_nil, fun _ h => absurd h List.not_mem_nil⟩
  | cons b bs ih =>
    cases b with
    | property site name value =>
      rw [checkShape, Diagnostic.anySevere_append, Diagnostic.anySevere_append,
        Bool.or_eq_false_iff, Bool.or_eq_false_iff] at h
      obtain ⟨⟨-, hseen⟩, hrest⟩ := h
      obtain ⟨hnodup, hnot⟩ := ih hrest
      have hname : name ∉ seen := fun hmem => by
        rw [if_pos hmem] at hseen
        exact nomatch hseen
      refine ⟨List.nodup_cons.2 ⟨fun hmem => hnot name hmem List.mem_cons_self, hnodup⟩, ?_⟩
      intro n hn
      rcases List.mem_cons.1 hn with rfl | hn
      · exact hname
      · exact fun hs => hnot n hn (List.mem_cons_of_mem _ hs)
    | declaration | importOf | comment | blank => exact ih h

end Block

/-! ### Sound declarations -/

namespace InstanceDeclaration

/-- What is found wrong with a declaration. -/
def check (b : InstanceDeclaration) : List Diagnostic :=
  Block.checkInstance b.site b.component b.inner

/-- The name that a declaration gives: what its `name` property says. -/
def name (b : InstanceDeclaration) : String :=
  ((Block.lookup b.inner "name").map Text.unquote).getD ""

/-- The number of copies that a declaration asks for: what its `count` property says, and one
    without it. -/
def copies (b : InstanceDeclaration) : Nat :=
  ((Block.lookup b.inner "count").bind parseCount).getD 1

/-- The draft that is read off a declaration. -/
def draft (b : InstanceDeclaration) : Draft := .read b

/-- A declaration in which every property stands once, with a valid name and a readable number
    of copies. -/
structure Sound (b : InstanceDeclaration) : Prop where
  nodup : ((Block.properties b.inner).map Prod.fst).Nodup
  name : ∃ value, Block.lookup b.inner "name" = some value ∧ isInstanceName (Text.unquote value)
  count : ∀ value, Block.lookup b.inner "count" = some value → (parseCount value).isSome

theorem mem_of_lookup {props : List (String × String)} {key value : String}
    (h : props.lookup key = some value) : (key, value) ∈ props := by
  induction props with
  | nil => exact nomatch h
  | cons p props ih =>
    obtain ⟨k, v⟩ := p
    by_cases hk : key = k
    · subst hk
      rw [List.lookup_cons_self] at h
      cases h
      exact List.mem_cons_self
    · rw [List.lookup_cons, beq_false_of_ne hk] at h
      exact List.mem_cons_of_mem _ (ih h)

theorem sound_of_check {b : InstanceDeclaration} (h : Diagnostic.anySevere b.check = false) :
    b.Sound := by
  rw [check, Block.checkInstance, Block.checkInstanceItself, Diagnostic.anySevere_append,
    Diagnostic.anySevere_append, Diagnostic.anySevere_append, Bool.or_eq_false_iff,
    Bool.or_eq_false_iff, Bool.or_eq_false_iff] at h
  obtain ⟨⟨⟨-, hshape⟩, hname⟩, hinner⟩ := h
  refine ⟨(Block.nodup_of_checkShape hshape).1, ?_, fun value hvalue => ?_⟩
  · rw [Block.checkInstanceName] at hname
    cases hlookup : Block.lookup b.inner "name" with
    | none =>
      rw [hlookup] at hname
      exact nomatch hname
    | some value =>
      rw [hlookup, Option.map_some] at hname
      refine ⟨value, rfl, ?_⟩
      dsimp only at hname
      split_ifs at hname with hempty hvalid
      · exact nomatch hname
      · exact hvalid
      · exact nomatch hname
  · obtain ⟨site, hmem⟩ := Block.mem_properties.1 (mem_of_lookup hvalue)
    have hone : Diagnostic.anySevere (Block.checkInner (.property site "count" value)) = false := by
      rw [Block.checkInners_eq_flatMap] at hinner
      exact Diagnostic.anySevere_of_subset (fun d hd => List.mem_flatMap_of_mem hmem hd) hinner
    rw [Block.checkInner, Block.checkInstanceProperty, if_pos rfl] at hone
    split_ifs at hone with hsome
    · exact hsome
    · exact nomatch hone

/-- A declaration inside a declaration without severe diagnostics has none either. -/
theorem check_inner {b c : InstanceDeclaration} (h : Diagnostic.anySevere b.check = false)
    (hc : c ∈ Block.instances b.inner) : Diagnostic.anySevere c.check = false := by
  refine Diagnostic.anySevere_of_subset (fun d hd => List.mem_append_right _ ?_) h
  rw [Block.checkInners_eq_flatMap]
  exact List.mem_flatMap_of_mem (Block.mem_instances.1 hc) hd

/-- Among blocks without severe diagnostics, every declaration at any depth is sound. -/
theorem sound_of_within {blocks : List Block} {b : InstanceDeclaration}
    (h : ∀ c ∈ Block.instances blocks, Diagnostic.anySevere c.check = false)
    (hb : Block.Within blocks b) : b.Sound := by
  induction hb with
  | here hb => exact sound_of_check (h _ hb)
  | inside hb _ ih => exact ih fun c hc => check_inner (h _ hb) hc

/-! ### What the draft says -/

theorem filter_of_lookup {props : List (String × String)} (h : (props.map Prod.fst).Nodup)
    (key : String) :
    props.filter (·.1 = key) = ((props.lookup key).map fun v => (key, v)).toList := by
  induction props with
  | nil => rfl
  | cons p props ih =>
    obtain ⟨k, v⟩ := p
    rw [List.map_cons, List.nodup_cons] at h
    by_cases hk : key = k
    · subst hk
      have hnone : props.filter (·.1 = key) = [] := by
        refine List.filter_eq_nil_iff.2 fun q hq hkey => h.1 ?_
        exact List.mem_map.2 ⟨q, hq, by simpa using hkey⟩
      rw [List.lookup_cons_self, List.filter_cons_of_pos (by simp), hnone]
      rfl
    · rw [List.lookup_cons, beq_false_of_ne hk, List.filter_cons_of_neg (by simpa using Ne.symm hk)]
      exact ih h.2

theorem filter_of_mem {props : List (String × String)} (h : (props.map Prod.fst).Nodup)
    {key value : String} (hmem : (key, value) ∈ props) :
    props.filter (·.1 = key) = [(key, value)] := by
  have hkept : (key, value) ∈ props.filter (·.1 = key) :=
    List.mem_filter.2 ⟨hmem, decide_eq_true rfl⟩
  rw [filter_of_lookup h, Option.mem_toList, Option.map_eq_some_iff] at hkept
  obtain ⟨_, hlookup, heq⟩ := hkept
  rw [filter_of_lookup h, hlookup, Option.map_some, heq]
  rfl

section Fold

variable {σ β : Type} {step : σ → String × String → σ} {key : String} (read : σ → β)
  (change : β → String → β)

/-- What only the properties of one name change comes of these properties. -/
theorem read_foldl
    (hstep : ∀ s p, read (step s p) = if p.1 = key then change (read s) p.2 else read s)
    (props : List (String × String)) (s : σ) :
    read (props.foldl step s) =
      (props.filter (·.1 = key)).foldl (fun x p => change x p.2) (read s) := by
  induction props generalizing s with
  | nil => rfl
  | cons p props ih =>
    rw [List.foldl_cons, ih, hstep]
    by_cases hp : p.1 = key
    · rw [if_pos hp, List.filter_cons_of_pos (by simpa using hp), List.foldl_cons]
    · rw [if_neg hp, List.filter_cons_of_neg (by simpa using hp)]

/-- If no name stands twice, it comes of one property. -/
theorem read_foldl_of_nodup
    (hstep : ∀ s p, read (step s p) = if p.1 = key then change (read s) p.2 else read s)
    {props : List (String × String)} (h : (props.map Prod.fst).Nodup) {value : String}
    (hmem : (key, value) ∈ props) (s : σ) :
    read (props.foldl step s) = change (read s) value := by
  rw [read_foldl read change hstep, filter_of_mem h hmem, List.foldl_cons, List.foldl_nil]

end Fold

theorem component_addProperty (i : Instance) (p : String × String) :
    (i.addProperty p).component = i.component := by
  unfold Instance.addProperty
  split
  case h_6 => split <;> rfl
  all_goals rfl

/-- The draft of a declaration has the component of the declaration. -/
theorem draft_component (b : InstanceDeclaration) :
    b.draft.body.component = b.component :=
  List.foldlRecOn (motive := fun i => i.component = b.component) _ _ rfl fun i hi p _ =>
    (component_addProperty i p).trans hi

theorem name_addProperty (i : Instance) (p : String × String) :
    (i.addProperty p).name = if p.1 = "name" then Text.unquote p.2 else i.name := by
  unfold Instance.addProperty
  split
  case h_6 key value _ hname _ _ _ _ =>
    rw [if_neg hname]
    split <;> rfl
  all_goals rfl

/-- The name that properties give an instance is that of the last `name` among them. -/
theorem name_foldl_addProperty (props : List (String × String)) (i : Instance) :
    (props.foldl Instance.addProperty i).name =
      (((props.filter (·.1 = "name")).getLast?).map fun p => Text.unquote p.2).getD i.name := by
  induction props generalizing i with
  | nil => rfl
  | cons p props ih =>
    rw [List.foldl_cons, ih, name_addProperty]
    by_cases hp : p.1 = "name"
    · rw [if_pos hp, List.filter_cons_of_pos (by simpa using hp), List.getLast?_cons]
      cases (props.filter (·.1 = "name")).getLast? <;> rfl
    · rw [if_neg hp, List.filter_cons_of_neg (by simpa using hp)]

/-- The draft of a sound declaration has the name that the declaration gives. -/
theorem draft_name {b : InstanceDeclaration} (h : b.Sound) : b.draft.body.name = b.name := by
  obtain ⟨value, hvalue, -⟩ := h.name
  rw [draft, Draft.read, name_foldl_addProperty, filter_of_lookup h.nodup, name]
  rw [Block.lookup] at hvalue ⊢
  rw [hvalue]
  rfl

/-- A value that is readable as a number of copies is so without its quotes. -/
theorem parseCount_unquote {value : String} (h : (parseCount value).isSome) :
    parseCount (Text.unquote value) = parseCount value := by
  have hhead : (Chars.trim (Chars.unquote value.toList)).head? ≠ some '"' := by
    -- A quote is neither a sign nor a digit.
    intro hquote
    obtain ⟨rest, hrest⟩ := List.head?_eq_some_iff.1 hquote
    have hfold : ∀ s : List Char, s.foldl
        (fun n c => n.bind fun n => (Chars.digit? c).map fun d => 10 * n + d) none = none := by
      intro s
      induction s with
      | nil => rfl
      | cons c s ih => exact ih
    have hnone : Chars.number? ('"' :: rest) = none := hfold rest
    rw [parseCount, hrest] at h
    simp [Chars.after?, hnone] at h
  have htrim : Chars.unquote (Chars.unquote value.toList) =
      Chars.trim (Chars.unquote value.toList) := Chars.unquote_of_head hhead
  simp only [parseCount, Text.unquote, String.toList_ofList, htrim, Chars.trim_trim]

/-- The draft of a sound declaration says about copies what the declaration says. -/
theorem draft_countText {b : InstanceDeclaration} (h : b.Sound) :
    b.draft.countText = (Block.lookup b.inner "count").map Text.unquote := by
  rw [draft, Draft.read, Block.lookup]
  dsimp only
  rw [filter_of_lookup h.nodup]
  cases (Block.properties b.inner).lookup "count" with
  | none => rfl
  | some value => rfl

theorem one_le_copies (b : InstanceDeclaration) : 1 ≤ b.copies := by
  rw [copies]
  cases hcount : (Block.lookup b.inner "count").bind parseCount with
  | none => exact le_rfl
  | some n =>
    obtain ⟨value, -, hn⟩ := Option.bind_eq_some_iff.1 hcount
    have := Option.filter_eq_some_iff.1 hn
    simp only [Bool.and_eq_true, decide_eq_true_eq] at this
    exact this.2.1

end InstanceDeclaration

/-! ### Names of instances -/

theorem slash_not_mem_of_isInstanceName {s : String} (h : isInstanceName s) : '/' ∉ s.toList :=
  fun hmem => absurd ((isInstanceName_iff.1 h).2 '/' hmem) (by decide)

end Deployment
