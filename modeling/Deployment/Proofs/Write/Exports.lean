import Deployment.Proofs.Write.Lists
import Mathlib.Algebra.GroupWithZero.Nat
import Mathlib.Algebra.Order.BigOperators.Group.List
import Mathlib.Algebra.Order.Group.Nat
import Mathlib.Data.List.Nodup
import Mathlib.Data.List.Perm.Subperm
import Mathlib.Tactic.Choose

/-!
# Written exports

The value of an exported variable is written between quotes where it needs them, its own quotes as
they are. These quotes meet those of the list value: a comma of a value may separate, and a comma
after the value may not. The variables of a type are thus read as they were written exactly if
their values are *writable* (`exportsOf_exportsText`, `writableValues_of_read`).

If all variables are read again, the commas of their values are those of the pieces that they are
read from. As the list value has no others but the ones between its entries, every piece is the
text of a variable.
-/

namespace Deployment

/-- Values that the readers of list values do not take apart: before every comma of a value an even
    number of quotes, and an even number of them in every value but the last. -/
structure WritableValues (vs : List ExportedVariable) : Prop where
  commas : ∀ v ∈ vs, ∀ value, v.value = some value →
    ∀ l r, value.toList = l ++ ',' :: r → l.count '"' % 2 = 0
  quotes : ∀ v ∈ vs.dropLast, ∀ value, v.value = some value → value.toList.count '"' % 2 = 0

/-- Values without quotes are writable. -/
theorem WritableValues.of_not_mem {vs : List ExportedVariable}
    (h : ∀ v ∈ vs, ∀ value, v.value = some value → '"' ∉ value.toList) : WritableValues vs where
  commas v hv value hvalue l r hsplit := by
    have hcount : l.count '"' = 0 := by
      refine List.count_eq_zero.2 fun hmem => h v hv value hvalue ?_
      rw [hsplit]
      exact List.mem_append_left _ hmem
    rw [hcount]
  quotes v hv value hvalue := by
    rw [List.count_eq_zero.2 (h v (List.dropLast_subset _ hv) value hvalue)]

/-! ### Weights -/

theorem eq_of_sublist_of_sum_le {α : Type} {w : α → Nat} {l l' : List α} (h : l.Sublist l')
    (hpos : ∀ a ∈ l', 0 < w a) (hsum : (l'.map w).sum ≤ (l.map w).sum) : l = l' := by
  induction h with
  | slnil => rfl
  | cons a hsub ih =>
    have hle := (hsub.map w).sum_le_sum fun n _ => Nat.zero_le n
    have ha := hpos a List.mem_cons_self
    rw [List.map_cons, List.sum_cons] at hsum
    omega
  | cons_cons a hsub ih =>
    rw [List.map_cons, List.map_cons, List.sum_cons, List.sum_cons] at hsum
    rw [ih (fun b hb => hpos b (List.mem_cons_of_mem _ hb)) (by omega)]

/-- Nothing is missing from a part that weighs as much as the whole. -/
theorem perm_of_sum_le {α : Type} {w : α → Nat} {l l' : List α} (h : l.Subperm l')
    (hpos : ∀ a ∈ l', 0 < w a) (hsum : (l'.map w).sum ≤ (l.map w).sum) : l.Perm l' := by
  obtain ⟨m, hm, hsub⟩ := h
  have hmw : (m.map w).sum = (l.map w).sum := (hm.map w).sum_nat
  rw [← eq_of_sublist_of_sum_le hsub hpos (by omega)]
  exact hm.symm

theorem eq_of_sum_le {α : Type} {f g : α → Nat} {l : List α} (h : ∀ a ∈ l, f a ≤ g a)
    (hsum : (l.map g).sum ≤ (l.map f).sum) : ∀ a ∈ l, f a = g a := by
  intro a ha
  by_contra hne
  have hlt := List.sum_lt_sum f g h ⟨a, ha, (h a ha).lt_of_ne hne⟩
  omega

namespace Chars

/-! ### Quoted values -/

theorem between_true_iff {s : List Char} : between true s = true ↔ s.count '"' % 2 = 0 := by
  rw [between]
  rcases Nat.mod_two_eq_zero_or_one (s.count '"') with h | h
  · simp [h]
  · simp [h]

/-- A quoted value is shielded if the commas of the value are, between quotes. -/
theorem shielded_quoted_iff {s : List Char} :
    Shielded false (quoted s) ↔ ∀ l r, s = l ++ ',' :: r → l.count '"' % 2 = 0 := by
  have hinside : Shielded true s ↔ ∀ l r, s = l ++ ',' :: r → l.count '"' % 2 = 0 :=
    forall₂_congr fun l r => imp_congr_right fun _ => between_true_iff
  rw [← hinside, quoted]
  split
  · rw [shielded_cons_iff, shielded_append_iff]
    simp [shielded_of_not_mem]
  · next h =>
    have hcomma := (not_mem_of_not_needsQuotes (by simpa using h)).1
    exact iff_of_true (shielded_of_not_mem hcomma) (shielded_of_not_mem hcomma)

/-- A quoted value leaves the reader outside quotes if it has an even number of them. -/
theorem between_quoted_iff {s : List Char} :
    between false (quoted s) = false ↔ s.count '"' % 2 = 0 := by
  rw [← between_true_iff, quoted]
  split
  · rw [between_cons, between_append]
    simp
  · next h =>
    have hquote := (not_mem_of_not_needsQuotes (by simpa using h)).2.1
    rw [between_of_not_mem hquote, between_of_not_mem hquote]
    simp

theorem count_quoted (s : List Char) : (quoted s).count ',' = s.count ',' := by
  rw [quoted]
  split
  · simp
  · rfl

end Chars

namespace ExportedVariable

variable {v : ExportedVariable}

/-! ### Texts of variables -/

namespace Valid

theorem count_text (h : v.Valid) : v.text.toList.count ',' = v.commas := by
  have hdeclaration :=
    List.count_eq_zero.2 (h.not_mem_declaration (c := ',') (by decide) (by decide))
  rw [toList_text, List.count_append, hdeclaration, setting, commas]
  cases v.value with
  | none => rfl
  | some value => simp [Chars.count_quoted]

theorem text_ne_nil (h : v.Valid) : v.text.toList ≠ [] := by
  rw [toList_text]
  exact List.append_ne_nil_of_left_ne_nil h.declaration_ne_nil _

theorem shielded_declaration (h : v.Valid) : Chars.Shielded false v.declaration :=
  Chars.shielded_of_not_mem (h.not_mem_declaration (by decide) (by decide))

theorem between_declaration (h : v.Valid) : Chars.between false v.declaration = false :=
  Chars.between_of_not_mem (h.not_mem_declaration (by decide) (by decide))

theorem shielded_text_iff (h : v.Valid) :
    Chars.Shielded false v.text.toList ↔ ∀ value, v.value = some value →
      ∀ l r, value.toList = l ++ ',' :: r → l.count '"' % 2 = 0 := by
  rw [toList_text, Chars.shielded_append_iff, h.between_declaration,
    and_iff_right h.shielded_declaration, setting]
  cases v.value with
  | none => simp [Chars.shielded_of_not_mem]
  | some value =>
    have hmark : Chars.between false " = ".toList = false := Chars.between_of_not_mem (by decide)
    rw [Chars.shielded_append_iff, hmark, Chars.shielded_quoted_iff,
      and_iff_right (Chars.shielded_of_not_mem (by decide))]
    simp

theorem between_text_iff (h : v.Valid) :
    Chars.between false v.text.toList = false ↔ ∀ value, v.value = some value →
      value.toList.count '"' % 2 = 0 := by
  rw [toList_text, Chars.between_append, h.between_declaration, setting]
  cases v.value with
  | none => simp
  | some value =>
    have hmark : Chars.between false " = ".toList = false := Chars.between_of_not_mem (by decide)
    rw [Chars.between_append, hmark, Chars.between_quoted_iff]
    simp

end Valid

end ExportedVariable

/-- Values are writable if the texts of the variables are shielded and leave the reader outside
    quotes, but for the last one. -/
theorem writableValues_iff {vs : List ExportedVariable} (h : ∀ v ∈ vs, v.Valid) :
    WritableValues vs ↔ (∀ v ∈ vs, Chars.Shielded false v.text.toList) ∧
      ∀ v ∈ vs.dropLast, Chars.between false v.text.toList = false := by
  constructor
  · intro hw
    exact ⟨fun v hv => (h v hv).shielded_text_iff.2 (hw.commas v hv),
      fun v hv => (h v (List.dropLast_subset _ hv)).between_text_iff.2 (hw.quotes v hv)⟩
  · rintro ⟨hshielded, hout⟩
    exact ⟨fun v hv => (h v hv).shielded_text_iff.1 (hshielded v hv),
      fun v hv => (h v (List.dropLast_subset _ hv)).between_text_iff.1 (hout v hv)⟩

/-! ### What is read -/

/-- The list value of some exported variables. -/
def exportsText (vs : List ExportedVariable) : String :=
  Text.join ", " (vs.map ExportedVariable.text)

/-- Valid exported variables, under their names. -/
def ExportsValid (t : Table String ExportedVariable) : Prop :=
  t.Filed ExportedVariable.name ExportedVariable.Valid

instance : DecidablePred ExportsValid := fun t =>
  inferInstanceAs (Decidable (t.Filed ExportedVariable.name _))

theorem exportsValid_exportsOf {t : Table String ExportedVariable} (h : ExportsValid t)
    (value : String) : ExportsValid (exportsOf t value) := by
  refine Table.Filed.foldl_insert h fun v hv => ?_
  obtain ⟨e, -, he⟩ := List.mem_filterMap.1 hv
  exact ExportedVariable.valid_of_parse he

theorem entries_exportsText {vs : List ExportedVariable} (h : ∀ v ∈ vs, v.Valid)
    (hw : WritableValues vs) : Text.entries (exportsText vs) = vs.map ExportedVariable.text := by
  obtain ⟨hshielded, hout⟩ := (writableValues_iff h).1 hw
  refine Text.entries_join ?_ (List.forall_mem_map.2 hshielded) ?_
  · exact List.forall_mem_map.2 fun v hv => ⟨(h v hv).trimmed_text, (h v hv).text_ne_nil⟩
  · rw [← List.map_dropLast]
    exact List.forall_mem_map.2 hout

/-- Writable variables are read as they were written. -/
theorem exportsOf_exportsText {t : Table String ExportedVariable} (h : ExportsValid t)
    (hw : WritableValues t.values) : exportsOf .empty (exportsText t.values) = t := by
  have hparse : ∀ v ∈ t.values, (ExportedVariable.parse ∘ ExportedVariable.text) v = some v := by
    intro v hv
    rw [Function.comp_apply, (h.of_mem_values hv).parse_text]
  have hparsed : (t.values.map ExportedVariable.text).filterMap ExportedVariable.parse =
      t.values := by
    rw [List.filterMap_map, List.filterMap_congr hparse, List.filterMap_some]
  rw [exportsOf, entries_exportsText (fun v hv => h.of_mem_values hv) hw, hparsed]
  exact h.foldl_insert_values

/-- Every entry of writable variables can be read. -/
theorem parse_of_writable {t : Table String ExportedVariable} (h : ExportsValid t)
    (hw : WritableValues t.values) :
    ∀ e ∈ Text.entries (exportsText t.values), (ExportedVariable.parse e).isSome := by
  rw [entries_exportsText (fun v hv => h.of_mem_values hv) hw]
  refine List.forall_mem_map.2 fun v hv => ?_
  rw [(h.of_mem_values hv).parse_text]
  rfl

/-- The commas of the list value: those of the values, and one between two entries. -/
theorem count_exportsText {v : ExportedVariable} {vs : List ExportedVariable}
    (h : ∀ w ∈ v :: vs, w.Valid) :
    (exportsText (v :: vs)).toList.count ',' + 1 =
      ((v :: vs).map fun w => w.commas + 1).sum := by
  rw [exportsText, Text.toList_join]
  induction vs generalizing v with
  | nil => simp [(h v List.mem_cons_self).count_text]
  | cons w ws ih =>
    have hrest := ih fun x hx => h x (List.mem_cons_of_mem _ hx)
    have hv := (h v List.mem_cons_self).count_text
    have hjoin : [',', ' '].intercalate (((v :: w :: ws).map ExportedVariable.text).map
        String.toList) = v.text.toList ++ ',' :: ' ' ::
          [',', ' '].intercalate (((w :: ws).map ExportedVariable.text).map String.toList) := by
      simp
    have hsum : ((v :: w :: ws).map fun x => x.commas + 1).sum =
        v.commas + 1 + ((w :: ws).map fun x => x.commas + 1).sum := List.sum_cons
    rw [hjoin, List.count_append, List.count_cons_self, List.count_cons_of_ne (by decide), hsum,
      ← hrest]
    omega

/-- If every variable is read from some entry of the list value, each piece of the list value is
    read as one of them, and has the commas of its value. -/
theorem exists_of_mem_pieces {v : ExportedVariable} {vs : List ExportedVariable}
    (hvalid : ∀ w ∈ v :: vs, w.Valid) (hnodup : ((v :: vs).map ExportedVariable.name).Nodup)
    (hread : ∀ w ∈ v :: vs, ∃ e ∈ Text.entries (exportsText (v :: vs)),
      ExportedVariable.parse e = some w) {p : List Char}
    (hp : p ∈ Chars.pieces false (exportsText (v :: vs)).toList) :
    ∃ w ∈ v :: vs, ExportedVariable.parse (.ofList (Chars.trim p)) = some w ∧
      (Chars.trim p).count ',' = w.commas := by
  -- The commas of the list value are counted twice: by pieces and by variables.
  let weight : List Char → Nat := fun p => p.count ',' + 1
  let trimmed := (Chars.pieces false (exportsText (v :: vs)).toList).map Chars.trim
  have htrimmed : (trimmed.map weight).sum = ((v :: vs).map fun w => w.commas + 1).sum := by
    rw [← count_exportsText hvalid, ← Chars.sum_commas_pieces, List.map_map]
    refine congrArg List.sum (List.map_congr_left fun q _ => ?_)
    exact congrArg (· + 1) (Chars.count_trim (by decide) q)
  -- Every variable has an entry of its own among the pieces, with at least its commas.
  choose! entry hentry hparse using hread
  have hcommas : ∀ w ∈ v :: vs, w.commas + 1 ≤ weight (entry w).toList := fun w hw =>
    Nat.succ_le_succ (ExportedVariable.commas_le (hparse w hw))
  have hsub : ((v :: vs).map fun w => (entry w).toList).Subperm trimmed := by
    refine List.subperm_of_subset
      ((List.Nodup.of_map _ hnodup).map_on fun w hw w' hw' heq => ?_) ?_
    · have hsame := hparse w hw
      rw [String.toList_inj.1 heq, hparse w' hw'] at hsame
      exact (Option.some.inj hsame).symm
    · refine List.forall_mem_map.2 fun w hw => ?_
      obtain ⟨e, he, heq⟩ := List.mem_map.1 (hentry w hw)
      rw [← heq, String.toList_ofList]
      exact (List.mem_filter.1 he).1
  have hmap : ((v :: vs).map fun w => (entry w).toList).map weight =
      (v :: vs).map fun w => weight (entry w).toList := List.map_map
  -- The sums leave room neither for further pieces nor for further commas.
  have hperm := perm_of_sum_le hsub (fun _ _ => Nat.succ_pos _) <| by
    rw [htrimmed, hmap]
    exact List.sum_le_sum hcommas
  obtain ⟨w, hw, heq⟩ := List.mem_map.1 (hperm.mem_iff.2 (List.mem_map_of_mem hp))
  refine ⟨w, hw, ?_, ?_⟩
  · rw [← heq, String.ofList_toList]
    exact hparse w hw
  · have hsum : (((v :: vs).map fun w => weight (entry w).toList).sum ≤
        ((v :: vs).map fun w => w.commas + 1).sum) := by
      rw [← htrimmed, ← hmap]
      exact ((hperm.map weight).sum_nat).le
    rw [← heq]
    exact (Nat.succ.inj (eq_of_sum_le hcommas hsum w hw)).symm

/-- A piece that begins like an entry with a value is read as the same variable, up to the value. -/
theorem ExportedVariable.Valid.name_of_piece {v w : ExportedVariable} (h : v.Valid) {m : List Char}
    (hparse : ExportedVariable.parse
      (.ofList (Chars.trim (v.declaration ++ [' ', '='] ++ m))) = some w) : w.name = v.name := by
  have htrim : Chars.trim (v.declaration ++ [' ', '='] ++ m) =
      v.declaration ++ ' ' :: '=' :: Chars.trimEnd m := by
    have hlast := Chars.last_append (t := ['=']) (by rintro _ ⟨⟩; rfl) (by simp)
      (v.declaration ++ [' '])
    rw [Chars.trim_append ⟨?_, ?_⟩ (by simp)]
    · simp
    · exact Chars.head_append h.trimmed_declaration.head h.declaration_ne_nil _
    · simpa using hlast
  exact h.name_of_parse (by rw [String.toList_ofList, Chars.trim_trim, htrim]) hparse

/-- Values that are all read again are writable. -/
theorem writableValues_of_read {vs : List ExportedVariable} (hvalid : ∀ v ∈ vs, v.Valid)
    (hnodup : (vs.map ExportedVariable.name).Nodup)
    (hread : ∀ v ∈ vs, ∃ e ∈ Text.entries (exportsText vs), ExportedVariable.parse e = some v) :
    WritableValues vs := by
  rw [writableValues_iff hvalid]
  cases vs with
  | nil => exact ⟨fun v hv => (nomatch hv), fun v hv => nomatch hv⟩
  | cons v vs =>
    let texts := (v :: vs).map fun w => w.text.toList
    have hjoin : (exportsText (v :: vs)).toList = [',', ' '].intercalate texts := by
      rw [exportsText, Text.toList_join, List.map_map]
      rfl
    -- What is known of a piece, and of a text with the piece that begins like it.
    let Known : List Char → Prop := fun p => ∃ w ∈ v :: vs,
      ExportedVariable.parse (.ofList (Chars.trim p)) = some w ∧ p.count ',' = w.commas
    have hpieces : ∀ p ∈ Chars.pieces false ([',', ' '].intercalate texts),
        Known (Chars.trimStart p) := by
      intro p hp
      rw [← hjoin] at hp
      obtain ⟨w, hw, hparse, hcount⟩ := exists_of_mem_pieces hvalid hnodup hread hp
      refine ⟨w, hw, by rw [Chars.trim_trimStart, hparse], ?_⟩
      rw [← Chars.count_trim (by decide), Chars.trim_trimStart, hcount]
    have htexts : ∀ u ∈ texts, ',' ∉ u ∧ '"' ∉ u ∨
        ∃ c a, Chars.isBlank c = false ∧ ',' ∉ c :: a ∧ c :: a <+: u ∧
          ∀ p, Known p → c :: a <+: p → p.count ',' = u.count ',' := by
      refine List.forall_mem_map.2 fun w hw => ?_
      have h := hvalid w hw
      have hcomma := h.not_mem_declaration (c := ',') (by decide) (by decide)
      cases hvalue : w.value with
      | none =>
        left
        rw [ExportedVariable.toList_text, ExportedVariable.setting, hvalue, List.append_nil]
        exact ⟨hcomma, h.not_mem_declaration (by decide) (by decide)⟩
      | some value =>
        right
        obtain ⟨c, a, hca⟩ := List.exists_cons_of_ne_nil h.declaration_ne_nil
        have hbegin : c :: (a ++ [' ', '=']) = w.declaration ++ [' ', '='] := by rw [hca]; rfl
        refine ⟨c, a ++ [' ', '='], h.trimmed_declaration.head c (by rw [hca]; rfl), ?_, ?_, ?_⟩
        · rw [hbegin, List.mem_append, not_or]
          exact ⟨hcomma, by decide⟩
        · rw [hbegin, ExportedVariable.toList_text, ExportedVariable.setting, hvalue]
          exact (List.prefix_append_right_inj _).2 ⟨' ' :: Chars.quoted value.toList, rfl⟩
        · rintro p ⟨w', hw', hparse, hcount⟩ ⟨m, rfl⟩
          -- The piece is read as the same variable, since it has the same name.
          rw [hbegin] at hparse
          rw [hcount, List.inj_on_of_nodup_map hnodup hw' hw (h.name_of_piece hparse), h.count_text]
    obtain ⟨hshielded, hout⟩ := Chars.shielded_of_pieces hpieces htexts
    refine ⟨List.forall_mem_map.1 hshielded, ?_⟩
    have hout : ∀ u ∈ ((v :: vs).map fun w => w.text.toList).dropLast,
        Chars.between false u = false := hout
    rw [← List.map_dropLast] at hout
    exact List.forall_mem_map.1 hout

/-- Exported variables are read as the same variables exactly if their values are writable. -/
theorem same_exportsOf_iff {t : Table String ExportedVariable} (h : ExportsValid t) :
    t.same (· == ·) (exportsOf .empty (exportsText t.values)) = true ↔ WritableValues t.values := by
  constructor
  · intro hsame
    refine writableValues_of_read (fun v hv => h.of_mem_values hv) h.nodup_map_key fun v hv => ?_
    obtain ⟨name, hname⟩ := Table.mem_values_iff.1 hv
    obtain ⟨w, hw, heq⟩ := Table.get?_of_same hsame hname
    obtain rfl : v = w := by simpa using heq
    -- What is read under the name comes from an entry.
    have hfiled : (exportsOf .empty (exportsText t.values)).Filed ExportedVariable.name fun v =>
        ∃ e ∈ Text.entries (exportsText t.values), ExportedVariable.parse e = some v :=
      Table.filed_empty.foldl_insert fun v hv => List.mem_filterMap.1 hv
    exact (hfiled name v hw).2
  · intro hw
    rw [exportsOf_exportsText h hw]
    exact Table.same_refl (fun v => beq_self_eq_true v) t

end Deployment
