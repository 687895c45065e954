import Deployment.Variable
import Deployment.Proofs.Name

/-!
# Written variables

A variable that was read can be written and read again, and is the same then. Its name is a plain
text, in which no reader finds a mark.

* `ImportedVariable.parse_text`, `ExportedVariable.parse_text`: reading undoes writing;
* `ExportedVariable.commas_le`: an entry has all the commas of the value that it sets;
* `ExportedVariable.name_of_parse`: an entry that begins like one that sets a value is of the same
  variable.
-/

namespace Deployment

namespace ImportedVariable

theorem plainText_of_isQualified {name : String} (h : isQualified name) :
    PlainText name.toList ∧ '.' ∈ name.toList := by
  unfold isQualified Text.cut at h
  cases hcut : Chars.cut '.' name.toList with
  | none =>
    rw [hcut] at h
    exact nomatch h
  | some parts =>
    obtain ⟨l, r⟩ := parts
    rw [hcut] at h
    simp only [Option.map_some, Bool.and_eq_true, Bool.or_eq_true, beq_iff_eq] at h
    obtain ⟨howner, hkey⟩ := h
    have howner := plainText_of_isTypeName howner
    rw [String.toList_ofList] at howner
    have hkey : ∀ c ∈ r, isPlainChar c := by
      rcases hkey with hstar | hname
      · have hr : r = ['*'] := by simpa using congrArg String.toList hstar
        rw [hr]
        simp [isPlainChar]
      · simpa using (plainText_of_isVariableName hname).chars
    rw [Chars.eq_append_of_cut hcut]
    refine ⟨⟨by simp, fun c hc => ?_⟩, by simp⟩
    rcases List.mem_append.1 hc with hc | hc
    · exact howner.chars c hc
    · rcases List.mem_cons.1 hc with rfl | hc
      · decide
      · exact hkey c hc

theorem isQualified_of_parse {entry : String} {v : ImportedVariable} (h : parse entry = some v) :
    isQualified v.name := by
  rw [parse] at h
  dsimp only at h
  rw [Option.ite_none_right_eq_some, Option.some.injEq] at h
  obtain ⟨hqualified, hv⟩ := h
  rw [← hv]
  exact hqualified

/-- What is written after the name. -/
def tail (v : ImportedVariable) : List Char := if v.optional then " (optional)".toList else []

theorem toList_text (v : ImportedVariable) :
    v.text.toList =
      (if v.external then "external ".toList else []) ++ (v.name.toList ++ v.tail) := by
  rw [text, String.toList_append, String.toList_append, tail]
  cases v.external <;> cases v.optional <;> simp

variable {v : ImportedVariable}

theorem trimmed_text (h : isQualified v.name) : Chars.Trimmed v.text.toList := by
  obtain ⟨hplain, -⟩ := plainText_of_isQualified h
  have hname : Chars.Trimmed (v.name.toList ++ v.tail) := by
    refine ⟨Chars.head_append hplain.head hplain.ne_nil _, ?_⟩
    rw [tail]
    split
    · exact Chars.last_append (by rintro _ ⟨⟩; rfl) (by simp) _
    · rw [List.append_nil]
      exact hplain.last
  rw [toList_text]
  split
  · exact ⟨Chars.head_append (by rintro _ ⟨⟩; rfl) (by simp) _,
      Chars.last_append hname.last (List.append_ne_nil_of_left_ne_nil hplain.ne_nil _) _⟩
  · exact hname

/-- The word `external` is found exactly where it was written: a qualified name has a point and no
    blank. -/
theorem cutExternal_text (h : isQualified v.name) :
    cutExternal v.text.toList = (v.name.toList ++ v.tail, v.external) := by
  obtain ⟨hplain, hpoint⟩ := plainText_of_isQualified h
  have hstart : Chars.trimStart (v.name.toList ++ v.tail) = v.name.toList ++ v.tail :=
    Chars.trimStart_of_head (Chars.head_append hplain.head hplain.ne_nil _)
  rw [toList_text, cutExternal]
  cases v.external with
  | true =>
    have hafter : Chars.after? "external".toList
        ((if true = true then "external ".toList else []) ++ (v.name.toList ++ v.tail)) =
          some (' ' :: (v.name.toList ++ v.tail)) :=
      Chars.after?_eq_some_iff.2 (by simp)
    rw [hafter]
    dsimp only
    rw [if_pos (by decide), hstart]
  | false =>
    have hnone : ∀ c r, Chars.after? "external".toList (v.name.toList ++ v.tail) = some (c :: r) →
        Chars.isBlank c = false := by
      intro c r hafter
      have hword : '.' ∉ "external".toList := by decide
      rcases List.append_eq_append_iff.1 (Chars.after?_eq_some_iff.1 hafter) with
        ⟨m, hshort, -⟩ | ⟨m, hname, hm⟩
      · rw [hshort] at hword
        exact absurd (List.mem_append_left _ hpoint) hword
      · cases m with
        | nil =>
          rw [hname, List.append_nil] at hpoint
          exact absurd hpoint hword
        | cons d m =>
          -- The word is followed by a character of the name.
          obtain ⟨rfl, -⟩ := List.cons.inj hm
          refine isBlank_of_isPlainChar (hplain.chars c ?_)
          rw [hname]
          exact List.mem_append_right _ List.mem_cons_self
    rw [if_neg Bool.false_ne_true, List.nil_append]
    split
    · next c r hafter => rw [hnone c r hafter, if_neg Bool.false_ne_true]
    · rfl

/-- The word `optional` is found exactly where it was written. -/
theorem cutOptional_text (h : isQualified v.name) :
    cutOptional (v.name.toList ++ v.tail) = (v.name.toList, v.optional) := by
  obtain ⟨hplain, -⟩ := plainText_of_isQualified h
  rw [cutOptional, tail]
  cases v.optional with
  | true =>
    have hbefore : Chars.before? "(optional)".toList
        (v.name.toList ++ if true = true then " (optional)".toList else []) =
          some (v.name.toList ++ [' ']) :=
      Chars.before?_eq_some_iff.2 (by simp)
    -- The blank before the bracket is no part of the name.
    have hend : Chars.trimEnd (v.name.toList ++ [' ']) = v.name.toList := by
      have htrim := Chars.trim_append_of_isBlank (c := ' ') (by decide) hplain.trimmed
      rwa [Chars.trim,
        Chars.trimStart_of_head (Chars.head_append hplain.head hplain.ne_nil _)] at htrim
    rw [hbefore]
    dsimp only
    rw [hend]
  | false =>
    rw [if_neg Bool.false_ne_true, List.append_nil]
    have hbracket : Chars.before? "(optional)".toList v.name.toList = none := by
      refine Option.eq_none_iff_forall_ne_some.2 fun r hr => ?_
      refine hplain.not_mem (c := '(') (by decide) ?_
      rw [Chars.before?_eq_some_iff.1 hr]
      exact List.mem_append_right _ (by decide)
    rw [hbracket]
    dsimp only
    split
    · next r hr =>
      -- A name may end like the word, but has no blank before it.
      have hlast : ¬r.getLast?.any Chars.isBlank = true := by
        rw [Option.any_eq_true]
        rintro ⟨c, hc, hblank⟩
        refine hplain.not_mem (c := c) ?_ ?_
        · exact Bool.eq_false_iff.2 fun hc => by
            rw [isBlank_of_isPlainChar hc] at hblank
            exact Bool.false_ne_true hblank
        · rw [Chars.before?_eq_some_iff.1 hr]
          exact List.mem_append_left _ (List.mem_of_getLast? hc)
      rw [if_neg hlast]
    · rfl

/-- A qualified import that is written is read as it was. -/
theorem parse_text (h : isQualified v.name) : parse v.text = some v := by
  rw [parse, Chars.trim_of_trimmed (trimmed_text h), cutExternal_text h]
  dsimp only
  rw [cutOptional_text h, String.ofList_toList, if_pos h]

end ImportedVariable

namespace ExportedVariable

/-- A variable as it may be read: its name is valid, and it has not both a generator and a
    value. -/
structure Valid (v : ExportedVariable) : Prop where
  name : isVariableName v.name
  exclusive : ¬(v.random.isSome ∧ v.value.isSome)

instance : DecidablePred Valid := fun v =>
  decidable_of_iff (isVariableName v.name ∧ ¬(v.random.isSome ∧ v.value.isSome))
    ⟨fun ⟨hname, hexclusive⟩ => ⟨hname, hexclusive⟩, fun h => ⟨h.name, h.exclusive⟩⟩

/-- What is written before the value. -/
def declaration (v : ExportedVariable) : List Char :=
  (if v.random.isSome then "random[port] ".toList else []) ++ v.name.toList

/-- What is written of the value. -/
def setting (v : ExportedVariable) : List Char :=
  match v.value with
  | some value => " = ".toList ++ Chars.quoted value.toList
  | none => []

theorem toList_text (v : ExportedVariable) : v.text.toList = v.declaration ++ v.setting := by
  rw [text, String.toList_append, String.toList_append, declaration, setting]
  cases v.value with
  | none =>
    cases v.random with
    | none => simp
    | some kind => cases kind; rfl
  | some value =>
    cases v.random with
    | none => simp [Text.quoted]
    | some kind => cases kind; simp [Text.quoted, RandomKind.name]

variable {v : ExportedVariable} {entry : String}

/-! ### What is read -/

/-- The text of an entry up to its first equals sign, and the value after it. -/
def parts (entry : String) : String × Option String :=
  match Text.cut '=' (Text.trim entry) with
  | some (left, right) => (Text.trim left, some (Text.unquote right))
  | none => (Text.trim entry, none)

/-- An entry is read as a declaration and perhaps a value. -/
theorem parse_eq_some_iff :
    parse entry = some v ↔
      parseDeclaration (parts entry).1 = some (v.random, v.name) ∧ v.value = (parts entry).2 ∧
        v.Valid := by
  have hparse : parse entry = (parseDeclaration (parts entry).1).bind fun d =>
      if isVariableName d.2 && !(d.1.isSome && (parts entry).2.isSome) then
        some ⟨d.2, (parts entry).2, d.1⟩
      else none := by
    rw [parse, parts]
    cases Text.cut '=' (Text.trim entry) <;> rfl
  rw [hparse, Option.bind_eq_some_iff]
  -- How the entry falls into parts does not matter any more.
  obtain ⟨declaration, value⟩ := parts entry
  constructor
  · rintro ⟨⟨random, name⟩, hdeclaration, hv⟩
    dsimp only at hv
    split at hv
    · next hvalid =>
      cases hv
      rw [Bool.and_eq_true, Bool.not_eq_true', Bool.and_eq_false_iff] at hvalid
      refine ⟨hdeclaration, rfl, hvalid.1, ?_⟩
      rcases hvalid.2 with hrandom | hvalue
      · exact fun h => by rw [h.1] at hrandom; exact Bool.false_ne_true hrandom.symm
      · exact fun h => by rw [h.2] at hvalue; exact Bool.false_ne_true hvalue.symm
    · cases hv
  · rintro ⟨hdeclaration, hvalue, hvalid⟩
    refine ⟨_, hdeclaration, ?_⟩
    have hexclusive := hvalid.exclusive
    rw [hvalue] at hexclusive
    have hcondition : (isVariableName v.name && !(v.random.isSome && value.isSome)) = true := by
      rw [hvalid.name, Bool.true_and, Bool.not_eq_true', ← Bool.not_eq_true, Bool.and_eq_true]
      exact hexclusive
    dsimp only
    rw [if_pos hcondition]
    dsimp only at hvalue
    rw [← hvalue]

theorem valid_of_parse (h : parse entry = some v) : v.Valid := (parse_eq_some_iff.1 h).2.2

/-- The number of commas in the value of a variable. -/
def commas (v : ExportedVariable) : Nat := ((v.value.map String.toList).getD []).count ','

/-- An entry has all the commas of the value that it sets. -/
theorem commas_le (h : parse entry = some v) : v.commas ≤ entry.toList.count ',' := by
  obtain ⟨-, hvalue, -⟩ := parse_eq_some_iff.1 h
  rw [commas, hvalue, parts, Text.cut, Text.trim, String.toList_ofList]
  cases hcut : Chars.cut '=' (Chars.trim entry.toList) with
  | none => simp
  | some sides =>
    obtain ⟨l, r⟩ := sides
    have hentry : (l ++ '=' :: r).count ',' = entry.toList.count ',' := by
      rw [← Chars.eq_append_of_cut hcut]
      exact Chars.count_trim (by decide) _
    have hunquote : (Chars.unquote r).count ',' ≤ r.count ',' :=
      Chars.count_unquote_le (by decide) r
    rw [List.count_append, List.count_cons_of_ne (by decide)] at hentry
    simp only [Option.map_some, Option.getD_some, Text.unquote, String.toList_ofList]
    omega

/-! ### What is written -/

theorem parseDeclaration_of_plainText {name : String} (h : PlainText name.toList) :
    parseDeclaration name = some (none, name) := by
  have hafter : Text.after? "random[" name = none := by
    rw [Text.after?, Option.map_eq_none_iff, Option.eq_none_iff_forall_ne_some]
    intro r hr
    refine h.not_mem (c := '[') (by decide) ?_
    rw [Chars.after?_eq_some_iff.1 hr]
    exact List.mem_append_left _ (by decide)
  rw [parseDeclaration, hafter]

namespace Valid

theorem plainText (h : v.Valid) : PlainText v.name.toList := plainText_of_isVariableName h.name

theorem not_mem_declaration (h : v.Valid) {c : Char} (hc : isPlainChar c = false)
    (hrandom : c ∉ "random[port] ".toList) : c ∉ v.declaration := by
  rw [declaration, List.mem_append, not_or]
  refine ⟨?_, h.plainText.not_mem hc⟩
  split
  · exact hrandom
  · exact List.not_mem_nil

theorem declaration_ne_nil (h : v.Valid) : v.declaration ≠ [] :=
  List.append_ne_nil_of_right_ne_nil _ h.plainText.ne_nil

theorem trimmed_declaration (h : v.Valid) : Chars.Trimmed v.declaration := by
  refine ⟨?_, Chars.last_append h.plainText.last h.plainText.ne_nil _⟩
  rw [declaration]
  split
  · exact Chars.head_append (by rintro _ ⟨⟩; rfl) (by simp) _
  · exact h.plainText.head

theorem trimmed_text (h : v.Valid) : Chars.Trimmed v.text.toList := by
  rw [toList_text, setting]
  refine ⟨Chars.head_append h.trimmed_declaration.head h.declaration_ne_nil _, ?_⟩
  cases v.value with
  | none =>
    dsimp only
    rw [List.append_nil]
    exact h.trimmed_declaration.last
  | some value =>
    dsimp only
    rw [← List.append_assoc]
    exact Chars.last_append (Chars.trimmed_quoted _).last (Chars.quoted_ne_nil _) _

/-- The declaration is read as the generator and the name. -/
theorem parseDeclaration (h : v.Valid) :
    ExportedVariable.parseDeclaration (.ofList v.declaration) = some (v.random, v.name) := by
  cases hrandom : v.random with
  | none =>
    have hdeclaration : v.declaration = v.name.toList := by rw [declaration, hrandom]; rfl
    rw [hdeclaration, String.ofList_toList]
    exact parseDeclaration_of_plainText h.plainText
  | some kind =>
    -- There is one generator only.
    cases kind
    have hdeclaration : v.declaration =
        "random[".toList ++ ("port".toList ++ ']' :: ' ' :: v.name.toList) := by
      rw [declaration, hrandom]
      rfl
    have hafter : Text.after? "random[" (.ofList v.declaration) =
        some (.ofList ("port".toList ++ ']' :: ' ' :: v.name.toList)) := by
      rw [Text.after?, String.toList_ofList (l := v.declaration),
        Chars.after?_eq_some_iff.2 hdeclaration]
      rfl
    have hcut : Text.cut ']' (.ofList ("port".toList ++ ']' :: ' ' :: v.name.toList)) =
        some (.ofList "port".toList, .ofList (' ' :: v.name.toList)) := by
      rw [Text.cut, String.toList_ofList, Chars.cut_append (by decide)]
      rfl
    have hname : Text.trim (.ofList (' ' :: v.name.toList)) = v.name := by
      rw [Text.trim, String.toList_ofList, Chars.trim_cons_of_isBlank (by decide),
        Chars.trim_of_trimmed h.plainText.trimmed, String.ofList_toList]
    have hkind : RandomKind.parse (.ofList "port".toList) = some .port := by decide
    rw [ExportedVariable.parseDeclaration, hafter]
    dsimp only
    rw [hcut, Option.bind_eq_bind, Option.bind_some]
    dsimp only
    rw [hkind, hname]
    rfl

/-- What follows a declaration and an equals sign is the value. -/
theorem parts_eq (h : v.Valid) {m : List Char}
    (hentry : Chars.trim entry.toList = v.declaration ++ ' ' :: '=' :: m) :
    parts entry = (.ofList v.declaration, some (.ofList (Chars.unquote m))) := by
  -- The first equals sign is the one after the declaration.
  have hmark : '=' ∉ v.declaration ++ [' '] := by
    rw [List.mem_append, not_or]
    exact ⟨h.not_mem_declaration (by decide) (by decide), by decide⟩
  have hcut : Text.cut '=' (Text.trim entry) =
      some (.ofList (v.declaration ++ [' ']), .ofList m) := by
    have hsides := Chars.cut_append hmark m
    rw [List.append_assoc, List.singleton_append, ← hentry] at hsides
    rw [Text.cut, Text.trim, String.toList_ofList, hsides]
    rfl
  have hleft : Text.trim (.ofList (v.declaration ++ [' '])) = .ofList v.declaration := by
    rw [Text.trim, String.toList_ofList,
      Chars.trim_append_of_isBlank (by decide) h.trimmed_declaration]
  rw [parts, hcut]
  dsimp only
  rw [hleft, Text.unquote, String.toList_ofList]

theorem parts_text (h : v.Valid) : parts v.text = (.ofList v.declaration, v.value) := by
  have htrim := Chars.trim_of_trimmed h.trimmed_text
  cases hvalue : v.value with
  | none =>
    have htext : v.text.toList = v.declaration := by
      rw [toList_text, setting, hvalue, List.append_nil]
    have hcut : Text.cut '=' (Text.trim v.text) = none := by
      rw [Text.cut, Text.trim, String.toList_ofList, htrim, htext,
        Chars.cut_of_not_mem (h.not_mem_declaration (by decide) (by decide))]
      rfl
    rw [parts, hcut, Text.trim, htrim, htext]
  | some value =>
    have htext : v.text.toList =
        v.declaration ++ ' ' :: '=' :: ' ' :: Chars.quoted value.toList := by
      rw [toList_text, setting, hvalue]
      rfl
    have hunquote : Chars.unquote (' ' :: Chars.quoted value.toList) = value.toList := by
      rw [← Chars.unquote_trim, Chars.trim_cons_of_isBlank (by decide), Chars.unquote_trim,
        Chars.unquote_quoted]
    rw [h.parts_eq (htrim.trans htext), hunquote, String.ofList_toList]

/-- An exported variable that is written is read as it was. -/
theorem parse_text (h : v.Valid) : parse v.text = some v := by
  rw [parse_eq_some_iff, h.parts_text]
  exact ⟨h.parseDeclaration, rfl, h⟩

/-- An entry that begins with a declaration and an equals sign is of the variable declared. -/
theorem name_of_parse (h : v.Valid) {w : ExportedVariable} {m : List Char}
    (hentry : Chars.trim entry.toList = v.declaration ++ ' ' :: '=' :: m)
    (hw : parse entry = some w) : w.name = v.name := by
  have hdeclaration := (parse_eq_some_iff.1 hw).1
  rw [h.parts_eq hentry, h.parseDeclaration] at hdeclaration
  exact (Prod.mk.inj (Option.some.inj hdeclaration)).2.symm

end Valid

end ExportedVariable

end Deployment
