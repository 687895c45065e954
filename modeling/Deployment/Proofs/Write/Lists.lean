import Deployment.Catalogue
import Deployment.Proofs.ListValue
import Deployment.Proofs.Table
import Deployment.Proofs.Variable

/-!
# Written lists

A written list is read entry by entry, as long as no quote opened by an entry is closed by a later
one (`entries_join_eq_flatMap`). Names and imports without commas and quotes are *inert*: they are
found again (`entries_join_of_inert`) and read as they were (`names_join`, `importsOf_join`).
-/

namespace Deployment

/-- An entry that readers of list values leave alone. -/
structure Inert (s : List Char) : Prop where
  trimmed : Chars.Trimmed s
  ne_nil : s ≠ []
  comma : ',' ∉ s
  quote : '"' ∉ s

theorem PlainText.inert {s : List Char} (h : PlainText s) : Inert s :=
  ⟨h.trimmed, h.ne_nil, h.not_mem (by decide), h.not_mem (by decide)⟩

theorem ImportedVariable.inert_text {v : ImportedVariable} (h : isQualified v.name) :
    Inert v.text.toList := by
  obtain ⟨hplain, -⟩ := plainText_of_isQualified h
  have hmark : ∀ c, isPlainChar c = false → c ∉ "external ".toList → c ∉ " (optional)".toList →
      c ∉ v.text.toList := by
    intro c hc hexternal hoptional
    rw [toList_text, tail, List.mem_append, List.mem_append, not_or, not_or]
    refine ⟨?_, hplain.not_mem hc, ?_⟩
    · split
      · exact hexternal
      · exact List.not_mem_nil
    · split
      · exact hoptional
      · exact List.not_mem_nil
  refine ⟨trimmed_text h, ?_, hmark ',' (by decide) (by decide) (by decide),
    hmark '"' (by decide) (by decide) (by decide)⟩
  rw [toList_text]
  exact List.append_ne_nil_of_right_ne_nil _ (List.append_ne_nil_of_left_ne_nil hplain.ne_nil _)

namespace Chars

/-- A value that begins with neither a blank nor a quote is not empty. -/
theorem unquote_ne_nil {c : Char} {s : List Char} (hblank : isBlank c = false) (hquote : c ≠ '"') :
    unquote (c :: s) ≠ [] := by
  have hc : ∀ d ∈ [c].head?, isBlank d = false := fun d hd => by cases hd; exact hblank
  have htrim : trim (c :: s) = c :: trimEnd s := trim_append ⟨hc, hc⟩ (List.cons_ne_nil c []) s
  rw [unquote_of_head]
  · rw [htrim]
    exact List.cons_ne_nil _ _
  · rw [htrim, List.head?_cons]
    simpa using hquote

end Chars

namespace Text

theorem toList_join (parts : List String) :
    (join ", " parts).toList = [',', ' '].intercalate (parts.map String.toList) := by
  rw [join, String.toList_ofList]
  rfl

theorem names_eq_map (s : String) : names s = (entries s).map unquote := by
  rw [names, entries, List.map_map]
  refine List.map_congr_left fun e _ => ?_
  rw [Function.comp_apply, unquote, String.toList_ofList]

section Join

variable {ts : List String} (hout : ts.Pairwise fun t _ => Chars.between false t.toList = false)

include hout

/-- Texts of which at most the last leaves the reader between two quotes are read one by one. -/
theorem entries_join_eq_flatMap : entries (join ", " ts) = ts.flatMap entries := by
  rw [entries, toList_join, Chars.entries_intercalate (List.pairwise_map.2 hout), List.flatMap_map,
    List.map_flatMap]
  rfl

theorem names_join_eq_flatMap : names (join ", " ts) = ts.flatMap names := by
  rw [names_eq_map, entries_join_eq_flatMap hout, List.map_flatMap]
  exact List.flatMap_congr fun t _ => (names_eq_map t).symm

end Join

/-- Texts that readers find between commas are the entries of the list value. -/
theorem entries_join {ts : List String}
    (htrimmed : ∀ t ∈ ts, Chars.Trimmed t.toList ∧ t.toList ≠ [])
    (hshielded : ∀ t ∈ ts, Chars.Shielded false t.toList)
    (hout : ∀ t ∈ ts.dropLast, Chars.between false t.toList = false) :
    entries (join ", " ts) = ts := by
  have hentries : ∀ t ∈ ts, entries t = [t] := by
    intro t ht
    rw [entries, Chars.entries_of_shielded (htrimmed t ht).1 (htrimmed t ht).2 (hshielded t ht),
      List.map_singleton, String.ofList_toList]
  rw [entries_join_eq_flatMap (Chars.pairwise_iff_dropLast.2 hout), List.flatMap_congr hentries,
    List.flatMap_singleton']

theorem entries_join_of_inert {ts : List String} (h : ∀ t ∈ ts, Inert t.toList) :
    entries (join ", " ts) = ts :=
  entries_join (fun t ht => ⟨(h t ht).trimmed, (h t ht).ne_nil⟩)
    (fun t ht => Chars.shielded_of_not_mem (h t ht).comma)
    fun t ht => Chars.between_of_not_mem (h t (List.dropLast_subset _ ht)).quote

/-- Names are read as they were written. -/
theorem names_join {ns : List String} (h : ∀ n ∈ ns, PlainText n.toList) :
    names (join ", " ns) = ns := by
  rw [names_eq_map, entries_join_of_inert fun n hn => (h n hn).inert]
  refine (List.map_congr_left fun n hn => ?_).trans (List.map_id _)
  have htrim := Chars.trim_of_trimmed (h n hn).trimmed
  rw [unquote, Chars.unquote_of_head, htrim, String.ofList_toList, id]
  rw [htrim]
  exact fun hhead => (h n hn).not_mem (by decide) (List.mem_of_mem_head? hhead)

/-- A list with entries that begin with no quote is a value. -/
theorem unquote_join_ne {ts : List String} (hne : ts ≠ [])
    (h : ∀ t ∈ ts, ∃ c s, t.toList = c :: s ∧ Chars.isBlank c = false ∧ c ≠ '"') :
    unquote (join ", " ts) ≠ "" := by
  obtain ⟨t, ts, rfl⟩ := List.exists_cons_of_ne_nil hne
  obtain ⟨c, s, ht, hblank, hquote⟩ := h t List.mem_cons_self
  obtain ⟨r, hr⟩ : ∃ r, (join ", " (t :: ts)).toList = c :: r := by
    rw [toList_join, List.map_cons, ht]
    cases ts with
    | nil => exact ⟨s, by rw [List.map_nil, List.intercalate_singleton]⟩
    | cons u ts => exact ⟨_, by rw [List.map_cons, List.intercalate_cons_cons]; rfl⟩
  rw [unquote, hr]
  intro hempty
  have hnil := congrArg String.toList hempty
  rw [String.toList_ofList] at hnil
  exact Chars.unquote_ne_nil hblank hquote hnil

end Text

theorem Inert.exists_cons {s : List Char} (h : Inert s) :
    ∃ c r, s = c :: r ∧ Chars.isBlank c = false ∧ c ≠ '"' := by
  obtain ⟨c, r, rfl⟩ := List.exists_cons_of_ne_nil h.ne_nil
  exact ⟨c, r, rfl, h.trimmed.head c rfl, fun e => h.quote (e ▸ List.mem_cons_self)⟩

/-- Valid imports, under their names. -/
def ImportsValid (t : Table String ImportedVariable) : Prop :=
  t.Filed ImportedVariable.name fun v => ImportedVariable.isQualified v.name

instance : DecidablePred ImportsValid := fun t =>
  inferInstanceAs (Decidable (t.Filed ImportedVariable.name _))

theorem importsValid_importsOf {t : Table String ImportedVariable} (h : ImportsValid t)
    (value : String) : ImportsValid (importsOf t value) := by
  refine Table.Filed.foldl_insert h fun v hv => ?_
  obtain ⟨e, -, he⟩ := List.mem_filterMap.1 hv
  exact ImportedVariable.isQualified_of_parse he

/-- Imports are read as they were written. -/
theorem importsOf_join {t : Table String ImportedVariable} (h : ImportsValid t) :
    importsOf .empty (Text.join ", " (t.values.map ImportedVariable.text)) = t := by
  have hentries : Text.entries (Text.join ", " (t.values.map ImportedVariable.text)) =
      t.values.map ImportedVariable.text :=
    Text.entries_join_of_inert <|
      List.forall_mem_map.2 fun v hv => ImportedVariable.inert_text (h.of_mem_values hv)
  have hparse : ∀ v ∈ t.values, (ImportedVariable.parse ∘ ImportedVariable.text) v = some v := by
    intro v hv
    rw [Function.comp_apply, ImportedVariable.parse_text (h.of_mem_values hv)]
  have hparsed : (t.values.map ImportedVariable.text).filterMap ImportedVariable.parse =
      t.values := by
    rw [List.filterMap_map, List.filterMap_congr hparse, List.filterMap_some]
  rw [importsOf, hentries, hparsed]
  exact h.foldl_insert_values

end Deployment
