import Deployment.Proofs.Write.Lists

/-!
# Normal forms

The same entries may be written in many ways: with blanks around them, with empty entries among
them, with a quote that is never closed. The same variable may be, too: with any blanks around its
marks, with a value in quotes or without. What was read from any of these texts has one written
form, and is read from it as it was.

* `AreEntries`: the lists that can be read off a list value. Trimming an entry and dropping an empty
  one carry no comma into or out of quotes, so that every list value has such entries
  (`areEntries_entries`);
* `entries_join_eq_self_iff`: these are the lists that are read again as they were written;
* `ExportedVariable.parse_text_iff`, `ImportedVariable.parse_text_iff`: the variables that are read
  from their own texts. Those that can be read at all are among them (`parse_text_of_parse`).
-/

namespace Deployment

/-! ### List values -/

namespace Text

/-- Entries as a list value has them: without blanks at their ends, not empty, with all their commas
    between quotes, and with an even number of quotes, but for the last one. -/
structure AreEntries (ts : List String) : Prop where
  trimmed : ∀ t ∈ ts, Chars.Trimmed t.toList
  ne_nil : ∀ t ∈ ts, t.toList ≠ []
  shielded : ∀ t ∈ ts, Chars.Shielded false t.toList
  closed : ∀ t ∈ ts.dropLast, Chars.between false t.toList = false

/-- Whatever a list value is, its entries are as they should be. -/
theorem areEntries_entries (value : String) : AreEntries (entries value) := by
  have hentry : ∀ t ∈ entries value, ∃ p ∈ Chars.pieces false value.toList,
      t.toList = Chars.trim p ∧ t.toList ≠ [] := by
    refine List.forall_mem_map.2 fun e he => ?_
    obtain ⟨p, hp, rfl, hne⟩ := Chars.exists_of_mem_entries he
    rw [String.toList_ofList]
    exact ⟨p, hp, rfl, hne⟩
  refine ⟨fun t ht => ?_, fun t ht => ?_, fun t ht => ?_, ?_⟩
  · obtain ⟨p, -, htrim, -⟩ := hentry t ht
    rw [htrim]
    exact Chars.trimmed_trim p
  · obtain ⟨-, -, -, hne⟩ := hentry t ht
    exact hne
  · obtain ⟨p, hp, htrim, -⟩ := hentry t ht
    rw [htrim]
    exact Chars.shielded_trim (Chars.shielded_of_mem_pieces hp)
  · rw [← Chars.pairwise_iff_dropLast, entries, List.pairwise_map]
    refine (Chars.pairwise_entries value.toList).imp fun {e _} he => ?_
    rwa [String.toList_ofList]

theorem AreEntries.entries_join {ts : List String} (h : AreEntries ts) :
    entries (join ", " ts) = ts :=
  Text.entries_join (fun t ht => ⟨h.trimmed t ht, h.ne_nil t ht⟩) h.shielded h.closed

/-- The entries of a list value, joined by commas, are a list value with the same entries; and the
    lists that are read again as they were written are just those that are read off a list value. -/
theorem entries_join_eq_self_iff :
    (∀ value, entries (join ", " (entries value)) = entries value) ∧
      ∀ ts, (entries (join ", " ts) = ts ↔ AreEntries ts) ∧
        (AreEntries ts ↔ ∃ value, entries value = ts) := by
  have hself : ∀ value, entries (join ", " (entries value)) = entries value := fun value =>
    (areEntries_entries value).entries_join
  refine ⟨hself, fun ts => ⟨⟨fun h => ?_, AreEntries.entries_join⟩, fun h => ?_, ?_⟩⟩
  · rw [← h]
    exact areEntries_entries _
  · exact ⟨_, h.entries_join⟩
  · rintro ⟨value, rfl⟩
    exact areEntries_entries value

/-- A quote that is never closed keeps the commas behind it; blanks and empty entries go. -/
example : entries " a ,, b = \"x, y\" z, \"c, d " = ["a", "b = \"x, y\" z", "\"c, d"] := by
  decide +kernel

end Text

/-! ### Variables -/

/-- An exported variable is read from its own text exactly if it is valid. -/
theorem ExportedVariable.parse_text_iff {v : ExportedVariable} : parse v.text = some v ↔ v.Valid :=
  ⟨valid_of_parse, Valid.parse_text⟩

/-- An imported variable is read from its own text exactly if its name is qualified. -/
theorem ImportedVariable.parse_text_iff {v : ImportedVariable} :
    parse v.text = some v ↔ isQualified v.name :=
  ⟨isQualified_of_parse, parse_text⟩

/-- A variable that was read from an entry, whatever the entry looks like, is read from its own text
    as well; and so are all variables that are valid, or have a qualified name. -/
theorem parse_text_of_parse :
    (∀ entry v, ExportedVariable.parse entry = some v → ExportedVariable.parse v.text = some v) ∧
      (∀ v, ExportedVariable.parse v.text = some v ↔ v.Valid) ∧
      (∀ entry v, ImportedVariable.parse entry = some v → ImportedVariable.parse v.text = some v) ∧
      ∀ v, ImportedVariable.parse v.text = some v ↔ ImportedVariable.isQualified v.name := by
  refine ⟨fun entry v h => ?_, fun _ => ExportedVariable.parse_text_iff, fun entry v h => ?_,
    fun _ => ImportedVariable.parse_text_iff⟩
  · exact ExportedVariable.parse_text_iff.2 (ExportedVariable.valid_of_parse h)
  · exact ImportedVariable.parse_text_iff.2 (ImportedVariable.isQualified_of_parse h)

/-- A variable whose value has quotes, a comma and an equals sign. -/
def greeting : ExportedVariable := ⟨"greeting", some " say \"hi\", then = bye ", none⟩

/-- A variable with a generator and a name that begins like one. -/
def randomized : ExportedVariable := ⟨"random-port", none, some .port⟩

/-- An imported variable whose name reads like the words around it. -/
def borrowed : ImportedVariable := ⟨"external.optional", true, true⟩

/-- Entries with unusual blanks, quotes and words are read, and what was read is read again. -/
theorem parse_text_of_parse_worded :
    ExportedVariable.parse "greeting=\" say \"hi\", then = bye \"  " = some greeting ∧
      ExportedVariable.parse greeting.text = some greeting ∧
      ExportedVariable.parse " random[ PORT ]random-port" = some randomized ∧
      ExportedVariable.parse randomized.text = some randomized ∧
      ImportedVariable.parse "external  external.optional optional" = some borrowed ∧
      ImportedVariable.parse borrowed.text = some borrowed := by
  obtain ⟨hexported, -, himported, -⟩ := parse_text_of_parse
  have hgreeting : ExportedVariable.parse "greeting=\" say \"hi\", then = bye \"  " =
      some greeting := by decide +kernel
  have hrandomized : ExportedVariable.parse " random[ PORT ]random-port" = some randomized := by
    decide +kernel
  have hborrowed : ImportedVariable.parse "external  external.optional optional" =
      some borrowed := by decide +kernel
  exact ⟨hgreeting, hexported _ _ hgreeting, hrandomized, hexported _ _ hrandomized, hborrowed,
    himported _ _ hborrowed⟩

end Deployment
