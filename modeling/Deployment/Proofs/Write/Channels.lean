import Deployment.Proofs.Write.Lists
import Mathlib.Algebra.Order.BigOperators.Group.List
import Mathlib.Algebra.Order.Group.Nat

/-!
# Names written as they are

The channels of an instance are written as a list without quotes, whatever the names are. Of names
that were read off a list, at most the last has a quote without a partner, so that each of them is
read by itself when the list is read again. What then comes of a name is the name, or shorter: all
names are found again exactly if each is the only name of itself.

* `Text.pairwise_names`: the quotes of names that were read off a list;
* `Text.subset_flatMap_names_iff`: when all names of a list are found again;
* `NameSet.same_reread_iff`: the same for a set of names that is written and read.
-/

namespace Deployment

namespace Chars

theorem between_unquote (inside : Bool) (s : List Char) :
    between inside (unquote s) = between inside s := by
  have hcount : (unquote s).count '"' % 2 = s.count '"' % 2 := by
    rw [← count_trim (by decide) s]
    rcases unquote_eq_or s with h | h
    · rw [h]
    · rw [h, List.count_cons_self, List.count_append, List.count_singleton_self]
      omega
  rw [between, between, hcount]

/-- What comes of an entry of a text is shorter than the text, or the text is its only entry. -/
theorem entries_eq_or_length_lt {s e : List Char} (h : e ∈ entries s) :
    entries s = [s] ∧ unquote s = s ∨ (unquote e).length < s.length := by
  obtain ⟨p, hp, rfl, hne⟩ := exists_of_mem_entries h
  have hlength := (length_unquote_le (trim p)).trans (length_trim_le (trim p))
  rcases pieces_eq_or_length_lt hp with hwhole | hlt
  · rw [hwhole, List.mem_singleton] at hp
    rw [hp] at hlength hne ⊢
    by_cases hshort : (unquote s).length < s.length
    · right
      rwa [unquote_trim]
    · -- Nothing is taken off, so that the text is trimmed and not between quotes.
      have hunquote := unquote_eq_of_length (Nat.le_of_not_lt hshort)
      have htrim : trim s = s :=
        trim_eq_of_length ((Nat.le_of_not_lt hshort).trans (length_unquote_le s))
      rw [htrim] at hne
      left
      rw [entries, hwhole, List.map_singleton, htrim, List.filter_cons_of_pos (by simpa using hne)]
      exact ⟨rfl, hunquote⟩
  · right
    exact hlength.trans_lt ((length_trim_le p).trans_lt hlt)

end Chars

namespace Text

/-- Of the names in a list, only the last may leave the reader between two quotes. -/
theorem pairwise_names (value : String) :
    (names value).Pairwise fun n _ => Chars.between false n.toList = false := by
  rw [names, List.pairwise_map]
  refine (Chars.pairwise_entries value.toList).imp fun {e _} he => ?_
  rw [String.toList_ofList, Chars.between_unquote, he]

/-- A name of a list value is shorter than the value, unless this is its only name. -/
theorem names_eq_or_length_lt {n s : String} (h : n ∈ names s) :
    names s = [s] ∨ n.toList.length < s.toList.length := by
  obtain ⟨e, he, rfl⟩ := List.mem_map.1 h
  rw [String.toList_ofList]
  refine (Chars.entries_eq_or_length_lt he).imp_left ?_
  rintro ⟨hentries, hunquote⟩
  rw [names, hentries, List.map_singleton, hunquote, String.ofList_toList]

/-- The names of a list are all found again exactly if each is its own only name. -/
theorem subset_flatMap_names_iff {ns : List String} :
    ns ⊆ ns.flatMap names ↔ ∀ n ∈ ns, names n = [n] := by
  constructor
  · intro h
    -- A name that is not its own only name comes of a longer one: from the longest names down.
    obtain ⟨bound, hbound⟩ : ∃ bound, ∀ n ∈ ns, n.toList.length ≤ bound :=
      ⟨(ns.map fun n => n.toList.length).sum, fun n hn =>
        List.le_sum_of_mem (List.mem_map_of_mem hn)⟩
    have hdown : ∀ k, ∀ n ∈ ns, bound < n.toList.length + k → names n = [n] := by
      intro k
      induction k with
      | zero => exact fun n hn hlt => absurd (hbound n hn) (by omega)
      | succ k ih =>
        intro n hn hlt
        obtain ⟨m, hm, hname⟩ := List.mem_flatMap.1 (h hn)
        have hsingle : names m = [m] := by
          rcases names_eq_or_length_lt hname with hsingle | hlonger
          · exact hsingle
          · exact ih m hm (by omega)
        rw [hsingle, List.mem_singleton] at hname
        rw [hname, hsingle]
    exact fun n hn => hdown (bound + 1) n hn (by omega)
  · exact fun h n hn => List.mem_flatMap.2 ⟨n, hn, by rw [h n hn]; exact List.mem_singleton_self n⟩

/-- A text that is its own only name is not empty, and neither padded nor between quotes. -/
theorem unquote_of_single {n : String} (h : names n = [n]) : unquote n = n ∧ n ≠ "" := by
  have hmem : n ∈ names n := by
    rw [h]
    exact List.mem_singleton_self n
  constructor
  · obtain ⟨e, he, hunquote⟩ := List.mem_map.1 hmem
    rcases Chars.entries_eq_or_length_lt he with ⟨-, hself⟩ | hlt
    · rw [unquote, hself, String.ofList_toList]
    · rw [← String.toList_ofList (l := Chars.unquote e), hunquote] at hlt
      exact absurd hlt (Nat.lt_irrefl _)
  · rintro rfl
    exact List.not_mem_nil hmem

/-- A list of such texts is not empty as a value. -/
theorem unquote_join_ne_of_single {ns : List String} (hne : ns ≠ [])
    (h : ∀ n ∈ ns, names n = [n]) : unquote (join ", " ns) ≠ "" := by
  intro hempty
  obtain ⟨n, ns, rfl⟩ := List.exists_cons_of_ne_nil hne
  cases ns with
  | nil =>
    obtain ⟨hself, hnot⟩ := unquote_of_single (h n List.mem_cons_self)
    rw [join, List.map_singleton, List.intercalate_singleton, String.ofList_toList, hself] at hempty
    exact hnot hempty
  | cons m ns =>
    -- The comma stays when the list is read as one value.
    have hcount :=
      Chars.count_unquote (c := ',') (by decide) (by decide) (join ", " (n :: m :: ns)).toList
    have hnil : Chars.unquote (join ", " (n :: m :: ns)).toList = [] := by
      rw [← String.toList_ofList (l := Chars.unquote _)]
      exact congrArg String.toList hempty
    rw [hnil, toList_join, List.map_cons, List.map_cons, List.intercalate_cons_cons,
      List.count_append, List.count_append] at hcount
    have hcomma : [',', ' '].count ',' = 1 := rfl
    rw [hcomma, List.count_nil] at hcount
    omega

end Text

namespace NameSet

/-- A set gets names in their order, those that it has not. -/
theorem insertMany_sublist (s : NameSet) (names : List String) :
    (s.insertMany names).toList.Sublist (s.toList ++ names) := by
  induction names generalizing s with
  | nil => simp [insertMany]
  | cons name names ih =>
    have hinsert : (s.insert name).toList.Sublist (s.toList ++ [name]) := by
      rw [insert]
      split
      · exact List.sublist_append_left _ _
      · exact List.Sublist.refl _
    rw [insertMany, List.foldl_cons, ← List.singleton_append, ← List.append_assoc]
    exact (ih (s.insert name)).trans (hinsert.append_right names)

/-- The set that is read off the list that a set of names is written as. -/
def reread (s : NameSet) : NameSet := empty.insertMany (Text.names (Text.join ", " s.toList))

variable {s : NameSet}
  (hout : s.toList.Pairwise fun n _ => Chars.between false n.toList = false)

include hout

theorem reread_of_single (h : ∀ n ∈ s.toList, Text.names n = [n]) : s.reread = s := by
  rw [reread, Text.names_join_eq_flatMap hout, List.flatMap_congr h, List.flatMap_singleton',
    insertMany_toList]

/-- A set of names is read as the same set exactly if each name is its own only name. -/
theorem same_reread_iff : s.same s.reread = true ↔ ∀ n ∈ s.toList, Text.names n = [n] := by
  constructor
  · intro h
    rw [same, Bool.and_eq_true, List.all_eq_true] at h
    refine Text.subset_flatMap_names_iff.1 fun n hn => ?_
    have hmem := List.contains_iff_mem.1 (h.2 n hn)
    rw [reread, Text.names_join_eq_flatMap hout, mem_insertMany] at hmem
    exact hmem.resolve_left List.not_mem_nil
  · intro h
    rw [reread_of_single hout h]
    exact same_refl s

end NameSet

end Deployment
