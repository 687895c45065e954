import Deployment.Proofs.Chars
import Mathlib.Algebra.GroupWithZero.Nat
import Mathlib.Data.List.Basic

/-!
# List values

The entries of a list value are found between the commas outside quotes. A reader is thus in one
of two states, and a text put among the entries is read back as it is exactly if no comma of it
is met outside quotes and if it leaves the reader there.

* `between`: the state after a text;
* `Shielded`: no comma of the text separates;
* `pieces_induction`: a list value is one piece, or a piece, a comma and a list value;
* `entries_intercalate`: the entries of texts joined by commas are the entries of the texts, if all
  but the last leave the reader outside quotes;
* `entries_of_shielded`: a trimmed and shielded text is its own entry;
* `shielded_trim`, `pairwise_entries`: the entries of any list value are shielded, and all but the
  last leave the reader outside quotes;
* `shielded_of_pieces`: if each piece of a list value that begins like one of the texts has as
  many commas as this text, the texts are shielded.
-/

namespace Deployment.Chars

/-! ### Quotes and commas -/

/-- Whether a reader that starts between two quotes, or not, is between two quotes after a
    text. -/
def between (inside : Bool) (s : List Char) : Bool := inside ^^ s.count '"' % 2 == 1

/-- Every comma of the text is met between two quotes. -/
def Shielded (inside : Bool) (s : List Char) : Prop :=
  ∀ l r, s = l ++ ',' :: r → between inside l = true

variable {inside : Bool} {s t : List Char}

@[simp] theorem between_nil : between inside [] = inside := by simp [between]

@[simp] theorem between_cons (c : Char) (s : List Char) :
    between inside (c :: s) = between (if c = '"' then !inside else inside) s := by
  by_cases hc : c = '"'
  · rcases Nat.mod_two_eq_zero_or_one (s.count '"') with hs | hs
    · simp [between, hc, Nat.add_mod, hs]
    · simp [between, hc, Nat.add_mod, hs]
  · simp [between, hc]

theorem between_append (s t : List Char) :
    between inside (s ++ t) = between (between inside s) t := by
  induction s generalizing inside with
  | nil => simp
  | cons c s ih => rw [List.cons_append, between_cons, ih, between_cons]

theorem between_of_not_mem (h : '"' ∉ s) : between inside s = inside := by
  simp [between, List.count_eq_zero.2 h]

theorem shielded_of_not_mem (h : ',' ∉ s) : Shielded inside s := by
  rintro l r rfl
  exact absurd (List.mem_append_right _ List.mem_cons_self) h

theorem shielded_cons_iff {c : Char} :
    Shielded inside (c :: s) ↔
      (c = ',' → inside = true) ∧ Shielded (if c = '"' then !inside else inside) s := by
  constructor
  · intro h
    refine ⟨fun hc => ?_, fun l r hs => ?_⟩
    · simpa using h [] s (by rw [hc]; rfl)
    · rw [← between_cons]
      exact h (c :: l) r (by rw [hs]; rfl)
  · rintro ⟨hc, hs⟩ l r heq
    cases l with
    | nil =>
      obtain ⟨rfl, rfl⟩ := List.cons.inj heq
      simpa using hc rfl
    | cons d l =>
      obtain ⟨rfl, rfl⟩ := List.cons.inj heq
      rw [between_cons]
      exact hs l r rfl

theorem shielded_append_iff :
    Shielded inside (s ++ t) ↔ Shielded inside s ∧ Shielded (between inside s) t := by
  induction s generalizing inside with
  | nil => simp [shielded_of_not_mem]
  | cons c s ih =>
    rw [List.cons_append, shielded_cons_iff, ih, shielded_cons_iff, between_cons, and_assoc]

/-! ### Pieces -/

/-- The first piece is shielded. Either it is the whole text, or a comma outside quotes ends
    it. -/
theorem pieces_spec (inside : Bool) (s : List Char) :
    Shielded inside s ∧ pieces inside s = [s] ∨
      ∃ p r, s = p ++ ',' :: r ∧ Shielded inside p ∧ between inside p = false ∧
        pieces inside s = p :: pieces false r := by
  induction s generalizing inside with
  | nil => exact .inl ⟨shielded_of_not_mem List.not_mem_nil, rfl⟩
  | cons c s ih =>
    rw [pieces]
    split
    · next hsep =>
      obtain ⟨rfl, rfl⟩ := hsep
      exact .inr ⟨[], s, rfl, shielded_of_not_mem List.not_mem_nil, between_nil, rfl⟩
    · next hnot =>
      have hc : c = ',' → inside = true := fun hc => by simpa [hc] using hnot
      rcases ih (if c = '"' then !inside else inside) with
        ⟨hs, hpieces⟩ | ⟨p, r, rfl, hp, hout, hpieces⟩
      · exact .inl ⟨shielded_cons_iff.2 ⟨hc, hs⟩, by rw [hpieces]; rfl⟩
      · refine .inr ⟨c :: p, r, rfl, shielded_cons_iff.2 ⟨hc, hp⟩, ?_, by rw [hpieces]; rfl⟩
        rw [between_cons, hout]

/-- What holds of a list value that is one piece, and of one whose first piece is ended by a comma
    if it holds of what comes after it, holds of every list value. -/
@[elab_as_elim]
theorem pieces_induction {motive : List Char → Prop}
    (whole : ∀ s, Shielded false s → pieces false s = [s] → motive s)
    (cut : ∀ p r, Shielded false p → between false p = false →
      pieces false (p ++ ',' :: r) = p :: pieces false r → motive r → motive (p ++ ',' :: r))
    (s : List Char) : motive s := by
  induction hn : s.length using Nat.strong_induction_on generalizing s with
  | _ n ih =>
    rcases pieces_spec false s with ⟨hs, hpieces⟩ | ⟨p, r, rfl, hp, hout, hpieces⟩
    · exact whole s hs hpieces
    · have hlt : r.length < n := by
        rw [← hn, List.length_append, List.length_cons]
        omega
      exact cut p r hp hout hpieces (ih r.length hlt r rfl)

theorem pieces_eq_cons (inside : Bool) (s : List Char) : ∃ p ps, pieces inside s = p :: ps := by
  rcases pieces_spec inside s with ⟨-, hpieces⟩ | ⟨p, r, -, -, -, hpieces⟩
  · exact ⟨_, _, hpieces⟩
  · exact ⟨_, _, hpieces⟩

/-- A shielded text is one piece. -/
theorem pieces_of_shielded (h : Shielded inside s) : pieces inside s = [s] := by
  rcases pieces_spec inside s with ⟨-, hpieces⟩ | ⟨p, r, hs, -, hout, -⟩
  · exact hpieces
  · rw [h p r hs] at hout
    exact nomatch hout

/-- A comma separates wherever the reader is outside quotes. -/
theorem pieces_append (hout : between inside t = false) (s : List Char) :
    pieces inside (t ++ ',' :: s) = pieces inside t ++ pieces false s := by
  induction t generalizing inside with
  | nil =>
    rw [between_nil] at hout
    rw [hout]
    rfl
  | cons c t ih =>
    rw [between_cons] at hout
    rw [List.cons_append, pieces, pieces]
    split
    · next hsep =>
      obtain ⟨rfl, rfl⟩ := hsep
      have hrest : pieces false (t ++ ',' :: s) = pieces false t ++ pieces false s := ih hout
      rw [hrest]
      rfl
    · rw [ih hout]
      obtain ⟨p, ps, hp⟩ := pieces_eq_cons (if c = '"' then !inside else inside) t
      rw [hp]
      rfl

/-- A shielded text that leaves the reader outside quotes is the first piece before a comma. -/
theorem pieces_append_comma (h : Shielded inside t) (hout : between inside t = false)
    (s : List Char) : pieces inside (t ++ ',' :: s) = t :: pieces false s := by
  rw [pieces_append hout, pieces_of_shielded h]
  rfl

/-- What has no comma at the beginning of a text belongs to the first piece. -/
theorem prefix_of_pieces {a p : List Char} {ps : List (List Char)} (h : pieces inside s = p :: ps)
    (ha : a <+: s) (hcomma : ',' ∉ a) : a <+: p := by
  rcases pieces_spec inside s with ⟨-, hpieces⟩ | ⟨q, r, rfl, -, -, hpieces⟩
  · rw [hpieces] at h
    obtain ⟨rfl, rfl⟩ := List.cons.inj h
    exact ha
  · rw [hpieces] at h
    obtain ⟨rfl, rfl⟩ := List.cons.inj h
    rcases List.prefix_or_prefix_of_prefix ha (List.prefix_append q (',' :: r)) with hq | ⟨m, rfl⟩
    · exact hq
    · rw [List.prefix_append_right_inj] at ha
      cases m with
      | nil => simp
      | cons c m =>
        rw [(List.cons_prefix_cons.1 ha).1] at hcomma
        exact absurd (List.mem_append_right _ List.mem_cons_self) hcomma

/-- If the first piece has as many commas as the text, the text is shielded. -/
theorem shielded_of_pieces_eq {p : List Char} {ps : List (List Char)}
    (h : pieces inside t = p :: ps) (hcount : p.count ',' = t.count ',') : Shielded inside t := by
  rcases pieces_spec inside t with ⟨hshielded, -⟩ | ⟨q, r, rfl, -, -, hpieces⟩
  · exact hshielded
  · rw [hpieces] at h
    obtain ⟨rfl, rfl⟩ := List.cons.inj h
    rw [List.count_append, List.count_cons_self] at hcount
    omega

/-- If the first piece has as many commas as what precedes some comma, it is just that. -/
theorem shielded_of_pieces_append_eq {p : List Char} {ps : List (List Char)}
    (h : pieces inside (t ++ ',' :: s) = p :: ps) (hcount : p.count ',' = t.count ',') :
    Shielded inside t ∧ between inside t = false ∧ ps = pieces false s := by
  rcases pieces_spec inside (t ++ ',' :: s) with ⟨-, hpieces⟩ | ⟨q, r, hq, hshielded, hout, hpieces⟩
  · rw [hpieces] at h
    obtain ⟨rfl, rfl⟩ := List.cons.inj h
    rw [List.count_append, List.count_cons_self] at hcount
    omega
  · rw [hpieces] at h
    obtain ⟨rfl, rfl⟩ := List.cons.inj h
    -- Of the two commas, neither is before the other.
    rcases List.append_eq_append_iff.1 hq with ⟨m, rfl, hm⟩ | ⟨m, rfl, hm⟩
    · cases m with
      | nil =>
        rw [List.append_nil] at hshielded hout
        obtain ⟨-, rfl⟩ := List.cons.inj hm
        exact ⟨hshielded, hout, rfl⟩
      | cons c m =>
        obtain ⟨rfl, -⟩ := List.cons.inj hm
        rw [List.count_append, List.count_cons_self] at hcount
        omega
    · cases m with
      | nil =>
        rw [List.append_nil]
        obtain ⟨-, rfl⟩ := List.cons.inj hm
        exact ⟨hshielded, hout, rfl⟩
      | cons c m =>
        obtain ⟨rfl, -⟩ := List.cons.inj hm
        rw [List.count_append, List.count_cons_self] at hcount
        omega

/-- A text before a comma is the first piece if it has neither commas nor quotes, or as many commas
    as the first piece. -/
theorem shielded_of_first {p : List Char} {ps : List (List Char)}
    (h : pieces false (t ++ ',' :: s) = p :: ps)
    (hfirst : ',' ∉ t ∧ '"' ∉ t ∨ p.count ',' = t.count ',') :
    Shielded false t ∧ between false t = false ∧ ps = pieces false s := by
  rcases hfirst with ⟨hcomma, hquote⟩ | heq
  · have hout : between false t = false := between_of_not_mem hquote
    rw [pieces_append_comma (shielded_of_not_mem hcomma) hout] at h
    exact ⟨shielded_of_not_mem hcomma, hout, (List.cons.inj h).2.symm⟩
  · exact shielded_of_pieces_append_eq h heq

/-- A comma of a list value is in a piece or between two. -/
theorem sum_commas_pieces (s : List Char) :
    ((pieces false s).map fun p => p.count ',' + 1).sum = s.count ',' + 1 := by
  induction s using pieces_induction with
  | whole s _ hpieces => simp [hpieces]
  | cut p r _ _ hpieces ih =>
    rw [hpieces, List.map_cons, List.sum_cons, ih, List.count_append, List.count_cons_self]
    omega

/-! ### Entries -/

theorem map_trimStart_pieces {c : Char} (h : isBlank c) (s : List Char) :
    (pieces false (c :: s)).map trimStart = (pieces false s).map trimStart := by
  have hnot : ¬(c = ',' ∧ false = false) := by
    rintro ⟨rfl, -⟩
    exact nomatch h
  have hquote : c ≠ '"' := by
    rintro rfl
    exact nomatch h
  have htrim : ∀ t, trimStart (c :: t) = trimStart t := fun _ => List.dropWhile_cons_of_pos h
  rw [pieces, if_neg hnot, if_neg hquote]
  rcases pieces_spec false s with ⟨-, hpieces⟩ | ⟨p, r, -, -, -, hpieces⟩
  · simp [hpieces, consFirst, htrim]
  · simp [hpieces, consFirst, htrim]

theorem entries_cons_of_isBlank {c : Char} (h : isBlank c) (s : List Char) :
    entries (c :: s) = entries s := by
  have htrim : trim = trimEnd ∘ trimStart := rfl
  rw [entries, entries, htrim, ← List.map_map, map_trimStart_pieces h, List.map_map]

/-- A comma separates entries wherever the reader is outside quotes. -/
theorem entries_append (hout : between false t = false) (s : List Char) :
    entries (t ++ ',' :: s) = entries t ++ entries s := by
  rw [entries, pieces_append hout, List.map_append, List.filter_append]
  rfl

/-- A list value made of texts, of which at most the last leaves the reader between two quotes, has
    the entries of the texts. -/
theorem entries_intercalate {ts : List (List Char)}
    (hout : ts.Pairwise fun u _ => between false u = false) :
    entries ([',', ' '].intercalate ts) = ts.flatMap entries := by
  induction ts with
  | nil => rfl
  | cons t ts ih =>
    obtain ⟨ht, hts⟩ := List.pairwise_cons.1 hout
    cases ts with
    | nil => rw [List.intercalate_singleton, List.flatMap_cons, List.flatMap_nil, List.append_nil]
    | cons u ts =>
      -- The comma after the first text separates; the blank after it is trimmed.
      have hjoin : [',', ' '].intercalate (t :: u :: ts) =
          t ++ ',' :: ' ' :: [',', ' '].intercalate (u :: ts) := by
        simp
      rw [hjoin, entries_append (ht u List.mem_cons_self), entries_cons_of_isBlank (by decide),
        ih hts]
      rfl

/-- What holds of every element but the last, pair by pair. -/
theorem pairwise_iff_dropLast {α : Type} {P : α → Prop} {l : List α} :
    (l.Pairwise fun a _ => P a) ↔ ∀ a ∈ l.dropLast, P a := by
  induction l with
  | nil => exact iff_of_true .nil fun _ h => absurd h List.not_mem_nil
  | cons a l ih =>
    cases l with
    | nil => exact iff_of_true (List.pairwise_singleton _ _) fun _ h => absurd h List.not_mem_nil
    | cons b l =>
      rw [List.dropLast_cons_of_ne_nil (List.cons_ne_nil _ _), List.forall_mem_cons,
        List.pairwise_cons, ih]
      exact and_congr_left fun _ => ⟨fun h => h b List.mem_cons_self, fun h _ _ => h⟩

/-- A text without blanks at its ends, whose commas are shielded, is its only entry. -/
theorem entries_of_shielded (htrimmed : Trimmed s) (hne : s ≠ []) (h : Shielded false s) :
    entries s = [s] := by
  rw [entries, pieces_of_shielded h, List.map_singleton, trim_of_trimmed htrimmed,
    List.filter_cons_of_pos (by simpa using hne)]
  rfl

/-- Of the pieces of a list value, only the last may leave the reader between two quotes. -/
theorem pairwise_pieces (s : List Char) :
    (pieces false s).Pairwise fun p _ => between false p = false := by
  induction s using pieces_induction with
  | whole s _ hpieces =>
    rw [hpieces]
    exact List.pairwise_singleton _ _
  | cut p r _ hout hpieces ih =>
    rw [hpieces]
    exact List.pairwise_cons.2 ⟨fun _ _ => hout, ih⟩

/-- No comma of a piece is met outside quotes. -/
theorem shielded_of_mem_pieces {p : List Char} (h : p ∈ pieces false s) : Shielded false p := by
  induction s using pieces_induction with
  | whole s hs hpieces =>
    rw [hpieces, List.mem_singleton] at h
    exact h ▸ hs
  | cut q r hq _ hpieces ih =>
    rw [hpieces] at h
    rcases List.mem_cons.1 h with rfl | h
    · exact hq
    · exact ih h

/-! ### Trimmed pieces -/

theorem between_trim (s : List Char) : between inside (trim s) = between inside s := by
  rw [between, between, count_trim (by decide)]

/-- Blanks are no quotes, so that what is between quotes stays there when they are taken off. -/
theorem shielded_trim (h : Shielded inside s) : Shielded inside (trim s) := by
  obtain ⟨l, r, hs, hl, -⟩ := exists_blanks s
  have hquote : '"' ∉ l := fun hmem => nomatch hl '"' hmem
  rw [hs, List.append_assoc, shielded_append_iff, between_of_not_mem hquote,
    shielded_append_iff] at h
  exact h.2.1

theorem exists_of_mem_entries {e : List Char} (h : e ∈ entries s) :
    ∃ p ∈ pieces false s, trim p = e ∧ e ≠ [] := by
  obtain ⟨hmem, hne⟩ := List.mem_filter.1 h
  obtain ⟨p, hp, rfl⟩ := List.mem_map.1 hmem
  exact ⟨p, hp, rfl, by simpa using hne⟩

/-- Of the entries of a list value, only the last may leave the reader between two quotes. -/
theorem pairwise_entries (s : List Char) :
    (entries s).Pairwise fun e _ => between false e = false := by
  refine List.Pairwise.filter _ (List.pairwise_map.2 ?_)
  refine (pairwise_pieces s).imp fun {p _} hp => ?_
  rw [between_trim, hp]

/-- A piece is shorter than the list value, unless it is all of it. -/
theorem pieces_eq_or_length_lt {p : List Char} (h : p ∈ pieces false s) :
    pieces false s = [s] ∨ p.length < s.length := by
  induction s using pieces_induction with
  | whole s _ hpieces => exact .inl hpieces
  | cut q r _ _ hpieces ih =>
    right
    rw [List.length_append, List.length_cons]
    rw [hpieces] at h
    rcases List.mem_cons.1 h with rfl | h
    · omega
    · rcases ih h with hwhole | hlt
      · rw [hwhole, List.mem_singleton] at h
        rw [h]
        omega
      · omega

/-- Texts are shielded if the pieces of the list value that begin like a text have as many commas
    as it has. -/
theorem shielded_of_pieces {t : List Char} {ts : List (List Char)} {P : List Char → Prop}
    (hpieces : ∀ p ∈ pieces false ([',', ' '].intercalate (t :: ts)), P (trimStart p))
    (h : ∀ u ∈ t :: ts, ',' ∉ u ∧ '"' ∉ u ∨
      ∃ c a, isBlank c = false ∧ ',' ∉ c :: a ∧ c :: a <+: u ∧
        ∀ p, P p → c :: a <+: p → p.count ',' = u.count ',') :
    (∀ u ∈ t :: ts, Shielded false u) ∧ ∀ u ∈ (t :: ts).dropLast, between false u = false := by
  -- A piece that begins like a text is not trimmed at its beginning.
  have hcount : ∀ u ∈ t :: ts, ∀ s p ps, u <+: s → pieces false s = p :: ps → P (trimStart p) →
      ',' ∉ u ∧ '"' ∉ u ∨ p.count ',' = u.count ',' := by
    intro u hu s p ps hus hp hP
    rcases h u hu with hplain | ⟨c, a, hc, hcomma, hau, hcount⟩
    · exact .inl hplain
    · obtain ⟨m, rfl⟩ := prefix_of_pieces hp (hau.trans hus) hcomma
      have htrim : trimStart (c :: a ++ m) = c :: a ++ m :=
        trimStart_of_head fun d hd => by cases hd; exact hc
      rw [htrim] at hP
      exact .inr (hcount _ hP (List.prefix_append _ _))
  induction ts generalizing t with
  | nil =>
    -- The last text has nothing after it that its quotes could reach.
    rw [List.intercalate_singleton] at hpieces
    refine ⟨fun u hu => ?_, fun u hu => nomatch hu⟩
    rw [List.mem_singleton.1 hu]
    obtain ⟨p, ps, hp⟩ := pieces_eq_cons false t
    rcases hcount t List.mem_cons_self t p ps (List.prefix_refl t) hp
      (hpieces p (by rw [hp]; exact List.mem_cons_self)) with hplain | heq
    · exact shielded_of_not_mem hplain.1
    · exact shielded_of_pieces_eq hp heq
  | cons u ts ih =>
    have hjoin : [',', ' '].intercalate (t :: u :: ts) =
        t ++ ',' :: ' ' :: [',', ' '].intercalate (u :: ts) := by
      simp
    rw [hjoin] at hpieces
    obtain ⟨p, ps, hp⟩ :=
      pieces_eq_cons false (t ++ ',' :: ' ' :: [',', ' '].intercalate (u :: ts))
    -- The first piece begins with the first text, and ends with it since it has no further comma.
    obtain ⟨hshielded, hout, hps⟩ := shielded_of_first hp <|
      hcount t List.mem_cons_self _ p ps (List.prefix_append _ _) hp <|
        hpieces p (by rw [hp]; exact List.mem_cons_self)
    -- The other pieces are those of the other texts, up to the blank after the comma.
    have hrest : ∀ q ∈ pieces false ([',', ' '].intercalate (u :: ts)), P (trimStart q) := by
      have hmap : ∀ q ∈ ps.map trimStart, P q := by
        intro q hq
        obtain ⟨q', hq', rfl⟩ := List.mem_map.1 hq
        exact hpieces q' (by rw [hp]; exact List.mem_cons_of_mem _ hq')
      rw [hps, map_trimStart_pieces (by decide)] at hmap
      exact fun q hq => hmap _ (List.mem_map_of_mem hq)
    obtain ⟨hall, hlast⟩ := ih hrest (fun v hv => h v (List.mem_cons_of_mem _ hv))
      fun v hv => hcount v (List.mem_cons_of_mem _ hv)
    refine ⟨List.forall_mem_cons.2 ⟨hshielded, hall⟩, ?_⟩
    rw [List.dropLast_cons_of_ne_nil (List.cons_ne_nil _ _)]
    exact List.forall_mem_cons.2 ⟨hout, hlast⟩

end Deployment.Chars
