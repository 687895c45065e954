import Deployment.Block.Render
import Deployment.Proofs.Block.Numbering

/-!
# Lines of written blocks

Blocks are numbered by counting lines, and written as text by other rules. The two agree: a
numbered block is on the line that its place says, as long as no name and no value breaks a line
(`site_of_stands`).

* `Block.Stands`: a block at any depth among written blocks, and the text before it;
* `Block.OneLine`: blocks whose height is the number of their line feeds (`feeds_text`).
-/

namespace Deployment

/-- A text without line feeds. -/
def Text.OneLine (s : String) : Prop := '\n' ∉ s.toList

instance : DecidablePred Text.OneLine := fun s => inferInstanceAs (Decidable ('\n' ∉ s.toList))

theorem Text.OneLine.append {s t : String} (hs : OneLine s) (ht : OneLine t) :
    OneLine (s ++ t) := by
  rw [OneLine, String.toList_append, List.mem_append, not_or]
  exact ⟨hs, ht⟩

/-- The number of line feeds of a text. -/
def Text.feeds (s : String) : Nat := s.toList.count '\n'

@[simp] theorem Text.feeds_append (s t : String) : feeds (s ++ t) = feeds s + feeds t := by
  rw [feeds, String.toList_append, List.count_append]
  rfl

theorem Text.OneLine.feeds_eq {s : String} (h : OneLine s) : feeds s = 0 := List.count_eq_zero.2 h

theorem DeclarationKind.oneLine_keyword (kind : DeclarationKind) : Text.OneLine kind.keyword := by
  cases kind <;> decide

namespace Block

open Text

/-- No name and no value in a block breaks a line. -/
inductive OneLine : Block → Prop
  | declaration {site kind name inner} : Text.OneLine name → (∀ b ∈ inner, OneLine b) →
      OneLine (.declaration site kind name inner)
  | importOf {site uri} : Text.OneLine uri → OneLine (.importOf site uri)
  | property {site name value} : Text.OneLine name → Text.OneLine value →
      OneLine (.property site name value)
  | comment {site text} : Text.OneLine text → OneLine (.comment site text)
  | blank {site text} : OneLine (.blank site text)

/-- The line that opens a declaration. -/
def openingLine (depth : Nat) (kind : DeclarationKind) (name : String) : String :=
  textLine depth (kind.keyword ++ name ++ " \x7b")

/-- Among blocks written `depth` tabs in stands, `d` tabs in, a block `b`; `before` is what is
    written before it. -/
inductive Stands : Nat → List Block → String → Nat → Block → Prop
  | first {depth b bs} : Stands depth (b :: bs) "" depth b
  | later {depth before d b b' bs} : Stands depth bs before d b →
      Stands depth (b' :: bs) (b'.text depth ++ before) d b
  | inside {depth before d b site kind name inner bs} : Stands (depth + 1) inner before d b →
      Stands depth (.declaration site kind name inner :: bs)
        (openingLine depth kind name ++ before) d b

/-- What is written before a block, the block itself, and what is written after it. -/
theorem Stands.exists_after {depth d : Nat} {bs : List Block} {before : String} {b : Block}
    (h : Stands depth bs before d b) : ∃ after, texts depth bs = before ++ (b.text d ++ after) := by
  induction h with
  | first => exact ⟨_, String.empty_append.symm⟩
  | later _ ih =>
    obtain ⟨after, ih⟩ := ih
    exact ⟨after, by rw [texts, ih, String.append_assoc]⟩
  | @inside depth before d b site kind name inner bs _ ih =>
    obtain ⟨after, ih⟩ := ih
    refine ⟨after ++ (textLine depth "\x7d" ++ texts depth bs), ?_⟩
    have hopening : openingLine depth kind name =
        textLine depth (kind.keyword ++ name ++ " \x7b") :=
      rfl
    rw [texts, text, ih, hopening]
    simp only [String.append_assoc]

/-! ### Heights -/

theorem feeds_textLine {content : String} (depth : Nat) (h : Text.OneLine content) :
    feeds (textLine depth content) = 1 := by
  have htabs : Text.OneLine (.ofList (List.replicate depth '\t')) := by
    rw [Text.OneLine, String.toList_ofList]
    exact fun hmem => absurd (List.eq_of_mem_replicate hmem) (by decide)
  rw [textLine, feeds_append, feeds_append, htabs.feeds_eq, h.feeds_eq]
  rfl

theorem feeds_openingLine {name : String} (depth : Nat) (kind : DeclarationKind)
    (h : Text.OneLine name) : feeds (openingLine depth kind name) = 1 :=
  feeds_textLine depth ((kind.oneLine_keyword.append h).append (by decide))

theorem feeds_texts_of {bs : List Block} {depth : Nat}
    (h : ∀ b ∈ bs, feeds (b.text depth) = b.height) : feeds (texts depth bs) = heights bs := by
  induction bs with
  | nil => rfl
  | cons b bs ih =>
    rw [texts, feeds_append, heights, h b List.mem_cons_self,
      ih fun b hb => h b (List.mem_cons_of_mem _ hb)]

/-- The height of a block is the number of its line feeds. -/
theorem feeds_text {b : Block} (h : b.OneLine) (depth : Nat) : feeds (b.text depth) = b.height := by
  induction h generalizing depth with
  | @declaration site kind name inner hname _ ih =>
    have hopening := feeds_openingLine depth kind hname
    have hinner := feeds_texts_of fun b hb => ih b hb (depth + 1)
    have hclosing : feeds (textLine depth "\x7d") = 1 := feeds_textLine depth (by decide)
    rw [openingLine] at hopening
    rw [text, feeds_append, feeds_append, hopening, hinner, hclosing, height]
    omega
  | importOf huri =>
    exact feeds_textLine depth ((Text.OneLine.append (by decide) huri).append (by decide))
  | property hname hvalue =>
    exact feeds_textLine depth (((hname.append (by decide)).append hvalue).append (by decide))
  | comment htext => exact feeds_textLine depth htext
  | blank =>
    rw [text]
    rfl

/-! ### Numbered blocks -/

theorem texts_numberedAll_of {bs : List Block} {file : Path} {depth line : Nat}
    (h : ∀ b ∈ bs, ∀ line, (b.numbered file line).text depth = b.text depth) :
    texts depth (numberedAll file line bs) = texts depth bs := by
  induction bs generalizing line with
  | nil => rfl
  | cons b bs ih =>
    rw [numberedAll, texts, texts, h b List.mem_cons_self,
      ih fun b hb => h b (List.mem_cons_of_mem _ hb)]

/-- Numbering does not change what is written. -/
theorem text_numbered {b : Block} (h : b.OneLine) (file : Path) (line depth : Nat) :
    (b.numbered file line).text depth = b.text depth := by
  induction h generalizing line depth with
  | declaration _ _ ih =>
    rw [numbered, text, text, texts_numberedAll_of fun b hb line => ih b hb line (depth + 1)]
  | importOf | property | comment | blank => rfl

/-- A numbered block is on the line that its place says: the lines before it are those of the text
    before it. -/
theorem site_of_stands {bs : List Block} (hone : ∀ b ∈ bs, b.OneLine) {file : Path}
    {line depth d : Nat} {before : String} {b : Block}
    (h : Stands depth (numberedAll file line bs) before d b) :
    b.site = ⟨file, line + feeds before⟩ := by
  generalize hnumbered : numberedAll file line bs = numbered at h
  induction h generalizing line bs with
  | first =>
    cases bs with
    | nil => exact nomatch hnumbered
    | cons b' bs =>
      obtain ⟨rfl, -⟩ := List.cons.inj hnumbered
      cases b' <;> rfl
  | later _ ih =>
    cases bs with
    | nil => exact nomatch hnumbered
    | cons b' bs =>
      obtain ⟨rfl, hrest⟩ := List.cons.inj hnumbered
      obtain ⟨hfirst, hone⟩ := List.forall_mem_cons.1 hone
      rw [ih hone hrest, feeds_append, text_numbered hfirst, feeds_text hfirst, Nat.add_assoc]
  | inside _ ih =>
    cases bs with
    | nil => exact nomatch hnumbered
    | cons b' bs =>
      have hfirst := hone b' List.mem_cons_self
      obtain ⟨hdeclaration, -⟩ := List.cons.inj hnumbered
      cases hfirst with
      | declaration hname hinner =>
        cases hdeclaration
        rw [ih hinner rfl, feeds_append, feeds_openingLine _ _ hname, Nat.add_assoc]
      | importOf | property | comment | blank => exact nomatch hdeclaration

end Block

end Deployment
