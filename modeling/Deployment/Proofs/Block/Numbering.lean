import Deployment.Proofs.Block.Types

/-!
# Numbered blocks

Blocks as they stand in a file one after the other: each begins on the line after the one before
it. Numbering gives blocks their places and nothing else: what is read from blocks without regard
to places is read from numbered blocks as well (`filterMap_numberedAll`).

* `Block.height`: the number of lines of a block;
* `Block.numbered`, `Block.numberedAll`: blocks placed in a file from a given line on.
-/

namespace Deployment.Block

mutual

/-- The number of lines of a block. -/
def height : Block → Nat
  | .declaration _ _ _ inner => heights inner + 2
  | .importOf .. => 1
  | .property .. => 1
  | .comment .. => 1
  | .blank .. => 1

/-- The number of lines of some blocks. -/
def heights : List Block → Nat
  | [] => 0
  | b :: bs => b.height + heights bs

end

mutual

/-- The block placed in a file at a line, its inner blocks on the lines after that. -/
def numbered (file : Path) (line : Nat) : Block → Block
  | .declaration _ kind name inner =>
    .declaration ⟨file, line⟩ kind name (numberedAll file (line + 1) inner)
  | .importOf _ uri => .importOf ⟨file, line⟩ uri
  | .property _ name value => .property ⟨file, line⟩ name value
  | .comment _ text => .comment ⟨file, line⟩ text
  | .blank _ text => .blank ⟨file, line⟩ text

/-- Blocks placed in a file one after the other, the first one at a line. -/
def numberedAll (file : Path) (line : Nat) : List Block → List Block
  | [] => []
  | b :: bs => b.numbered file line :: numberedAll file (line + b.height) bs

end

variable {file : Path} {line : Nat}

theorem filterMap_numberedAll {β : Type} {read : Block → Option β}
    (h : ∀ b line, read (numbered file line b) = read b) (bs : List Block) :
    (numberedAll file line bs).filterMap read = bs.filterMap read := by
  induction bs generalizing line with
  | nil => rfl
  | cons b bs ih => rw [numberedAll, List.filterMap_cons, List.filterMap_cons, h, ih]

theorem exists_of_mem_numberedAll {b : Block} {bs : List Block} (h : b ∈ numberedAll file line bs) :
    ∃ b' ∈ bs, ∃ n, b = b'.numbered file n := by
  induction bs generalizing line with
  | nil => exact nomatch h
  | cons b' bs ih =>
    rcases List.mem_cons.1 h with rfl | h
    · exact ⟨b', List.mem_cons_self, line, rfl⟩
    · obtain ⟨b'', hb, n, rfl⟩ := ih h
      exact ⟨b'', List.mem_cons_of_mem _ hb, n, rfl⟩

theorem exists_mem_numberedAll {b : Block} {bs : List Block} (h : b ∈ bs) (file : Path)
    (line : Nat) : ∃ n, b.numbered file n ∈ numberedAll file line bs := by
  induction bs generalizing line with
  | nil => exact nomatch h
  | cons b' bs ih =>
    rw [numberedAll]
    rcases List.mem_cons.1 h with rfl | h
    · exact ⟨line, List.mem_cons_self⟩
    · obtain ⟨n, hn⟩ := ih h (line + b'.height)
      exact ⟨n, List.mem_cons_of_mem _ hn⟩

theorem heights_append (bs cs : List Block) : heights (bs ++ cs) = heights bs + heights cs := by
  induction bs with
  | nil => exact (Nat.zero_add _).symm
  | cons b bs ih => rw [List.cons_append, heights, heights, ih, Nat.add_assoc]

/-- What stands after some blocks begins on the line after them. -/
theorem numberedAll_append (bs cs : List Block) (file : Path) (line : Nat) :
    numberedAll file line (bs ++ cs) =
      numberedAll file line bs ++ numberedAll file (line + heights bs) cs := by
  induction bs generalizing line with
  | nil => rfl
  | cons b bs ih =>
    rw [List.cons_append, numberedAll, numberedAll, heights, ih, ← Nat.add_assoc, List.cons_append]

theorem properties_numberedAll (bs : List Block) :
    properties (numberedAll file line bs) = properties bs :=
  filterMap_numberedAll (fun b _ => by cases b <;> rfl) bs

theorem imports_numberedAll {bs : List Block} (h : imports bs = []) :
    imports (numberedAll file line bs) = [] := by
  refine List.filterMap_eq_nil_iff.2 fun b hb => ?_
  obtain ⟨b', hb', n, rfl⟩ := exists_of_mem_numberedAll hb
  have hnone := List.filterMap_eq_nil_iff.1 h b' hb'
  cases b' with
  | importOf => exact nomatch hnone
  | declaration | property | comment | blank => rfl

theorem belongs_numbered {b : Block} (h : b.Belongs) : (b.numbered file line).Belongs := by
  cases b with
  | property => exact .inl ⟨_, rfl⟩
  | comment => exact .inr (.inl rfl)
  | blank => exact .inr (.inr rfl)
  | declaration | importOf =>
    rcases h with ⟨p, hp⟩ | hcomment | hblank
    · exact nomatch hp
    · exact nomatch hcomment
    · exact nomatch hblank

/-- The check of a type finds something wrong with its numbered declaration exactly if it does with
    the declaration. -/
theorem checkType_numberedAll_iff {site : Site} {kind : DeclarationKind} {allowed : List String}
    {name : String} {inner : List Block} (h : ∀ b ∈ inner, b.Belongs) :
    checkType site kind allowed name (numberedAll file line inner) = [] ↔
      isTypeName name ∧ ((properties inner).map Prod.fst).Nodup ∧
        ∀ p ∈ properties inner, FineProperty kind allowed p := by
  have hbelongs : ∀ b ∈ numberedAll file line inner, b.Belongs := by
    intro b hb
    obtain ⟨b', hb', n, rfl⟩ := exists_of_mem_numberedAll hb
    exact belongs_numbered (h b' hb')
  rw [checkType_eq_nil_iff, properties_numberedAll]
  exact ⟨fun ⟨hname, hnodup, hfine, _⟩ => ⟨hname, hnodup, hfine⟩,
    fun ⟨hname, hnodup, hfine⟩ => ⟨hname, hnodup, hfine, hbelongs⟩⟩

end Deployment.Block
