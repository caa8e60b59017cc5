import Mixsheet.Proofs.Argument.Cut

/-! # Plain calls

The parts of a plain call are words, lists of such in square brackets, and keys with one of these as their
value. Cutting the text of a plain call at its characters gives the same pieces as scanning its tokens. -/

namespace Mixsheet.Grouped

open Token Text Lexeme Scan

/-! ### The grammar -/

/-- One word: no white space, no quotes, no brackets or braces, no colon, comma or semicolon, and no slash,
which could open a comment. -/
def IsWord (cs : List Char) : Prop := cs ≠ [] ∧ ∀ c ∈ cs, Inert c ∧ c ≠ '/'

/-- A word, or a list in square brackets that is blank or holds words and lists. -/
inductive Value : List Char → Argument → Prop where
  | word {cs : List Char} (word_ : IsWord cs) : Value cs (.text (.ofList cs))
  | empty {cs : List Char} (blank : Blank cs) : Value ('[' :: (cs ++ [']'])) (.list [])
  | list {cs : List Char} {parts : List (List Char × Argument)} (values : ∀ p ∈ parts, Value p.1 p.2)
    (between : Between (parts.map (·.1)) cs) : Value ('[' :: (cs ++ [']'])) (.list (parts.map (·.2)))

/-- A value, or a word as its key with a `: ` before the value. -/
inductive PlainPiece : List Char → Piece → Prop where
  | value {cs : List Char} {argument : Argument} (value_ : Value cs argument) : PlainPiece cs (.single argument)
  | entry {key before after cs : List Char} {argument : Argument} (key_ : IsWord key) (before_ : Blank before)
    (after_ : Blank after) (value_ : Value cs argument) :
    PlainPiece (key ++ (before ++ ':' :: ' ' :: (after ++ cs))) (.pair (.ofList key) argument)

/-- The parts of a text between its commas are plain pieces. -/
def PlainParts (cs : List Char) (pieces : List Piece) : Prop :=
  ∃ parts : List (List Char × Piece), (∀ p ∈ parts, PlainPiece p.1 p.2) ∧ Between (parts.map (·.1)) cs ∧
    parts.map (·.2) = pieces

/-! ### Pieces -/

/-- A colon belongs to no word and to no white space. -/
theorem no_colon_of_inert {cs before : List Char} (h : ∀ c ∈ cs, Inert c) (hbefore : Blank before) :
    ¬ [':', ' '] <:+: cs ++ before := by
  intro hcolon
  rcases List.mem_append.mp (hcolon.subset List.mem_cons_self) with hmem | hmem
  · cases (h _ hmem).punctuation
  · exact absurd (hbefore _ hmem) (by decide)

theorem flat_of_inert {cs : List Char} (hne : cs ≠ []) (h : ∀ c ∈ cs, Inert c) : Flat cs := by
  have htight : Tight cs :=
    ⟨fun c hc => (h c (List.mem_of_mem_head? hc)).blank, fun c hc => (h c (List.mem_of_getLast? hc)).blank⟩
  refine ⟨⟨hne, htight⟩, fun c hc => level_of_inert (h c hc), fun hmem => ?_, ?_⟩
  · cases (h _ hmem).punctuation
  · have := no_colon_of_inert h blank_nil
    rwa [List.append_nil] at this

theorem flat_of_isWord {cs : List Char} (h : IsWord cs) : Flat cs := flat_of_inert h.1 fun c hc => (h.2 c hc).1

theorem Value.shaped {cs : List Char} {argument : Argument} (h : Value cs argument) : Shaped cs argument := by
  induction h with
  | word word_ => exact .text (flat_of_isWord word_)
  | empty blank => exact .empty blank
  | list _ between ih => exact .list ih between

theorem PlainPiece.isPart {cs : List Char} {p : Piece} (h : PlainPiece cs p) : IsPart cs p := by
  cases h with
  | value value_ => exact value_.shaped.isPart
  | entry key_ before_ after_ value_ =>
    have hcolon := no_colon_of_inert (fun c hc => (key_.2 c hc).1) before_
    exact isPart_pair (flat_of_isWord key_) before_ hcolon after_ value_.shaped

theorem PlainParts.pieces_eq {cs : List Char} {ps : List Piece} (h : PlainParts cs ps) : pieces cs = ps := by
  obtain ⟨parts, hparts, hbetween, rfl⟩ := h
  exact hbetween.pieces_eq fun p hp => (hparts p hp).isPart

end Mixsheet.Grouped
