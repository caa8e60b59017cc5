import Mathlib
import Mixsheet.Proofs.Argument.Slot

/-! # The texts of scanned arguments

The scan of properly nested tokens loses no text and repeats none. The leaves of the arguments, one after the other, are
the tokens that it takes, in order: all tokens in functions, and values and parentheses outside of them. Only white space
and commas differ, since the scan passes over separators and puts its own between the words of a stack. -/

namespace Mixsheet

open Token Text

/-! ### Leaves -/

namespace Argument

mutual

/-- The texts that an argument is made of, in order. -/
def leaves : Argument → List String
  | .text s => [s]
  | .list items => leavesOfItems items
  | .map entries => leavesOfEntries entries

/-- The texts in the items of a list. -/
def leavesOfItems : List Argument → List String
  | [] => []
  | item :: rest => item.leaves ++ leavesOfItems rest

/-- The keys and the texts in the entries of a map. -/
def leavesOfEntries : List (String × Argument) → List String
  | [] => []
  | (key, value) :: rest => key :: (value.leaves ++ leavesOfEntries rest)

end

theorem leavesOfItems_eq_flatMap (items : List Argument) : leavesOfItems items = items.flatMap leaves := by
  induction items with
  | nil => rw [leavesOfItems, List.flatMap_nil]
  | cons item rest ih => rw [leavesOfItems, List.flatMap_cons, ih]

/-- The texts of arguments, put together. -/
def leafChars (arguments : List Argument) : List Char := (arguments.flatMap leaves).flatMap String.toList

@[simp] theorem leafChars_concat (arguments : List Argument) (a : Argument) :
    leafChars (arguments ++ [a]) = leafChars arguments ++ leafChars [a] := by
  simp [leafChars]

@[simp] theorem leafChars_text (s : String) : leafChars [.text s] = s.toList := by
  simp [leafChars, leaves]

@[simp] theorem leafChars_list (items : List Argument) : leafChars [.list items] = leafChars items := by
  simp [leafChars, leaves, leavesOfItems_eq_flatMap]

end Argument

open Argument

/-- The text without its white space and commas. -/
def Text.dense (cs : List Char) : List Char := cs.filter fun c => !isBlank c && c != ','

@[simp] theorem Text.dense_append (cs ds : List Char) : dense (cs ++ ds) = dense cs ++ dense ds := List.filter_append ..

namespace Scan

/-! ### Runs -/

/-- Parentheses and square brackets are closed by closers of their kinds, one inside the other. -/
inductive Nested : List Token → Prop where
  | nil : Nested []
  | token {t : Token} {ts : List Token} (paren : t.kind ≠ .leftParen ∧ t.kind ≠ .rightParen)
    (bracket : t.kind ≠ .leftBracket ∧ t.kind ≠ .rightBracket) (rest : Nested ts) : Nested (t :: ts)
  | parens {first last : Token} {inner ts : List Token} (opens : first.kind = .leftParen) (inside : Nested inner)
    (closes : last.kind = .rightParen) (rest : Nested ts) : Nested (first :: (inner ++ last :: ts))
  | brackets {first last : Token} {inner ts : List Token} (opens : first.kind = .leftBracket) (inside : Nested inner)
    (closes : last.kind = .rightBracket) (rest : Nested ts) : Nested (first :: (inner ++ last :: ts))

/-- The scan takes the text of such a token outside functions too. -/
def isTaken : TokenKind → Bool
  | .word | .atWord | .string | .brackets | .leftParen | .rightParen => true
  | _ => false

/-- The texts of the tokens that the scan takes, put together, where `depth` parentheses of a function are open. -/
def takenChars (depth : Nat) : List Token → List Char
  | [] => []
  | t :: rest => (if 0 < depth ∨ isTaken t.kind then t.text.toList else []) ++ takenChars (depthAfter depth t) rest

theorem balanced_around {opener closer : TokenKind} {first last : Token} {inner ts : List Token}
    (hfirst : first.kind ≠ opener ∧ first.kind ≠ closer) (hinner : Balanced opener closer inner)
    (hlast : last.kind ≠ opener ∧ last.kind ≠ closer) (hts : Balanced opener closer ts) :
    Balanced opener closer (first :: (inner ++ last :: ts)) :=
  .token hfirst.1 hfirst.2 (balanced_append hinner (.token hlast.1 hlast.2 hts))

theorem Nested.balanced {ts : List Token} (h : Nested ts) :
    Balanced .leftParen .rightParen ts ∧ Balanced .leftBracket .rightBracket ts := by
  induction h with
  | nil => exact ⟨.nil, .nil⟩
  | token paren bracket _ ih => exact ⟨.token paren.1 paren.2 ih.1, .token bracket.1 bracket.2 ih.2⟩
  | parens opens _ closes _ ihi ih =>
    exact ⟨.pair opens closes ihi.1 ih.1, balanced_around (by simp [opens]) ihi.2 (by simp [closes]) ih.2⟩
  | brackets opens _ closes _ ihi ih =>
    exact ⟨balanced_around (by simp [opens]) ihi.1 (by simp [closes]) ih.1, .pair opens closes ihi.2 ih.2⟩

/-- All tokens in a function are taken. -/
theorem Balanced.takenChars_append {inner : List Token} (h : Balanced .leftParen .rightParen inner) (depth : Nat)
    (rest : List Token) : takenChars (depth + 1) (inner ++ rest) = chars inner ++ takenChars (depth + 1) rest := by
  have hinside : ∀ depth (t : Token), 0 < depth + 1 ∨ isTaken t.kind = true := fun depth _ => .inl (Nat.succ_pos depth)
  induction h generalizing depth rest with
  | nil => rfl
  | token opens closes _ ih =>
    rw [List.cons_append, takenChars, if_pos (hinside _ _), depthAfter_of_ne opens closes, ih, chars_cons,
      List.append_assoc]
  | pair opens closes _ _ ihi ih =>
    rw [List.cons_append, List.append_assoc, List.cons_append, takenChars, if_pos (hinside _ _),
      depthAfter_leftParen opens, ihi, takenChars, if_pos (hinside _ _), depthAfter_rightParen closes, ih]
    simp

theorem takenChars_group {first last : Token} {inner : List Token} (opens : first.kind = .leftParen)
    (inside : Balanced .leftParen .rightParen inner) (closes : last.kind = .rightParen) (rest : List Token) :
    takenChars 0 (first :: (inner ++ last :: rest)) = chars (first :: (inner ++ [last])) ++ takenChars 0 rest := by
  have hfirst : isTaken first.kind = true := by rw [opens]; rfl
  rw [takenChars, if_pos (.inr hfirst), depthAfter_leftParen opens, inside.takenChars_append, takenChars,
    if_pos (.inl (Nat.succ_pos 0)), depthAfter_rightParen closes]
  simp

theorem takenChars_token {t : Token} (paren : t.kind ≠ .leftParen ∧ t.kind ≠ .rightParen) (rest : List Token) :
    takenChars 0 (t :: rest) = (if isTaken t.kind then t.text.toList else []) ++ takenChars 0 rest := by
  rw [takenChars, depthAfter_of_ne paren.1 paren.2]
  simp only [Nat.lt_irrefl, false_or]

theorem takenChars_bracket {t : Token} (h : t.kind = .leftBracket ∨ t.kind = .rightBracket) (rest : List Token) :
    takenChars 0 (t :: rest) = takenChars 0 rest := by
  have htaken : isTaken t.kind = false := by rcases h with h | h <;> rw [h] <;> rfl
  have hparen : t.kind ≠ .leftParen ∧ t.kind ≠ .rightParen := by rcases h with h | h <;> simp [h]
  rw [takenChars_token hparen, htaken, if_neg Bool.false_ne_true, List.nil_append]

/-- Behind nested tokens no function is open. -/
theorem Nested.takenChars_append {ts : List Token} (h : Nested ts) (rest : List Token) :
    takenChars 0 (ts ++ rest) = takenChars 0 ts ++ takenChars 0 rest := by
  induction h generalizing rest with
  | nil => rfl
  | token paren _ _ ih =>
    rw [List.cons_append, takenChars_token paren, takenChars_token paren, ih, List.append_assoc]
  | parens opens inside closes _ _ ih =>
    rw [List.cons_append, List.append_assoc, List.cons_append, takenChars_group opens inside.balanced.1 closes,
      takenChars_group opens inside.balanced.1 closes, ih, List.append_assoc]
  | brackets opens _ closes _ ihi ih =>
    rw [List.cons_append, List.append_assoc, List.cons_append, takenChars_bracket (.inl opens), ihi,
      takenChars_bracket (.inr closes), ih, takenChars_bracket (.inl opens), ihi, takenChars_bracket (.inr closes),
      List.append_assoc]

/-! ### What the scan takes -/

theorem leafChars_text_cons (s : String) (arguments : List Argument) :
    leafChars (.text s :: arguments).reverse = leafChars arguments.reverse ++ s.toList := by
  rw [List.reverse_cons, leafChars_concat, leafChars_text]

theorem leafChars_append (arguments : List Argument) (s : String) :
    leafChars (append arguments s).reverse = leafChars arguments.reverse ++ s.toList := by
  cases arguments with
  | nil => exact leafChars_text s
  | cons a rest =>
    cases a with
    | text last =>
      rw [append, leafChars_text_cons, leafChars_text_cons, String.toList_append, List.append_assoc]
    | list items => exact leafChars_text_cons s _
    | map entries => exact leafChars_text_cons s _

/-- A value is taken whole, behind a comma and a space of its own if it continues a stack. -/
theorem dense_leafChars_put (before : List Token) (arguments : List Argument) (s : String) :
    dense (leafChars (put before arguments s).reverse) = dense (leafChars arguments.reverse) ++ dense s.toList := by
  have hseparator : dense ", ".toList = [] := rfl
  unfold put
  split
  · rw [leafChars_append, dense_append, String.toList_append, dense_append, hseparator, List.nil_append]
  · rw [leafChars_text_cons, dense_append]

theorem dense_leafChars_taken {t : Token} (paren : t.kind ≠ .leftParen) (before : List Token)
    (arguments : List Argument) : dense (leafChars (taken before arguments t).reverse) =
      dense (leafChars arguments.reverse) ++ dense (if isTaken t.kind then t.text.toList else []) := by
  unfold taken
  cases hkind : t.kind with
  | leftParen => exact absurd hkind paren
  | word | string | atWord => exact dense_leafChars_put before arguments t.text
  | rightParen => exact (congrArg dense (leafChars_append arguments t.text)).trans (dense_append _ _)
  | brackets =>
    simp only
    split
    · exact (congrArg dense (leafChars_append arguments t.text)).trans (dense_append _ _)
    · exact (congrArg dense (leafChars_text_cons t.text arguments)).trans (dense_append _ _)
  | _ => exact (List.append_nil _).symm

/-- The scan takes nested tokens as arguments with their texts, whatever is around them. -/
theorem Nested.argumentsFrom {ts : List Token} (h : Nested ts) (before : List Token) (arguments : List Argument)
    (keyed : Bool) : ∃ arguments' keyed', (∀ rest, argumentsFrom before 0 arguments keyed (ts ++ rest) =
      argumentsFrom (ts.reverse ++ before) 0 arguments' keyed' rest) ∧
      dense (leafChars arguments'.reverse) = dense (leafChars arguments.reverse) ++ dense (takenChars 0 ts) := by
  induction h generalizing before arguments keyed with
  | nil => exact ⟨arguments, keyed, fun _ => rfl, (List.append_nil _).symm⟩
  | @token t ts paren bracket _ ih =>
    obtain ⟨arguments', keyed', hrun, hdense⟩ :=
      ih (t :: before) (taken before arguments t) (keyed || decide (t.kind = .colon))
    refine ⟨arguments', keyed', fun rest => ?_, ?_⟩
    · rw [List.cons_append, argumentsFrom_taken paren.1 bracket.1, hrun]
      simp
    · rw [hdense, dense_leafChars_taken paren.1, takenChars_token paren, dense_append, List.append_assoc]
  | @parens first last inner ts opens inside closes _ _ ih =>
    obtain ⟨arguments', keyed', hrun, hdense⟩ := ih (last :: (inner.reverse ++ first :: before))
      (append arguments (join (first :: (inner ++ [last])))) keyed
    refine ⟨arguments', keyed', fun rest => ?_, ?_⟩
    · rw [List.cons_append, List.append_assoc, List.cons_append,
        argumentsFrom_group opens inside.balanced.1 closes, hrun]
      simp
    · rw [hdense, leafChars_append, join, String.toList_ofList, takenChars_group opens inside.balanced.1 closes,
        dense_append, dense_append, List.append_assoc]
  | @brackets first last inner ts opens inside closes _ ihi ih =>
    obtain ⟨items, keyed₁, hinner, hitems⟩ := ihi [] [] false
    obtain ⟨arguments', keyed', hrun, hdense⟩ := ih (last :: (inner.reverse ++ first :: before))
      (.list items.reverse :: arguments) keyed
    have hscan : Scan.argumentsFrom [] 0 [] false inner = (items.reverse, keyed₁) := by
      have hend := hinner []
      rw [List.append_nil] at hend
      rw [hend, Scan.argumentsFrom]
    refine ⟨arguments', keyed', fun rest => ?_, ?_⟩
    · rw [List.cons_append, List.append_assoc, List.cons_append,
        argumentsFrom_list opens inside.balanced.2 closes, hscan, hrun]
      simp
    · have hnil : dense (leafChars [].reverse) = [] := rfl
      rw [hnil, List.nil_append] at hitems
      rw [hdense, List.reverse_cons, leafChars_concat, leafChars_list, dense_append, hitems,
        takenChars_bracket (.inl opens), inside.takenChars_append, takenChars_bracket (.inr closes), dense_append,
        List.append_assoc]

/-- The leaves of what the scan makes of nested tokens are the texts that it takes, once each and in order, but for white
space and commas. If it meets no colon, what it makes is the arguments of the call. -/
theorem leaves_of_nested {ts : List Token} (h : Nested ts) :
    dense (leafChars (argumentsFrom [] 0 [] false ts).1) = dense (takenChars 0 ts) ∧
      ((argumentsFrom [] 0 [] false ts).2 = false → arguments ts = (argumentsFrom [] 0 [] false ts).1) := by
  constructor
  · obtain ⟨found, keyed, hrun, hdense⟩ := h.argumentsFrom [] [] false
    have hend := hrun []
    rw [List.append_nil] at hend
    rw [hend, Scan.argumentsFrom]
    exact hdense
  · intro hcolon
    simp [arguments, hcolon, Piece.arguments, Piece.argument, Function.comp_def]

/-- A stack with a function in it, and a list. -/
theorem leaves_of_nested_function : ∃ ts, Token.ofText "a f('b':c),[d]" = .ok ts ∧ Nested (content ts) ∧
    arguments (content ts) = [.text "a, f('b':c)", .list [.text "d"]] ∧
    dense (leafChars (arguments (content ts))) = "af('b':c)d".toList := by
  let ts : List Token := [⟨.word, "a", 0, 1, ⟨1, 1⟩⟩, ⟨.space, " ", 1, 2, ⟨1, 2⟩⟩, ⟨.word, "f", 2, 3, ⟨1, 3⟩⟩,
    ⟨.leftParen, "(", 3, 4, ⟨1, 4⟩⟩, ⟨.string, "'b'", 4, 7, ⟨1, 5⟩⟩, ⟨.colon, ":", 7, 8, ⟨1, 8⟩⟩,
    ⟨.word, "c", 8, 9, ⟨1, 9⟩⟩, ⟨.rightParen, ")", 9, 10, ⟨1, 10⟩⟩, ⟨.comma, ",", 10, 11, ⟨1, 11⟩⟩,
    ⟨.leftBracket, "[", 11, 12, ⟨1, 12⟩⟩, ⟨.word, "d", 12, 13, ⟨1, 13⟩⟩, ⟨.rightBracket, "]", 13, 14, ⟨1, 14⟩⟩]
  have hts : Token.ofText "a f('b':c),[d]" = .ok (ts ++ [⟨.eof, "", 14, 14, ⟨1, 15⟩⟩]) := by decide +kernel
  have hplain {t : Token} {us : List Token} (ht : t.kind ∈ [.word, .space, .string, .colon, .comma]) (hus : Nested us) :
      Nested (t :: us) := by
    refine .token ⟨?_, ?_⟩ ⟨?_, ?_⟩ hus <;> (rintro hk; rw [hk] at ht; revert ht; decide)
  have hgroup : Nested [⟨.string, "'b'", 4, 7, ⟨1, 5⟩⟩, ⟨.colon, ":", 7, 8, ⟨1, 8⟩⟩, ⟨.word, "c", 8, 9, ⟨1, 9⟩⟩] :=
    hplain (by decide) (hplain (by decide) (hplain (by decide) .nil))
  have hlist : Nested [⟨.word, "d", 12, 13, ⟨1, 13⟩⟩] := hplain (by decide) .nil
  have hnested : Nested ts := hplain (by decide) (hplain (by decide) (hplain (by decide)
    (.parens rfl hgroup rfl (hplain (by decide) (.brackets rfl hlist rfl .nil)))))
  obtain ⟨hdense, harguments⟩ := leaves_of_nested hnested
  have hscan : argumentsFrom [] 0 [] false ts = ([.text "a, f('b':c)", .list [.text "d"]], false) := by cbv
  have htaken : dense (takenChars 0 ts) = "af('b':c)d".toList := by decide
  rw [hscan] at harguments
  rw [hscan, htaken] at hdense
  have hcall : arguments ts = [.text "a, f('b':c)", .list [.text "d"]] := harguments rfl
  exact ⟨_, hts, hnested, hcall, (congrArg (fun as => dense (leafChars as)) hcall).trans hdense⟩

end Scan
end Mixsheet
