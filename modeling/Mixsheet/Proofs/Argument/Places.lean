import Mixsheet.Argument.OfTokens
import Mixsheet.Proofs.Token.Reads

/-! # Arguments and the places of tokens

The arguments of a call are made from the kinds and the texts of its tokens; where the tokens stand does
not matter. -/

namespace Mixsheet

open Token

namespace Token

theorem chars_map_bare (ts : List Token) : chars (ts.map bare) = chars ts := List.flatMap_map ..

theorem join_map_bare (ts : List Token) : join (ts.map bare) = join ts := by
  rw [join, chars_map_bare, join]

@[simp] theorem kind_bare (t : Token) : t.bare.kind = t.kind := rfl

@[simp] theorem text_bare (t : Token) : t.bare.text = t.text := rfl

theorem dropTriviaEnd_map_bare (ts : List Token) : dropTriviaEnd (ts.map bare) = (dropTriviaEnd ts).map bare := by
  rw [dropTriviaEnd, ← List.map_reverse, List.dropWhile_map, ← List.map_reverse]
  rfl

theorem trimTrivia_map_bare (ts : List Token) : trimTrivia (ts.map bare) = (trimTrivia ts).map bare := by
  rw [trimTrivia, dropTrivia, List.dropWhile_map, dropTriviaEnd_map_bare]
  rfl

end Token

namespace Scan

theorem splitList_map_bare (depth : Nat) (ts : List Token) :
    splitList depth (ts.map bare) = ((splitList depth ts).1.map bare, (splitList depth ts).2.map bare) := by
  induction ts generalizing depth with
  | nil => rfl
  | cons t ts ih =>
    by_cases h : t.kind = .rightBracket ∧ depth = 0
    · simp [splitList, h]
    · simp [splitList, h, ih]

theorem continuesStack_map_bare (before : List Token) (arguments : List Argument) :
    continuesStack (before.map bare) arguments = continuesStack before arguments := by
  match before, arguments with
  | [], _ => rfl
  | [_], _ => rfl
  | _ :: _ :: _, [] => rfl
  | _ :: _ :: _, .text _ :: _ => rfl
  | _ :: _ :: _, .list _ :: _ => rfl
  | _ :: _ :: _, .map _ :: _ => rfl

/-- A `[` outside functions starts a list, which ends before the `]` that closes it. -/
theorem argumentsFrom_leftBracket {t : Token} (ht : t.kind = .leftBracket) (before : List Token)
    (arguments : List Argument) (keyed : Bool) (rest : List Token) :
    argumentsFrom before 0 arguments keyed (t :: rest) =
      match (splitList 0 rest).2 with
      | [] => ((.list (argumentsFrom [] 0 [] false (splitList 0 rest).1).1 :: arguments).reverse, keyed)
      | close :: rest' =>
        argumentsFrom (close :: ((splitList 0 rest).1.reverse ++ t :: before)) 0
          (.list (argumentsFrom [] 0 [] false (splitList 0 rest).1).1 :: arguments) keyed rest' := by
  rw [argumentsFrom, if_neg (Nat.lt_irrefl 0)]
  simp only [ht]
  split <;> simp_all

theorem argumentsFrom_map_bare (before : List Token) (depth : Nat) (arguments : List Argument)
    (keyed : Bool) (ts : List Token) :
    argumentsFrom (before.map bare) depth arguments keyed (ts.map bare) =
      argumentsFrom before depth arguments keyed ts := by
  induction hn : ts.length using Nat.strongRecOn generalizing before depth arguments keyed ts with
  | ind n ih =>
    cases ts with
    | nil => simp [argumentsFrom]
    | cons t rest =>
      rw [List.length_cons] at hn
      by_cases hlist : t.kind = .leftBracket ∧ depth = 0
      · obtain ⟨ht, rfl⟩ := hlist
        have hlength := splitList_length 0 rest
        have hinner := ih (splitList 0 rest).1.length (by omega) [] 0 [] false _ rfl
        rw [List.map_nil] at hinner
        have ht' : t.bare.kind = .leftBracket := ht
        rw [List.map_cons, argumentsFrom_leftBracket ht, argumentsFrom_leftBracket ht', splitList_map_bare, hinner]
        cases hs : (splitList 0 rest).2 with
        | nil => rfl
        | cons close rest' =>
          rw [hs, List.length_cons] at hlength
          have := ih rest'.length (by omega) (close :: ((splitList 0 rest).1.reverse ++ t :: before)) 0
            (.list (argumentsFrom [] 0 [] false (splitList 0 rest).1).1 :: arguments) keyed rest' rfl
          simpa using this
      · have hstep : ∀ depth arguments keyed,
            argumentsFrom (t.bare :: before.map bare) depth arguments keyed (rest.map bare) =
              argumentsFrom (t :: before) depth arguments keyed rest := fun depth arguments keyed =>
          ih rest.length (by omega) (t :: before) depth arguments keyed rest rfl
        have hword : (before.map bare).head?.any (·.kind == .word) = before.head?.any (·.kind == .word) := by
          cases before <;> rfl
        rw [List.map_cons, argumentsFrom, argumentsFrom]
        simp only [kind_bare, text_bare, continuesStack_map_bare, hstep, hword]
        split
        · rfl
        · rename_i hd
          split <;> first | rfl | exact absurd ⟨‹_›, Nat.eq_zero_of_not_pos hd⟩ hlist

theorem arguments_map_bare (ts : List Token) : arguments (ts.map bare) = arguments ts := by
  have := argumentsFrom_map_bare [] 0 [] false ts
  rw [List.map_nil] at this
  rw [arguments, arguments, this]

end Scan

namespace Argument

theorem dropClosing_map_bare (ts : List Token) : dropClosing (ts.map bare) = (dropClosing ts).map bare := by
  have h : (ts.map bare).getLast?.any (·.kind == .rightParen) = ts.getLast?.any (·.kind == .rightParen) := by
    rw [List.getLast?_map]
    cases ts.getLast? <;> rfl
  rw [dropClosing, dropClosing, h]
  split
  · rw [List.map_dropLast]
  · rfl

theorem ofTokens_map_bare (ts : List Token) : ofTokens (ts.map bare) = ofTokens ts := by
  rw [ofTokens, trimTrivia_map_bare, ofTokens]
  cases trimTrivia ts with
  | nil => rfl
  | cons t rest =>
    have h := Scan.arguments_map_bare (t :: rest)
    rw [List.map_cons] at h
    simp only [List.map_cons, kind_bare, text_bare, List.map_eq_nil_iff, dropClosing_map_bare,
      Scan.arguments_map_bare, h]

end Argument
end Mixsheet
