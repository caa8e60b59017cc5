import Mixsheet.Node.OfTokens
import Mixsheet.Node.Render
import Mixsheet.Proofs.Argument.Places
import Mixsheet.Proofs.Node.Segment
import Mixsheet.Proofs.Node.Statements

/-! # Stylesheets and the places of tokens

A stylesheet without its places is made from the kinds and the texts of its tokens: tokens at other
places make the same stylesheet but for the places of its statements. The text of a stylesheet does not
depend on them. -/

namespace Mixsheet

open Token

/-! ### Statements without their places -/

/-- A mixin call without its place. -/
def MixinCall.bare (call : MixinCall) : MixinCall := { call with source := .none }

namespace Node

mutual

/-- A statement and those in its block without their places. -/
def bare : Node → Node
  | .rule selector nodes _ => .rule selector (bareAll nodes) .none
  | .atBlock name params nodes _ => .atBlock name params (bareAll nodes) .none
  | .atStatement name params _ => .atStatement name params .none
  | .declaration prop value _ => .declaration prop value .none
  | .comment text _ => .comment text .none
  | .call c => .call c.bare

/-- The statements of a block without their places. -/
def bareAll : List Node → List Node
  | [] => []
  | node :: rest => node.bare :: bareAll rest

end

theorem bareAll_eq_map (nodes : List Node) : bareAll nodes = nodes.map bare := by
  induction nodes with
  | nil => rfl
  | cons node rest ih => rw [bareAll, ih, List.map_cons]

mutual

theorem render_bare : ∀ (depth : Nat) (node : Node), node.bare.render depth = node.render depth
  | depth, .rule selector nodes source => by
    rw [bare, render, render, renderAll_bareAll (depth + 1) nodes, bareAll_eq_map, List.isEmpty_map]
  | depth, .atBlock name params nodes source => by
    rw [bare, render, render, renderAll_bareAll (depth + 1) nodes, bareAll_eq_map, List.isEmpty_map]
  | depth, .atStatement name params source => rfl
  | depth, .declaration prop value source => rfl
  | depth, .comment text source => rfl
  | depth, .call c => rfl

theorem renderAll_bareAll : ∀ (depth : Nat) (nodes : List Node),
    renderAll depth (bareAll nodes) = renderAll depth nodes
  | depth, [] => rfl
  | depth, node :: rest => by
    rw [bareAll, renderAll, renderAll, render_bare depth node, renderAll_bareAll depth rest]

end

mutual

theorem statements_bare : ∀ node : Node, node.bare.statements = node.statements.map bare
  | .rule selector nodes source => by rw [bare, statements, statements, statementsAll_bareAll nodes]; rfl
  | .atBlock name params nodes source => by rw [bare, statements, statements, statementsAll_bareAll nodes]; rfl
  | .atStatement name params source => rfl
  | .declaration prop value source => rfl
  | .comment text source => rfl
  | .call c => rfl

theorem statementsAll_bareAll : ∀ nodes : List Node, statementsAll (bareAll nodes) = (statementsAll nodes).map bare
  | [] => rfl
  | node :: rest => by
    rw [bareAll, statementsAll, statementsAll, statements_bare node, statementsAll_bareAll rest, List.map_append]

end

mutual

theorem calls_bare : ∀ node : Node, calls [node.bare] = (calls [node]).map MixinCall.bare
  | .rule selector nodes source => by rw [bare, calls_rule, calls_rule, calls_bareAll nodes]
  | .atBlock name params nodes source => by rw [bare, calls_atBlock, calls_atBlock, calls_bareAll nodes]
  | .atStatement name params source => rfl
  | .declaration prop value source => rfl
  | .comment text source => rfl
  | .call c => rfl

theorem calls_bareAll : ∀ nodes : List Node, calls (bareAll nodes) = (calls nodes).map MixinCall.bare
  | [] => rfl
  | node :: rest => by
    rw [bareAll, calls_cons, ← calls_singleton, calls_bare node, calls_bareAll rest, calls_cons node rest,
      List.map_append, calls_singleton]

end

end Node

/-- The stylesheet without places. -/
def Stylesheet.bare (sheet : Stylesheet) : Stylesheet := ⟨sheet.nodes.map Node.bare⟩

theorem Stylesheet.calls_bare (sheet : Stylesheet) :
    Node.calls sheet.bare.nodes = (Node.calls sheet.nodes).map MixinCall.bare := by
  rw [bare, ← Node.bareAll_eq_map, Node.calls_bareAll]

/-- The text of a stylesheet does not depend on the places of its statements. -/
theorem Stylesheet.render_bare (sheet : Stylesheet) : sheet.bare.render = sheet.render := by
  have : Node.render 0 ∘ Node.bare = Node.render 0 := funext fun node => Node.render_bare 0 node
  rw [bare, render, List.map_map, this, render]

/-! ### Segments -/

/-- The ending without its place. -/
def Ending.bare : Ending → Ending
  | .semicolon _ => .semicolon .none
  | .block _ => .block .none
  | .last => .last

namespace Segment

/-- The segment without places. -/
def bare : Segment → Segment
  | .space text => .space text
  | .semicolon => .semicolon
  | .comment t => .comment t.bare
  | .close _ => .close .none
  | .atRule word params ending => .atRule word.bare (params.map Token.bare) ending.bare
  | .statement _ head ending => .statement .none (head.map Token.bare) ending.bare

theorem missing_bare (closers : List TokenKind) (t : Token) : missing closers t.bare = missing closers t := rfl

theorem splitHead_map_bare (closers : List TokenKind) (ts : List Token) :
    splitHead closers (ts.map Token.bare) =
      ((splitHead closers ts).1.map Token.bare, (splitHead closers ts).2.map Token.bare) := by
  induction ts generalizing closers with
  | nil => rfl
  | cons t ts ih =>
    rw [List.map_cons, splitHead, splitHead, ih, missing_bare]
    by_cases h : closers = [] ∧ isStop t = true
    · rw [if_pos h]
      exact if_pos h
    · rw [if_neg h]
      exact if_neg h

theorem splitParams_map_bare (depth : Nat) (ts : List Token) :
    splitParams depth (ts.map Token.bare) =
      ((splitParams depth ts).1.map Token.bare, (splitParams depth ts).2.map Token.bare) := by
  induction ts generalizing depth with
  | nil => rfl
  | cons t ts ih =>
    rw [List.map_cons, splitParams, splitParams, ih]
    by_cases h : depth = 0 ∧ isStop t = true
    · rw [if_pos h]
      exact if_pos h
    · rw [if_neg h]
      exact if_neg h

theorem splitEnding_map_bare (ts : List Token) :
    splitEnding (ts.map Token.bare) = ((splitEnding ts).1.bare, (splitEnding ts).2.map Token.bare) := by
  cases ts with
  | nil => rfl
  | cons t ts =>
    rw [List.map_cons, splitEnding, splitEnding, kind_bare]
    split <;> rfl

theorem unclosed?_map_bare (closers : List TokenKind) (opened? : Option Token) (ts : List Token) :
    unclosed? closers (opened?.map Token.bare) (ts.map Token.bare) =
      (unclosed? closers opened? ts).map Token.bare := by
  induction ts generalizing closers opened? with
  | nil =>
    rw [List.map_nil, unclosed?, unclosed?]
    split <;> rfl
  | cons t ts ih =>
    rw [List.map_cons, unclosed?, unclosed?, ← ih, missing_bare]
    split <;> rfl

theorem outside_map_bare (closers : List TokenKind) (ts : List Token) :
    outside closers (ts.map Token.bare) = (outside closers ts).map Token.bare := by
  induction ts generalizing closers with
  | nil => rfl
  | cons t ts ih =>
    rw [List.map_cons, outside, outside, missing_bare, ih]
    split <;> rfl

theorem ofTokens_map_bare (ts : List Token) : ofTokens (ts.map Token.bare) = (ofTokens ts).map bare := by
  induction ts using ofTokens_induction with
  | nil => rw [List.map_nil, ofTokens_nil, List.map_nil]
  | one t rest hs ha ih =>
    rw [List.map_cons]
    cases hk : t.kind with
    | space => rw [ofTokens_space hk, ofTokens_space (t := t.bare) hk, ih]; rfl
    | semicolon => rw [ofTokens_semicolon hk, ofTokens_semicolon (t := t.bare) hk, ih]; rfl
    | comment => rw [ofTokens_comment hk, ofTokens_comment (t := t.bare) hk, ih]; rfl
    | leftBrace => rw [ofTokens_leftBrace hk, ofTokens_leftBrace (t := t.bare) hk, ih]; rfl
    | rightBrace => rw [ofTokens_rightBrace hk, ofTokens_rightBrace (t := t.bare) hk, ih]; rfl
    | atWord => exact absurd hk ha
    | _ => rw [hk] at hs; cases hs
  | atRule t rest ht ih =>
    rw [List.map_cons, ofTokens_atWord ht, ofTokens_atWord (t := t.bare) ht, splitParams_map_bare,
      splitEnding_map_bare, ih]
    rfl
  | head t rest hs ih =>
    rw [List.map_cons, ofTokens_head hs, ofTokens_head (t := t.bare) hs, ← List.map_cons,
      splitHead_map_bare, splitEnding_map_bare, ih]
    rfl

end Segment

/-! ### Statements from segments -/

/-- A result without places, that of an error among them. -/
def withoutPlaces {α β : Type} (f : α → β) : Except ParseError α → Except ParseError β
  | .ok a => .ok (f a)
  | .error e => .error ⟨e.fault, .none⟩

namespace Node

theorem trimmedText_map_bare (ts : List Token) : trimmedText (ts.map Token.bare) = trimmedText ts := by
  rw [trimmedText, join_map_bare, trimmedText]

theorem hasColon_map_bare (ts : List Token) : hasColon (ts.map Token.bare) = hasColon ts := by
  rw [hasColon, Segment.outside_map_bare, List.any_map]
  rfl

theorem hasBrackets_map_bare (ts : List Token) : hasBrackets (ts.map Token.bare) = hasBrackets ts := by
  rw [hasBrackets, List.any_map]
  rfl

theorem lastPosition_map_bare (ts : List Token) : lastPosition .none (ts.map Token.bare) = .none := by
  rw [lastPosition, List.getLast?_map]
  cases ts.getLast? <;> rfl

theorem declarationOf_map_bare (start : Position) (ts : List Token) :
    declarationOf .none (ts.map Token.bare) = withoutPlaces bare (declarationOf start ts) := by
  unfold declarationOf
  rw [List.takeWhile_map, List.dropWhile_map, ← List.map_drop, trimmedText_map_bare,
    trimmedText_map_bare, lastPosition_map_bare]
  dsimp only
  split <;> split <;> first | rfl | contradiction

theorem callOf_map_bare (spaces : String) (start : Position) (ts : List Token) (stop : Position) :
    callOf spaces .none (ts.map Token.bare) .none = withoutPlaces bare (callOf spaces start ts stop) := by
  have htake : (ts.map Token.bare).takeWhile (·.kind != .word) =
      (ts.takeWhile (·.kind != .word)).map Token.bare := List.takeWhile_map ..
  have hdrop : (ts.map Token.bare).dropWhile (·.kind != .word) =
      (ts.dropWhile (·.kind != .word)).map Token.bare := List.dropWhile_map ..
  rw [callOf, htake, hdrop, join_map_bare, callOf]
  cases ts.dropWhile (·.kind != .word) with
  | nil => rfl
  | cons name rest =>
    rw [List.map_cons]
    dsimp only
    rw [Argument.ofTokens_map_bare, join_map_bare]
    rfl

/-- The open block without places. -/
def OpenBlock.bare (block : OpenBlock) : OpenBlock := ⟨block.header, .none, .none, block.before.map Node.bare⟩

namespace Progress

/-- What is read, without places. -/
def bare (p : Progress) : Progress := ⟨p.spaces, p.nodes.map Node.bare, p.blocks.map OpenBlock.bare⟩

theorem map_add_bare (p : Progress) (result : Except ParseError Node) :
    (withoutPlaces Node.bare result).map p.bare.add = withoutPlaces bare (result.map p.add) := by
  cases result <;> rfl

theorem close_bare (p : Progress) (position : Position) :
    p.bare.close .none = withoutPlaces bare (p.close position) := by
  unfold close bare
  cases p.blocks with
  | nil => rfl
  | cons block blocks =>
    obtain ⟨header, start, brace, before⟩ := block
    cases header <;>
      simp [withoutPlaces, OpenBlock.bare, Header.node, Node.bare, bareAll_eq_map, Source.none]

theorem statement_bare (p : Progress) (start : Position) (head : List Token) (ending : Ending) :
    p.bare.statement .none (head.map Token.bare) ending.bare =
      withoutPlaces bare (p.statement start head ending) := by
  cases ending with
  | block brace =>
    rw [Ending.bare, statement, statement, trimmedText_map_bare]
    rfl
  | semicolon stop =>
    rw [Ending.bare, statement, statement, hasColon_map_bare, hasBrackets_map_bare,
      declarationOf_map_bare start, callOf_map_bare _ start _ stop]
    split
    · exact map_add_bare p _
    split
    · exact map_add_bare p _
    · rfl
  | last =>
    have hun := Segment.unclosed?_map_bare [] none head
    rw [Option.map_none] at hun
    rw [Ending.bare, statement, statement, hun]
    cases Segment.unclosed? [] none head with
    | some t => rfl
    | none =>
      rw [Option.map_none]
      dsimp only
      rw [dropTriviaEnd_map_bare, hasColon_map_bare, hasBrackets_map_bare, declarationOf_map_bare start,
        lastPosition_map_bare]
      split
      · exact map_add_bare p _
      split <;> rfl

theorem step_bare (p : Progress) (s : Segment) : p.bare.step s.bare = withoutPlaces bare (p.step s) := by
  cases s with
  | space text => rfl
  | semicolon => rfl
  | comment t => rfl
  | close position => exact close_bare p position
  | atRule word params ending =>
    have hlast : lastPosition word.bare.position (params.map Token.bare) = .none := lastPosition_map_bare params
    cases ending <;> simp [Segment.bare, Ending.bare, step, atRule, trimmedText_map_bare, hlast] <;> rfl
  | statement start head ending => exact statement_bare p start head ending

theorem run_bare (p : Progress) (segments : List Segment) :
    p.bare.run (segments.map Segment.bare) = withoutPlaces bare (p.run segments) := by
  induction segments generalizing p with
  | nil => rfl
  | cons s rest ih =>
    rw [List.map_cons, run, run, step_bare]
    cases p.step s with
    | error e => rfl
    | ok q => exact ih q

theorem finish_bare (p : Progress) : p.bare.finish = withoutPlaces (List.map Node.bare) p.finish := by
  unfold finish bare
  cases p.blocks with
  | nil => simp [withoutPlaces]
  | cons block blocks => rfl

end Progress

/-- Tokens at other places make the same statements but for their places. -/
theorem ofTokens_map_bare (ts : List Token) :
    ofTokens (ts.map Token.bare) = withoutPlaces (List.map bare) (ofTokens ts) := by
  have h := Progress.run_bare .initial (Segment.ofTokens ts)
  rw [ofTokens, Segment.ofTokens_map_bare, ofTokens]
  have hinitial : Progress.initial.bare = .initial := rfl
  rw [hinitial] at h
  rw [h]
  cases Progress.initial.run (Segment.ofTokens ts) with
  | error e => rfl
  | ok p => exact p.finish_bare

end Node
end Mixsheet
