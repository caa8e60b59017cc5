import Mathlib
import Mixsheet.Proofs.Expansion.InOrder

/-! # Where the statements of an expansion stand

The declarations and rules that a mixin puts out stand at its call, and the errors of a call are there too. The texts
that it puts out keep to themselves: their statements stand where they do in the text, and so does the fault of a text
that is no stylesheet. -/

namespace Mixsheet

/-- Where an error shows. -/
def ProcessError.position : ProcessError → Position
  | .parse error => error.position
  | .mixin _ position _ => position
  | .unfinished _ position => position

namespace Expansion

open Evaluation Node

/-! ### Texts of mixins -/

/-- A text is among what a call comes to. -/
inductive PutsText : Outcome → String → Prop where
  | intro {output : MixinOutput} {css : String} (mem : .raw css ∈ output.nodes) : PutsText (.output output) css

/-- A statement, at any depth, of a text that a call comes to. -/
inductive OfText (outcome : Outcome) (n : Node) : Prop where
  | intro {css : String} {sheet : Stylesheet} (text : PutsText outcome css) (parsed : Stylesheet.parse css = .ok sheet)
    (mem : n ∈ statementsAll sheet.nodes)

/-- What a call ends an expansion with: an error at the call, or one in a text that it comes to. -/
inductive EndsWith (call : MixinCall) (outcome : Outcome) : ProcessError → Prop where
  | failed {cause : MixinError} (fails : outcome = .failed cause) :
    EndsWith call outcome (.mixin call.name call.source.start cause)
  | unfinished (deep : outcome = .unfinished) : EndsWith call outcome (.unfinished call.name call.source.start)
  | text {css : String} {e : ParseError} (text_ : PutsText outcome css) (fault : Stylesheet.parse css = .error e) :
    EndsWith call outcome (.parse e)

theorem mem_rawStatements {css : String} {n : Node} : n ∈ statementsAll (rawStatements css) ↔
    ∃ sheet, Stylesheet.parse css = .ok sheet ∧ n ∈ statementsAll sheet.nodes := by
  unfold rawStatements
  cases Stylesheet.parse css with
  | error e => simp [statementsAll]
  | ok sheet => simp

theorem source_of_declarationNode {source : Source} {ds : List Declaration} {n : Node}
    (h : n ∈ statementsAll (ds.map (declarationNode source))) : n.source = source := by
  obtain ⟨m, hm, hn⟩ := mem_statementsAll.mp h
  obtain ⟨d, -, rfl⟩ := List.mem_map.mp hm
  obtain rfl := List.mem_singleton.mp hn
  rfl

/-- A statement for one of a mixin stands at the call, or the mixin puts out the text that it is of. -/
theorem source_of_statementsOf {source : Source} {output : OutputNode} {n : Node}
    (h : n ∈ statementsAll (statementsOf source output)) :
    n.source = source ∨ ∃ css, output = .raw css ∧ n ∈ statementsAll (rawStatements css) := by
  cases output with
  | declaration d => exact .inl (@source_of_declarationNode _ [d] _ h)
  | rule selector ds =>
    obtain ⟨m, hm, hn⟩ := mem_statementsAll.mp h
    obtain rfl := List.mem_singleton.mp hm
    rcases List.mem_cons.mp hn with rfl | hn
    · exact .inl rfl
    · exact .inl (source_of_declarationNode hn)
  | raw css => exact .inr ⟨css, rfl, h⟩

theorem statementsAll_flatMap {α : Type} (f : α → List Node) (xs : List α) {n : Node} :
    n ∈ statementsAll (xs.flatMap f) ↔ ∃ x ∈ xs, n ∈ statementsAll (f x) := by
  induction xs with
  | nil => simp [statementsAll]
  | cons x xs ih => simp [statementsAll_append, ih]

variable {call : MixinCall} {outcome : Outcome}

theorem source_of_substitutes {n : Node} (h : n ∈ statementsAll (substitutes call outcome)) :
    n.source = call.source ∨ OfText outcome n := by
  cases outcome with
  | unresolved | failed | unfinished => cases h
  | output output =>
    obtain ⟨o, ho, hn⟩ := (statementsAll_flatMap _ _).mp h
    rcases source_of_statementsOf hn with hsource | ⟨css, rfl, hn⟩
    · exact .inl hsource
    · obtain ⟨sheet, hparse, hn⟩ := mem_rawStatements.mp hn
      exact .inr ⟨⟨ho⟩, hparse, hn⟩

theorem OfText.mem_substitutes {n : Node} (h : OfText outcome n) (call : MixinCall) :
    n ∈ statementsAll (substitutes call outcome) := by
  obtain ⟨⟨ho⟩, hparse, hn⟩ := h
  exact (statementsAll_flatMap _ _).mpr ⟨_, ho, mem_rawStatements.mpr ⟨_, hparse, hn⟩⟩

theorem endsWith_of_failure? {e : ProcessError} (h : failure? call outcome = some e) : EndsWith call outcome e := by
  cases outcome with
  | unresolved => cases h
  | failed cause =>
    obtain rfl := Option.some.inj h
    exact .failed rfl
  | unfinished =>
    obtain rfl := Option.some.inj h
    exact .unfinished rfl
  | output output =>
    obtain ⟨e, hraw, rfl⟩ := Option.map_eq_some_iff.mp h
    obtain ⟨o, ho, herror⟩ := List.exists_of_findSome?_eq_some hraw
    cases o with
    | declaration | rule => cases herror
    | raw css =>
      refine .text ⟨ho⟩ ?_
      rw [rawError?] at herror
      split at herror
      · cases herror
      · rename_i hparse
        rw [hparse, Option.some.inj herror]

/-! ### Expansion -/

/-- Each call gives way to statements that stand where the call does, and to those of texts, which stand where they do
in their text. So all of them stand at the call just if the ones of texts happen to. What an expansion ends with is at
a call too, unless it is the fault of a text. -/
theorem expand_positions (p : Processor) (sheet : Stylesheet) :
    (∀ e, p.expand sheet = .ok e →
      e.nodes = substituteAll (fun call => substitutes call (p.evaluate call)) sheet.nodes ∧
      ∀ call ∈ calls sheet.nodes,
        (∀ n ∈ statementsAll (substitutes call (p.evaluate call)), n.source = call.source ∨ OfText (p.evaluate call) n) ∧
        ((∀ n ∈ statementsAll (substitutes call (p.evaluate call)), n.source = call.source) ↔
          ∀ n, OfText (p.evaluate call) n → n.source = call.source)) ∧
    ∀ error, p.expand sheet = .error error → ∃ call ∈ calls sheet.nodes, EndsWith call (p.evaluate call) error := by
  have hexpand : p.expand sheet = inOrder p.evaluate sheet.nodes := expand_eq ..
  rw [hexpand, inOrder]
  split
  · rename_i failure hfailure
    constructor
    · rintro e ⟨⟩
    · rintro error ⟨⟩
      obtain ⟨call, hcall, hfails⟩ := List.exists_of_findSome?_eq_some hfailure
      exact ⟨call, hcall, endsWith_of_failure? hfails⟩
  · constructor
    · rintro e ⟨⟩
      refine ⟨rfl, fun call _ => ⟨fun n hn => source_of_substitutes hn, ?_, ?_⟩⟩
      · exact fun hsource n hn => hsource n (hn.mem_substitutes call)
      · exact fun htexts n hn => (source_of_substitutes hn).elim id (htexts n)
    · rintro error ⟨⟩

/-- A call in the third line of a text. -/
def callBelow : MixinCall := ⟨"m", [], "\n\n  ", "()", ⟨⟨3, 3⟩, ⟨3, 6⟩⟩⟩

/-- The stylesheet of one call on the third line. -/
def thirdLine : Stylesheet := ⟨[.call callBelow]⟩

/-- A processor whose mixin puts out a declaration and a text. -/
def texting (css : String) : Processor :=
  ⟨Registry.empty.register "m" ⟨fun _ _ => pure (.many [.declaration ⟨"x", "y"⟩, .raw css])⟩, .standard, 1⟩

theorem expand_texting : (texting "a\x7bb:c\x7d").expand thirdLine = .ok ⟨[.declaration "x" "y" ⟨⟨3, 3⟩, ⟨3, 6⟩⟩,
    .rule "a" [.declaration "b" "c" ⟨⟨1, 3⟩, ⟨1, 5⟩⟩] ⟨⟨1, 1⟩, ⟨1, 6⟩⟩], []⟩ := by cbv

theorem expand_texting_error : (texting "a\x7b").expand thirdLine = .error (.parse ⟨.unclosedBlock, ⟨1, 2⟩⟩) := by cbv

/-- The declaration stands at the call and the rule in its text, and so does the fault of a text that ends early. -/
theorem expand_positions_of_text :
    (∃ e, (texting "a\x7bb:c\x7d").expand thirdLine = .ok e ∧
      e.nodes.map Node.source = [callBelow.source, ⟨⟨1, 1⟩, ⟨1, 6⟩⟩] ∧
      ∀ n ∈ statementsAll e.nodes, n.source = callBelow.source ∨
        OfText ((texting "a\x7bb:c\x7d").evaluate callBelow) n) ∧
    ∃ error, (texting "a\x7b").expand thirdLine = .error error ∧
      EndsWith callBelow ((texting "a\x7b").evaluate callBelow) error := by
  obtain ⟨hok, -⟩ := expand_positions (texting "a\x7bb:c\x7d") thirdLine
  obtain ⟨-, herror⟩ := expand_positions (texting "a\x7b") thirdLine
  obtain ⟨hnodes, hstands⟩ := hok _ expand_texting
  obtain ⟨call, hcall, hends⟩ := herror _ expand_texting_error
  obtain rfl := List.mem_singleton.mp hcall
  refine ⟨⟨_, expand_texting, rfl, fun n hn => ?_⟩, _, expand_texting_error, hends⟩
  rw [hnodes] at hn
  refine (hstands callBelow List.mem_cons_self).1 n ?_
  rwa [thirdLine, substituteAll, substituteAll, substitute, List.append_nil] at hn

/-- Not all that a call gives way to stands at the call, and not all errors are at a call. -/
theorem expand_positions_fails :
    (¬ ∀ (p : Processor) (sheet : Stylesheet), (∀ call ∈ calls sheet.nodes, p.evaluate call ≠ .unfinished) →
      ∀ e, p.expand sheet = .ok e → ∃ put, e.nodes = substituteAll put sheet.nodes ∧
        ∀ call ∈ calls sheet.nodes, ∀ n ∈ statementsAll (put call), n.source = call.source) ∧
    ¬ ∀ (p : Processor) (sheet : Stylesheet), (∀ call ∈ calls sheet.nodes, p.evaluate call ≠ .unfinished) →
      ∀ error, p.expand sheet = .error error → ∃ call ∈ calls sheet.nodes, error.position = call.source.start := by
  have hends (css : String) : ∀ call ∈ calls thirdLine.nodes, (texting css).evaluate call ≠ .unfinished := by
    intro call hcall
    obtain rfl := List.mem_singleton.mp hcall
    exact nofun
  constructor
  · intro h
    obtain ⟨put, hnodes, hput⟩ := h _ _ (hends _) _ expand_texting
    rw [thirdLine, substituteAll, substituteAll, substitute, List.append_nil] at hnodes
    have hrule := hput callBelow List.mem_cons_self
      (.rule "a" [.declaration "b" "c" ⟨⟨1, 3⟩, ⟨1, 5⟩⟩] ⟨⟨1, 1⟩, ⟨1, 6⟩⟩) (by simp [← hnodes, statementsAll, statements])
    exact absurd hrule (by decide)
  · intro h
    obtain ⟨call, hcall, hposition⟩ := h _ _ (hends _) _ expand_texting_error
    obtain rfl := List.mem_singleton.mp hcall
    exact absurd hposition (by decide)

end Expansion
end Mixsheet
