import Mathlib.Data.List.Basic
import Mixsheet.Processor
import Mixsheet.Proofs.Evaluation
import Mixsheet.Proofs.Except
import Mixsheet.Proofs.Node.Statements

/-! # Expansion in document order

What an expansion gives is read off the calls of a stylesheet in document order. The first call that
fails gives the error. When none fails, each call gives way to the statements of its mixin where it
stood, each unresolved one leaves its warning, and all else of the tree stays. -/

namespace Mixsheet.Expansion

open Evaluation Node

/-! ### What one call gives -/

/-- The statements that a text of a mixin stands for; a text that is no stylesheet has none. -/
def rawStatements (css : String) : List Node :=
  match Stylesheet.parse css with
  | .ok sheet => sheet.nodes
  | .error _ => []

/-- The statements that one returned by a mixin stands for. -/
def statementsOf (source : Source) : OutputNode → List Node
  | .declaration d => [declarationNode source d]
  | .rule selector ds => [.rule selector (ds.map (declarationNode source)) source]
  | .raw css => rawStatements css

/-- What is wrong with a statement that a mixin returns. -/
def rawError? : OutputNode → Option ParseError
  | .declaration _ | .rule _ _ => none
  | .raw css =>
    match Stylesheet.parse css with
    | .ok _ => none
    | .error e => some e

/-- The statements that a call gives way to. -/
def substitutes (call : MixinCall) : Outcome → List Node
  | .output output => output.nodes.flatMap (statementsOf call.source)
  | .unresolved | .failed _ | .unfinished => []

/-- The error that a call ends the expansion with. -/
def failure? (call : MixinCall) : Outcome → Option ProcessError
  | .unresolved => none
  | .output output => (output.nodes.findSome? rawError?).map .parse
  | .failed cause => some (.mixin call.name call.source.start cause)
  | .unfinished => some (.unfinished call.name call.source.start)

/-- The warnings that a call leaves. -/
def warnings (call : MixinCall) : Outcome → List Warning
  | .unresolved => [.notFound call]
  | .output _ | .failed _ | .unfinished => []

/-- The calls in the texts of a mixin. -/
def rawCalls : Outcome → List MixinCall
  | .output output => output.nodes.flatMap fun
    | .raw css => calls (rawStatements css)
    | .declaration _ | .rule _ _ => []
  | .unresolved | .failed _ | .unfinished => []

theorem nodesOfOutput_eq (source : Source) (output : OutputNode) :
    nodesOfOutput source output =
      match rawError? output with
      | some e => .error e
      | none => .ok (statementsOf source output) := by
  cases output with
  | declaration d => rfl
  | rule selector ds => rfl
  | raw css =>
    rw [nodesOfOutput, rawError?, statementsOf, rawStatements]
    cases Stylesheet.parse css <;> rfl

theorem nodesOfOutputs_eq (source : Source) (outputs : List OutputNode) :
    nodesOfOutputs source outputs =
      match outputs.findSome? rawError? with
      | some e => .error e
      | none => .ok (outputs.flatMap (statementsOf source)) := by
  induction outputs with
  | nil => rfl
  | cons output rest ih =>
    rw [nodesOfOutputs, nodesOfOutput_eq, ih, List.findSome?_cons, List.flatMap_cons]
    cases rawError? output with
    | some e => rfl
    | none => cases rest.findSome? rawError? <;> rfl

/-- A call gives its error, or its statements and warnings. -/
theorem replacement_eq (call : MixinCall) (outcome : Outcome) :
    replacement call outcome =
      match failure? call outcome with
      | some e => .error e
      | none => .ok ⟨substitutes call outcome, warnings call outcome⟩ := by
  cases outcome with
  | unresolved => rfl
  | failed cause => rfl
  | unfinished => rfl
  | output output =>
    rw [replacement, nodesOfOutputs_eq, failure?]
    cases hf : output.nodes.findSome? rawError? <;> rfl

/-! ### What a stylesheet gives -/

/-- The expansion of statements, read off their calls in document order. -/
def inOrder (outcome : MixinCall → Outcome) (nodes : List Node) : Except ProcessError Expanded :=
  match (calls nodes).findSome? fun c => failure? c (outcome c) with
  | some e => .error e
  | none =>
    .ok ⟨substituteAll (fun c => substitutes c (outcome c)) nodes,
      (calls nodes).flatMap fun c => warnings c (outcome c)⟩

section Trees

variable (outcome : MixinCall → Outcome)

theorem inOrder_singleton_of_calls {nodes : List Node} {node : Node} (wrap : List Node → Node)
    (hcalls : calls [node] = calls nodes)
    (hsubst : ∀ f, substituteAll f [node] = [wrap (substituteAll f nodes)]) :
    inOrder outcome [node] =
      (inOrder outcome nodes).map fun inner => ⟨[wrap inner.nodes], inner.warnings⟩ := by
  unfold inOrder
  rw [hcalls, hsubst]
  cases (calls nodes).findSome? fun c => failure? c (outcome c) <;> rfl

theorem inOrder_cons (node : Node) (rest : List Node) :
    inOrder outcome (node :: rest) = (inOrder outcome [node]).bind fun first =>
      (inOrder outcome rest).map fun others =>
        ⟨first.nodes ++ others.nodes, first.warnings ++ others.warnings⟩ := by
  unfold inOrder
  rw [calls_cons, calls_singleton, List.findSome?_append]
  cases (node.statements.filterMap call?).findSome? fun c => failure? c (outcome c) with
  | some e => rfl
  | none =>
    rw [Option.none_or]
    cases (calls rest).findSome? fun c => failure? c (outcome c) with
    | some e => rfl
    | none => simp [substituteAll, Except.bind, Except.map]

mutual

theorem expandNode_eq : ∀ node : Node,
    expandNode (fun call => replacement call (outcome call)) node = inOrder outcome [node]
  | .rule selector nodes source => by
    rw [expandNode, expandNodes_eq nodes, inOrder_singleton_of_calls outcome
      (fun inner => .rule selector inner source) (calls_rule selector nodes source) fun f => rfl]
    cases inOrder outcome nodes <;> rfl
  | .atBlock name params nodes source => by
    rw [expandNode, expandNodes_eq nodes, inOrder_singleton_of_calls outcome
      (fun inner => .atBlock name params inner source) (calls_atBlock name params nodes source) fun f => rfl]
    cases inOrder outcome nodes <;> rfl
  | .atStatement name params source => rfl
  | .declaration prop value source => rfl
  | .comment text source => rfl
  | .call c => by
    rw [expandNode, replacement_eq, inOrder, calls_call]
    simp only [List.findSome?_cons, List.findSome?_nil, List.flatMap_cons, List.flatMap_nil,
      List.append_nil, substituteAll, substitute]
    cases failure? c (outcome c) <;> rfl

/-- Statements expand to what their calls give in document order. -/
theorem expandNodes_eq : ∀ nodes : List Node,
    expandNodes (fun call => replacement call (outcome call)) nodes = inOrder outcome nodes
  | [] => rfl
  | node :: rest => by
    rw [expandNodes, expandNode_eq node, expandNodes_eq rest, inOrder_cons outcome node rest]
    cases inOrder outcome [node] with
    | error e => rfl
    | ok first => cases inOrder outcome rest <;> rfl

end

/-- An expansion is what its calls come to at its depth, in document order. -/
theorem expand_eq (root : Registry Mixin) (units : Units) (depth : Nat) (sheet : Stylesheet) :
    expand root units depth sheet = inOrder (evaluate root units depth) sheet.nodes :=
  expandNodes_eq _ sheet.nodes

/-- A text that is processed is a stylesheet, and its expansion succeeds. -/
theorem exists_of_process {p : Processor} {text : String} {e : Expanded} (h : p.process text = .ok e) :
    ∃ sheet, Stylesheet.parse text = .ok sheet ∧ p.expand sheet = .ok e := by
  unfold Processor.process at h
  split at h
  · rename_i sheet hsheet
    exact ⟨sheet, hsheet, h⟩
  · cases h

end Trees

theorem findSome?_congr {α β : Type} {f g : α → Option β} {xs : List α} (h : ∀ x ∈ xs, f x = g x) :
    xs.findSome? f = xs.findSome? g := by
  induction xs with
  | nil => rfl
  | cons x xs ih =>
    rw [List.findSome?_cons, List.findSome?_cons, h x List.mem_cons_self,
      ih fun y hy => h y (List.mem_cons_of_mem _ hy)]

/-- Only what the calls of a stylesheet come to matters. -/
theorem inOrder_congr {f g : MixinCall → Outcome} {nodes : List Node} (h : ∀ c ∈ calls nodes, f c = g c) :
    inOrder f nodes = inOrder g nodes := by
  have hfail : (calls nodes).findSome? (fun c => failure? c (f c)) =
      (calls nodes).findSome? fun c => failure? c (g c) := findSome?_congr fun c hc => by rw [h c hc]
  have hsubst : substituteAll (fun c => substitutes c (f c)) nodes =
      substituteAll (fun c => substitutes c (g c)) nodes := substituteAll_congr nodes fun c hc => by rw [h c hc]
  have hwarn : (calls nodes).flatMap (fun c => warnings c (f c)) =
      (calls nodes).flatMap fun c => warnings c (g c) :=
    List.flatMap_congr fun c hc => by rw [h c hc]
  unfold inOrder
  rw [hfail, hsubst, hwarn]

/-! ### The calls that are left -/

theorem calls_map_declarationNode (source : Source) (ds : List Declaration) :
    calls (ds.map (declarationNode source)) = [] := by
  induction ds with
  | nil => rfl
  | cons d ds ih =>
    rw [List.map_cons, calls_cons, ih]
    rfl

theorem calls_flatMap {α : Type} (f : α → List Node) (xs : List α) :
    calls (xs.flatMap f) = xs.flatMap fun x => calls (f x) := by
  induction xs with
  | nil => rfl
  | cons x xs ih => rw [List.flatMap_cons, List.flatMap_cons, calls_append, ih]

/-- Of the statements that a call gives way to, only the ones of a text hold calls. -/
theorem calls_substitutes (call : MixinCall) (outcome : Outcome) :
    calls (substitutes call outcome) = rawCalls outcome := by
  cases outcome with
  | unresolved => rfl
  | failed cause => rfl
  | unfinished => rfl
  | output output =>
    rw [substitutes, rawCalls, calls_flatMap]
    refine List.flatMap_congr fun node _ => ?_
    cases node with
    | declaration d => rfl
    | rule selector ds => rw [statementsOf, calls_rule, calls_map_declarationNode]
    | raw css => rfl

theorem expanded_of_inOrder {outcome : MixinCall → Outcome} {nodes : List Node} {e : Expanded}
    (h : inOrder outcome nodes = .ok e) :
    e = ⟨substituteAll (fun c => substitutes c (outcome c)) nodes,
      (calls nodes).flatMap fun c => warnings c (outcome c)⟩ := by
  unfold inOrder at h
  split at h
  · cases h
  · exact (Except.ok.inj h).symm

theorem calls_of_inOrder {outcome : MixinCall → Outcome} {nodes : List Node} {e : Expanded}
    (h : inOrder outcome nodes = .ok e) :
    calls e.nodes = (calls nodes).flatMap fun c => rawCalls (outcome c) := by
  obtain rfl := expanded_of_inOrder h
  rw [calls_substituteAll]
  exact List.flatMap_congr fun c _ => calls_substitutes c _

/-! ### Expansion -/

/-- When each call of a stylesheet comes to an outcome, the expansion is the one in document order at
every depth at which none nests too deeply, and so from some depth on; the calls that it leaves are
those in the texts of mixins. -/
theorem expand_eq_inOrder {root : Registry Mixin} {units : Units} {sheet : Stylesheet}
    {outcome : MixinCall → Outcome}
    (h : ∀ call ∈ calls sheet.nodes, ComesTo root units call (outcome call)) :
    (∀ depth, (∀ call ∈ calls sheet.nodes, evaluate root units depth call ≠ .unfinished) →
      Processor.expand ⟨root, units, depth⟩ sheet = inOrder outcome sheet.nodes) ∧
    (∃ bound, ∀ depth ≥ bound,
      Processor.expand ⟨root, units, depth⟩ sheet = inOrder outcome sheet.nodes) ∧
    ∀ e, inOrder outcome sheet.nodes = .ok e →
      calls e.nodes = (calls sheet.nodes).flatMap fun call => rawCalls (outcome call) := by
  refine ⟨fun depth hd => ?_, ?_, fun e he => calls_of_inOrder he⟩
  · rw [Processor.expand, expand_eq]
    exact inOrder_congr fun c hc => (h c hc).evaluate_eq (hd c hc)
  · obtain ⟨bound, hb⟩ := ComesTo.eventually_all h
    refine ⟨bound, fun depth hle => ?_⟩
    rw [Processor.expand, expand_eq]
    exact inOrder_congr fun c hc => hb depth hle c hc

/-- A registry with the one mixin `paint`. -/
def paintRegistry : Registry Mixin :=
  Registry.empty.register "paint" ⟨fun _ _ => pure (.ofDeclaration ⟨"color", "red"⟩)⟩

/-- A call without arguments at the start of a text. -/
def callNamed (name : String) : MixinCall := ⟨name, [], "", "()", ⟨.first, .first⟩⟩

/-- A rule with a call that gives a declaration, and a call of a name that no mixin has. -/
theorem expand_eq_inOrder_of_rule :
    (∀ call ∈ calls [.rule "a" [.call (callNamed "paint"), .call (callNamed "print")] .none],
      ComesTo paintRegistry .standard call (evaluate paintRegistry .standard 1 call)) ∧
    ∃ bound, ∀ depth ≥ bound,
      Processor.expand ⟨paintRegistry, .standard, depth⟩
        ⟨[.rule "a" [.call (callNamed "paint"), .call (callNamed "print")] .none]⟩ =
      .ok ⟨[.rule "a" [.declaration "color" "red" ⟨.first, .first⟩] .none],
        [.notFound (callNamed "print")]⟩ := by
  have h : ∀ call ∈ calls [.rule "a" [.call (callNamed "paint"), .call (callNamed "print")] .none],
      ComesTo paintRegistry .standard call (evaluate paintRegistry .standard 1 call) := by
    intro call hc
    rw [calls_rule] at hc
    rcases List.mem_cons.mp hc with rfl | hc
    · exact ⟨nofun, 1, rfl⟩
    · obtain rfl := List.mem_singleton.mp hc
      exact ⟨nofun, 1, rfl⟩
  refine ⟨h, ?_⟩
  obtain ⟨-, ⟨bound, hb⟩, -⟩ := @expand_eq_inOrder _ _ ⟨_⟩ _ h
  exact ⟨bound, fun depth hle => (hb depth hle).trans rfl⟩

end Mixsheet.Expansion
