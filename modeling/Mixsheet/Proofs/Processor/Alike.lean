import Mathlib
import Mixsheet.Processor
import Mixsheet.Proofs.Catalog.Alike

/-! # Runs under two settings of the units

The built-in mixins make of a stylesheet the same statements and warnings, or the same error, under any two settings
of the units, but for the units behind the values of declarations. -/

namespace Mixsheet

section Trees

variable (u₁ u₂ : Units)

/-- The statements are of the same kind at the same position and have the same parts, but for the values of
declarations, which are alike. -/
inductive Node.Alike : Node → Node → Prop where
  | rule (selector : String) {nodes nodes' : List Node} (source : Source) (block : List.Forall₂ Alike nodes nodes') :
    Alike (.rule selector nodes source) (.rule selector nodes' source)
  | atBlock (name params : String) {nodes nodes' : List Node} (source : Source)
    (block : List.Forall₂ Alike nodes nodes') :
    Alike (.atBlock name params nodes source) (.atBlock name params nodes' source)
  | atStatement (name params : String) (source : Source) :
    Alike (.atStatement name params source) (.atStatement name params source)
  | declaration (prop : String) {value value' : String} (source : Source) (values : u₁.Alike u₂ value value') :
    Alike (.declaration prop value source) (.declaration prop value' source)
  | comment (text : String) (source : Source) : Alike (.comment text source) (.comment text source)
  | call (c : MixinCall) : Alike (.call c) (.call c)

/-- The warnings are the same, and the trees differ in nothing but the unit behind some values. -/
structure Expanded.Alike (d e : Expanded) : Prop where
  warnings : d.warnings = e.warnings
  nodes : List.Forall₂ (Node.Alike u₁ u₂) d.nodes e.nodes

end Trees

variable {u₁ u₂ : Units}

mutual

theorem Node.alike_refl : ∀ node : Node, node.Alike u₁ u₂ node
  | .rule selector nodes source => .rule selector source (Node.forall₂_alike_refl nodes)
  | .atBlock name params nodes source => .atBlock name params source (Node.forall₂_alike_refl nodes)
  | .atStatement name params source => .atStatement name params source
  | .declaration prop value source => .declaration prop source (.same value)
  | .comment text source => .comment text source
  | .call c => .call c

theorem Node.forall₂_alike_refl : ∀ nodes : List Node, List.Forall₂ (Node.Alike u₁ u₂) nodes nodes
  | [] => .nil
  | node :: rest => .cons (Node.alike_refl node) (Node.forall₂_alike_refl rest)

end

/-! ### Runs of mixins -/

/-- A call comes to the same under both settings, or to outputs that are alike. -/
inductive Evaluation.Outcome.Alike (u₁ u₂ : Units) : Outcome → Outcome → Prop where
  | unresolved : Alike u₁ u₂ .unresolved .unresolved
  | output {o p : MixinOutput} (alike : o.Alike u₁ u₂ p) : Alike u₁ u₂ (.output o) (.output p)
  | failed (e : MixinError) : Alike u₁ u₂ (.failed e) (.failed e)
  | unfinished : Alike u₁ u₂ .unfinished .unfinished

namespace Catalog

open Evaluation

variable {theme : Theme}

/-- A built-in mixin that is run under both settings gives the same error, or outputs that are alike. -/
theorem run?_alike (h₁ : u₁.Proper) (h₂ : u₂.Proper) {m : Listed} (hm : m ∈ mixins theme) {a b : Args}
    (h : Args.Alike u₁ u₂ m.1 a b) (depth : Nat) :
    Option.Rel (Agree (MixinOutput.Alike u₁ u₂)) (run? (registry theme) u₁ depth ⟨⟨m.2⟩, registry theme⟩ a)
      (run? (registry theme) u₂ depth ⟨⟨m.2⟩, registry theme⟩ b) := by
  induction depth generalizing m a b with
  | zero => exact .none
  | succ depth ih =>
    rw [run?, run?]
    -- what a mixin calls runs one level below, and is a built-in mixin again
    refine (matched_mixins h₁ h₂ hm ⟨(registry theme).outline, (registry theme).outline, u₁⟩ h).perform? ?_
    intro name a b hhanded
    cases hfound : find? (registry theme) (registry theme) name with
    | none => exact .some (.error _)
    | some next =>
      have hresolved : (registry theme).resolve? name = some next := by
        rwa [find?, Option.or_self] at hfound
      obtain ⟨m', hm', rfl, rfl⟩ := exists_of_resolve? hresolved
      exact ih hm' hhanded

theorem evaluate_alike (theme : Theme) (h₁ : u₁.Proper) (h₂ : u₂.Proper) (depth : Nat) (call : MixinCall) :
    (evaluate (registry theme) u₁ depth call).Alike u₁ u₂ (evaluate (registry theme) u₂ depth call) := by
  unfold evaluate
  cases hfound : (registry theme).resolve? call.name with
  | none => exact .unresolved
  | some found =>
    obtain ⟨m, hm, -, rfl⟩ := exists_of_resolve? hfound
    have hrun := run?_alike h₁ h₂ hm (.same m.1 (Args.ofArguments call.arguments)) depth
    dsimp only
    generalize run? (registry theme) u₁ depth _ _ = x at hrun ⊢
    generalize run? (registry theme) u₂ depth _ _ = y at hrun ⊢
    cases hrun with
    | none => exact .unfinished
    | some results =>
      cases results with
      | ok alike => exact .output alike
      | error e => exact .failed e

end Catalog

/-! ### Expansion -/

namespace Expansion

open Evaluation

theorem alike_declarationNode (source : Source) {d e : Declaration} (h : d.Alike u₁ u₂ e) :
    Node.Alike u₁ u₂ (declarationNode source d) (declarationNode source e) := by
  rw [declarationNode, declarationNode, h.prop]
  exact .declaration e.prop source h.value

theorem nodesOfOutput_alike (source : Source) {o p : OutputNode} (h : o.Alike u₁ u₂ p) :
    Agree (List.Forall₂ (Node.Alike u₁ u₂)) (nodesOfOutput source o) (nodesOfOutput source p) := by
  cases h with
  | declaration alike => exact .ok (.cons (alike_declarationNode source alike) .nil)
  | rule selector alike =>
    refine .ok (.cons (.rule selector source ?_) .nil)
    exact List.forall₂_map_left_iff.mpr (List.forall₂_map_right_iff.mpr
      (alike.imp fun _ _ => alike_declarationNode source))
  | raw css =>
    rw [nodesOfOutput]
    cases Stylesheet.parse css with
    | ok sheet => exact .ok (Node.forall₂_alike_refl sheet.nodes)
    | error e => exact .error e

theorem nodesOfOutputs_alike (source : Source) {os ps : List OutputNode}
    (h : List.Forall₂ (OutputNode.Alike u₁ u₂) os ps) :
    Agree (List.Forall₂ (Node.Alike u₁ u₂)) (nodesOfOutputs source os) (nodesOfOutputs source ps) := by
  induction h with
  | nil => exact .ok .nil
  | cons first rest ih =>
    refine (nodesOfOutput_alike source first).bind fun ns ms hnodes => ?_
    exact ih.bind fun ns' ms' hrest => .ok (List.rel_append hnodes hrest)

theorem replacement_alike (call : MixinCall) {x y : Outcome} (h : x.Alike u₁ u₂ y) :
    Agree (Expanded.Alike u₁ u₂) (replacement call x) (replacement call y) := by
  cases h with
  | unresolved => exact .ok ⟨rfl, .nil⟩
  | failed e => exact .error _
  | unfinished => exact .error _
  | @output o p alike =>
    have hnodes := nodesOfOutputs_alike call.source alike
    rw [replacement, replacement]
    generalize nodesOfOutputs call.source o.nodes = ns at hnodes ⊢
    generalize nodesOfOutputs call.source p.nodes = ms at hnodes ⊢
    cases hnodes with
    | ok related => exact .ok ⟨rfl, related⟩
    | error e => exact .error _

variable {f g : MixinCall → Except ProcessError Expanded}

mutual

theorem expandNode_alike (h : ∀ call, Agree (Expanded.Alike u₁ u₂) (f call) (g call)) :
    ∀ node : Node, Agree (Expanded.Alike u₁ u₂) (expandNode f node) (expandNode g node)
  | .rule selector nodes source => by
    rw [expandNode, expandNode]
    exact (expandNodes_alike h nodes).bind fun d e hde =>
      .ok ⟨hde.warnings, .cons (.rule selector source hde.nodes) .nil⟩
  | .atBlock name params nodes source => by
    rw [expandNode, expandNode]
    exact (expandNodes_alike h nodes).bind fun d e hde =>
      .ok ⟨hde.warnings, .cons (.atBlock name params source hde.nodes) .nil⟩
  | .atStatement name params source => .ok ⟨rfl, .cons (.atStatement name params source) .nil⟩
  | .declaration prop value source => .ok ⟨rfl, .cons (.declaration prop source (.same value)) .nil⟩
  | .comment text source => .ok ⟨rfl, .cons (.comment text source) .nil⟩
  | .call c => h c

/-- Statements whose calls give way to statements that are alike become alike. -/
theorem expandNodes_alike (h : ∀ call, Agree (Expanded.Alike u₁ u₂) (f call) (g call)) :
    ∀ nodes : List Node, Agree (Expanded.Alike u₁ u₂) (expandNodes f nodes) (expandNodes g nodes)
  | [] => .ok ⟨rfl, .nil⟩
  | node :: rest => by
    rw [expandNodes, expandNodes]
    refine (expandNode_alike h node).bind fun d e hde => (expandNodes_alike h rest).bind fun d' e' hde' => ?_
    exact .ok ⟨by rw [hde.warnings, hde'.warnings], List.rel_append hde.nodes hde'.nodes⟩

end

end Expansion

/-- Under any two settings of the units, each of which is empty or has a character that is no digit and no point, a
run with the built-in mixins gives the same error, or the same warnings and trees that differ in nothing but the unit
behind some values of declarations. -/
theorem Processor.process_alike (theme : Theme) (depth : Nat) (h₁ : u₁.Proper) (h₂ : u₂.Proper) (text : String) :
    Agree (Expanded.Alike u₁ u₂) (Processor.process ⟨Catalog.registry theme, u₁, depth⟩ text)
      (Processor.process ⟨Catalog.registry theme, u₂, depth⟩ text) := by
  unfold process
  cases Stylesheet.parse text with
  | error e => exact .error _
  | ok sheet =>
    exact Expansion.expandNodes_alike (fun call =>
      Expansion.replacement_alike call (Catalog.evaluate_alike theme h₁ h₂ depth call)) sheet.nodes

/-- A call whose value takes a unit and one that leaves a warning, with one unit of either setting left empty. -/
theorem Processor.process_alike_of_left : Units.Proper ⟨"px", ""⟩ ∧ Units.Proper ⟨"", "%"⟩ ∧ ∃ d e,
    Processor.process ⟨Catalog.registry .standard, ⟨"px", ""⟩, 1⟩ "left(10);x();" = .ok d ∧
    Processor.process ⟨Catalog.registry .standard, ⟨"", "%"⟩, 1⟩ "left(10);x();" = .ok e ∧
    d.nodes = [.declaration "left" "10px" ⟨⟨1, 1⟩, ⟨1, 9⟩⟩] ∧ e.nodes = [.declaration "left" "10" ⟨⟨1, 1⟩, ⟨1, 9⟩⟩] ∧
    d.warnings = [⟨"Mixin not found.", "x", ⟨1, 10⟩⟩] ∧ d.Alike ⟨"px", ""⟩ ⟨"", "%"⟩ e := by
  have h₁ : Units.Proper ⟨"px", ""⟩ := ⟨.inr ⟨'p', by simp, rfl, by simp⟩, .inl rfl⟩
  have h₂ : Units.Proper ⟨"", "%"⟩ := ⟨.inl rfl, .inr ⟨'%', by simp, rfl, by simp⟩⟩
  have hparse : Stylesheet.parse "left(10);x();" = .ok ⟨[.call ⟨"left", [.text "10"], "", "(10)", ⟨⟨1, 1⟩, ⟨1, 9⟩⟩⟩,
      .call ⟨"x", [], "", "()", ⟨⟨1, 10⟩, ⟨1, 13⟩⟩⟩]⟩ := by cbv
  have hrun : ∀ units : Units, Processor.process ⟨Catalog.registry .standard, units, 1⟩ "left(10);x();" =
      .ok ⟨[.declaration "left" ("10" ++ units.general) ⟨⟨1, 1⟩, ⟨1, 9⟩⟩], [⟨"Mixin not found.", "x", ⟨1, 10⟩⟩]⟩ := by
    intro units
    have hleft := @Catalog.evaluate_left_ten .standard units ⟨"left", [.text "10"], "", "(10)", ⟨⟨1, 1⟩, ⟨1, 9⟩⟩⟩
      rfl rfl 0
    rw [Processor.process, hparse]
    simp only [Processor.expand, Expansion.expand, Expansion.expandNodes, Expansion.expandNode, hleft]
    rfl
  have halike := Processor.process_alike .standard 1 h₁ h₂ "left(10);x();"
  rw [hrun, hrun] at halike
  cases halike with
  | ok halike => exact ⟨h₁, h₂, _, _, hrun _, hrun _, rfl, rfl, rfl, halike⟩

end Mixsheet
