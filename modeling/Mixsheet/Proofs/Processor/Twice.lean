import Mathlib
import Mixsheet.Proofs.Catalog.Output
import Mixsheet.Proofs.Catalog.ReadBack
import Mixsheet.Proofs.Expansion.InOrder

/-! # Processing twice

The text of an expansion has no mixin calls. When it is read as the expanded stylesheet again, a second
run changes nothing. That is so if the texts of the arguments of mixins and of the units may be values of
declarations. Else a text may end the declaration that it is put into, and it is not so either if brackets are
left open in the statements of the stylesheet itself. -/

namespace Mixsheet

open Node Expansion

/-! ### Legible expansions -/

section Substitution

variable {f : MixinCall → List Node}

mutual

theorem legible_substitute : ∀ node : Node, (∀ n ∈ node.statements, n.call? = none → n.Legible) →
    (∀ c ∈ calls [node], ∀ n ∈ statementsAll (f c), n.Legible) →
    ∀ n ∈ statementsAll (node.substitute f), n.Legible
  | .rule selector nodes source, h, hf => by
    rw [calls_rule] at hf
    rw [substitute, statementsAll, statementsAll, List.append_nil, statements]
    obtain ⟨hrule, hnodes⟩ := List.forall_mem_cons.mp h
    exact List.forall_mem_cons.mpr ⟨hrule rfl, legible_substituteAll nodes hnodes hf⟩
  | .atBlock name params nodes source, h, hf => by
    rw [calls_atBlock] at hf
    rw [substitute, statementsAll, statementsAll, List.append_nil, statements]
    obtain ⟨hblock, hnodes⟩ := List.forall_mem_cons.mp h
    exact List.forall_mem_cons.mpr ⟨hblock rfl, legible_substituteAll nodes hnodes hf⟩
  | .atStatement name params source, h, _ =>
    List.forall_mem_singleton.mpr (List.forall_mem_singleton.mp h rfl)
  | .declaration prop value source, h, _ =>
    List.forall_mem_singleton.mpr (List.forall_mem_singleton.mp h rfl)
  | .comment text source, h, _ =>
    List.forall_mem_singleton.mpr (List.forall_mem_singleton.mp h rfl)
  | .call c, _, hf => hf c List.mem_cons_self

/-- Legible statements in the place of the calls leave legible statements. -/
theorem legible_substituteAll : ∀ nodes : List Node,
    (∀ n ∈ statementsAll nodes, n.call? = none → n.Legible) →
    (∀ c ∈ calls nodes, ∀ n ∈ statementsAll (f c), n.Legible) →
    ∀ n ∈ statementsAll (substituteAll f nodes), n.Legible
  | [], _, _ => nofun
  | node :: rest, h, hf => by
    rw [calls_cons, ← calls_singleton] at hf
    obtain ⟨hnode, hrest⟩ := List.forall_mem_append.mp h
    obtain ⟨hfnode, hfrest⟩ := List.forall_mem_append.mp hf
    rw [substituteAll, statementsAll_append]
    exact List.forall_mem_append.mpr
      ⟨legible_substitute node hnode hfnode, legible_substituteAll rest hrest hfrest⟩

end

end Substitution

/-! ### Statements of mixins -/

theorem legible_declarationNode {d : Declaration} (h : d.ReadsBack) (source : Source) :
    (declarationNode source d).Legible := leads_of_readsBack h

/-- The selector of the rule of `clearfix` is read wherever it stands. -/
theorem legible_after (nodes : List Node) (source : Source) : (Node.rule "&:after" nodes source).Legible := by
  have hparse : Stylesheet.parse "&:after\x7b\x7d" = .ok ⟨[.rule "&:after" [] ⟨⟨1, 1⟩, ⟨1, 9⟩⟩]⟩ := by cbv
  exact sound_of_parse hparse (.rule "&:after" [] ⟨⟨1, 1⟩, ⟨1, 9⟩⟩) List.mem_cons_self rfl trivial

theorem legible_statementsOf {source : Source} {node : OutputNode} (hplain : node.Plain) (hback : node.ReadsBack) :
    ∀ n ∈ statementsAll (statementsOf source node), n.Legible := by
  have hall : ∀ ds : List Declaration, (∀ d ∈ ds, d.ReadsBack) →
      ∀ n ∈ statementsAll (ds.map (declarationNode source)), n.Legible := by
    intro ds hds
    induction ds with
    | nil => exact nofun
    | cons d ds ih =>
      obtain ⟨hd, hds⟩ := List.forall_mem_cons.mp hds
      exact List.forall_mem_cons.mpr ⟨legible_declarationNode hd source, ih hds⟩
  cases node with
  | declaration d => exact hall [d] (List.forall_mem_singleton.mpr hback)
  | rule selector ds =>
    obtain rfl : selector = "&:after" := hplain
    rw [statementsOf, statementsAll, statementsAll, List.append_nil, statements]
    exact List.forall_mem_cons.mpr ⟨legible_after _ source, hall ds hback⟩
  | raw css => exact hplain.elim

/-- What takes the place of a call is legible, if the declarations in it are read back. -/
theorem legible_substitutes {call : MixinCall} {outcome : Evaluation.Outcome}
    (hplain : ∀ output, outcome = .output output → output.Plain)
    (hback : ∀ output, outcome = .output output → output.ReadsBack) :
    ∀ n ∈ statementsAll (substitutes call outcome), n.Legible := by
  cases outcome with
  | unresolved | unfinished => exact List.forall_mem_nil _
  | failed cause => exact List.forall_mem_nil _
  | output output =>
    have hplain := hplain output rfl
    have hback := hback output rfl
    rw [MixinOutput.Plain] at hplain
    rw [MixinOutput.ReadsBack] at hback
    rw [substitutes]
    generalize output.nodes = nodes at hplain hback
    induction nodes with
    | nil => exact List.forall_mem_nil _
    | cons node nodes ih =>
      obtain ⟨hnode, hnodes⟩ := List.forall_mem_cons.mp hplain
      obtain ⟨hbnode, hbnodes⟩ := List.forall_mem_cons.mp hback
      rw [List.flatMap_cons, statementsAll_append]
      exact List.forall_mem_append.mpr ⟨legible_statementsOf hnode hbnode, ih hnodes hbnodes⟩

/-! ### Runs -/

/-- A run is successful if its text is a stylesheet and none of its calls fails. -/
theorem exists_of_run {text css : String} {units : Units} {warnings : List Warning}
    (h : run text units = .ok (css, warnings)) : ∃ sheet e, Stylesheet.parse text = .ok sheet ∧
      inOrder (Processor.standard.withUnits units).evaluate sheet.nodes = .ok e ∧
      e.render = css ∧ e.warnings = warnings := by
  obtain ⟨e, he, hcss⟩ := map_eq_ok_iff.mp h
  obtain ⟨hrender, hwarnings⟩ := Prod.mk.inj hcss
  obtain ⟨sheet, hsheet, he⟩ := exists_of_process he
  rw [Processor.expand, expand_eq] at he
  exact ⟨sheet, e, hsheet, he, hrender, hwarnings⟩

/-- A text without mixin calls is written anew by a run. -/
theorem run_of_calls {text : String} {sheet : Stylesheet} (h : Stylesheet.parse text = .ok sheet)
    (hcalls : calls sheet.nodes = []) (units : Units) : run text units = .ok (sheet.render, []) := by
  rw [run, Processor.process, h]
  dsimp only
  rw [Processor.expand, expand_eq, inOrder, hcalls, substituteAll_of_calls sheet.nodes hcalls]
  rfl

theorem calls_of_legible {nodes : List Node} (h : ∀ n ∈ statementsAll nodes, n.Legible) : calls nodes = [] := by
  refine List.filterMap_eq_nil_iff.mpr fun n hn => ?_
  cases n with
  | call c => exact (h _ hn).elim
  | _ => rfl

/-- The text of legible statements is left as it is by a run. -/
theorem run_of_legible {nodes : List Node} (h : ∀ n ∈ statementsAll nodes, n.Legible) (units : Units) :
    run (Stylesheet.render ⟨nodes⟩) units = .ok (Stylesheet.render ⟨nodes⟩, []) := by
  obtain ⟨sheet, hparse, hbare⟩ := @parse_render_of_legible ⟨nodes⟩ h
  have hcalls : calls sheet.nodes = [] := by
    have hmap := congrArg (fun sheet => calls sheet.nodes) hbare
    simp only [Stylesheet.calls_bare, calls_of_legible h, List.map_nil, List.map_eq_nil_iff] at hmap
    exact hmap
  have hrender : sheet.render = Stylesheet.render ⟨nodes⟩ := by
    rw [← Stylesheet.render_bare, hbare, Stylesheet.render_bare]
  rw [run_of_calls hparse hcalls units, hrender]

/-! ### Calls of `color` -/

/-- The property that `color` declares for a text that is no plain number has this text as its value. -/
theorem evaluate_color {units : Units} {call : MixinCall} {s : String} (hname : call.name = "color")
    (hargs : call.arguments = [.text s]) (hne : s ≠ "")
    (hs : (s.toList.all fun c => c.isDigit || c == '.') = false) :
    (Processor.standard.withUnits units).evaluate call = .output (.ofDeclaration ⟨"color", s⟩) := by
  have hplain := Decimal.readPlain?_eq_none hs
  have hmem : ("color", Catalog.single "color") ∈ Catalog.mixins .standard := by simp [Catalog.mixins]
  refine Catalog.evaluate_of_done hmem hname ?_ 4095
  have hget : (Args.ofArguments call.arguments).get 0 = .text s := by
    rw [hargs]
    exact Value.ofText_eq_text hne hplain
  change Catalog.declare _ "color" ((Args.ofArguments call.arguments).get 0) = _
  rw [hget]
  change Script.done (.ok (MixinOutput.ofDeclaration ⟨"color", units.apply (.text s) (some "color")⟩)) = _
  rw [Units.apply_text hplain]

/-- A run of a text that is one call gives what the call gives way to. -/
theorem run_of_call {text : String} {call : MixinCall} (h : Stylesheet.parse text = .ok ⟨[.call call]⟩)
    {units : Units} {d : Declaration}
    (hd : (Processor.standard.withUnits units).evaluate call = .output (.ofDeclaration d)) :
    run text units = .ok (Stylesheet.render ⟨[declarationNode call.source d]⟩, []) := by
  rw [Processor.evaluate] at hd
  rw [run, Processor.process, h]
  dsimp only
  rw [Processor.expand, expand, expandNodes, expandNode, hd]
  rfl

/-- The call `color(…);` at the start of a text, with one text as its argument. -/
def colorCall (s : String) (column : Nat) : MixinCall :=
  ⟨"color", [.text s], "", "(" ++ s ++ ")", ⟨⟨1, 1⟩, ⟨1, column⟩⟩⟩

/-! ### A second run -/

/-- The texts of the arguments of the call may be put into declarations by its mixin. -/
def MixinCall.Tame (call : MixinCall) : Prop := (Args.ofArguments call.arguments).TameFor call.name

/-- The declaration is read back from its own line. -/
def Node.ReadsBack : Node → Prop
  | .declaration prop value _ => Declaration.ReadsBack ⟨prop, value⟩
  | _ => False

theorem Node.ReadsBack.legible {node : Node} (h : node.ReadsBack) : node.Legible := by
  cases node with
  | declaration prop value source => exact legible_declarationNode h source
  | _ => exact h.elim

/-- The text of a run is left as it is by another run, without warnings, if no bracket of the statements that were read
is left open, or the declaration is read back nonetheless, and if the arguments of each call and the units are tame, or
the declarations that the call puts out are read back nonetheless. -/
theorem run_run {text css : String} {units : Units} {warnings : List Warning} {sheet : Stylesheet}
    (h : run text units = .ok (css, warnings)) (hsheet : Stylesheet.parse text = .ok sheet)
    (hstatements : ∀ n ∈ statementsAll sheet.nodes, n.Delimited ∨ n.ReadsBack)
    (hcalls : ∀ call ∈ calls sheet.nodes, units.Tame ∧ call.Tame ∨ ∀ output,
      (Processor.standard.withUnits units).evaluate call = .output output → output.ReadsBack) :
    run css units = .ok (css, []) := by
  obtain ⟨sheet', e, hsheet', he, rfl, -⟩ := exists_of_run h
  obtain rfl := Except.ok.inj (hsheet.symm.trans hsheet')
  -- each statement of the expansion is one of the text, or one that a mixin puts out
  obtain rfl := expanded_of_inOrder he
  refine run_of_legible (legible_substituteAll sheet.nodes (fun n hn hcall => ?_) fun c hc => ?_) units
  · rcases hstatements n hn with hdelimited | hback
    · exact sound_of_parse hsheet n hn hcall hdelimited
    · exact hback.legible
  · refine legible_substitutes (fun output ho => ?_) fun output ho => ?_
    · exact Evaluation.output_of_evaluate (Catalog.every_registry .standard) ho
    · rcases hcalls c hc with ⟨hu, htame⟩ | hback
      · exact Catalog.readsBack_of_evaluate Theme.tame_standard hu htame ho
      · exact hback output ho

theorem Units.tame_standard : Units.standard.Tame := ⟨isValue_of_word rfl, isValue_of_word rfl⟩

/-- The call `left(10);` behind a declaration in a rule. -/
def leftCall : MixinCall := ⟨"left", [.text "10"], "", "(10)", ⟨⟨1, 12⟩, ⟨1, 20⟩⟩⟩

/-- The rule of `p{a[b:c]:d;left(10);}`. -/
def leftRule : Node :=
  .rule "p" [.declaration "a[b" "c]:d" ⟨⟨1, 3⟩, ⟨1, 10⟩⟩, .call leftCall] ⟨⟨1, 1⟩, ⟨1, 21⟩⟩

theorem tame_leftCall : leftCall.Tame := by
  have hargs : Args.ofArguments leftCall.arguments = .one (.number 10) := congrArg Args.one Value.ofText_ten
  rw [MixinCall.Tame, hargs]
  exact ⟨Args.tame_one (isValue_number 10) rfl, nofun, nofun⟩

theorem closesParens_left : ClosesParens "a[b" := by
  intro ts hts
  have hread : Token.ofText "a[b" = .ok [⟨.word, "a", 0, 1, ⟨1, 1⟩⟩, ⟨.leftBracket, "[", 1, 2, ⟨1, 2⟩⟩,
    ⟨.word, "b", 2, 3, ⟨1, 3⟩⟩, ⟨.eof, "", 3, 3, ⟨1, 4⟩⟩] := by decide +kernel
  obtain rfl := Except.ok.inj (hread.symm.trans hts)
  exact ⟨nofun, nofun, nofun, trivial⟩

/-- A declaration that is cut inside brackets, and a call whose value takes a unit. -/
theorem run_run_of_left : Stylesheet.parse "p\x7ba[b:c]:d;left(10);\x7d" = .ok ⟨[leftRule]⟩ ∧
    (∀ n ∈ statementsAll [leftRule], n.Delimited ∨ n.ReadsBack) ∧
    (∀ call ∈ calls [leftRule], Units.standard.Tame ∧ call.Tame) ∧
    run "p\x7ba[b:c]:d;left(10);\x7d" .standard = .ok ("p \x7b\n  a[b: c]:d;\n  left: 10rem;\n\x7d\n", []) ∧
    run "p \x7b\n  a[b: c]:d;\n  left: 10rem;\n\x7d\n" .standard =
      .ok ("p \x7b\n  a[b: c]:d;\n  left: 10rem;\n\x7d\n", []) := by
  have hparse : Stylesheet.parse "p\x7ba[b:c]:d;left(10);\x7d" = .ok ⟨[leftRule]⟩ := by cbv
  have hleft : (Processor.standard.withUnits .standard).evaluate leftCall =
      .output (.ofDeclaration ⟨"left", "10rem"⟩) := Catalog.evaluate_left_ten rfl rfl 4095
  have hrun : run "p\x7ba[b:c]:d;left(10);\x7d" .standard =
      .ok ("p \x7b\n  a[b: c]:d;\n  left: 10rem;\n\x7d\n", []) := by
    rw [Processor.evaluate] at hleft
    rw [run, Processor.process, hparse]
    simp only [Processor.expand, expand, leftRule, expandNodes, expandNode, hleft]
    rfl
  have hstatements : ∀ n ∈ statementsAll [leftRule], n.Delimited ∨ n.ReadsBack := by
    simp [leftRule, statementsAll, statements, Delimited, closesParens_left]
  have hcalls : ∀ call ∈ calls [leftRule], Units.standard.Tame ∧ call.Tame :=
    List.forall_mem_singleton.mpr ⟨Units.tame_standard, tame_leftCall⟩
  exact ⟨hparse, hstatements, hcalls, hrun, run_run hrun hparse hstatements fun c hc => .inl (hcalls c hc)⟩

/-- A second run changes the text when an argument with a semicolon ends the declaration that it is put
into, when an open bracket takes the semicolon behind it into the parameters of an at-rule, and when an
open bracket of a property is one with the value on the line that is written. -/
theorem run_run_fails :
    (run "color(red;x:y);" .standard = .ok ("color: red;x:y;\n", []) ∧
      run "color: red;x:y;\n" .standard = .ok ("color: red;\n\nx: y;\n", [])) ∧
    (run "@a (" .standard = .ok ("@a (;\n", []) ∧ run "@a (;\n" .standard = .ok ("@a (;;\n", [])) ∧
    (run "a(\n:b):c;" .standard = .ok ("a(: b):c;\n", []) ∧
      run "a(: b):c;\n" .standard = .ok ("a(: b): c;\n", [])) ∧
    ¬∀ (text css : String) (units : Units) (warnings : List Warning),
      run text units = .ok (css, warnings) → run css units = .ok (css, []) := by
  have hparse : Stylesheet.parse "color(red;x:y);" = .ok ⟨[.call (colorCall "red;x:y" 15)]⟩ := by cbv
  have hcolor := @evaluate_color .standard (colorCall "red;x:y" 15) _ rfl rfl (by decide) rfl
  have hfirst : run "color(red;x:y);" .standard = .ok ("color: red;x:y;\n", []) := run_of_call hparse hcolor
  have hsecond : run "color: red;x:y;\n" .standard = .ok ("color: red;\n\nx: y;\n", []) := by cbv
  refine ⟨⟨hfirst, hsecond⟩, ⟨by cbv, by cbv⟩, ⟨by cbv, by cbv⟩, fun h => ?_⟩
  have hsame := hsecond.symm.trans (h _ _ _ _ hfirst)
  exact absurd (Except.ok.inj hsame) (by decide)

end Mixsheet
