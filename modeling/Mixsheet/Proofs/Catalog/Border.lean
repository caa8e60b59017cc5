import Mixsheet.Proofs.Catalog.Names
import Mixsheet.Proofs.Color
import Mixsheet.Proofs.Units

/-! # Borders

A border is declared as it is written, on the sides that are named, with the unit behind a plain number. Only a text
that holds a color is changed: `1px solid` is put before it, whether the color is all of the text or a part. -/

namespace Mixsheet.Catalog

open Evaluation Color

/-- The properties of the border on a side, or on both sides of a direction. -/
def borderProperties (side : String) : List String :=
  if side = "vertical" then ["border-left", "border-right"]
  else if side = "horizontal" then ["border-top", "border-bottom"]
  else ["border-" ++ Text.dashCase side]

/-- The output declares the properties with a text as it is, but for the unit behind a plain number. -/
def Declares (units : Units) (properties : List String) (text : String) (output : MixinOutput) : Prop :=
  output.nodes = properties.map fun property =>
    .declaration ⟨property, if Units.isNumber text then text ++ units.general else text⟩

/-- Borders have the general unit. -/
structure TakesGeneral (property : String) : Prop where
  unit : property ∉ Units.unitless
  line : property ≠ "line-height"

theorem takesGeneral_of_head {property : String} (h : property.toList.head? = some 'b') : TakesGeneral property := by
  constructor
  · have hunitless : ∀ p ∈ Units.unitless, p.toList.head? ≠ some 'b' := by decide
    exact fun hmem => hunitless property hmem h
  · rintro rfl
    cases h

theorem head_of_mem_borderProperties {side property : String} (h : property ∈ borderProperties side) :
    property.toList.head? = some 'b' := by
  have hborder : "border-".toList.head? = some 'b' := rfl
  unfold borderProperties at h
  split at h
  · revert property
    decide
  split at h
  · revert property
    decide
  · obtain rfl := List.mem_singleton.mp h
    rw [String.toList_append, List.head?_append, hborder]
    rfl

theorem make_border (units : Units) (text : String) {property : String} (h : TakesGeneral property) :
    Declaration.make units property (.text text) =
      ⟨property, if Units.isNumber text then text ++ units.general else text⟩ := by
  rw [Declaration.make, units.apply_text_eq text h.unit h.line]

theorem declares_declare (scope : Scope) (text : String) : ∃ output,
    declare scope "border" (.text text) = .done (.ok output) ∧ Declares scope.units ["border"] text output := by
  have hmake := make_border scope.units text (@takesGeneral_of_head "border" rfl)
  exact ⟨_, rfl, congrArg (fun d => [OutputNode.declaration d]) hmake⟩

theorem borderOn_eq (scope : Scope) (side text : String) : borderOn scope side text =
    declarations ((borderProperties side).map fun property => scope.declare property (.text text)) := by
  unfold borderOn borderProperties
  split
  · rfl
  split
  · rfl
  · have hgroup : qualified side (some "border") [] = "border-" ++ Text.dashCase side := rfl
    rw [hgroup]
    rfl

theorem declares_borderOn (scope : Scope) (side text : String) : ∃ output,
    borderOn scope side text = .done (.ok output) ∧ Declares scope.units (borderProperties side) text output := by
  rw [borderOn_eq]
  refine ⟨_, rfl, ?_⟩
  rw [Declares, MixinOutput.ofDeclarations, MixinOutput.nodes, List.map_map]
  refine List.map_congr_left fun property hproperty => congrArg OutputNode.declaration ?_
  exact make_border scope.units text (takesGeneral_of_head (head_of_mem_borderProperties hproperty))

/-! ### Texts with and without a color -/

theorem borderOf_eq (text : String) : borderOf text = text ∨ HoldsColor text := by
  by_cases hcolor : occursIn text = true
  · exact .inr (occursIn_eq_true.mp hcolor)
  · exact .inl (if_neg hcolor)

/-- A color has a character that no plain number has. -/
theorem isNumber_of_holdsColor {text : String} (h : HoldsColor text) : Units.isNumber text = false := by
  obtain ⟨front, color, behind, htext, hcolor⟩ := h
  have hmark : ∃ c ∈ color, c = '#' ∨ c = '(' := by
    cases hcolor with
    | hex => exact ⟨'#', List.mem_cons_self, .inl rfl⟩
    | function => exact ⟨'(', by simp, .inr rfl⟩
  obtain ⟨c, hc, hmark⟩ := hmark
  refine Bool.eq_false_iff.mpr fun hnumber => ?_
  have hplain := Units.chars_of_isNumber hnumber c (by rw [htext]; simp [hc])
  rcases hmark with rfl | rfl <;> exact absurd hplain (by decide)

theorem isNumber_solid (text : String) : Units.isNumber (solid text) = false := by
  refine Bool.eq_false_iff.mpr fun hnumber => ?_
  have hplain := Units.chars_of_isNumber hnumber 's' (by simp [solid])
  exact absurd hplain (by decide)

/-- The output declares a text as it is just if no part of it is a color, and else with `1px solid` before it. -/
structure Borders (units : Units) (properties : List String) (text : String) (output : MixinOutput) : Prop where
  kept : Declares units properties text output ↔ ¬ HoldsColor text
  colored : HoldsColor text → Declares units properties (solid text) output

theorem Declares.borders {units : Units} {properties : List String} (hsome : properties ≠ []) {text : String}
    {output : MixinOutput} (h : Declares units properties (borderOf text) output) :
    Borders units properties text output := by
  have hsolid : HoldsColor text → Declares units properties (solid text) output := by
    intro hcolor
    rwa [borderOf, if_pos (occursIn_eq_true.mpr hcolor)] at h
  refine ⟨⟨fun htext hcolor => ?_, fun hcolor => ?_⟩, hsolid⟩
  · have hdeclares := hsolid hcolor
    obtain ⟨property, rest, rfl⟩ := List.exists_cons_of_ne_nil hsome
    rw [Declares, isNumber_solid] at hdeclares
    rw [Declares, isNumber_of_holdsColor hcolor, hdeclares] at htext
    have hvalue : solid text = text := by simpa using congrArg List.head? htext
    have hlength := congrArg String.length hvalue
    simp [solid] at hlength
  · rwa [(borderOf_eq text).resolve_right hcolor] at h

/-! ### The mixin -/

theorem mem_border (theme : Theme) : ("border", border theme) ∈ mixins theme := by simp [mixins]

theorem borderProperties_ne_nil (side : String) : borderProperties side ≠ [] := by
  unfold borderProperties
  split
  · exact List.cons_ne_nil _ _
  · split <;> exact List.cons_ne_nil _ _

theorem exists_border_side (theme : Theme) (units : Units) (depth : Nat) {side : Value}
    (hside : side.isUndefined = false) (value : Value) : ∃ output,
      call? (registry theme) units (depth + 1) "border" ⟨[side, value]⟩ = some (.ok output) ∧
      Borders units (borderProperties side.render) value.render output := by
  let scope : Scope := ⟨(registry theme).outline, (registry theme).outline, units⟩
  obtain ⟨output, hscript, hdeclares⟩ := declares_borderOn scope side.render (borderOf value.render)
  have hborder : border theme scope ⟨[side, value]⟩ = borderOn scope side.render (borderOf value.render) := by
    simp [border, Args.isEmpty, Args.get, Args.size, hside]
  refine ⟨output, ?_, hdeclares.borders (borderProperties_ne_nil _)⟩
  rw [call?_listed (mem_border theme), hborder, hscript]
  rfl

theorem exists_border_value (theme : Theme) (units : Units) (depth : Nat) {value : Value}
    (hvalue : value.isUndefined = false) (hkeyword : value.render ∉ borderKeywords) (hzero : value.render ≠ "0")
    (hnone : value.render ≠ "none") :
    ∃ output, call? (registry theme) units (depth + 1) "border" ⟨[value]⟩ = some (.ok output) ∧
      Borders units ["border"] value.render output := by
  let scope : Scope := ⟨(registry theme).outline, (registry theme).outline, units⟩
  obtain ⟨output, hscript, hdeclares⟩ := declares_declare scope (borderOf value.render)
  have hborder : border theme scope ⟨[value]⟩ = declare scope "border" (.text (borderOf value.render)) := by
    simp [border, Args.isEmpty, Args.get, Args.size, hvalue, hkeyword, hzero, hnone]
  refine ⟨output, ?_, hdeclares.borders (List.cons_ne_nil _ _)⟩
  rw [call?_listed (mem_border theme), hborder, hscript]
  rfl

/-- A border declares a value as it is, on the side or the sides that are named, just if no part of the value is a
color. So does a border of one value, if the value names no side and is not one of those that mean no border. -/
theorem border_borders (theme : Theme) (units : Units) (depth : Nat) (side value : Value)
    (hside : side.isUndefined = false) (hvalue : value.isUndefined = false) :
    (∃ output, call? (registry theme) units (depth + 1) "border" ⟨[side, value]⟩ = some (.ok output) ∧
      Borders units (borderProperties side.render) value.render output) ∧
    (value.render ∉ borderKeywords → value.render ≠ "0" → value.render ≠ "none" →
      ∃ output, call? (registry theme) units (depth + 1) "border" ⟨[value]⟩ = some (.ok output) ∧
        Borders units ["border"] value.render output) :=
  ⟨exists_border_side theme units depth hside value, exists_border_value theme units depth hvalue⟩

/-- A border of several words without a color on two sides, and one of a value without a side. -/
theorem border_borders_of_dashed : ∃ output output',
    call? (registry .standard) .standard 1 "border" ⟨[.text "vertical", .text "2px dashed red"]⟩ = some (.ok output) ∧
    Declares .standard ["border-left", "border-right"] "2px dashed red" output ∧
    call? (registry .standard) .standard 1 "border" ⟨[.text "3"]⟩ = some (.ok output') ∧
    Declares .standard ["border"] "3" output' := by
  obtain ⟨⟨output, hcall, hborders⟩, -⟩ :=
    border_borders .standard .standard 0 (.text "vertical") (.text "2px dashed red") rfl rfl
  obtain ⟨-, hone⟩ := border_borders .standard .standard 0 (.text "vertical") (.text "3") rfl rfl
  obtain ⟨output', hcall', hborders'⟩ := hone (by simp [Value.render, borderKeywords]) (by simp [Value.render])
    (by simp [Value.render])
  have hwords : ¬ HoldsColor "2px dashed red" := fun hcolor => by
    have hfound := occursIn_eq_true.mpr hcolor
    revert hfound
    decide +kernel
  have hnumber : ¬ HoldsColor "3" := fun hcolor => by
    have hfound := occursIn_eq_true.mpr hcolor
    revert hfound
    decide +kernel
  exact ⟨output, output', hcall, hborders.kept.mpr hwords, hcall', hborders'.kept.mpr hnumber⟩

/-- A value that ends with a color is none itself, and yet `1px solid` is put before it. -/
theorem border_keeps_fails : ¬ ∀ (theme : Theme) (units : Units) (depth : Nat) (side value : String),
    ¬ IsColor value.toList → ∃ output,
      call? (registry theme) units (depth + 1) "border" ⟨[.text side, .text value]⟩ = some (.ok output) ∧
      Declares units (borderProperties side) value output := by
  intro h
  have hcolor : ¬ IsColor "1px solid #fff".toList := by
    rw [← matches_pattern, ← Text.Pattern.matchesText_iff]
    decide +kernel
  have hpart : HoldsColor "1px solid #fff" := occursIn_eq_true.mp (by decide +kernel)
  obtain ⟨output, hcall, hdeclares⟩ := h .standard .standard 0 "top" "1px solid #fff" hcolor
  obtain ⟨output', hcall', hborders⟩ :=
    @exists_border_side .standard .standard 0 (.text "top") rfl (.text "1px solid #fff")
  obtain rfl : output = output' := Except.ok.inj (Option.some.inj (hcall.symm.trans hcall'))
  exact hborders.kept.mp hdeclares hpart

end Mixsheet.Catalog
