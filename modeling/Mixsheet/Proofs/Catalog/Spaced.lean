import Mixsheet.Proofs.Catalog.Names
import Mixsheet.Proofs.Units

/-! # The margin below

`spaced` writes a value with its unit and hands the text on to `margin`, which takes it for a value once more. So it
declares what `margin` does of the value itself, unless the text is still a plain number and takes the unit again. -/

namespace Mixsheet

namespace Units

/-- The text of the value, with its unit, is a plain number: of zero, which takes no unit, of a list that is written
like a number, and of a number that goes on in the unit. -/
inductive LeavesNumber (units : Units) : Value → Prop where
  | zero {x : Float} (zero_ : (x == 0) = true) : LeavesNumber units (.number x)
  | list {items : List Value} (plain : isNumber (Value.list items).render = true) : LeavesNumber units (.list items)
  | unit {v : Value} (takes : takesUnit v "" = true) (plain : isNumber (v.render ++ units.general) = true) :
    LeavesNumber units v

variable {units : Units} {v : Value}

theorem takesUnit_of_isNumber (hzero : isZero v = false) (hnumeric : isNumeric v = true)
    (h : isNumber v.render = true) : takesUnit v "" = true := by
  have hblank : v.render.toList.any Text.isBlank = false :=
    List.any_eq_false.mpr fun c hc => by simp [isBlank_of_plain (chars_of_isNumber h c hc)]
  simp [takesUnit, unitless, hzero, hnumeric, hblank, hasUnit_of_isNumber h]

theorem isNumber_bare_iff (hkeyed : v.entries? = none) : isNumber (units.bare v) = true ↔ LeavesNumber units v := by
  constructor
  · intro h
    rw [bare_eq] at h
    split at h
    · rename_i htakes
      exact .unit htakes h
    rename_i htakes
    cases v with
    | undefined => rw [Value.render, isNumber_empty] at h; cases h
    | number x =>
      by_cases hzero : (x == 0) = true
      · exact .zero hzero
      · exact absurd (takesUnit_of_isNumber (v := .number x) (Bool.eq_false_iff.mpr hzero) rfl h) htakes
    | text s => exact absurd (takesUnit_of_isNumber (v := .text s) rfl h h) htakes
    | list items => exact .list h
    | map entries => cases hkeyed
  · intro h
    rw [bare_eq]
    cases h with
    | @zero x zero_ =>
      have htakes : takesUnit (.number x) "" = false := by simp [takesUnit, isZero, zero_]
      have hrender : (Value.number x).render = "0" := by rw [Value.render, Value.renderNumber, if_pos zero_]
      rw [htakes, hrender, if_neg Bool.false_ne_true]
      decide +kernel
    | @list items plain =>
      have htakes : takesUnit (.list items) "" = false := by simp [takesUnit, isNumeric]
      rw [htakes]
      exact plain
    | unit takes plain => rwa [if_pos takes]

/-- Behind a unit that no number ends with, only zero and lists are written like numbers. -/
theorem leavesNumber_iff (hmark : IsMark units.general) (hne : units.general ≠ "") : LeavesNumber units v ↔
    isZero v = true ∨ ∃ items, v = .list items ∧ isNumber v.render = true := by
  constructor
  · intro h
    cases h with
    | zero zero_ => exact .inl zero_
    | list plain => exact .inr ⟨_, rfl, plain⟩
    | unit takes plain =>
      rw [isNumber, hmark.readPlain?_eq_none hne] at plain
      cases plain
  · rintro (hzero | ⟨items, rfl, plain⟩)
    · cases v with
      | number x => exact .zero hzero
      | undefined | text | list | map => cases hzero
    · exact .list plain

end Units

namespace Catalog

open Evaluation Mixsheet.Units

/-- The output of a margin at the bottom. -/
def below (text : String) : MixinOutput := .many [.declaration ⟨"margin-bottom", text⟩]

theorem below_eq_iff {s t : String} : below s = below t ↔ s = t := by simp [below]

section Calls

variable {theme : Theme} {units : Units} {value : Value}

theorem apply_bottom (value : Value) : units.apply value (some "margin-bottom") = units.bare value := by
  have hunit : takesUnit value "margin-bottom" = takesUnit value "" := rfl
  rw [bare_eq, apply, hunit]
  rfl

/-- A margin of one side is one declaration. -/
theorem call?_margin_entry (depth : Nat) (key : String) (value : Value) :
    call? (registry theme) units (depth + 1) "margin" (.one (.map [(key, value)])) =
      some (.ok (.many [.declaration (.make units (qualified key (some "margin") []) value)])) := by
  have hscript (scope : Scope) : margin scope (.one (.map [(key, value)])) =
      declarations [.make scope.units (qualified key (some "margin") []) value] := rfl
  rw [call?_listed (mem_margin theme), hscript]
  rfl

theorem call?_margin (depth : Nat) (value : Value) :
    call? (registry theme) units (depth + 1) "margin" (.one (.map [("bottom", value)])) =
      some (.ok (below (units.bare value))) := by
  have hname : qualified "bottom" (some "margin") [] = "margin-bottom" := by decide +kernel
  rw [call?_margin_entry, hname, Declaration.make, apply_bottom]
  rfl

theorem call?_spaced (hdefined : value.isUndefined = false) (hkeyed : value.entries? = none) (depth : Nat) :
    call? (registry theme) units (depth + 2) "spaced" (.one value) =
      some (.ok (below (units.bare (.text (units.bare value))))) := by
  have hlisted : ("spaced", spaced theme) ∈ mixins theme := by simp [mixins]
  have hscript (scope : Scope) : spaced theme scope (.one value) =
      invokeKeyed "margin" "bottom" (.text (scope.bare value)) := by
    have hempty : (Args.one value).isEmpty = false := hdefined
    have hmap : (Args.one value).entries? = none := hkeyed
    rw [spaced, hempty, hmap]
    rfl
  rw [call?_listed hlisted, hscript, invokeKeyed, Script.invoke, Script.perform?, Scope.bare, call?_margin]
  rfl

theorem bare_text_bare (hkeyed : value.entries? = none) :
    (LeavesNumber units value → units.bare (.text (units.bare value)) = units.bare value ++ units.general) ∧
    (¬ LeavesNumber units value → units.bare (.text (units.bare value)) = units.bare value) := by
  rw [← apply_bottom, units.apply_text_eq _ (by decide) (by decide), ← isNumber_bare_iff hkeyed]
  exact ⟨fun h => if_pos h, fun h => if_neg h⟩

end Calls

/-- `spaced` declares what a margin of its value at the bottom does, just if there is no unit or the text of the value
with its unit is no plain number: else the unit is put behind the text once more. If the unit is none that a number goes
on with, only zero and a list that is written like a number are plain numbers with it. -/
theorem spaced_normalizes (theme : Theme) (units : Units) (depth : Nat) (value : Value)
    (hdefined : value.isUndefined = false) (hkeyed : value.entries? = none) :
    call? (registry theme) units (depth + 2) "margin" (.one (.map [("bottom", value)])) =
      some (.ok (below (units.bare value))) ∧
    (∃ output, call? (registry theme) units (depth + 2) "spaced" (.one value) = some (.ok output) ∧
      (output = below (units.bare value) ↔ units.general = "" ∨ ¬ LeavesNumber units value) ∧
      (LeavesNumber units value → output = below (units.bare value ++ units.general))) ∧
    (IsMark units.general → units.general ≠ "" →
      (LeavesNumber units value ↔
        isZero value = true ∨ ∃ items, value = .list items ∧ isNumber value.render = true)) := by
  refine ⟨call?_margin (depth + 1) value, ⟨_, call?_spaced hdefined hkeyed depth, ?_, fun hleaves => ?_⟩,
    leavesNumber_iff⟩
  · rw [below_eq_iff]
    by_cases hleaves : LeavesNumber units value
    · rw [(bare_text_bare hkeyed).1 hleaves]
      simp [hleaves]
    · rw [(bare_text_bare hkeyed).2 hleaves]
      simp [hleaves]
  · rw [(bare_text_bare hkeyed).1 hleaves]

/-- A text that is a number has its unit once, and both mixins declare it. -/
theorem spaced_normalizes_of_number :
    call? (registry .standard) .standard 2 "margin" (.one (.map [("bottom", .text "10")])) =
      some (.ok (below "10rem")) ∧
    call? (registry .standard) .standard 2 "spaced" (.one (.text "10")) = some (.ok (below "10rem")) := by
  obtain ⟨hmargin, ⟨output, hspaced, hsame, -⟩, hplain⟩ := spaced_normalizes .standard .standard 0 (.text "10") rfl rfl
  have hleaves : ¬ LeavesNumber .standard (.text "10") := by
    rw [hplain (.inr ⟨'r', by decide, by decide⟩) (by decide)]
    rintro (hzero | ⟨items, hlist, -⟩)
    · cases hzero
    · cases hlist
  have hbare : Units.standard.bare (.text "10") = "10rem" := by decide +kernel
  obtain rfl := hsame.mpr (.inr hleaves)
  rw [hbare] at hmargin hspaced
  exact ⟨hmargin, hspaced⟩

/-- Zero has no unit as the value of a margin, and yet `spaced` puts one behind it. -/
theorem spaced_normalizes_fails : ¬ ∀ (theme : Theme) (units : Units) (depth : Nat) (value : Value),
    value.isUndefined = false → value.entries? = none →
      call? (registry theme) units (depth + 2) "spaced" (.one value) =
        call? (registry theme) units (depth + 2) "margin" (.one (.map [("bottom", value)])) := by
  intro h
  have hsame := h .standard .standard 0 (.number 0) rfl rfl
  have hzero : LeavesNumber .standard (.number 0) := .zero (by decide +kernel)
  rw [call?_spaced rfl rfl, call?_margin, (bare_text_bare rfl).1 hzero] at hsame
  have hunit := congrArg String.length (below_eq_iff.mp (Except.ok.inj (Option.some.inj hsame)))
  rw [String.length_append] at hunit
  have hlength : Units.standard.general.length = 3 := by decide
  omega

end Catalog
end Mixsheet
