import Mathlib
import Mixsheet.Proofs.Catalog.Spaced
import Mixsheet.Proofs.Decimal.Integer

/-! # Rows

A row makes up for the margin of its columns: its own margin is the negative of theirs and its width is more by as much.
Both are whole numbers, and they are written as they are. A margin with which one of them would not fit in 64 bits is
refused, and so is a text that starts with no whole number. -/

namespace Mixsheet.Catalog

open Decimal Evaluation

/-! ### Margins -/

/-- The text that a row takes its margin from: its first argument if that counts as given, and else the theme's. -/
def rowText (theme : Theme) (args : Args) : String :=
  if (args.get 0).isTruthy then (args.get 0).render else theme.gridMargin

/-- Neither the negative of a margin nor a hundred more than it is out of 64 bits. -/
def Compensable (m : Int) : Prop := -(2 ^ 63 - 1) ≤ m ∧ m ≤ 2 ^ 63 - 101

/-- The message about a text, that starts with `front`, with no margin that a row can make up for. -/
inductive Complaint (text : String) (front : List Char) : String → Prop where
  | unread (none : ∀ m, Integral front m → ¬ (-2 ^ 63 ≤ m ∧ m < 2 ^ 63)) :
    Complaint text front ("'" ++ text ++ "' is not a grid margin")
  | unfit {m : Int} (number : Integral front m) (unfit_ : ¬ Compensable m) :
    Complaint text front s!"grid margin {m}% is out of range"

theorem inInt64_iff {n : Int} : inInt64 n = true ↔ -2 ^ 63 ≤ n ∧ n < 2 ^ 63 := by
  have hmin : Int64.minValue.toInt = -2 ^ 63 := rfl
  have hmax : Int64.maxValue.toInt = 2 ^ 63 - 1 := rfl
  rw [inInt64, Bool.and_eq_true, decide_eq_true_eq, decide_eq_true_eq, hmin, hmax]
  omega

theorem compensable_iff {n : Int} (h : inInt64 n = true) :
    (inInt64 (-n) && inInt64 (n + 100)) = true ↔ Compensable n := by
  rw [inInt64_iff] at h
  rw [Bool.and_eq_true, inInt64_iff, inInt64_iff, Compensable]
  omega

theorem inInt64_of_compensable {m : Int} (h : Compensable m) : inInt64 m = true := by
  rw [inInt64_iff]
  unfold Compensable at h
  omega

/-- The number that a text starts with is that of its longest beginning with a sign and digits, if it has 64 bits. -/
theorem exists_leadingInt? (s : String) : ∃ front, SignedFront (Text.trimStart s.toList) front ∧
    leadingInt? s = (readInt? front).filter inInt64 := by
  rw [leadingInt?]
  cases Text.trimStart s.toList with
  | nil => exact ⟨[], signedFront_digits nofun, rfl⟩
  | cons c cs =>
    by_cases hsign : c = '+' ∨ c = '-'
    · have htake : ([c].takeWhile fun c => c == '+' || c == '-') = [c] := by simp [hsign]
      refine ⟨_, signedFront_sign hsign cs, ?_⟩
      simp only [List.take_succ_cons, List.take_zero, htake, List.length_singleton, List.drop_succ_cons, List.drop_zero,
        List.singleton_append]
    · have htake : ([c].takeWhile fun c => c == '+' || c == '-') = [] := by simpa using hsign
      refine ⟨_, signedFront_digits (by rintro _ ⟨rfl⟩; exact hsign), ?_⟩
      simp only [List.take_succ_cons, List.take_zero, htake, List.length_nil, List.drop_zero, List.nil_append]

/-- What a row makes of its margin: it makes up for a number that it can make up for, and complains about the rest. -/
theorem rowMargin_cases (value : Value) : ∃ front, SignedFront (Text.trimStart value.render.toList) front ∧
    ((∃ m, Integral front m ∧ Compensable m ∧ rowMargin value = .ok (-m, m + 100)) ∨
      (∀ m, Integral front m → ¬ Compensable m) ∧
        ∃ message, Complaint value.render front message ∧ rowMargin value = .error (.invalidArgument "row" message)) := by
  obtain ⟨front, hfront, hleading⟩ := exists_leadingInt? value.render
  have hread (m : Int) : leadingInt? value.render = some m ↔ Integral front m ∧ inInt64 m = true := by
    rw [hleading, Option.filter_eq_some_iff, readInt?_eq_some_iff]
  refine ⟨front, hfront, ?_⟩
  unfold rowMargin
  cases hm : leadingInt? value.render with
  | none =>
    have hnone (m : Int) (hnumber : Integral front m) : ¬ inInt64 m = true :=
      fun hin => absurd (hm.symm.trans ((hread m).mpr ⟨hnumber, hin⟩)) nofun
    refine .inr ⟨fun m hnumber hfit => hnone m hnumber (inInt64_of_compensable hfit), _, .unread ?_, rfl⟩
    exact fun m hnumber hin => hnone m hnumber (inInt64_iff.mpr hin)
  | some m =>
    obtain ⟨hnumber, hin⟩ := (hread m).mp hm
    dsimp only
    by_cases hfit : Compensable m
    · rw [if_pos ((compensable_iff hin).mpr hfit)]
      exact .inl ⟨m, hnumber, hfit, rfl⟩
    · rw [if_neg fun h => hfit ((compensable_iff hin).mp h)]
      refine .inr ⟨fun m' hnumber' hfit' => ?_, _, .unfit hnumber hfit, rfl⟩
      -- the text stands for no other number
      have hm' := (hread m').mpr ⟨hnumber', inInt64_of_compensable hfit'⟩
      obtain rfl := Option.some.inj (hm.symm.trans hm')
      exact hfit hfit'

/-! ### The mixins -/

/-- The margin of a row and its width, as percentages. -/
def compensation (m : Int) : List OutputNode :=
  [.declaration ⟨"margin-left", s!"{-m}%"⟩, .declaration ⟨"max-width", s!"{m + 100}%"⟩]

/-- The rule behind a row that ends the floats in it. -/
def clearing : OutputNode := .rule "&:after" [⟨"clear", "both"⟩, ⟨"content", "''"⟩, ⟨"display", "block"⟩]

section Calls

variable {theme : Theme} {units : Units}

theorem make_percentage (prop : String) (n : Int) : Declaration.make units prop (.text s!"{n}%") = ⟨prop, s!"{n}%"⟩ := by
  have hmark : IsMark "%" := .inr ⟨'%', by decide, by decide⟩
  have hplain : readPlain? s!"{n}%" = none := hmark.readPlain?_eq_none (by decide) (toString n)
  rw [Declaration.make, Units.apply_text hplain]

theorem call?_left (depth : Nat) (n : Int) :
    call? (registry theme) units (depth + 1) "margin" (.one (.map [("left", .text s!"{n}%")])) =
      some (.ok (.many [.declaration ⟨"margin-left", s!"{n}%"⟩])) := by
  have hname : qualified "left" (some "margin") [] = "margin-left" := by decide +kernel
  rw [call?_margin_entry, hname, make_percentage]

theorem call?_clearfix (depth : Nat) :
    call? (registry theme) units (depth + 1) "clearfix" .none = some (.ok (.one clearing)) := by
  have hlisted : ("clearfix", clearfix) ∈ mixins theme := by simp [mixins]
  have hboth : units.apply (.text "both") (some "clear") = "both" := Units.apply_text (readPlain?_eq_none rfl) ..
  have hcontent : units.apply (.text "''") (some "content") = "''" := Units.apply_text (readPlain?_eq_none rfl) ..
  have hblock : units.apply (.text "block") (some "display") = "block" := Units.apply_text (readPlain?_eq_none rfl) ..
  rw [call?_listed hlisted, clearfix]
  simp only [Scope.declare, Declaration.make, hboth, hcontent, hblock]
  rfl

theorem mem_rows (theme : Theme) :
    ("row", row theme true) ∈ mixins theme ∧ ("rowModify", row theme false) ∈ mixins theme := by
  simp [mixins]

theorem call?_row (depth : Nat) (args : Args) {m : Int}
    (h : rowMargin (args.getOr 0 (.text theme.gridMargin)) = .ok (-m, m + 100)) :
    call? (registry theme) units (depth + 2) "row" args = some (.ok (.many (compensation m ++ [clearing]))) ∧
    call? (registry theme) units (depth + 2) "rowModify" args = some (.ok (.many (compensation m))) := by
  have hlimit (scope : Scope) : declaration scope "max-width" (.text s!"{m + 100}%") =
      .declaration ⟨"max-width", s!"{m + 100}%"⟩ := congrArg OutputNode.declaration (make_percentage ..)
  have hoffset := @call?_left theme units depth (-m)
  constructor
  · rw [call?_listed (mem_rows theme).1, row, h]
    change ((Script.invoke _ _) >>= _).perform? _ = _
    rw [Script.perform?_invoke_bind hoffset, hlimit, if_pos rfl, Script.perform?_invoke_bind (call?_clearfix depth)]
    rfl
  · rw [call?_listed (mem_rows theme).2, row, h]
    change ((Script.invoke _ _) >>= _).perform? _ = _
    rw [Script.perform?_invoke_bind hoffset, hlimit, if_neg Bool.false_ne_true]
    rfl

theorem call?_row_error (depth : Nat) (args : Args) {e : MixinError}
    (h : rowMargin (args.getOr 0 (.text theme.gridMargin)) = .error e) :
    call? (registry theme) units (depth + 1) "row" args = some (.error e) ∧
    call? (registry theme) units (depth + 1) "rowModify" args = some (.error e) := by
  constructor
  · rw [call?_listed (mem_rows theme).1, row, h]
    rfl
  · rw [call?_listed (mem_rows theme).2, row, h]
    rfl

end Calls

/-- Of the text that a row takes its margin from, the longest beginning with a sign or none and digits decides, behind
white space. If it is a number that a row can make up for, the row has its negative as a margin and a hundred more than
it as a width; `row` ends the floats too. Otherwise both complain that there is no such number. -/
theorem row_compensates (theme : Theme) (units : Units) (depth : Nat) (args : Args) :
    ∃ front, (∀ other, SignedFront (Text.trimStart (rowText theme args).toList) other ↔ other = front) ∧
      ((∃ m, Integral front m ∧ Compensable m ∧
          call? (registry theme) units (depth + 2) "row" args = some (.ok (.many (compensation m ++ [clearing]))) ∧
          call? (registry theme) units (depth + 2) "rowModify" args = some (.ok (.many (compensation m)))) ∨
        (∀ m, Integral front m → ¬ Compensable m) ∧
          ∃ message, Complaint (rowText theme args) front message ∧
            call? (registry theme) units (depth + 2) "row" args = some (.error (.invalidArgument "row" message)) ∧
            call? (registry theme) units (depth + 2) "rowModify" args =
              some (.error (.invalidArgument "row" message))) := by
  obtain ⟨front, hfront, hmargin⟩ := rowMargin_cases (args.getOr 0 (.text theme.gridMargin))
  have htext : (args.getOr 0 (.text theme.gridMargin)).render = rowText theme args := apply_ite Value.render ..
  rw [htext] at hfront hmargin
  refine ⟨front, fun other => ⟨fun h => h.unique hfront, fun h => h ▸ hfront⟩, ?_⟩
  rcases hmargin with ⟨m, hnumber, hfit, hok⟩ | ⟨hnone, message, hmessage, herror⟩
  · exact .inl ⟨m, hnumber, hfit, call?_row depth args hok⟩
  · exact .inr ⟨hnone, message, hmessage, call?_row_error (depth + 1) args herror⟩

end Mixsheet.Catalog
