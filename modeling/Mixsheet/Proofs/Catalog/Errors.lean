import Mixsheet.Proofs.Catalog.Output

/-! # What the built-in mixins fail with

A built-in mixin calls at most two others, which call at most one more, and none of those that are called ever fails. So
a call of a built-in mixin ends, and only `column` and the two mixins for rows fail: with a value that is no column or
no grid margin. -/

namespace Mixsheet.Catalog

open Script

/-! ### Who calls whom -/

/-- The built-in mixins that one of them calls. -/
def callees : String → List String
  | "block" | "inlineBlock" | "hide" | "inline" | "show" => ["display"]
  | "hidden" | "visible" => ["visibility"]
  | "opaque" | "transparent" => ["opacity"]
  | "column" | "rowReset" | "spaced" => ["margin"]
  | "row" | "rowModify" => ["margin", "clearfix"]
  | "centeredBlock" => ["block", "margin"]
  | "spacedBlock" => ["spaced", "block"]
  | _ => []

/-- At most `depth` mixins run at once when the mixin is called. -/
def nests : (depth : Nat) → String → Bool
  | 0, _ => false
  | depth + 1, name => (callees name).all (nests depth)

/-- The built-in mixins that others call. -/
def called : List String := ["block", "clearfix", "display", "margin", "opacity", "spaced", "visibility"]

theorem mem_called {name callee : String} (h : callee ∈ callees name) : callee ∈ called := by
  have hsub : callees name ⊆ called := by
    unfold callees
    split <;> decide
  exact hsub h

theorem nests_three (name : String) : nests 3 name = true := by
  have htwo : ∀ callee ∈ called, nests 2 callee = true := by decide
  exact List.all_eq_true.mpr fun callee h => htwo callee (mem_called h)

theorem exists_called (theme : Theme) : ∀ callee ∈ called, ∃ m ∈ mixins theme, m.1 = callee := by
  have hnames : called ⊆ (mixins theme).map (·.1) := by
    simp only [mixins, List.map_cons, List.map_nil]
    decide
  intro callee h
  exact List.mem_map.mp (hnames h)

/-! ### Errors -/

/-- The errors that a built-in mixin of a name may fail with. -/
inductive Refuses : String → MixinError → Prop where
  | column (message : String) : Refuses "column" (.invalidArgument "column" message)
  | row (message : String) : Refuses "row" (.invalidArgument "row" message)
  | rowModify (message : String) : Refuses "rowModify" (.invalidArgument "row" message)

/-- A mixin that others call never fails. -/
theorem not_refuses_of_called {name : String} (h : name ∈ called) (e : MixinError) : ¬ Refuses name e := by
  rintro ⟨message⟩ <;> exact absurd h (by decide)

theorem exists_of_gridColumns {theme : Theme} {value : Value} {e : MixinError}
    (h : gridColumns theme value = .error e) : ∃ message, e = .invalidArgument "column" message := by
  unfold gridColumns at h
  dsimp only at h
  split at h
  · cases h
  split at h
  · split at h
    · cases h
    · exact ⟨_, (Except.error.inj h).symm⟩
  · exact ⟨_, (Except.error.inj h).symm⟩

theorem exists_of_columnShare {value : Value} {e : MixinError} (h : columnShare value = .error e) :
    ∃ message, e = .invalidArgument "column" message := by
  unfold columnShare at h
  split at h
  · cases h
  · exact ⟨_, (Except.error.inj h).symm⟩

theorem exists_of_widthOf {theme : Theme} {share columns : Value} {e : MixinError}
    (h : widthOf theme share columns = .error e) : ∃ message, e = .invalidArgument "column" message := by
  unfold widthOf at h
  cases hcolumns : gridColumns theme columns with
  | error e' =>
    rw [hcolumns] at h
    obtain rfl := Except.error.inj h
    exact exists_of_gridColumns hcolumns
  | ok count =>
    cases hshare : columnShare share with
    | error e' =>
      rw [hcolumns, hshare] at h
      obtain rfl := Except.error.inj h
      exact exists_of_columnShare hshare
    | ok n =>
      rw [hcolumns, hshare] at h
      cases h

theorem exists_of_rowMargin {margin : Value} {e : MixinError} (h : rowMargin margin = .error e) :
    ∃ message, e = .invalidArgument "row" message := by
  unfold rowMargin at h
  split at h
  · exact ⟨_, (Except.error.inj h).symm⟩
  · split at h
    · cases h
    · exact ⟨_, (Except.error.inj h).symm⟩

/-! ### The mixins -/

section Mixins

variable {Known : String → Prop} {Fails : MixinError → Prop} (scope : Scope) (args : Args)

theorem asks_positioned (position : String) : (positioned position scope args).Asks Known Fails := asks_pure _

theorem asks_floatOrOffset (side : String) : (floatOrOffset side scope args).Asks Known Fails := by
  unfold floatOrOffset
  split <;> exact asks_pure _

theorem asks_sizedDisplay (display : String) (h : Known "display") :
    (sizedDisplay display scope args).Asks Known Fails :=
  (asks_invoke h _).bind fun _ => asks_pure _

theorem asks_dimensions (width height : String) : (dimensions width height scope args).Asks Known Fails := asks_pure _

theorem asks_centeredBlock (hblock : Known "block") (hmargin : Known "margin") :
    (centeredBlock scope args).Asks Known Fails :=
  (asks_invoke hblock _).bind fun _ => (asks_invoke hmargin _).bind fun _ => asks_pure _

theorem asks_margin : (margin scope args).Asks Known Fails := by
  unfold margin
  split
  · exact asks_pure _
  split
  · exact asks_pure _
  split <;> exact asks_pure _

theorem asks_spaced (theme : Theme) (h : Known "margin") : (spaced theme scope args).Asks Known Fails :=
  asks_invoke h _

theorem asks_spacedBlock (hspaced : Known "spaced") (hblock : Known "block") :
    (spacedBlock scope args).Asks Known Fails := by
  refine (asks_invoke hspaced _).bind fun space => ?_
  split <;> exact (asks_invoke hblock _).bind fun _ => asks_pure _

theorem asks_borderOn (side value : String) : (borderOn scope side value).Asks Known Fails := by
  unfold borderOn
  split
  · exact asks_pure _
  split <;> exact asks_pure _

theorem asks_border (theme : Theme) : (border theme scope args).Asks Known Fails := by
  unfold border
  dsimp only
  split
  · exact asks_pure _
  split
  · exact asks_borderOn ..
  split
  · exact asks_borderOn ..
  split <;> exact asks_pure _

theorem asks_background : (background scope args).Asks Known Fails := by
  unfold background
  split <;> exact asks_pure _

theorem asks_row (theme : Theme) (clearing : Bool) (hmargin : Known "margin") (hclearfix : Known "clearfix")
    (hfails : ∀ message, Fails (.invalidArgument "row" message)) : (row theme clearing scope args).Asks Known Fails := by
  refine (asks_ofExcept fun e he => ?_).bind fun (offset, width) => (asks_invoke hmargin _).bind fun margin => ?_
  · obtain ⟨message, rfl⟩ := exists_of_rowMargin he
    exact hfails message
  · dsimp only
    split
    · exact (asks_invoke hclearfix _).bind fun _ => asks_pure _
    · exact asks_pure _

theorem asks_rowReset (h : Known "margin") : (rowReset scope args).Asks Known Fails :=
  (asks_invoke h _).bind fun _ => asks_pure _

theorem asks_column (theme : Theme) (hmargin : Known "margin")
    (hfails : ∀ message, Fails (.invalidArgument "column" message)) : (column theme scope args).Asks Known Fails := by
  have hwidth : ∀ share columns, (ofExcept (widthOf theme share columns)).Asks Known Fails := by
    refine fun share columns => asks_ofExcept fun e he => ?_
    obtain ⟨message, rfl⟩ := exists_of_widthOf he
    exact hfails message
  unfold column
  dsimp only
  split
  · exact asks_pure _
  split
  · exact asks_pure _
  split
  · exact (hwidth _ _).bind fun share => (asks_invoke hmargin _).bind fun _ => asks_pure _
  · exact (hwidth _ _).bind fun share => asks_pure _

theorem asks_font : (font scope args).Asks Known Fails := by
  unfold font
  split
  · exact asks_pure _
  split <;> exact asks_pure _

end Mixins

/-- A built-in mixin calls only mixins that it may call, and fails with no errors but its own. -/
theorem asks_mixins (theme : Theme) : ∀ m ∈ mixins theme, ∀ scope args,
    (m.2 scope args).Asks (· ∈ callees m.1) (Refuses m.1) := by
  have hdelegate : ∀ {caller callee : String} (value : Value), callee ∈ callees caller → ∀ scope args,
      (delegate callee value scope args).Asks (· ∈ callees caller) (Refuses caller) :=
    fun _ h _ _ => asks_invoke h _
  simp only [mixins, List.forall_mem_cons]
  refine ⟨fun s a => asks_positioned s a _, fun _ _ => asks_pure _, asks_background,
    fun s a => asks_sizedDisplay s a _ (by decide), fun _ _ => asks_pure _, fun s a => asks_border s a _,
    fun s a => asks_centeredBlock s a (by decide) (by decide), fun _ _ => asks_pure _, fun _ _ => asks_pure _,
    fun _ _ => asks_pure _, fun s a => asks_column s a _ (by decide) .column, fun _ _ => asks_pure _,
    fun s a => asks_positioned s a _, asks_font, hdelegate _ (by decide), hdelegate _ (by decide),
    hdelegate _ (by decide), fun s a => asks_sizedDisplay s a _ (by decide), fun _ _ => asks_pure _,
    fun s a => asks_floatOrOffset s a _, asks_margin, fun s a => asks_dimensions s a _ _, fun _ _ => asks_pure _,
    hdelegate _ (by decide), fun s a => asks_floatOrOffset s a _,
    fun s a => asks_row s a _ _ (by decide) (by decide) .row,
    fun s a => asks_row s a _ _ (by decide) (by decide) .rowModify, fun s a => asks_rowReset s a (by decide),
    hdelegate _ (by decide), fun s a => asks_dimensions s a _ _, fun s a => asks_spaced s a _ (by decide),
    fun s a => asks_spacedBlock s a (by decide) (by decide), hdelegate _ (by decide), fun _ _ => asks_pure _,
    fun _ _ => asks_pure _, fun _ _ => asks_pure _, hdelegate _ (by decide), List.forall_mem_nil _⟩

/-! ### Calls -/

/-- A call of a built-in mixin has a result as soon as its calls may nest as deep as they do. -/
theorem exists_result (theme : Theme) (units : Units) {depth : Nat} {m : Listed} (hm : m ∈ mixins theme)
    (hnests : nests depth m.1 = true) (args : Args) :
    ∃ result, Evaluation.call? (registry theme) units depth m.1 args = some result ∧
      ∀ e, result = .error e → Refuses m.1 e := by
  induction depth generalizing m args with
  | zero => cases hnests
  | succ depth ih =>
    rw [Evaluation.call?_succ (resolve?_registry theme hm)]
    refine (asks_mixins theme m hm _ args).exists_result fun callee hcallee args => ?_
    have hcalled := mem_called hcallee
    obtain ⟨m', hm', rfl⟩ := exists_called theme callee hcalled
    obtain ⟨result, hresult, hfails⟩ := ih hm' (List.all_eq_true.mp hnests _ hcallee) args
    cases result with
    | ok output => exact ⟨output, hresult⟩
    | error e => exact absurd (hfails e rfl) (not_refuses_of_called hcalled e)

/-- The result of a call of a built-in mixin: statements without texts, or an error of the mixin itself. -/
structure Surfaces (name : String) (result : MixinResult) : Prop where
  output : ∀ output, result = .ok output → output.Plain
  error : ∀ e, result = .error e → Refuses name e

theorem surfaces_call? (theme : Theme) (units : Units) {depth : Nat} (hdepth : 3 ≤ depth) {m : Listed}
    (hm : m ∈ mixins theme) (args : Args) :
    ∃ result, Evaluation.call? (registry theme) units depth m.1 args = some result ∧ Surfaces m.1 result := by
  obtain ⟨result, hresult, hfails⟩ := exists_result theme units hm (nests_three m.1) args
  have hcall := Evaluation.call?_mono hdepth hresult
  refine ⟨result, hcall, fun output ho => ?_, hfails⟩
  rw [ho] at hcall
  exact plain_of_call? hcall

end Mixsheet.Catalog
