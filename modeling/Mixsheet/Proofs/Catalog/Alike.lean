import Mathlib.Data.List.Forall2
import Mixsheet.Proofs.Catalog.Names
import Mixsheet.Proofs.Script
import Mixsheet.Proofs.Units

/-! # The built-in mixins under two settings of the units

A built-in mixin does the same under any two settings of the units but for the units behind the values that it puts
out: it calls the same mixins, fails with the same errors and declares the same properties. Only `margin` is ever
given a text that has its unit, and it puts no other one behind it. -/

namespace Mixsheet

theorem forall₂_map {α β γ : Type} {R : β → γ → Prop} {f : α → β} {g : α → γ} (xs : List α) (h : ∀ x, R (f x) (g x)) :
    List.Forall₂ R (xs.map f) (xs.map g) :=
  List.forall₂_map_left_iff.mpr (List.forall₂_map_right_iff.mpr (List.forall₂_same.mpr fun x _ => h x))

section Outputs

variable (u₁ u₂ : Units)

/-- The declarations are of one property, with values that are alike. -/
structure Declaration.Alike (d e : Declaration) : Prop where
  prop : d.prop = e.prop
  value : u₁.Alike u₂ d.value e.value

/-- The statements are of one kind, with declarations that are alike. -/
inductive OutputNode.Alike : OutputNode → OutputNode → Prop where
  | declaration {d e : Declaration} (alike : d.Alike u₁ u₂ e) : Alike (.declaration d) (.declaration e)
  | rule (selector : String) {ds es : List Declaration} (alike : List.Forall₂ (Declaration.Alike u₁ u₂) ds es) :
    Alike (.rule selector ds) (.rule selector es)
  | raw (css : String) : Alike (.raw css) (.raw css)

/-- The statements are alike one after the other. -/
def MixinOutput.Alike (o p : MixinOutput) : Prop := List.Forall₂ (OutputNode.Alike u₁ u₂) o.nodes p.nodes

/-- What a mixin of some name is given: the same, or, for `margin`, one text under one key that has its unit. -/
inductive Args.Alike : String → Args → Args → Prop where
  | same (name : String) (args : Args) : Args.Alike name args args
  | spaced (key s : String) : Args.Alike "margin" (.one (.map [(key, .text (s ++ u₁.general))]))
      (.one (.map [(key, .text (s ++ u₂.general))]))

end Outputs

/-- The scope with other units. -/
def Scope.under (s : Scope) (u : Units) : Scope := { s with units := u }

namespace Catalog

open Script

variable {u₁ u₂ : Units}

/-- Two scripts call the same mixins, and are alike in what they give if these are. -/
abbrev Matched (u₁ u₂ : Units) (s t : Script MixinOutput) : Prop :=
  Script.Alike (Args.Alike u₁ u₂) (MixinOutput.Alike u₁ u₂) (MixinOutput.Alike u₁ u₂) s t

/-- The mixin does alike under both settings. -/
def Steady (u₁ u₂ : Units) (script : Scope → Args → Script MixinOutput) : Prop :=
  ∀ (s : Scope) (args : Args), Matched u₁ u₂ (script (s.under u₁) args) (script (s.under u₂) args)

/-! ### Declarations -/

section Declarations

variable (s : Scope) (prop : String) (value : Value)

theorem alike_make : Declaration.Alike u₁ u₂ ((s.under u₁).declare prop value) ((s.under u₂).declare prop value) :=
  ⟨rfl, Units.alike_apply value (some prop)⟩

theorem alike_declareEach (props : List String) (group? : Option String) :
    List.Forall₂ (Declaration.Alike u₁ u₂) ((s.under u₁).declareEach props value group?)
      ((s.under u₂).declareEach props value group?) := by
  cases value with
  | undefined => exact .nil
  | list items => exact forall₂_map _ fun (prop, item) => alike_make s (qualified prop group? []) item
  | number x => exact forall₂_map _ fun prop => alike_make s (qualified prop group? []) (.number x)
  | text t => exact forall₂_map _ fun prop => alike_make s (qualified prop group? []) (.text t)
  | map entries => exact forall₂_map _ fun prop => alike_make s (qualified prop group? []) (.map entries)

theorem alike_declareEntries (entries : List (String × Value)) (group? : Option String) (ignored : List String) :
    List.Forall₂ (Declaration.Alike u₁ u₂) ((s.under u₁).declareEntries entries group? ignored)
      ((s.under u₂).declareEntries entries group? ignored) :=
  forall₂_map _ fun (key, value) => alike_make s (qualified key group? ignored) value

theorem alike_declaration : OutputNode.Alike u₁ u₂ (declaration (s.under u₁) prop value)
    (declaration (s.under u₂) prop value) :=
  .declaration (alike_make s prop value)

theorem alike_map_declaration {ds es : List Declaration} (h : List.Forall₂ (Declaration.Alike u₁ u₂) ds es) :
    List.Forall₂ (OutputNode.Alike u₁ u₂) (ds.map .declaration) (es.map .declaration) :=
  List.forall₂_map_left_iff.mpr (List.forall₂_map_right_iff.mpr (h.imp fun _ _ => .declaration))

/-! ### Scripts -/

theorem matched_none : Matched u₁ u₂ (pure .none) (pure .none) := alike_pure .nil

theorem matched_declare : Matched u₁ u₂ (declare (s.under u₁) prop value) (declare (s.under u₂) prop value) :=
  alike_pure (.cons (alike_declaration s prop value) .nil)

theorem matched_declarations {ds es : List Declaration} (h : List.Forall₂ (Declaration.Alike u₁ u₂) ds es) :
    Matched u₁ u₂ (declarations ds) (declarations es) :=
  alike_pure (alike_map_declaration h)

theorem matched_statements {ns ms : List OutputNode} (h : List.Forall₂ (OutputNode.Alike u₁ u₂) ns ms) :
    Matched u₁ u₂ (statements ns) (statements ms) :=
  alike_pure h

theorem matched_invoke (name : String) (args : Args) : Matched u₁ u₂ (.invoke name args) (.invoke name args) :=
  alike_invoke (.same name args)

/-- A value that has its unit is handed on to `margin`. -/
theorem matched_spaced (key : String) : Matched u₁ u₂ (invokeKeyed "margin" key (.text ((s.under u₁).bare value)))
    (invokeKeyed "margin" key (.text ((s.under u₂).bare value))) := by
  refine alike_invoke ?_
  have h₁ : (s.under u₁).bare value = u₁.bare value := rfl
  have h₂ : (s.under u₂).bare value = u₂.bare value := rfl
  rw [h₁, h₂, Units.bare_eq, Units.bare_eq]
  by_cases hunit : Units.takesUnit value "" = true
  · rw [if_pos hunit, if_pos hunit]
    exact .spaced key value.render
  · rw [if_neg hunit, if_neg hunit]
    exact .same "margin" _

theorem alike_first {o p : MixinOutput} (h : MixinOutput.Alike u₁ u₂ o p) :
    List.Forall₂ (OutputNode.Alike u₁ u₂) (first o) (first p) :=
  List.forall₂_take 1 h

end Declarations

/-! ### The mixins -/

theorem steady_single (prop : String) : Steady u₁ u₂ (single prop) := fun s args => matched_declare s prop (args.get 0)

theorem steady_constant (prop : String) (value : Value) : Steady u₁ u₂ (constant prop value) :=
  fun s _ => matched_declare s prop value

theorem steady_delegate (name : String) (value : Value) : Steady u₁ u₂ (delegate name value) :=
  fun _ _ => matched_invoke name _

theorem steady_positioned (position : String) : Steady u₁ u₂ (positioned position) := by
  intro s args
  refine matched_declarations (.cons (alike_make s _ _) ?_)
  cases args.entries? with
  | some entries => exact alike_declareEntries s entries none []
  | none =>
    dsimp only
    split
    · exact .nil
    · exact alike_declareEach s args.toList positionSides none

theorem steady_floatOrOffset (side : String) : Steady u₁ u₂ (floatOrOffset side) := by
  intro s args
  unfold floatOrOffset
  split <;> exact matched_declare ..

theorem steady_sizedDisplay (display : String) : Steady u₁ u₂ (sizedDisplay display) := by
  intro s args
  refine (matched_invoke _ _).bind fun shown shown' hshown => matched_statements (List.rel_append hshown ?_)
  cases args.entries? with
  | some entries => exact alike_map_declaration (alike_declareEntries s entries none [])
  | none =>
    dsimp only
    split
    · exact .nil
    · refine .cons (alike_declaration ..) ?_
      split
      · exact .cons (alike_declaration ..) .nil
      · exact .nil

theorem steady_dimensions (width height : String) : Steady u₁ u₂ (dimensions width height) :=
  fun s _ => matched_declarations (.cons (alike_make s _ _) (.cons (alike_make s _ _) .nil))

theorem steady_centeredBlock : Steady u₁ u₂ centeredBlock := by
  intro s args
  refine (matched_invoke _ _).bind fun block block' hblock => ?_
  refine (matched_invoke _ _).bind fun margin margin' hmargin => ?_
  exact matched_statements (List.rel_append hblock hmargin)

theorem steady_margin : Steady u₁ u₂ margin := by
  intro s args
  unfold margin
  split
  · exact matched_declarations (alike_declareEntries ..)
  split
  · exact matched_none
  split
  · exact matched_declarations (alike_declareEach ..)
  · exact matched_declare ..

theorem steady_spaced (theme : Theme) : Steady u₁ u₂ (spaced theme) := fun s _ => matched_spaced s _ "bottom"

theorem steady_spacedBlock : Steady u₁ u₂ spacedBlock := by
  intro s args
  refine (matched_invoke _ _).bind fun space space' hspace => ?_
  split
  · refine (matched_invoke _ _).bind fun block block' hblock => matched_statements ?_
    exact List.rel_append (List.rel_append hspace (alike_map_declaration (alike_declareEntries ..))) hblock
  · refine (matched_invoke _ _).bind fun block block' hblock => matched_statements ?_
    exact List.rel_append hspace hblock

theorem matched_borderOn (s : Scope) (side value : String) :
    Matched u₁ u₂ (borderOn (s.under u₁) side value) (borderOn (s.under u₂) side value) := by
  unfold borderOn
  split
  · exact matched_declarations (alike_declareEach ..)
  split
  · exact matched_declarations (alike_declareEach ..)
  · exact matched_declarations (.cons (alike_make ..) .nil)

theorem steady_border (theme : Theme) : Steady u₁ u₂ (border theme) := by
  intro s args
  unfold border
  dsimp only
  split
  · exact matched_declare ..
  split
  · exact matched_borderOn ..
  split
  · exact matched_borderOn ..
  split <;> exact matched_declare ..

theorem steady_background : Steady u₁ u₂ background := by
  intro s args
  unfold background
  split
  · exact matched_declare ..
  · exact matched_none

theorem steady_row (theme : Theme) (clearing : Bool) : Steady u₁ u₂ (row theme clearing) := by
  intro s args
  refine (alike_ofExcept _).bind fun (offset, width) _ heq => ?_
  subst heq
  refine (matched_invoke _ _).bind fun margin margin' hmargin => ?_
  dsimp only
  split
  · refine (matched_invoke _ _).bind fun clearfix clearfix' hclearfix => matched_statements ?_
    exact List.rel_append (alike_first hmargin) (.cons (alike_declaration ..) hclearfix)
  · exact matched_statements (List.rel_append (alike_first hmargin) (.cons (alike_declaration ..) .nil))

theorem steady_rowReset : Steady u₁ u₂ rowReset := by
  intro s args
  refine (matched_invoke _ _).bind fun margin margin' hmargin => matched_statements ?_
  exact List.rel_append (alike_first hmargin) (.cons (alike_declaration ..) .nil)

theorem steady_clearfix : Steady u₁ u₂ clearfix := fun s _ =>
  alike_pure (.cons (.rule _ (.cons (alike_make s _ _) (.cons (alike_make s _ _) (.cons (alike_make s _ _) .nil)))) .nil)

theorem steady_column (theme : Theme) : Steady u₁ u₂ (column theme) := by
  intro s args
  have htwo : ∀ value, Matched u₁ u₂
      (statements [declaration (s.under u₁) "float" (.text "left"), declaration (s.under u₁) "width" value])
      (statements [declaration (s.under u₂) "float" (.text "left"), declaration (s.under u₂) "width" value]) :=
    fun value => matched_statements (.cons (alike_declaration ..) (.cons (alike_declaration ..) .nil))
  unfold column
  dsimp only
  split
  · exact htwo _
  split
  · exact htwo _
  split
  · refine (alike_ofExcept _).bind fun share _ heq => ?_
    subst heq
    refine (matched_spaced s _ "left").bind fun margin margin' hmargin => matched_statements ?_
    exact .cons (alike_declaration ..) (.cons (alike_declaration ..) (alike_first hmargin))
  · refine (alike_ofExcept _).bind fun share _ heq => ?_
    subst heq
    exact htwo _

theorem steady_font : Steady u₁ u₂ font := by
  intro s args
  unfold font
  split
  · exact matched_declarations (forall₂_map _ fun (key, value) => alike_make s (fontProperty key) value)
  split
  · exact matched_none
  · exact matched_declarations (.cons (alike_make ..) (forall₂_map _ fun (prop, value) => alike_make s prop value))

theorem steady_mixins (theme : Theme) : ∀ m ∈ mixins theme, Steady u₁ u₂ m.2 := by
  simp only [mixins, List.forall_mem_cons]
  refine ⟨steady_positioned _, steady_single _, steady_background, steady_sizedDisplay _, steady_constant _ _,
    steady_border _, steady_centeredBlock, fun s _ => matched_declare s _ _, steady_clearfix, steady_single _,
    steady_column _, steady_single _, steady_positioned _, steady_font, steady_delegate _ _, steady_delegate _ _,
    steady_delegate _ _, steady_sizedDisplay _, steady_constant _ _, steady_floatOrOffset _, steady_margin,
    steady_dimensions _ _, fun s _ => matched_declare s _ _, steady_delegate _ _, steady_floatOrOffset _,
    steady_row _ _, steady_row _ _, steady_rowReset, steady_delegate _ _, steady_dimensions _ _, steady_spaced _,
    steady_spacedBlock, steady_delegate _ _, steady_constant _ _, steady_single _, steady_single _,
    steady_delegate _ _, List.forall_mem_nil _⟩

/-- `margin` gives a text with its unit no other one. -/
theorem matched_margin_spaced (h₁ : u₁.Proper) (h₂ : u₂.Proper) (s : Scope) (key t : String) :
    Matched u₁ u₂ (margin (s.under u₁) (.one (.map [(key, .text (t ++ u₁.general))])))
      (margin (s.under u₂) (.one (.map [(key, .text (t ++ u₂.general))]))) := by
  have hproperty : qualified key (some "margin") [] ≠ "line-height" := by
    intro heq
    have := congrArg (List.head? ∘ String.toList) heq
    simp [qualified] at this
  have hmake : ∀ {u : Units}, u.Proper → Declaration.make u (qualified key (some "margin") []) (.text (t ++ u.general)) =
      ⟨qualified key (some "margin") [], t ++ u.general⟩ := by
    intro u hu
    rw [Declaration.make, hu.apply_general t hproperty]
  refine matched_declarations (.cons ?_ .nil)
  change Declaration.Alike u₁ u₂ (Declaration.make u₁ _ _) (Declaration.make u₂ _ _)
  rw [hmake h₁, hmake h₂]
  exact ⟨rfl, .general t⟩

/-- A built-in mixin does alike under both settings, with whatever it may be handed. -/
theorem matched_mixins {theme : Theme} (h₁ : u₁.Proper) (h₂ : u₂.Proper) {m : Listed} (hm : m ∈ mixins theme)
    (s : Scope) {a b : Args} (h : Args.Alike u₁ u₂ m.1 a b) :
    Matched u₁ u₂ (m.2 (s.under u₁) a) (m.2 (s.under u₂) b) := by
  obtain ⟨name, script⟩ := m
  cases h with
  | same => exact steady_mixins theme _ hm s a
  | spaced key t =>
    have hfound := resolve?_registry theme hm
    have hfound' := resolve?_registry theme (mem_margin theme)
    -- no other built-in mixin is called `margin`
    obtain rfl : margin = script := by
      rw [hfound'] at hfound
      exact Mixin.mk.inj (Resolved.mk.inj (Option.some.inj hfound)).1
    exact matched_margin_spaced h₁ h₂ s key t

end Catalog
end Mixsheet
