import Mixsheet.Proofs.Catalog.Names
import Mixsheet.Proofs.Evaluation

/-! # What the built-in mixins put out

The built-in mixins declare properties. The one rule that they put out is that of `clearfix`, and none
of them puts out a text. -/

namespace Mixsheet

/-- A declaration, or the rule of `clearfix`. -/
def OutputNode.Plain : OutputNode → Prop
  | .declaration _ => True
  | .rule selector _ => selector = "&:after"
  | .raw _ => False

/-- All statements are declarations or the rule of `clearfix`. -/
def MixinOutput.Plain (output : MixinOutput) : Prop := ∀ node ∈ output.nodes, node.Plain

namespace Catalog

open Script

/-- A script that puts out plain statements if the mixins that it calls do. -/
def Fair (script : Script MixinOutput) : Prop :=
  script.Ends (fun _ _ => True) MixinOutput.Plain MixinOutput.Plain

theorem plain_declarations (ds : List Declaration) :
    ∀ node ∈ ds.map OutputNode.declaration, node.Plain := by
  intro node hn
  obtain ⟨d, -, rfl⟩ := List.mem_map.mp hn
  trivial

theorem plain_first {output : MixinOutput} (h : output.Plain) : ∀ node ∈ first output, node.Plain :=
  fun node hn => h node (List.mem_of_mem_take hn)

theorem fair_none : Fair (pure .none) := ends_pure nofun

theorem fair_declare {scope : Scope} {prop : String} {value : Value} : Fair (declare scope prop value) :=
  ends_pure (List.forall_mem_singleton.mpr trivial)

theorem fair_declarations {ds : List Declaration} : Fair (declarations ds) := ends_pure (plain_declarations _)

theorem fair_statements {nodes : List OutputNode} (h : ∀ node ∈ nodes, node.Plain) : Fair (statements nodes) :=
  ends_pure h

theorem fair_invoke {name : String} {args : Args} : Fair (.invoke name args) := ends_invoke trivial

theorem fair_bind {script : Script MixinOutput} {f : MixinOutput → Script MixinOutput} (h : Fair script)
    (hf : ∀ output, output.Plain → Fair (f output)) : Fair (script >>= f) :=
  h.bind hf

/-- A script that goes on with a number or a text, or ends with an error, is fair if it goes on so. -/
theorem fair_ofExcept {α : Type} {result : Except MixinError α} {f : α → Script MixinOutput}
    (hf : ∀ a, Fair (f a)) : Fair (.ofExcept result >>= f) := by
  have h : (ofExcept result).Ends (fun _ _ => True) MixinOutput.Plain fun _ => True := ends_ofExcept fun _ _ => trivial
  exact h.bind fun a _ => hf a

/-! ### The mixins -/

theorem fair_positioned (position : String) (scope : Scope) (args : Args) :
    Fair (positioned position scope args) :=
  fair_declarations

theorem fair_floatOrOffset (side : String) (scope : Scope) (args : Args) :
    Fair (floatOrOffset side scope args) := by
  unfold floatOrOffset
  split <;> exact fair_declare

theorem fair_sizedDisplay (display : String) (scope : Scope) (args : Args) :
    Fair (sizedDisplay display scope args) := by
  refine fair_bind fair_invoke fun shown hshown => fair_statements ?_
  refine List.forall_mem_append.mpr ⟨hshown, ?_⟩
  split
  · exact plain_declarations _
  split
  · exact nofun
  · refine List.forall_mem_cons.mpr ⟨trivial, ?_⟩
    split
    · exact List.forall_mem_singleton.mpr trivial
    · exact nofun

theorem fair_dimensions (width height : String) (scope : Scope) (args : Args) :
    Fair (dimensions width height scope args) :=
  fair_declarations

theorem fair_centeredBlock (scope : Scope) (args : Args) : Fair (centeredBlock scope args) := by
  refine fair_bind fair_invoke fun block hblock => ?_
  refine fair_bind fair_invoke fun margin hmargin => fair_statements ?_
  exact List.forall_mem_append.mpr ⟨hblock, hmargin⟩

theorem fair_margin (scope : Scope) (args : Args) : Fair (margin scope args) := by
  unfold margin
  split
  · exact fair_declarations
  split
  · exact fair_none
  split
  · exact fair_declarations
  · exact fair_declare

theorem fair_spaced (theme : Theme) (scope : Scope) (args : Args) :
    Fair (spaced theme scope args) := fair_invoke

theorem fair_spacedBlock (scope : Scope) (args : Args) : Fair (spacedBlock scope args) := by
  refine fair_bind fair_invoke fun space hspace => ?_
  split
  · refine fair_bind fair_invoke fun block hblock => fair_statements ?_
    rw [List.append_assoc]
    exact List.forall_mem_append.mpr ⟨hspace, List.forall_mem_append.mpr ⟨plain_declarations _, hblock⟩⟩
  · refine fair_bind fair_invoke fun block hblock => fair_statements ?_
    exact List.forall_mem_append.mpr ⟨hspace, hblock⟩

theorem fair_borderOn (scope : Scope) (side value : String) : Fair (borderOn scope side value) := by
  unfold borderOn
  split
  · exact fair_declarations
  split <;> exact fair_declarations

theorem fair_border (theme : Theme) (scope : Scope) (args : Args) : Fair (border theme scope args) := by
  unfold border
  dsimp only
  split
  · exact fair_declare
  split
  · exact fair_borderOn ..
  split
  · exact fair_borderOn ..
  split <;> exact fair_declare

theorem fair_background (scope : Scope) (args : Args) : Fair (background scope args) := by
  unfold background
  split
  · exact fair_declare
  · exact fair_none

theorem fair_row (theme : Theme) (clearing : Bool) (scope : Scope) (args : Args) :
    Fair (row theme clearing scope args) := by
  refine fair_ofExcept fun (offset, width) => ?_
  refine fair_bind fair_invoke fun margin hmargin => ?_
  dsimp only
  split
  · refine fair_bind fair_invoke fun clearfix hclearfix => fair_statements ?_
    exact List.forall_mem_append.mpr ⟨plain_first hmargin, List.forall_mem_cons.mpr ⟨trivial, hclearfix⟩⟩
  · exact fair_statements
      (List.forall_mem_append.mpr ⟨plain_first hmargin, List.forall_mem_singleton.mpr trivial⟩)

theorem fair_rowReset (scope : Scope) (args : Args) : Fair (rowReset scope args) :=
  fair_bind fair_invoke fun _ hmargin => fair_statements
    (List.forall_mem_append.mpr ⟨plain_first hmargin, List.forall_mem_singleton.mpr trivial⟩)

theorem fair_clearfix (scope : Scope) (args : Args) :
    Fair (clearfix scope args) := ends_pure (List.forall_mem_singleton.mpr rfl)

theorem fair_column (theme : Theme) (scope : Scope) (args : Args) : Fair (column theme scope args) := by
  have htwo : ∀ value, Fair (statements [declaration scope "float" (.text "left"), declaration scope "width" value]) :=
    fun value => fair_statements (List.forall_mem_cons.mpr ⟨trivial, List.forall_mem_singleton.mpr trivial⟩)
  unfold column
  dsimp only
  split
  · exact htwo _
  split
  · exact htwo _
  split
  · refine fair_ofExcept fun share => fair_bind fair_invoke fun margin hmargin => fair_statements ?_
    exact List.forall_mem_cons.mpr ⟨trivial, List.forall_mem_cons.mpr ⟨trivial, plain_first hmargin⟩⟩
  · exact fair_ofExcept fun share => htwo _

theorem fair_font (scope : Scope) (args : Args) : Fair (font scope args) := by
  unfold font
  split
  · exact fair_declarations
  split
  · exact fair_none
  · exact fair_declarations

theorem fair_mixins (theme : Theme) : ∀ m ∈ mixins theme, ∀ scope args, Fair (m.2 scope args) := by
  have hsingle : ∀ prop scope args, Fair (single prop scope args) := fun _ _ _ => fair_declare
  have hconstant : ∀ prop value scope args, Fair (constant prop value scope args) := fun _ _ _ _ => fair_declare
  have hdelegate : ∀ name value scope args, Fair (delegate name value scope args) := fun _ _ _ _ => fair_invoke
  simp only [mixins, List.forall_mem_cons]
  refine ⟨fair_positioned _, hsingle _, fair_background, fair_sizedDisplay _, hconstant _ _, fair_border _,
    fair_centeredBlock, fun _ _ => fair_declare, fair_clearfix, hsingle _, fair_column _, hsingle _,
    fair_positioned _, fair_font, hdelegate _ _, hdelegate _ _, hdelegate _ _, fair_sizedDisplay _,
    hconstant _ _, fair_floatOrOffset _, fair_margin, fair_dimensions _ _, fun _ _ => fair_declare,
    hdelegate _ _, fair_floatOrOffset _, fair_row _ _, fair_row _ _, fair_rowReset, hdelegate _ _,
    fair_dimensions _ _, fair_spaced _, fair_spacedBlock, hdelegate _ _, hconstant _ _, hsingle _, hsingle _,
    hdelegate _ _, List.forall_mem_nil _⟩

theorem every_registerAll {ms : List Listed} {r : Registry Mixin}
    (hms : ∀ m ∈ ms, ∀ scope args, Fair (m.2 scope args)) (hr : r.Every (Mixin.Keeps MixinOutput.Plain)) :
    (registerAll ms r).Every (Mixin.Keeps MixinOutput.Plain) := by
  induction ms generalizing r with
  | nil => exact hr
  | cons m ms ih =>
    obtain ⟨hm, hms⟩ := List.forall_mem_cons.mp hms
    exact ih hms (hr.register _ hm)

/-- Every mixin of the catalog puts out plain statements if the mixins that it calls do. -/
theorem every_registry (theme : Theme) : (registry theme).Every (Mixin.Keeps MixinOutput.Plain) := by
  have hms := fair_mixins theme
  rw [registry_eq]
  generalize mixins theme = ms at hms
  exact every_registerAll hms Registry.every_empty

theorem plain_of_call? {theme : Theme} {units : Units} {depth : Nat} {name : String} {args : Args}
    {output : MixinOutput} (h : Evaluation.call? (registry theme) units depth name args = some (.ok output)) :
    output.Plain := by
  have hms := fair_mixins theme
  rw [registry_eq] at h
  generalize mixins theme = ms at hms h
  exact Evaluation.output_of_call? (every_registerAll hms Registry.every_empty) h

end Catalog
end Mixsheet
