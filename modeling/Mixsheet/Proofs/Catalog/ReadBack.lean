import Mixsheet.Proofs.Catalog.Names
import Mixsheet.Proofs.Catalog.Values

/-! # Declarations of the built-in mixins

A built-in mixin puts the texts of its arguments into declarations as they are. If these texts are values, and the keys
of a keyed call are properties, every declaration that the mixin puts out is read back. What it hands on to the mixins
that it calls is of the same kind, so this holds of a whole call. -/

namespace Mixsheet

/-! ### Arguments -/

/-- The text is a property, and it is one behind the name of a group. -/
structure IsKey (key : String) : Prop where
  alone : IsProperty key
  grouped : IsProperty ("x-" ++ Text.dashCase key)

/-- The keys of the entries are properties, and their texts are values. -/
def AreEntries (es : List (String × Value)) : Prop := ∀ e ∈ es, IsKey e.1 ∧ IsValue e.2.render

namespace Args

/-- The text of each argument is a value, and the entries of maps make declarations. -/
structure Tame (args : Args) : Prop where
  values : ∀ v ∈ args.values, IsValue v.render
  entries : ∀ v ∈ args.values, ∀ es, v.entries? = some es → AreEntries es

/-- The arguments are tame for the mixin of a name: `border` makes a property of the side that it is given, and
`background` a value of all its arguments, none of which may be empty. -/
structure TameFor (name : String) (args : Args) : Prop extends args.Tame where
  side : name = "border" → 1 < args.size → IsProperty ("x-" ++ Text.dashCase (args.get 0).render)
  parts : name = "background" → ∀ v ∈ args.values, v.render ≠ ""

/-- What the mixin of a name is given: tame arguments, or, for `margin`, one map of entries that make declarations. -/
inductive Given : String → Args → Prop where
  | tame {name : String} {args : Args} (tame : args.TameFor name) : Given name args
  | keyed {es : List (String × Value)} (entries : AreEntries es) : Given "margin" (.one (.map es))

theorem get_cases (args : Args) (i : Nat) : args.get i ∈ args.values ∨ args.get i = .undefined := by
  rw [get, List.getD_eq_getElem?_getD]
  cases h : args.values[i]? with
  | none => exact .inr rfl
  | some v => exact .inl (List.mem_of_getElem? h)

namespace Tame

variable {args : Args} (h : args.Tame)

include h

theorem get (i : Nat) : IsValue (args.get i).render := by
  rcases args.get_cases i with hmem | hundefined
  · exact h.values _ hmem
  · rw [hundefined]
    exact isValue_empty

theorem entries? {es : List (String × Value)} (hes : args.entries? = some es) : AreEntries es := by
  rcases args.get_cases 0 with hmem | hundefined
  · exact h.entries _ hmem es hes
  · rw [Args.entries?, hundefined] at hes
    cases hes

theorem drop (n : Nat) : (args.drop n).Tame :=
  ⟨fun v hv => h.values v (List.mem_of_mem_drop hv), fun v hv => h.entries v (List.mem_of_mem_drop hv)⟩

/-- Tame arguments may be handed to any mixin but two. -/
theorem given {name : String} (hname : name ∉ ["border", "background"]) : Given name args := by
  refine .tame ⟨h, ?_, ?_⟩ <;> rintro rfl <;> exact absurd hname (by decide)

end Tame

theorem tame_none : Tame .none := ⟨nofun, nofun⟩

theorem tame_one {v : Value} (hv : IsValue v.render) (hes : v.entries? = .none) : Tame (.one v) := by
  refine ⟨List.forall_mem_singleton.mpr hv, List.forall_mem_singleton.mpr fun es hsome => ?_⟩
  rw [hes] at hsome
  cases hsome

end Args

/-- The texts of a theme are values. -/
structure Theme.Tame (theme : Theme) : Prop where
  gridMargin : IsValue theme.gridMargin
  borderColor : IsValue theme.borderColor
  borderColor_ne : theme.borderColor ≠ ""

theorem Theme.tame_standard : Theme.standard.Tame :=
  ⟨isValue_of_word rfl, isValue_of_word rfl, by decide⟩

/-! ### Declarations -/

section Declarations

variable {units : Units} (hu : units.Tame) {prop : String} {value : Value}

include hu

theorem readsBack_make (hp : IsProperty prop) (hv : IsValue value.render) :
    (Declaration.make units prop value).ReadsBack :=
  hp.readsBack (Units.isValue_apply hu hv (some prop))

theorem readsBack_each {props : List String} (hp : ∀ p ∈ props, IsProperty p) {items : List Value}
    (hitems : ∀ v ∈ items, IsValue v.render) : ∀ d ∈ Declaration.each units props (.list items) none, d.ReadsBack := by
  intro d hd
  obtain ⟨⟨p, v⟩, hmem, rfl⟩ := List.mem_map.mp hd
  obtain ⟨hpmem, hvmem⟩ := List.of_mem_zip hmem
  exact readsBack_make hu (hp p hpmem) (hitems v hvmem)

theorem readsBack_each_text {props : List String} (hp : ∀ p ∈ props, IsProperty p) {s : String} (hs : IsValue s) :
    ∀ d ∈ Declaration.each units props (.text s) none, d.ReadsBack := by
  intro d hd
  obtain ⟨p, hmem, rfl⟩ := List.mem_map.mp hd
  exact readsBack_make hu (hp p hmem) (isValue_text hs)

omit hu in
/-- A key is a property in every group whose name may begin a word. -/
theorem IsKey.qualified {key group : String} (h : IsProperty ("x-" ++ Text.dashCase key))
    (hgroup : Node.IsFront (group ++ "-").toList) : IsProperty (qualified key (some group) []) := by
  have hx : Node.IsFront "x-".toList := isFront_of_word rfl rfl
  exact h.exchange hx hgroup

theorem readsBack_entries {es : List (String × Value)} (h : AreEntries es) {name : String → String}
    (hname : ∀ key, IsKey key → IsProperty (name key)) :
    ∀ d ∈ es.map fun (key, value) => Declaration.make units (name key) value, d.ReadsBack := by
  intro d hd
  obtain ⟨⟨key, value⟩, hmem, rfl⟩ := List.mem_map.mp hd
  obtain ⟨hkey, hvalue⟩ := h _ hmem
  exact readsBack_make hu (hname key hkey) hvalue

end Declarations

/-- The declarations of the statement are read back. -/
def OutputNode.ReadsBack : OutputNode → Prop
  | .declaration d => d.ReadsBack
  | .rule _ ds => ∀ d ∈ ds, d.ReadsBack
  | .raw _ => True

/-- The declarations of all statements are read back. -/
def MixinOutput.ReadsBack (output : MixinOutput) : Prop := ∀ node ∈ output.nodes, node.ReadsBack

namespace Catalog

open Script

/-! ### Scripts -/

/-- The script calls mixins with what they are to be given, and the declarations that it puts out are read back if those
of these mixins are. -/
def Readable (script : Script MixinOutput) : Prop :=
  script.Ends Args.Given MixinOutput.ReadsBack MixinOutput.ReadsBack

theorem readsBack_map {ds : List Declaration} (h : ∀ d ∈ ds, d.ReadsBack) :
    ∀ node ∈ ds.map OutputNode.declaration, node.ReadsBack := by
  intro node hn
  obtain ⟨d, hd, rfl⟩ := List.mem_map.mp hn
  exact h d hd

theorem readsBack_first {output : MixinOutput} (h : output.ReadsBack) : ∀ node ∈ first output, node.ReadsBack :=
  fun node hn => h node (List.mem_of_mem_take hn)

theorem readable_none : Readable (pure .none) := ends_pure nofun

theorem readable_declarations {ds : List Declaration} (h : ∀ d ∈ ds, d.ReadsBack) : Readable (declarations ds) :=
  ends_pure (readsBack_map h)

theorem readable_statements {nodes : List OutputNode} (h : ∀ node ∈ nodes, node.ReadsBack) :
    Readable (statements nodes) :=
  ends_pure h

theorem readable_invoke {name : String} {args : Args} (h : args.Given name) : Readable (.invoke name args) :=
  ends_invoke h

theorem readable_invokeText {name text : String} (hname : name ∉ ["border", "background"]) (h : IsValue text) :
    Readable (invokeText name text) :=
  readable_invoke ((Args.tame_one (isValue_text h) rfl).given hname)

/-! ### The mixins -/

section Mixins

variable {scope : Scope} (hu : scope.units.Tame) {args : Args}

include hu

theorem readable_declare {prop : String} {value : Value} (hp : IsProperty prop) (hv : IsValue value.render) :
    Readable (declare scope prop value) :=
  ends_pure (List.forall_mem_singleton.mpr (readsBack_make hu hp hv))

/-- A word of its own is declared for a property of its own. -/
theorem readsBack_word {prop s : String} (hp : isPlainWord prop = true) (hs : isPlainWord s = true) :
    (scope.declare prop (.text s)).ReadsBack :=
  readsBack_make hu (isProperty_of_word hp) (isValue_text (isValue_of_word hs))

theorem readsBack_keyed {es : List (String × Value)} (h : AreEntries es) :
    ∀ d ∈ scope.declareEntries es none [], d.ReadsBack :=
  readsBack_entries hu h fun _ hkey => hkey.alone

theorem readable_positioned {position : String} (hposition : isPlainWord position = true) (h : args.Tame) :
    Readable (positioned position scope args) := by
  have hsides : ∀ p ∈ positionSides, IsProperty p := fun p hp =>
    isProperty_of_word (by revert p; decide +kernel)
  refine readable_declarations (List.forall_mem_cons.mpr ⟨readsBack_word hu rfl hposition, ?_⟩)
  split
  · exact readsBack_keyed hu (h.entries? ‹_›)
  split
  · exact nofun
  · exact readsBack_each hu hsides h.values

theorem readable_floatOrOffset {side : String} (hside : isPlainWord side = true) (h : args.Tame) :
    Readable (floatOrOffset side scope args) := by
  unfold floatOrOffset
  split
  · exact readable_declare hu (isProperty_of_word rfl) (isValue_text (isValue_of_word hside))
  · exact readable_declare hu (isProperty_of_word hside) (h.get 0)

theorem readable_sizedDisplay {display : String} (hdisplay : isPlainWord display = true) (h : args.Tame) :
    Readable (sizedDisplay display scope args) := by
  have hwidth : (declaration scope "width" (args.get 0)).ReadsBack :=
    readsBack_make hu (isProperty_of_word rfl) (h.get 0)
  have hheight : (declaration scope "height" (args.get 1)).ReadsBack :=
    readsBack_make hu (isProperty_of_word rfl) (h.get 1)
  refine (readable_invokeText (by decide) (isValue_of_word hdisplay)).bind fun shown hshown => readable_statements ?_
  refine List.forall_mem_append.mpr ⟨hshown, ?_⟩
  split
  · exact readsBack_map (readsBack_keyed hu (h.entries? ‹_›))
  split
  · exact nofun
  · refine List.forall_mem_cons.mpr ⟨hwidth, ?_⟩
    split
    · exact List.forall_mem_singleton.mpr hheight
    · exact nofun

omit hu in
theorem isValue_orElse {v other : Value} (hv : IsValue v.render) (hother : IsValue other.render) :
    IsValue (v.orElse other).render := by
  unfold Value.orElse
  split
  · exact hv
  · exact hother

theorem readable_dimensions {width height : String} (hwidth : isPlainWord width = true)
    (hheight : isPlainWord height = true) (h : args.Tame) : Readable (dimensions width height scope args) := by
  refine readable_declarations (List.forall_mem_cons.mpr ⟨?_, List.forall_mem_singleton.mpr ?_⟩)
  · exact readsBack_make hu (isProperty_of_word hwidth) (h.get 0)
  · exact readsBack_make hu (isProperty_of_word hheight) (isValue_orElse (h.get 1) (h.get 0))

omit hu in
theorem isKey_of_word {key : String} (h : isPlainWord key = true)
    (hgroup : isPlainWord ("x-" ++ Text.dashCase key) = true) : IsKey key :=
  ⟨isProperty_of_word h, isProperty_of_word hgroup⟩

omit hu in
theorem readable_invokeKeyed {key : String} {value : Value} (hkey : IsKey key) (hv : IsValue value.render) :
    Readable (invokeKeyed "margin" key value) :=
  readable_invoke (.keyed (List.forall_mem_singleton.mpr ⟨hkey, hv⟩))

omit hu in
theorem isKey_left : IsKey "left" := isKey_of_word rfl rfl

omit hu in
theorem readable_centeredBlock (h : args.Tame) : Readable (centeredBlock scope args) := by
  have hauto : IsValue (Value.text "auto").render := isValue_text (isValue_of_word rfl)
  have hsides : AreEntries [("left", .text "auto"), ("right", .text "auto")] :=
    List.forall_mem_cons.mpr ⟨⟨isKey_left, hauto⟩, List.forall_mem_singleton.mpr ⟨isKey_of_word rfl rfl, hauto⟩⟩
  refine (readable_invoke (h.given (by decide))).bind fun block hblock => ?_
  refine (readable_invoke (.keyed hsides)).bind fun margin hmargin => readable_statements ?_
  exact List.forall_mem_append.mpr ⟨hblock, hmargin⟩

/-- A keyed call of `margin` is read back entry by entry. -/
theorem readable_marginEntries {es : List (String × Value)} (h : AreEntries es) :
    Readable (declarations (scope.declareEntries es (some "margin") [])) := by
  have hgroup : Node.IsFront ("margin" ++ "-").toList := isFront_of_word rfl rfl
  exact readable_declarations (readsBack_entries hu h fun _ hkey => IsKey.qualified hkey.grouped hgroup)

theorem readable_margin (h : args.Tame) : Readable (margin scope args) := by
  have hsides : ∀ p ∈ marginSides, IsProperty p := fun p hp =>
    isProperty_of_word (by revert p; decide +kernel)
  unfold margin
  split
  · exact readable_marginEntries hu (h.entries? ‹_›)
  split
  · exact readable_none
  split
  · exact readable_declarations (readsBack_each hu hsides h.values)
  · exact readable_declare hu (isProperty_of_word rfl) (h.get 0)

theorem readable_spaced (theme : Theme) (h : args.Tame) : Readable (spaced theme scope args) := by
  refine readable_invokeKeyed (isKey_of_word rfl rfl) (isValue_text (Units.isValue_apply hu ?_ _))
  split
  · exact isValue_number _
  · exact h.get 0

theorem readable_spacedBlock (h : args.Tame) : Readable (spacedBlock scope args) := by
  refine (readable_invoke (h.given (by decide))).bind fun space hspace => ?_
  split
  · rename_i entries hentries
    refine (readable_invoke (Args.tame_none.given (by decide))).bind fun block hblock => readable_statements ?_
    rw [List.append_assoc]
    exact List.forall_mem_append.mpr
      ⟨hspace, List.forall_mem_append.mpr ⟨readsBack_map (readsBack_keyed hu (h.entries? hentries)), hblock⟩⟩
  · have hrest : (if args.size > 1 then args.drop 1 else .none).Tame := by
      split
      · exact h.drop 1
      · exact Args.tame_none
    refine (readable_invoke (hrest.given (by decide))).bind fun block hblock => readable_statements ?_
    exact List.forall_mem_append.mpr ⟨hspace, hblock⟩

theorem readable_borderOn {side value : String} (hside : IsProperty ("x-" ++ Text.dashCase side))
    (hvalue : IsValue value) : Readable (borderOn scope side value) := by
  have hgroup : Node.IsFront ("border" ++ "-").toList := isFront_of_word rfl rfl
  have hboth : ∀ {sides : List String}, (∀ p ∈ sides, isPlainWord p = true) →
      Readable (declarations (scope.declareEach sides (.text value) none)) := fun hsides =>
    readable_declarations (readsBack_each_text hu (fun p hp => isProperty_of_word (hsides p hp)) hvalue)
  unfold borderOn
  split
  · exact hboth (by decide +kernel)
  split
  · exact hboth (by decide +kernel)
  · refine readable_declarations (List.forall_mem_singleton.mpr ?_)
    exact readsBack_make hu (IsKey.qualified hside hgroup) (isValue_text hvalue)

theorem readable_border {theme : Theme} (htheme : theme.Tame) (h : args.TameFor "border") :
    Readable (border theme scope args) := by
  have hborder : ∀ {value : String}, IsValue value → Readable (declare scope "border" (.text value)) :=
    fun hv => readable_declare hu (isProperty_of_word rfl) (isValue_text hv)
  have hsolid := isValue_solid htheme.borderColor htheme.borderColor_ne
  unfold border
  dsimp only
  split
  · exact hborder hsolid
  rename_i hgiven
  split
  · -- there are arguments, and not just one of them
    rename_i hsize
    have hsome : 1 < args.size := by
      have hne : args.size ≠ 0 := by
        intro hzero
        obtain ⟨values⟩ := args
        obtain rfl := List.length_eq_zero_iff.mp hzero
        exact hgiven rfl
      omega
    exact readable_borderOn hu (h.side rfl hsome) (isValue_borderOf (h.get 1))
  split
  · rename_i hside
    have hkeywords : ∀ side ∈ borderKeywords, isPlainWord ("x-" ++ Text.dashCase side) = true := by decide +kernel
    exact readable_borderOn hu (isProperty_of_word (hkeywords _ (List.contains_iff_mem.mp hside))) hsolid
  split
  · exact hborder (isValue_of_word rfl)
  · exact hborder (isValue_borderOf (h.get 0))

omit hu in
theorem isValue_intercalate {parts : List String} (h : ∀ s ∈ parts, IsValue s ∧ s ≠ "") (hne : parts ≠ []) :
    IsValue (" ".intercalate parts) ∧ " ".intercalate parts ≠ "" := by
  induction parts with
  | nil => exact absurd rfl hne
  | cons s parts ih =>
    obtain ⟨hs, hparts⟩ := List.forall_mem_cons.mp h
    cases parts with
    | nil => rwa [String.intercalate_singleton]
    | cons t parts =>
      obtain ⟨hrest, hrestne⟩ := ih hparts (List.cons_ne_nil t parts)
      rw [String.intercalate_cons_cons]
      exact ⟨hs.1.blank hrest hs.2 hrestne, by simp [hs.2]⟩

omit hu in
theorem isValue_backgroundValues (h : args.TameFor "background") :
    ∀ v ∈ backgroundValues args, IsValue v.render ∧ v.render ≠ "" := by
  have hvalues : ∀ v ∈ args.values, IsValue v.render ∧ v.render ≠ "" := fun v hv => ⟨h.values v hv, h.parts rfl v hv⟩
  unfold backgroundValues
  split
  · rename_i color opacity rest hargs
    split
    · rename_i hnumber
      split
      · rename_i rgba hrgba
        refine List.forall_mem_cons.mpr ⟨?_, fun v hv => hvalues v ?_⟩
        · rw [Value.render]
          exact Color.isValue_rgba hrgba hnumber
        · rw [hargs]
          exact List.mem_cons_of_mem _ (List.mem_cons_of_mem _ hv)
      · exact hvalues
    · exact hvalues
  · exact hvalues

theorem readable_background (h : args.TameFor "background") : Readable (background scope args) := by
  unfold background
  split
  · rename_i hgiven
    have hparts : ∀ s ∈ (backgroundValues args).map Value.render, IsValue s ∧ s ≠ "" := by
      intro s hs
      obtain ⟨v, hv, rfl⟩ := List.mem_map.mp hs
      exact isValue_backgroundValues h v hv
    refine readable_declare hu (isProperty_of_word rfl) (isValue_text ?_)
    by_cases hne : (backgroundValues args).map Value.render = []
    · rw [hne]
      exact isValue_empty
    · exact (isValue_intercalate hparts hne).1
  · exact readable_none

omit hu in
theorem isValue_percent (n : Int) : IsValue s!"{n}%" := (isValue_of_number (isNumberText_intRepr n)).2

theorem readable_row (theme : Theme) (clearing : Bool) : Readable (row theme clearing scope args) := by
  have hmargin : (ofExcept (rowMargin (args.getOr 0 (.text theme.gridMargin)))).Ends Args.Given MixinOutput.ReadsBack
      fun _ => True := ends_ofExcept fun _ _ => trivial
  refine hmargin.bind fun (offset, width) _ => ?_
  refine (readable_invokeKeyed isKey_left (isValue_text (isValue_percent offset))).bind fun margin hmargin => ?_
  have hlimit : (declaration scope "max-width" (.text s!"{width}%")).ReadsBack :=
    readsBack_make hu (isProperty_of_word rfl) (isValue_text (isValue_percent width))
  dsimp only
  split
  · refine (readable_invoke (Args.tame_none.given (by decide))).bind fun clearfix hclearfix => readable_statements ?_
    exact List.forall_mem_append.mpr ⟨readsBack_first hmargin, List.forall_mem_cons.mpr ⟨hlimit, hclearfix⟩⟩
  · exact readable_statements
      (List.forall_mem_append.mpr ⟨readsBack_first hmargin, List.forall_mem_singleton.mpr hlimit⟩)

theorem readable_rowReset : Readable (rowReset scope args) :=
  (readable_invokeKeyed isKey_left (isValue_number 0)).bind fun _ hmargin => readable_statements
    (List.forall_mem_append.mpr ⟨readsBack_first hmargin, List.forall_mem_singleton.mpr (readsBack_word hu rfl rfl)⟩)

theorem readable_clearfix : Readable (clearfix scope args) := by
  have hquotes : IsValue "''" := ⟨⟨⟨1, 1⟩, ⟨1, 4⟩⟩, by cbv⟩
  have hcontent : (scope.declare "content" (.text "''")).ReadsBack :=
    readsBack_make hu (isProperty_of_word rfl) (isValue_text hquotes)
  exact ends_pure (List.forall_mem_singleton.mpr (List.forall_mem_cons.mpr ⟨readsBack_word hu rfl rfl,
    List.forall_mem_cons.mpr ⟨hcontent, List.forall_mem_singleton.mpr (readsBack_word hu rfl rfl)⟩⟩))

omit hu in
/-- The width of a column is a percentage. -/
theorem isValue_of_widthOf {theme : Theme} {share columns : Value} {width : String}
    (h : widthOf theme share columns = .ok width) : IsValue width := by
  obtain ⟨count, -, h⟩ := bind_eq_ok_iff.mp h
  obtain ⟨n, -, h⟩ := bind_eq_ok_iff.mp h
  obtain rfl := Except.ok.inj h
  exact (isValue_of_number (Value.isNumberText_renderNumber _)).2

theorem readable_column {theme : Theme} (htheme : theme.Tame) (h : args.Tame) :
    Readable (column theme scope args) := by
  have hstart : (declaration scope "float" (.text "left")).ReadsBack := readsBack_word hu rfl rfl
  have hwidth : ∀ {value : Value}, IsValue value.render → (declaration scope "width" value).ReadsBack :=
    readsBack_make hu (isProperty_of_word rfl)
  have htwo : ∀ {value : Value}, IsValue value.render →
      Readable (statements [declaration scope "float" (.text "left"), declaration scope "width" value]) := fun hv =>
    readable_statements (List.forall_mem_cons.mpr ⟨hstart, List.forall_mem_singleton.mpr (hwidth hv)⟩)
  have hshare : ∀ share columns, (ofExcept (widthOf theme share columns)).Ends Args.Given MixinOutput.ReadsBack
      fun width => IsValue (Value.text width).render := by
    exact fun share columns => ends_ofExcept fun width hw => isValue_text (isValue_of_widthOf hw)
  unfold column
  dsimp only
  split
  · exact htwo (isValue_text (isValue_of_word rfl))
  split
  · exact htwo (h.get 0)
  split
  · refine (hshare _ _).bind fun share hv => ?_
    have hspace : IsValue (scope.bare (args.getOr 3 (.text theme.gridMargin))) :=
      Units.isValue_apply hu (isValue_orElse (h.get 3) (isValue_text htheme.gridMargin)) _
    refine (readable_invokeKeyed isKey_left (isValue_text hspace)).bind fun margin hmargin => readable_statements ?_
    exact List.forall_mem_cons.mpr ⟨hstart, List.forall_mem_cons.mpr ⟨hwidth hv, readsBack_first hmargin⟩⟩
  · exact (hshare _ _).bind fun share hv => htwo hv

theorem readable_font (h : args.Tame) : Readable (font scope args) := by
  have hgroup : Node.IsFront ("font" ++ "-").toList := isFront_of_word rfl rfl
  have hproperty : ∀ key, IsKey key → IsProperty (fontProperty key) := by
    intro key hkey
    unfold fontProperty
    split
    · exact isProperty_of_word rfl
    · exact IsKey.qualified hkey.grouped hgroup
  have hothers : ∀ p ∈ fontProperties, IsProperty p := fun p hp =>
    isProperty_of_word (by revert p; decide +kernel)
  unfold font
  split
  · exact readable_declarations (readsBack_entries hu (h.entries? ‹_›) hproperty)
  split
  · exact readable_none
  · refine readable_declarations (List.forall_mem_cons.mpr ⟨?_, fun d hd => ?_⟩)
    · exact readsBack_make hu (isProperty_of_word rfl) (h.get 0)
    · obtain ⟨⟨p, v⟩, hmem, rfl⟩ := List.mem_map.mp hd
      obtain ⟨hp, hv⟩ := List.of_mem_zip (List.mem_of_mem_filter hmem)
      exact readsBack_make hu (hothers p hp) (h.values v (List.mem_of_mem_drop hv))

end Mixins

/-- A mixin of the catalog calls others with what they are to be given, and its declarations are read back. -/
theorem readable_mixins {theme : Theme} (htheme : theme.Tame) : ∀ m ∈ mixins theme, ∀ scope args,
    scope.units.Tame → args.TameFor m.1 → Readable (m.2 scope args) := by
  have hword : ∀ {s : String}, isPlainWord s = true → IsValue (Value.text s).render :=
    fun hs => isValue_text (isValue_of_word hs)
  have hsingle : ∀ {prop name : String}, isPlainWord prop = true → ∀ scope args, scope.units.Tame →
      args.TameFor name → Readable (single prop scope args) :=
    fun hprop scope args hu h => readable_declare hu (isProperty_of_word hprop) (h.get 0)
  have hconstant : ∀ {prop name : String} {value : Value}, isPlainWord prop = true → IsValue value.render →
      ∀ scope args, scope.units.Tame → args.TameFor name → Readable (constant prop value scope args) :=
    fun hprop hvalue scope args hu _ => readable_declare hu (isProperty_of_word hprop) hvalue
  have hdelegate : ∀ {callee name : String} {value : Value}, callee ∉ ["border", "background"] →
      IsValue value.render → value.entries? = none → ∀ scope args, scope.units.Tame → args.TameFor name →
      Readable (delegate callee value scope args) :=
    fun hcallee hvalue hes _ _ _ _ => readable_invoke ((Args.tame_one hvalue hes).given hcallee)
  -- one proof for each mixin, in the order in which the catalog lists them
  simp only [mixins, List.forall_mem_cons]
  refine ⟨fun _ _ hu h => readable_positioned hu rfl h.toTame, hsingle rfl, fun _ _ hu h => readable_background hu h,
    fun _ _ hu h => readable_sizedDisplay hu rfl h.toTame, hconstant rfl (isValue_number _),
    fun _ _ hu h => readable_border hu htheme h, fun _ _ _ h => readable_centeredBlock h.toTame,
    fun _ _ hu h => readable_declare hu (isProperty_of_word rfl) (isValue_orElse (h.get 0) (hword rfl)),
    fun _ _ hu _ => readable_clearfix hu, hsingle rfl, fun _ _ hu h => readable_column hu htheme h.toTame, hsingle rfl,
    fun _ _ hu h => readable_positioned hu rfl h.toTame, fun _ _ hu h => readable_font hu h.toTame,
    hdelegate (by decide) (hword rfl) rfl, hdelegate (by decide) (hword rfl) rfl,
    hdelegate (by decide) (hword rfl) rfl, fun _ _ hu h => readable_sizedDisplay hu rfl h.toTame,
    hconstant rfl (hword rfl), fun _ _ hu h => readable_floatOrOffset hu rfl h.toTame,
    fun _ _ hu h => readable_margin hu h.toTame, fun _ _ hu h => readable_dimensions hu rfl rfl h.toTame,
    fun _ _ hu h => readable_declare hu (isProperty_of_word rfl) (Opacity.isValue_fraction (h.get 0)),
    hdelegate (by decide) (isValue_number 1) rfl, fun _ _ hu h => readable_floatOrOffset hu rfl h.toTame,
    fun _ _ hu _ => readable_row hu _ _, fun _ _ hu _ => readable_row hu _ _, fun _ _ hu _ => readable_rowReset hu,
    hdelegate (by decide) (hword rfl) rfl, fun _ _ hu h => readable_dimensions hu rfl rfl h.toTame,
    fun _ _ hu h => readable_spaced hu _ h.toTame, fun _ _ hu h => readable_spacedBlock hu h.toTame,
    hdelegate (by decide) (isValue_number 0) rfl, hconstant rfl (hword rfl), hsingle rfl, hsingle rfl,
    hdelegate (by decide) (hword rfl) rfl, List.forall_mem_nil _⟩

/-! ### Calls -/

/-- The declarations that a call of a built-in mixin puts out are read back, if it is given what it is to be given. -/
theorem readsBack_of_call? {theme : Theme} (htheme : theme.Tame) {units : Units} (hu : units.Tame) {depth : Nat}
    {name : String} {args : Args} (hargs : args.Given name) {output : MixinOutput}
    (h : Evaluation.call? (registry theme) units depth name args = some (.ok output)) : output.ReadsBack := by
  -- a mixin that a script calls is run one level deeper, with what it is to be given
  induction depth generalizing name args output with
  | zero =>
    unfold Evaluation.call? at h
    split at h <;> cases h
  | succ depth ih =>
    have hrun : ∀ {script : Script MixinOutput}, Readable script →
        script.perform? (Evaluation.call? (registry theme) units depth) = some (.ok output) → output.ReadsBack :=
      fun hscript ho => hscript.of_perform? (fun _ _ _ hg ho => ih hg ho) ho
    cases hargs with
    | keyed hes =>
      rw [call?_listed (mem_margin theme)] at h
      exact hrun (readable_marginEntries hu hes) h
    | tame hargs =>
      cases hfound : (registry theme).resolve? name with
      | none =>
        rw [Evaluation.call?, Evaluation.find?, hfound] at h
        cases h
      | some found =>
        obtain ⟨⟨name, script⟩, hm, rfl, -⟩ := exists_of_resolve? hfound
        rw [call?_listed hm] at h
        exact hrun (readable_mixins htheme _ hm _ args hu hargs) h

/-- So are those that take the place of a call of a stylesheet. -/
theorem readsBack_of_evaluate {theme : Theme} (htheme : theme.Tame) {units : Units} (hu : units.Tame) {depth : Nat}
    {call : MixinCall} (hcall : (Args.ofArguments call.arguments).TameFor call.name) {output : MixinOutput}
    (h : Evaluation.evaluate (registry theme) units depth call = .output output) : output.ReadsBack :=
  readsBack_of_call? htheme hu (.tame hcall) (Evaluation.call?_of_evaluate h)

end Catalog
end Mixsheet
