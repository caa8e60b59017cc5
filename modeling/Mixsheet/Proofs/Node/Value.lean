import Mixsheet.Proofs.Node.Head
import Mixsheet.Proofs.Node.ReadBack

/-! # Properties and values

Whether a declaration is read back is a matter of its property and of its value, each for itself: a text is a property
if it is read back before some value, and a value if it is read back behind some property. Either is then a run of
tokens of its own that closes its brackets. -/

namespace Mixsheet

open Token Text

/-- The text is read back as a value. -/
def IsValue (s : String) : Prop := Declaration.ReadsBack ⟨"x", s⟩

/-- The text is read back as a property. -/
def IsProperty (s : String) : Prop := Declaration.ReadsBack ⟨s, "x"⟩

/-! ### Declarations that are read anywhere -/

/-- A declaration is read back exactly if its line is read as it wherever it stands. -/
theorem Declaration.readsBack_iff_legible (d : Declaration) (source : Source) :
    d.ReadsBack ↔ (Node.declaration d.prop d.value source).Legible := by
  refine ⟨Node.leads_of_readsBack, fun h => ?_⟩
  have hline : Node.Leads d.line.toList .initial (Node.Progress.initial.add (.declaration d.prop d.value .none)) :=
    h .initial
  have hyields := hline.yields_append (Node.yields_nil rfl)
  rw [List.append_nil] at hyields
  obtain ⟨⟨nodes⟩, hparse, hbare⟩ := Node.parse_of_yields hyields
  have hnodes : nodes.map Node.bare = [.declaration d.prop d.value .none] := Stylesheet.mk.inj hbare
  obtain ⟨node, rfl, hnode⟩ := List.map_eq_singleton_iff.mp hnodes
  cases node with
  | declaration prop value source =>
    obtain ⟨rfl, rfl, -⟩ := Node.declaration.inj hnode
    exact ⟨source, hparse⟩
  | _ => cases hnode

namespace Segment

/-! ### Runs that close their brackets -/

variable {ts us : List Token} {t : Token}

theorem Whole.afterAll_eq (h : headAccount.Whole ts) : headAccount.afterAll [] ts = [] := List.isEmpty_iff.mp h.closed

theorem whole_nil : headAccount.Whole [] := ⟨rfl, rfl⟩

theorem whole_append (h : headAccount.Whole ts) : headAccount.Whole (ts ++ us) ↔ headAccount.Whole us := by
  have hclosed := Whole.afterAll_eq h
  constructor
  · rintro ⟨huncut, hend⟩
    have huncut := (Account.uncut_append.mp huncut).2
    rw [Account.afterAll_append] at hend
    have hstart : headAccount.start = [] := rfl
    rw [hstart, hclosed] at huncut hend
    exact ⟨huncut, hend⟩
  · intro hus
    refine ⟨Account.uncut_append.mpr ⟨h.uncut, ?_⟩, ?_⟩
    · exact hclosed.symm ▸ hus.uncut
    · rw [Account.afterAll_append]
      exact hclosed.symm ▸ hus.closed

/-- A token that neither is a bracket nor ends a statement closes its brackets. -/
theorem whole_singleton (hopens : closerOf? t.kind = none) (hstop : isStop t = false) : headAccount.Whole [t] := by
  refine ⟨uncut_cons.mpr ⟨fun _ => hstop, rfl⟩, ?_⟩
  rw [Account.afterAll, List.foldl_cons, List.foldl_nil]
  exact List.isEmpty_iff.mpr (missing_nil_of_not_opens hopens)

theorem whole_cons (hopens : closerOf? t.kind = none) (hstop : isStop t = false) :
    headAccount.Whole (t :: ts) ↔ headAccount.Whole ts :=
  @whole_append [t] ts (whole_singleton hopens hstop)

end Segment

namespace Node

open Segment

/-! ### Cutting a line -/

/-- A line that is read back is cut at its first colon into the property, and the value behind a blank. -/
theorem exists_cut_of_readsBack {d : Declaration} (h : d.ReadsBack) :
    ∃ before c after k, Reads false (before ++ c :: after) k ∧ (∀ t ∈ before, t.kind ≠ .colon) ∧ c.kind = .colon ∧
      StartsHead before ∧ headAccount.Whole (before ++ c :: after) ∧ hasColon (before ++ c :: after) = true ∧
      chars before = d.prop.toList ∧ chars after = ' ' :: d.value.toList ∧ Tight d.prop.toList ∧ Tight d.value.toList := by
  obtain ⟨head, stop, start, source, hr, hline, hstart, hw, hcolon, hstop, hd⟩ := exists_head_of_readsBack h
  obtain ⟨before, c, after, rfl, hfirst, hc, hne, hprop, hvalue⟩ := exists_parts hcolon hd
  obtain ⟨hread, hend⟩ := Reads.append.mp hr
  obtain ⟨hb, hcr⟩ := Reads.append.mp hread
  have hbne : before ≠ [] := by
    rintro rfl
    exact hne hprop.symm
  have hbstart := hstart.of_append hbne
  have hctext : c.text.toList = [':'] := hcr.1.punctuation (by rw [hc]; rfl)
  have hstopText : stop.text.toList = [';'] := hend.1.punctuation (by rw [hstop]; rfl)
  rw [trimmedText_eq] at hprop hvalue
  have hprop' : trim (chars before) = d.prop.toList := by rw [← hprop, String.toList_ofList]
  have hvalue' : trim (chars after) = d.value.toList := by rw [← hvalue, String.toList_ofList]
  -- the line is the property, a colon, a blank, the value and a semicolon
  have hcut : chars before ++ ':' :: (chars after ++ [';']) = d.prop.toList ++ ':' :: ' ' :: (d.value.toList ++ [';']) := by
    rw [← toList_line, ← hline]
    simp [hctext, hstopText]
  obtain ⟨hbefore, hafter⟩ := Text.eq_of_line hprop' (isBlank_head hb hbstart) hcut
  obtain ⟨hafter, -⟩ := Text.eq_of_value hvalue' hafter
  refine ⟨before, c, after, _, hread, fun t ht => ?_, hc, hbstart, hw, hcolon, hbefore, hafter, ?_, ?_⟩
  · simpa using hfirst t ht
  · exact hprop' ▸ trim_tight _
  · exact hvalue' ▸ trim_tight _

/-! ### Tokens of properties and values -/

/-- Tokens that a value is read as. -/
structure IsValueRun (ts : List Token) : Prop where
  reads : ∃ k, Reads false ts k
  trimmed : Trimmed ts
  whole : headAccount.Whole ts

/-- Tokens that a property is read as. -/
structure IsPropertyRun (ts : List Token) : Prop extends IsValueRun ts where
  start : StartsHead ts
  colon : ∀ t ∈ ts, t.kind ≠ .colon

theorem IsValueRun.parensClosed {ts : List Token} (h : IsValueRun ts) : ParensClosed ts :=
  parensClosed_of_closed h.whole.closed

/-- The trimmed text of a run that closes its brackets is a run of its own. -/
theorem exists_valueRun_of_reads {ts : List Token} {k : List Char} (h : Reads false ts k)
    (hw : headAccount.Whole ts) : ∃ us, IsValueRun us ∧ chars us = trim (chars ts) := by
  obtain ⟨a, r, b, rfl, ha, hb, hr, htrim⟩ := h.trim
  have hread := (Reads.append.mp (Reads.append.mp h).1).2
  rw [endsUrl_of_kind_ne fun t ht => by simp [ha t ht]] at hread
  have hsig : significant r = significant (a ++ r ++ b) := by
    simp [significant_append, significant_of_spaces, ha, hb]
  exact ⟨r, ⟨⟨_, hread⟩, hr, (headAccount_skips.whole_congr hsig).mpr hw⟩, htrim.symm⟩

/-- The tokens of a text that is one letter are one word. -/
theorem exists_word_of_chars {ts : List Token} {k : List Char} (h : Reads false ts k) (hts : chars ts = ['x']) :
    ∃ t, ts = [t] ∧ t.kind = .word := by
  cases ts with
  | nil => cases hts
  | cons t ts =>
    obtain ⟨e, cs, l, hreading, hkind, htext, -⟩ := h.1
    rw [chars_cons, htext, List.cons_append] at hts
    obtain ⟨rfl, hnil⟩ := List.cons.inj hts
    obtain rfl := eq_nil_of_chars h.2 (List.append_eq_nil_iff.mp hnil).2
    have hx : Lexeme.Reading false 'x' cs (Lexeme.ofSplit .word (Lexeme.splitWord cs)) := .word rfl (by decide)
    have hl := Except.ok.inj (hreading.read_eq.symm.trans hx.read_eq)
    exact ⟨t, rfl, by rw [← hkind, hl]; rfl⟩

/-- A value is read as tokens of its own. -/
theorem exists_valueRun {s : String} (h : IsValue s) : ∃ ts, IsValueRun ts ∧ chars ts = s.toList := by
  obtain ⟨before, c, after, k, hr, -, hc, -, hw, -, hbefore, hafter, -, htight⟩ := exists_cut_of_readsBack h
  obtain ⟨hb, hcr⟩ := Reads.append.mp hr
  have hread : Reads false after k := by
    have := hcr.2
    rwa [isUrl_of_kind_ne (by simp [hc])] at this
  -- the property of the line is one word, so no bracket is open behind it
  obtain ⟨t, rfl, hkind⟩ := exists_word_of_chars hb (by simpa using hbefore)
  have hw := (whole_cons (by rw [hkind]; rfl) (by simp [isStop, hkind])).mp hw
  have hw := (whole_cons (by rw [hc]; rfl) (by simp [isStop, hc])).mp hw
  obtain ⟨ts, hts, hchars⟩ := exists_valueRun_of_reads hread hw
  have hblank := @trim_between [' '] s.toList [] blank_space blank_nil
  rw [List.append_nil, htight.trim_eq] at hblank
  exact ⟨ts, hts, by rw [hchars, hafter]; exact hblank⟩

/-- A property is read as tokens of its own, with no colon among them. -/
theorem exists_propertyRun {s : String} (h : IsProperty s) : ∃ ts, IsPropertyRun ts ∧ chars ts = s.toList := by
  obtain ⟨before, c, after, k, hr, hfirst, hc, hstart, hw, hcolon, hbefore, hafter, htight, -⟩ :=
    exists_cut_of_readsBack h
  obtain ⟨hb, hcr⟩ := Reads.append.mp hr
  have hnone : ∀ t ∈ after, t.kind ≠ .colon := by
    intro t ht hkind
    obtain ⟨v, r, hread⟩ := hcr.2.readAs ht
    have htext : t.text.toList = [':'] := hread.punctuation (by rw [hkind]; rfl)
    have hmem : ':' ∈ chars after := List.mem_flatMap.mpr ⟨t, ht, by simp [htext]⟩
    simp [hafter] at hmem
  -- the one colon of the line stands outside all brackets, so none is open before it
  have hclosed : headAccount.afterAll [] before = [] := by
    by_contra hopen
    rw [hasColon, outside_append, outside_cons_of_ne hopen, List.any_append, Bool.or_eq_true] at hcolon
    rcases hcolon with hany | hany
    · obtain ⟨t, ht, hkind⟩ := List.any_eq_true.mp hany
      exact hfirst t (mem_of_mem_outside ht) (eq_of_beq hkind)
    · obtain ⟨t, ht, hkind⟩ := List.any_eq_true.mp hany
      exact hnone t (mem_of_mem_outside ht) (eq_of_beq hkind)
  have hwb : headAccount.Whole before := ⟨(Account.uncut_append.mp hw.uncut).1, List.isEmpty_iff.mpr hclosed⟩
  obtain ⟨r, b, rfl, hbs, hrt, htrim, hrstart⟩ := hb.trimHead hstart
  have hchars : chars r = s.toList := by rw [← htrim, hbefore]; exact htight.trim_eq
  have hsig : significant r = significant (r ++ b) := by simp [significant_append, significant_of_spaces, hbs]
  exact ⟨r, ⟨⟨⟨_, (Reads.append.mp hb).1⟩, hrt, (headAccount_skips.whole_congr hsig).mpr hwb⟩, hrstart,
    fun t ht => hfirst t (List.mem_append_left _ ht)⟩, hchars⟩

/-- The tokens of a property and those of a value are the declaration of both. -/
theorem readsBack_of_runs {xs ys : List Token} (hx : IsPropertyRun xs) (hy : IsValueRun ys) :
    Declaration.ReadsBack ⟨join xs, join ys⟩ := by
  obtain ⟨k, hxr⟩ := hx.reads
  obtain ⟨k', hyr⟩ := hy.reads
  have hcolon : ReadAs false (ofKind .colon [':']) [] := readAs_punctuation rfl false []
  have hw : headAccount.Whole (xs ++ ofKind .colon [':'] :: blankToken :: ys) :=
    (whole_append hx.whole).mpr ((whole_cons rfl rfl).mpr ((whole_cons rfl rfl).mpr hy.whole))
  have hhas : hasColon (xs ++ ofKind .colon [':'] :: blankToken :: ys) = true := by
    rw [hasColon, outside_append, Whole.afterAll_eq hx.whole, outside_nil_cons]
    simp
  exact (Declaration.readsBack_iff_legible _ .none).mpr fun p =>
    leads_line hxr hx.trimmed hx.parensClosed hx.start (fun t ht => by simpa using hx.colon t ht) hcolon rfl hyr
      hy.trimmed hy.parensClosed hw hhas p

end Node

/-- A property and a value make a declaration that is read back. -/
theorem IsProperty.readsBack {prop value : String} (h : IsProperty prop) (hv : IsValue value) :
    Declaration.ReadsBack ⟨prop, value⟩ := by
  obtain ⟨xs, hx, hprop⟩ := Node.exists_propertyRun h
  obtain ⟨ys, hy, hvalue⟩ := Node.exists_valueRun hv
  have := Node.readsBack_of_runs hx hy
  rwa [join, join, hprop, hvalue, String.ofList_toList, String.ofList_toList] at this

end Mixsheet
