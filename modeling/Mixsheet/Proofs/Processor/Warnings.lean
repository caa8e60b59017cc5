import Mixsheet.Proofs.Expansion.InOrder
import Mixsheet.Proofs.Node.CallPlaces
import Mixsheet.Proofs.Node.CallText

/-! # The warnings of a run

A run warns of the mixin calls whose names the registry does not know, of each of them once and in the order in
which they stand. The position of a warning is where the name of its mixin stands in the source text. -/

namespace Mixsheet

open Token

namespace Expansion

open Evaluation Node

variable {root : Registry Mixin} {units : Units} {depth : Nat}

/-- A call leaves a warning exactly if its name is not found. -/
theorem warnings_evaluate (c : MixinCall) :
    warnings c (evaluate root units depth c) = if (root.resolve? c.name).isNone then [.notFound c] else [] := by
  unfold evaluate
  split
  · rename_i hnone
    rw [hnone]
    rfl
  · rename_i found hsome
    rw [hsome]
    split <;> rfl

theorem warnings_of_expand {sheet : Stylesheet} {e : Expanded} (h : expand root units depth sheet = .ok e) :
    e.warnings = ((calls sheet.nodes).filter fun c => (root.resolve? c.name).isNone).map .notFound := by
  rw [expand_eq] at h
  -- no call fails, so each one leaves its own warnings, in document order
  obtain rfl := expanded_of_inOrder h
  simp only [warnings_evaluate]
  induction calls sheet.nodes with
  | nil => rfl
  | cons c cs ih =>
    rw [List.flatMap_cons, ih, List.filter_cons]
    split <;> rfl

end Expansion

/-- The name of the mixin stands in the text at the line and the column of the warning. -/
def Warning.StandsIn (w : Warning) (s : String) : Prop :=
  w.mixin ≠ "" ∧ ∃ before behind, s.toList = before ++ w.mixin.toList ++ behind ∧
    w.position.line = 1 + before.count '\n' ∧
    w.position.column = 1 + (before.reverse.takeWhile (· != '\n')).length

namespace Stylesheet

variable {s : String} {sheet : Stylesheet} {cs : List MixinCall}

theorem standsIn_of_parse (h : Stylesheet.parse s = .ok sheet) {c : MixinCall} (hc : c ∈ Node.calls sheet.nodes) :
    (Warning.notFound c).StandsIn s := by
  obtain ⟨ts, hts⟩ := Node.exists_ofText_of_parse h
  have hplace := (Node.calls_sublist_of_parse h hts).subset (List.mem_map_of_mem hc)
  obtain ⟨t, ht, heq⟩ := List.mem_map.mp hplace
  obtain ⟨htext, hposition⟩ := Prod.mk.inj heq
  obtain ⟨hrun, hchars⟩ := @run_of_ofCharsFrom none [] _ _ hts
  obtain ⟨before, behind, hs, -, -, hbefore⟩ := hrun.place ((List.takeWhile_sublist _).subset ht)
  obtain ⟨v, r, hread⟩ := (reads_of_ofText hts).1.readAs ht
  have hname : (Warning.notFound c).mixin = t.text := htext.symm
  have hpos : (Warning.notFound c).position = .after .first before := hposition.symm.trans hbefore
  refine ⟨fun hempty => hread.toList_ne (by rw [← hname, hempty]; rfl), before, behind, ?_, ?_, ?_⟩
  · rw [hname, ← hs, List.nil_append, hchars]
  · rw [hpos, Position.line_after_first]
  · rw [hpos, Position.column_after_first]

/-- The warnings of calls of a text, in document order, come later and later in it. -/
theorem pairwise_precedes_of_parse (h : Stylesheet.parse s = .ok sheet) (hcs : cs.Sublist (Node.calls sheet.nodes)) :
    ((cs.map Warning.notFound).map Warning.position).Pairwise Position.Precedes := by
  obtain ⟨ts, hts⟩ := Node.exists_ofText_of_parse h
  have hplaces : (cs.map MixinCall.place).Sublist (ts.map Token.place) :=
    (hcs.map _).trans ((Node.calls_sublist_of_parse h hts).trans ((List.takeWhile_sublist _).map _))
  have hascend : (ts.map Token.place).Pairwise fun x y => x.2.Precedes y.2 :=
    List.pairwise_map.mpr (@run_of_ofCharsFrom none [] _ _ hts).1.pairwise_precedes
  have hcalls := List.pairwise_map.mp (hascend.sublist hplaces)
  rw [List.map_map]
  exact List.pairwise_map.mpr hcalls

/-- The name of a mixin that is called is one word, so it stands on one line. -/
theorem newline_not_mem_name_of_parse (h : Stylesheet.parse s = .ok sheet) {c : MixinCall}
    (hc : c ∈ Node.calls sheet.nodes) : '\n' ∉ c.name.toList := by
  obtain ⟨name, rest, hof⟩ := Node.exists_tokens_of_parse h hc
  obtain ⟨k, hname, -⟩ := hof.reads
  rw [hof.name_eq]
  intro hnewline
  exact absurd ((wordOf_of_readAs hname hof.kind).inert _ hnewline).blank (by decide)

end Stylesheet

/-! ### One line each -/

theorem newline_not_mem_toString (n : Nat) : '\n' ∉ (toString n).toList := fun h =>
  absurd (Nat.isDigit_of_mem_toDigits (by decide) (by decide) (Nat.toList_repr ▸ h)) (by decide)

theorem Warning.newline_not_mem_render {c : MixinCall} (h : '\n' ∉ c.name.toList) :
    '\n' ∉ (notFound c).render.toList := by
  have hline := newline_not_mem_toString c.source.start.line
  have hcolumn := newline_not_mem_toString c.source.start.column
  simp only [render, notFound, String.toList_append, List.mem_append, not_or]
  exact ⟨⟨⟨⟨⟨⟨⟨hline, by decide⟩, hcolumn⟩, by decide⟩, by decide⟩, by decide⟩, h⟩, by decide⟩

/-- Each warning of a run is one line. -/
theorem newline_not_mem_of_run {text css : String} {units : Units} {warnings : List Warning}
    (h : run text units = .ok (css, warnings)) : ∀ w ∈ warnings, '\n' ∉ w.render.toList := by
  obtain ⟨e, he, hresult⟩ := map_eq_ok_iff.mp h
  obtain ⟨-, rfl⟩ := Prod.mk.inj hresult
  obtain ⟨sheet, hsheet, he⟩ := Expansion.exists_of_process he
  rw [Expansion.warnings_of_expand he]
  intro w hw
  obtain ⟨c, hc, rfl⟩ := List.mem_map.mp hw
  exact Warning.newline_not_mem_render
    (Stylesheet.newline_not_mem_name_of_parse hsheet (List.mem_of_mem_filter hc))

/-- A run warns of each mixin call of its text whose name the registry does not find, in document order and of nothing
else; the positions of the warnings ascend, and at each of them the text reads the name of its mixin. -/
theorem Processor.warnings_of_process {p : Processor} {text : String} {e : Expanded} (h : p.process text = .ok e) :
    ∃ sheet, Stylesheet.parse text = .ok sheet ∧
      e.warnings = ((Node.calls sheet.nodes).filter fun c => (p.registry.resolve? c.name).isNone).map Warning.notFound ∧
      (e.warnings.map Warning.position).Pairwise Position.Precedes ∧ ∀ w ∈ e.warnings, w.StandsIn text := by
  unfold process at h
  split at h
  · rename_i sheet hparse
    have hwarnings := Expansion.warnings_of_expand h
    refine ⟨sheet, hparse, hwarnings, ?_, ?_⟩
    · rw [hwarnings]
      exact Stylesheet.pairwise_precedes_of_parse hparse List.filter_sublist
    · rw [hwarnings]
      intro w hw
      obtain ⟨c, hc, rfl⟩ := List.mem_map.mp hw
      exact Stylesheet.standsIn_of_parse hparse (List.mem_of_mem_filter hc)
  · cases h

/-- Of two unknown mixins one is called in a rule behind other tokens of its statement, and one on a later line. -/
theorem Processor.warnings_of_process_of_rule : ∃ e, Processor.standard.process "é\x7b[x](y);\x7d\nz();" = .ok e ∧
    e.warnings = [⟨"Mixin not found.", "x", ⟨1, 4⟩⟩, ⟨"Mixin not found.", "z", ⟨2, 1⟩⟩] ∧
    (e.warnings.map Warning.position).Pairwise Position.Precedes ∧
    ∀ w ∈ e.warnings, w.StandsIn "é\x7b[x](y);\x7d\nz();" := by
  have h : Processor.standard.process "é\x7b[x](y);\x7d\nz();" = .ok ⟨[.rule "é" [] ⟨⟨1, 1⟩, ⟨1, 10⟩⟩],
      [⟨"Mixin not found.", "x", ⟨1, 4⟩⟩, ⟨"Mixin not found.", "z", ⟨2, 1⟩⟩]⟩ := by cbv
  obtain ⟨sheet, -, -, hascend, hstand⟩ := Processor.warnings_of_process h
  exact ⟨_, h, rfl, hascend, hstand⟩

end Mixsheet
