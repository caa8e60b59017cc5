import Mathlib
import Mixsheet.Proofs.Node.Lines
import Mixsheet.Proofs.Node.Progress

/-! # Reading the text of a stylesheet that was read

Every statement that was read from a text is legible, unless it is a mixin call or leaves brackets open
where an end is looked for. So a stylesheet without such statements is what its text is read as. -/

namespace Mixsheet

open Token

namespace Segment

/-! ### Segments of a text -/

/-- What is known of a segment that was cut from the tokens of a text. -/
def Read : Segment → Prop
  | .comment t => t.kind = .comment ∧ ∃ k, ReadAs false t k
  | .atRule word params _ =>
    word.kind = .atWord ∧ paramsAccount.Uncut 0 params ∧ ∃ k, Reads false (word :: params) k
  | .statement _ head ending =>
    head ≠ [] → StartsHead head ∧ headAccount.Uncut [] head ∧ (∃ k, Reads false head k) ∧
      (ending ≠ .last → headAccount.closed (headAccount.afterAll [] head) = true)
  | .space _ | .semicolon | .close _ => True

/-- What stands behind the end of a statement is read as at the start of a text. -/
theorem reads_splitEnding {u : Bool} {ts : List Token} {k : List Char} (h : Reads u ts k)
    (hstop : ∀ t ∈ ts.head?, isStop t = true) : Reads false (splitEnding ts).2 k := by
  cases ts with
  | nil => trivial
  | cons t rest =>
    have ht := hstop t rfl
    have hne : t.kind ≠ .word ∧ t.kind ≠ .brackets ∧ t.kind ≠ .leftParen := by
      refine ⟨?_, ?_, ?_⟩ <;> (intro hk; simp [isStop, hk] at ht)
    have hrest : Reads false rest k := by
      have := h.2
      rwa [isUrl_of_kind_ne hne.1] at this
    rw [splitEnding]
    split
    · exact hrest
    · exact hrest
    · exact ⟨h.1.of_kind hne.2.1 hne.2.2 false, h.2⟩

/-- The segments of the tokens of a text are cut from it as `Read` says. -/
theorem read_of_reads {ts : List Token} {k : List Char} (h : Reads false ts k) :
    ∀ s ∈ ofTokens ts, s.Read := by
  induction ts using ofTokens_induction with
  | nil => simp [ofTokens_nil]
  | one t rest hs ha ih =>
    have hrest : Reads false rest k := by
      have := h.2
      rwa [isUrl_of_kind_ne (by intro hk; simp [hk, startsHead] at hs)] at this
    have ih := ih hrest
    obtain ⟨s, hsingle, hcons⟩ := exists_single hs ha
    rw [hcons]
    refine List.forall_mem_cons.mpr ⟨?_, ih⟩
    cases hsingle with
    | comment kind => exact ⟨kind, _, h.1⟩
    | block => exact fun hne => absurd rfl hne
    | space | semicolon | close => trivial
  | atRule t rest ht ih =>
    have happ : t :: (splitParams 0 rest).1 ++ (splitParams 0 rest).2 = t :: rest :=
      congrArg (t :: ·) (splitParams_append 0 rest)
    obtain ⟨hparams, hbehind⟩ := Reads.append.mp (happ.symm ▸ h)
    rw [ofTokens_atWord ht]
    refine List.forall_mem_cons.mpr ⟨⟨ht, ?_, _, hparams⟩, ih (reads_splitEnding hbehind fun u hu => ?_)⟩
    · rw [splitParams_eq]
      exact Account.uncut_split _ _
    · rw [splitParams_eq] at hu
      obtain ⟨us, hus⟩ := List.head?_eq_some_iff.mp hu
      exact (Account.closed_of_split hus).2
  | head t rest hs ih =>
    have happ := splitHead_append [] (t :: rest)
    obtain ⟨hhead, hbehind⟩ := Reads.append.mp (happ.symm ▸ h)
    rw [ofTokens_head hs]
    refine List.forall_mem_cons.mpr ⟨fun _ => ⟨?_, ?_, ⟨_, hhead⟩, fun he => ?_⟩,
      ih (reads_splitEnding hbehind fun u hu => ?_)⟩
    · rw [splitHead_cons hs]
      exact ⟨t, rfl, hs⟩
    · rw [splitHead_eq]
      exact Account.uncut_split _ _
    · rw [splitHead_eq] at he ⊢
      cases hsplit : (headAccount.split [] (t :: rest)).2 with
      | nil =>
        rw [hsplit] at he
        exact absurd rfl he
      | cons u us => exact (Account.closed_of_split hsplit).1
    · rw [splitHead_eq] at hu
      obtain ⟨us, hus⟩ := List.head?_eq_some_iff.mp hu
      exact (Account.closed_of_split hus).2

end Segment

namespace Node

/-! ### Statements of a text -/

/-- The brackets in the parameters of an at-rule and in the property of a declaration are closed. -/
def BracketsClosed : Node → Prop
  | .atBlock _ params _ _ | .atStatement _ params _ => ClosesBrackets params
  | .declaration prop _ _ => ClosesBrackets prop
  | .rule _ _ _ | .comment _ _ | .call _ => True

/-- No bracket is left open in the parameters of an at-rule, and no parenthesis in the property of a declaration. -/
def Delimited : Node → Prop
  | .atBlock _ params _ _ | .atStatement _ params _ => EndsParams params
  | .declaration prop _ _ => ClosesParens prop
  | .rule _ _ _ | .comment _ _ | .call _ => True

theorem BracketsClosed.delimited {node : Node} (h : node.BracketsClosed) : node.Delimited := by
  cases node with
  | atBlock | atStatement => exact ClosesBrackets.endsParams h
  | declaration => exact ClosesBrackets.closesParens h
  | rule | comment | call => trivial

/-- A statement is legible if it is no mixin call and delimited. -/
def Sound (node : Node) : Prop := node.call? = none → node.Delimited → node.Legible

/-- A statement without the white space and the comments behind it. -/
theorem exists_dropTriviaEnd {ts : List Token} (hstart : Segment.StartsHead ts) :
    ∃ us, ts = dropTriviaEnd ts ++ us ∧ (∀ u ∈ us, u.isTrivia = true) ∧
      significant (dropTriviaEnd ts) = significant ts ∧ Segment.StartsHead (dropTriviaEnd ts) := by
  have hts : dropTriviaEnd ts ++ ts.rtakeWhile isTrivia = ts := List.rdropWhile_append_rtakeWhile ..
  have htrivia : ∀ u ∈ ts.rtakeWhile isTrivia, u.isTrivia = true := fun u hu => List.mem_rtakeWhile_imp hu
  have hsig : significant (ts.rtakeWhile isTrivia) = [] :=
    List.filter_eq_nil_iff.mpr fun t ht => by simp [htrivia t ht]
  refine ⟨_, hts.symm, htrivia, ?_, ?_⟩
  · have := congrArg significant hts
    rwa [significant_append, hsig, List.append_nil] at this
  · refine (hts.symm ▸ hstart).of_append fun hnil => ?_
    obtain ⟨t, ht, hs⟩ := hstart
    have htrivia := List.rdropWhile_eq_nil_iff.mp hnil t (List.mem_of_mem_head? ht)
    rcases isTrivia_iff.mp htrivia with hk | hk <;> rw [hk] at hs <;> cases hs

theorem ne_nil_of_hasColon {ts : List Token} (h : hasColon ts = true) : ts ≠ [] := by
  rintro rfl
  cases h

theorem exists_declared {head : List Token} (hstart : Segment.StartsHead head) (ending : Ending) :
    ∃ us, head = Progress.declared head ending ++ us ∧ (∀ u ∈ us, u.isTrivia = true) ∧
      significant (Progress.declared head ending) = significant head ∧
      Segment.StartsHead (Progress.declared head ending) := by
  cases ending with
  | last => exact exists_dropTriviaEnd hstart
  | block | semicolon => exact ⟨[], (List.append_nil head).symm, List.forall_mem_nil _, rfl, hstart⟩

/-- What a declaration is read of closes its brackets and has a colon outside them. -/
theorem Progress.Declares.whole {start : Position} {head : List Token} {ending : Ending} {node : Node}
    (h : Progress.Declares start head ending node) (hstart : Segment.StartsHead head)
    (hu : Segment.headAccount.Uncut [] head)
    (hc : ending ≠ .last → Segment.headAccount.closed (Segment.headAccount.afterAll [] head) = true) :
    Segment.headAccount.Whole (Progress.declared head ending) ∧
      hasColon (Progress.declared head ending) = true := by
  obtain ⟨-, -, -, hsig, -⟩ := exists_declared hstart ending
  have hclosed : Segment.headAccount.closed (Segment.headAccount.afterAll [] head) = true := by
    by_cases he : ending = .last
    · exact Segment.closed_of_unclosed? (h.unclosed he) (absurd rfl)
    · exact hc he
  exact ⟨(Segment.headAccount_skips.whole_congr hsig).mpr ⟨hu, hclosed⟩, (hasColon_congr hsig).trans h.colon⟩

/-- The declaration of a segment of a text is a whole head, with white space and comments behind it. -/
theorem Progress.Declares.read {start : Position} {head : List Token} {ending : Ending} {node : Node}
    (h : Progress.Declares start head ending node) (hs : (Segment.statement start head ending).Read) :
    ∃ us k, head = Progress.declared head ending ++ us ∧ (∀ u ∈ us, u.isTrivia = true) ∧
      Reads false (Progress.declared head ending ++ us) k ∧
      Segment.StartsHead (Progress.declared head ending) ∧
      Segment.headAccount.Whole (Progress.declared head ending) ∧
      hasColon (Progress.declared head ending) = true := by
  obtain ⟨hstart, hu, ⟨k, hr⟩, hc⟩ := hs (ne_nil_of_hasColon h.colon)
  obtain ⟨us, hus, htrivia, -, hstart'⟩ := exists_declared hstart ending
  exact ⟨us, k, hus, htrivia, hus ▸ hr, hstart', h.whole hstart hu hc⟩

theorem sound_statement {p q : Progress} {start : Position} {head : List Token} {ending : Ending}
    (hs : (Segment.statement start head ending).Read) (h : p.Each Sound)
    (hq : p.statement start head ending = .ok q) : q.Each Sound := by
  rcases Progress.statement_cases hq with ⟨brace, rfl, rfl⟩ | ⟨prop, value, source, hd, rfl⟩ | ⟨c, -, rfl⟩
  · have hrule : ∀ nodes source, (Node.rule (trimmedText head) nodes source).Sound := by
      intro nodes source _ _ hne p
      have hhead : head ≠ [] := by
        rintro rfl
        exact hne rfl
      obtain ⟨hstart, hu, ⟨k, hr⟩, hc⟩ := hs hhead
      exact leads_rule hr hstart ⟨hu, hc (by simp)⟩ p
    exact @Progress.Each.opened _ _ h (.rule (trimmedText head)) hrule _ _
  · obtain ⟨us, k, -, -, hr, hstart, hw, hcolon⟩ := hd.read hs
    refine h.add (List.forall_mem_singleton.mpr ?_)
    intro _ hclosed
    exact leads_declaration (Reads.append.mp hr).1 hstart hw hcolon hd.node_eq hclosed
  · refine h.add (List.forall_mem_singleton.mpr ?_)
    intro hcall
    cases hcall

theorem sound_atRule {p : Progress} {word : Token} {params : List Token} {ending : Ending}
    (hs : (Segment.atRule word params ending).Read) (h : p.Each Sound) :
    (p.atRule word params ending).Each Sound := by
  obtain ⟨hk, hu, k, hr⟩ := hs
  have hstatement : ∀ source, (Node.atStatement (atName word) (trimmedText params) source).Sound := by
    intro source _ hclosed
    obtain ⟨w, ps, hline⟩ := exists_atLine hr hk hu hclosed
    exact hline.leads_statement
  cases ending with
  | block brace =>
    have hblock : ∀ nodes source, (Node.atBlock (atName word) (trimmedText params) nodes source).Sound := by
      intro nodes source _ hclosed
      obtain ⟨w, ps, hline⟩ := exists_atLine hr hk hu hclosed
      exact hline.leads_block
    exact @Progress.Each.opened _ _ h (.atRule (atName word) (trimmedText params)) hblock _ _
  | semicolon stop => exact h.add (List.forall_mem_singleton.mpr (hstatement _))
  | last => exact h.add (List.forall_mem_singleton.mpr (hstatement _))

theorem sound_step {p q : Progress} {s : Segment} (hs : s.Read) (h : p.Each Sound) (hq : p.step s = .ok q) :
    q.Each Sound := by
  cases s with
  | space text =>
    obtain rfl := Except.ok.inj hq
    exact ⟨h.nodes, h.headers, h.before⟩
  | semicolon =>
    obtain rfl := Except.ok.inj hq
    exact h
  | comment t =>
    obtain rfl := Except.ok.inj hq
    obtain ⟨hk, k, hr⟩ := hs
    exact h.add (List.forall_mem_singleton.mpr fun _ _ => leads_comment hr hk)
  | close position => exact h.close hq
  | atRule word params ending =>
    obtain rfl := Except.ok.inj hq
    exact sound_atRule hs h
  | statement start head ending => exact sound_statement hs h hq

theorem ofTokens_of_parse {s : String} {sheet : Stylesheet} {ts : List Token} (h : Stylesheet.parse s = .ok sheet)
    (hts : Token.ofText s = .ok ts) : ofTokens (content ts) = .ok sheet.nodes := by
  rw [Stylesheet.parse, hts] at h
  obtain ⟨nodes, hn, rfl⟩ := map_eq_ok_iff.mp h
  exact hn

theorem exists_ofText_of_parse {s : String} {sheet : Stylesheet} (h : Stylesheet.parse s = .ok sheet) :
    ∃ ts, Token.ofText s = .ok ts := by
  unfold Stylesheet.parse at h
  split at h
  · cases h
  · exact ⟨_, ‹_›⟩

/-- A stylesheet is what the segments of the tokens of its text come to. -/
theorem exists_run_of_parse {s : String} {sheet : Stylesheet} (h : Stylesheet.parse s = .ok sheet) :
    ∃ ts, Reads false ts [] ∧ chars ts = s.toList ∧
      (Progress.initial.run (Segment.ofTokens ts)).bind Progress.finish = .ok sheet.nodes := by
  obtain ⟨ts, hts⟩ := exists_ofText_of_parse h
  obtain ⟨hr, hc⟩ := reads_of_ofText hts
  exact ⟨content ts, hr, hc, ofTokens_of_parse h hts⟩

/-- What every step keeps holds of every statement that was read from a text. -/
theorem each_of_parse {Q : Node → Prop} {s : String} {sheet : Stylesheet} (h : Stylesheet.parse s = .ok sheet)
    (hstep : ∀ {segment : Segment} {p q : Progress}, segment.Read → p.Each Q → p.step segment = .ok q → q.Each Q) :
    ∀ n ∈ statementsAll sheet.nodes, Q n := by
  obtain ⟨ts, hr, -, hrun⟩ := exists_run_of_parse h
  obtain ⟨p, hp, hf⟩ := bind_eq_ok_iff.mp hrun
  have hread := Segment.read_of_reads hr
  have heach := Progress.run_induction (fun s hs p q hp hq => hstep (hread s hs) hp hq) Progress.each_initial hp
  exact heach.finish hf

/-- What holds of every statement with a block, and of the others where they are completed, holds of all that were read
from a text. -/
theorem forall_statements_of_parse {Q : Node → Prop} {s : String} {sheet : Stylesheet} {ts : List Token}
    (h : Stylesheet.parse s = .ok sheet) (hts : Token.ofText s = .ok ts)
    (hnode : ∀ s ∈ Segment.ofTokens (content ts), ∀ p node, Progress.Completes p s node → Q node)
    (hheader : ∀ header nodes source, Q (Header.node header nodes source)) : ∀ n ∈ statementsAll sheet.nodes, Q n := by
  obtain ⟨p, hp, hfinish⟩ := bind_eq_ok_iff.mp (ofTokens_of_parse h hts)
  have hstep : ∀ s ∈ Segment.ofTokens (content ts), ∀ p q : Progress, p.Each Q → p.step s = .ok q → q.Each Q :=
    fun s hs p q hp hq => hp.step hq (hnode s hs p) hheader
  exact (Progress.run_induction hstep Progress.each_initial hp).finish hfinish

/-- Every statement that was read from a text is legible if it is no mixin call and delimited. -/
theorem sound_of_parse {s : String} {sheet : Stylesheet} (h : Stylesheet.parse s = .ok sheet) :
    ∀ n ∈ statementsAll sheet.nodes, n.Sound :=
  each_of_parse h sound_step

end Node

/-- A stylesheet of a text, without mixin calls and with the brackets closed in the parameters of its
at-rules and in the properties of its declarations, is what its own text is read as, but for the places;
and its text is written again. -/
theorem Stylesheet.parse_render {s : String} {sheet : Stylesheet} (h : Stylesheet.parse s = .ok sheet)
    (hcalls : Node.calls sheet.nodes = []) (hclosed : ∀ n ∈ Node.statementsAll sheet.nodes, n.BracketsClosed) :
    ∃ sheet', Stylesheet.parse sheet.render = .ok sheet' ∧ sheet'.bare = sheet.bare ∧
      sheet'.render = sheet.render := by
  have hlegible : ∀ n ∈ Node.statementsAll sheet.nodes, n.Legible := fun n hn =>
    Node.sound_of_parse h n hn (List.filterMap_eq_nil_iff.mp hcalls n hn) (hclosed n hn).delimited
  obtain ⟨sheet', hparse, hbare⟩ := Node.parse_render_of_legible hlegible
  refine ⟨sheet', hparse, hbare, ?_⟩
  rw [← render_bare, hbare, render_bare]

/-- An at-rule with parameters around a declaration whose value has a `;` in its brackets. -/
theorem Stylesheet.parse_render_of_media : ∃ sheet,
    Stylesheet.parse "@media (a) \x7bb:c(\n;d);/*x*/\x7d" = .ok sheet ∧ Node.calls sheet.nodes = [] ∧
    (∀ n ∈ Node.statementsAll sheet.nodes, n.BracketsClosed) ∧
    ∃ sheet', Stylesheet.parse sheet.render = .ok sheet' ∧ sheet'.bare = sheet.bare ∧
      sheet'.render = sheet.render := by
  have h : Stylesheet.parse "@media (a) \x7bb:c(\n;d);/*x*/\x7d" = .ok ⟨[.atBlock "media" "(a)"
      [.declaration "b" "c(\n;d)" ⟨⟨1, 13⟩, ⟨2, 3⟩⟩, .comment "x" ⟨⟨2, 5⟩, ⟨2, 5⟩⟩] ⟨⟨1, 1⟩, ⟨2, 10⟩⟩]⟩ := by
    cbv
  have hparams : ClosesBrackets "(a)" := by
    have hts : Token.ofText "(a)" = .ok [⟨.brackets, "(a)", 0, 3, ⟨1, 1⟩⟩, ⟨.eof, "", 3, 3, ⟨1, 4⟩⟩] := by
      decide +kernel
    exact closesBrackets_of_ofText hts (by decide)
  have hprop : ClosesBrackets "b" := by
    have hts : Token.ofText "b" = .ok [⟨.word, "b", 0, 1, ⟨1, 1⟩⟩, ⟨.eof, "", 1, 1, ⟨1, 2⟩⟩] := by
      decide +kernel
    exact closesBrackets_of_ofText hts (by decide)
  have hcalls : Node.calls [.atBlock "media" "(a)" [.declaration "b" "c(\n;d)" ⟨⟨1, 13⟩, ⟨2, 3⟩⟩,
      .comment "x" ⟨⟨2, 5⟩, ⟨2, 5⟩⟩] ⟨⟨1, 1⟩, ⟨2, 10⟩⟩] = [] := rfl
  have hclosed : ∀ n ∈ Node.statementsAll [.atBlock "media" "(a)"
      [.declaration "b" "c(\n;d)" ⟨⟨1, 13⟩, ⟨2, 3⟩⟩, .comment "x" ⟨⟨2, 5⟩, ⟨2, 5⟩⟩] ⟨⟨1, 1⟩, ⟨2, 10⟩⟩],
      n.BracketsClosed := by
    simp [Node.statementsAll, Node.statements, Node.BracketsClosed, hparams, hprop]
  exact ⟨_, h, hcalls, hclosed, Stylesheet.parse_render h hcalls hclosed⟩

end Mixsheet
