import Mixsheet.Output
import Mixsheet.Proofs.Node.RoundTrip

/-! # Declarations that are read back

A declaration is read back if its own line, `prop: value;`, is the stylesheet of nothing but this
declaration. Then the line is read as the declaration wherever it stands in a stylesheet. -/

namespace Mixsheet

open Token

/-- The line of a declaration. -/
def Declaration.line (d : Declaration) : String := d.prop ++ ": " ++ d.value ++ ";"

/-- The line of the declaration is the stylesheet of nothing but the declaration. -/
def Declaration.ReadsBack (d : Declaration) : Prop :=
  ∃ source, Stylesheet.parse d.line = .ok ⟨[.declaration d.prop d.value source]⟩

namespace Text

/-! ### The text of the line -/

section Line

variable {p v before after rest : List Char}

theorem exists_eq_trim_append {cs : List Char} (h : ∀ c ∈ cs.head?, isBlank c = false) :
    ∃ b, cs = trim cs ++ b ∧ Blank b := by
  obtain ⟨a, b, hab, ha, hb⟩ := exists_eq_trim cs
  cases a with
  | nil => exact ⟨b, hab, hb⟩
  | cons c a =>
    have hblank := ha c List.mem_cons_self
    rw [h c (by rw [hab]; rfl)] at hblank
    cases hblank

theorem head?_trim {cs : List Char} (h : ∀ c ∈ cs.head?, isBlank c = false) : (trim cs).head? = cs.head? := by
  obtain ⟨b, hb, hblank⟩ := exists_eq_trim_append h
  cases hcs : trim cs with
  | cons c ds =>
    rw [hb, hcs]
    rfl
  | nil =>
    rw [hcs, List.nil_append] at hb
    subst hb
    cases cs with
    | nil => rfl
    | cons c ds =>
      have := h c rfl
      rw [hblank c List.mem_cons_self] at this
      cases this

/-- The property of a line ends where the text before its first colon does. -/
theorem eq_of_line (hp : trim before = p) (hhead : ∀ c ∈ before.head?, isBlank c = false)
    (h : before ++ ':' :: rest = p ++ ':' :: after) : before = p ∧ rest = after := by
  obtain ⟨b, hab, hb⟩ := exists_eq_trim_append hhead
  rw [hp] at hab
  rw [hab, List.append_assoc, List.append_cancel_left_eq] at h
  cases b with
  | nil => exact ⟨by rw [hab, List.append_nil], (List.cons.inj h).2⟩
  | cons c b =>
    have hblank := hb c List.mem_cons_self
    rw [(List.cons.inj h).1] at hblank
    exact absurd hblank (by decide)

/-- The value of a line ends before its last semicolon. -/
theorem eq_of_value (hv : trim after = v) (h : after ++ ';' :: rest = ' ' :: (v ++ [';'])) :
    after = ' ' :: v ∧ rest = [] := by
  rcases List.eq_nil_or_concat rest with rfl | ⟨r, c, rfl⟩
  · exact ⟨List.append_cancel_right (by simpa using h), rfl⟩
  · have hcut : after ++ ';' :: r = ' ' :: v := by
      have h' : (after ++ ';' :: r) ++ [c] = (' ' :: v) ++ [';'] := by simpa using h
      exact (List.append_inj' h' rfl).1
    obtain ⟨a, b, hab, -, -⟩ := exists_eq_trim after
    rw [hv] at hab
    have hlength := congrArg List.length hcut
    rw [hab] at hlength
    simp only [List.length_append, List.length_cons] at hlength
    obtain rfl : a = [] := List.length_eq_zero_iff.mp (by omega)
    obtain rfl : b = [] := List.length_eq_zero_iff.mp (by omega)
    rw [List.nil_append, List.append_nil] at hab
    rw [hab] at hcut
    cases hcase : v with
    | nil =>
      rw [hcase] at hcut
      cases hcut
    | cons d v' =>
      have htight := (hv ▸ trim_tight after).head d (by rw [hcase]; rfl)
      rw [hcase] at hcut
      rw [(List.cons.inj hcut).1] at htight
      exact absurd htight (by decide)

/-- The value of a line is not all that is left of it. -/
theorem trim_ne_of_value (hv : Tight v) : trim (' ' :: (v ++ [';'])) ≠ v := by
  have htight : Tight (v ++ [';']) := by
    constructor
    · intro c hc
      cases v with
      | nil =>
        obtain rfl := Option.some.inj hc
        decide
      | cons d ds => exact hv.head c hc
    · intro c hc
      rw [List.getLast?_append] at hc
      obtain rfl := Option.some.inj hc
      decide
  intro h
  have htrim := @trim_between [' '] (v ++ [';']) [] blank_space blank_nil
  rw [List.append_nil, htight.trim_eq] at htrim
  have hlength := congrArg List.length (htrim.symm.trans h)
  simp at hlength

end Line

end Text

namespace Node

namespace Progress

/-! ### Texts of one declaration -/

variable {p : Progress} {prop value : String} {source : Source}

theorem exists_step_of_finish {s : Segment} {rest : List Segment} {nodes : List Node}
    (h : (p.run (s :: rest)).bind finish = .ok nodes) :
    ∃ q, p.step s = .ok q ∧ (q.run rest).bind finish = .ok nodes := by
  obtain ⟨r, hr, hf⟩ := bind_eq_ok_iff.mp h
  obtain ⟨q, hq, hr⟩ := exists_step hr
  exact ⟨q, hq, bind_eq_ok_iff.mpr ⟨r, hr, hf⟩⟩

/-- What comes first is the declaration. -/
theorem First.eq_of_run {Q : Node → Prop} (h : p.First Q) {segments : List Segment}
    (hn : (p.run segments).bind finish = .ok [.declaration prop value source]) :
    Q (.declaration prop value source) := by
  obtain ⟨n, hn, hq⟩ := h.of_run hn
  obtain rfl := Option.some.inj hn
  exact hq

/-- Of a text of one declaration, the declaration is the first statement. -/
theorem eq_of_add (hp : p.nodes = []) (hb : p.blocks = []) {node : Node} {segments : List Segment}
    (h : ((p.add node).run segments).bind finish = .ok [.declaration prop value source]) :
    node = .declaration prop value source := by
  have hfirst : (p.add node).First (node = ·) := first_of_add hp hb rfl
  exact hfirst.eq_of_run h

/-- A text of one declaration does not start with a block. -/
theorem not_of_opened (hp : p.nodes = []) (hb : p.blocks = []) {header : Header} {start brace : Position}
    {segments : List Segment} :
    ((p.opened header start brace).run segments).bind finish ≠ .ok [.declaration prop value source] := by
  intro h
  have hfirst : (p.opened header start brace).First (· ≠ .declaration prop value source) :=
    first_of_opened hp hb (by cases header <;> exact nofun) start brace
  exact hfirst.eq_of_run h rfl

/-- A text of one declaration has it behind white space and semicolons. -/
theorem exists_head {us : List Token} (hp : p.nodes = []) (hb : p.blocks = [])
    (h : (p.run (Segment.ofTokens us)).bind finish = .ok [.declaration prop value source]) :
    ∃ a t rest, us = a ++ t :: rest ∧ (∀ u ∈ a, u.kind = .space ∨ u.kind = .semicolon) ∧
      Segment.startsHead t.kind = true ∧ ∃ q : Progress, q.nodes = [] ∧ q.blocks = [] ∧
        (q.run (Segment.ofTokens (t :: rest))).bind finish = .ok [.declaration prop value source] := by
  induction us using Segment.ofTokens_induction generalizing p with
  | nil =>
    rw [Segment.ofTokens_nil, run, Except.bind, finish, hb, hp] at h
    cases Except.ok.inj h
  | one t rest hs ha ih =>
    cases hk : t.kind with
    | space =>
      rw [Segment.ofTokens_space hk] at h
      obtain ⟨q, hq, hn⟩ := exists_step_of_finish h
      obtain rfl := Except.ok.inj hq
      obtain ⟨a, t', rest', rfl, ha, hrest⟩ := @ih ⟨p.spaces ++ t.text, p.nodes, p.blocks⟩ hp hb hn
      exact ⟨t :: a, t', rest', rfl, List.forall_mem_cons.mpr ⟨.inl hk, ha⟩, hrest⟩
    | semicolon =>
      rw [Segment.ofTokens_semicolon hk] at h
      obtain ⟨q, hq, hn⟩ := exists_step_of_finish h
      obtain rfl := Except.ok.inj hq
      obtain ⟨a, t', rest', rfl, ha, hrest⟩ := ih hp hb hn
      exact ⟨t :: a, t', rest', rfl, List.forall_mem_cons.mpr ⟨.inr hk, ha⟩, hrest⟩
    | comment =>
      rw [Segment.ofTokens_comment hk] at h
      obtain ⟨q, hq, hn⟩ := exists_step_of_finish h
      obtain rfl := Except.ok.inj hq
      cases eq_of_add hp hb hn
    | leftBrace =>
      rw [Segment.ofTokens_leftBrace hk] at h
      obtain ⟨q, hq, hn⟩ := exists_step_of_finish h
      obtain rfl := Except.ok.inj hq
      exact absurd hn (not_of_opened hp hb)
    | rightBrace =>
      rw [Segment.ofTokens_rightBrace hk] at h
      obtain ⟨q, hq, -⟩ := exists_step_of_finish h
      rw [step, close, hb] at hq
      cases hq
    | atWord => exact absurd hk ha
    | _ =>
      rw [hk] at hs
      cases hs
  | atRule t rest ht ih =>
    rw [Segment.ofTokens_atWord ht] at h
    obtain ⟨q, hq, hn⟩ := exists_step_of_finish h
    obtain rfl := Except.ok.inj hq
    unfold atRule at hn
    split at hn
    · exact absurd hn (not_of_opened hp hb)
    · cases eq_of_add hp hb hn
  | head t rest hs ih => exact ⟨[], t, rest, rfl, List.forall_mem_nil _, hs, p, hp, hb, h⟩

/-- The statement that a text of one declaration starts with is the declaration. -/
theorem declares_of_statement (hp : p.nodes = []) (hb : p.blocks = []) {start : Position} {head : List Token}
    {ending : Ending} {q : Progress} (hq : p.statement start head ending = .ok q) {segments : List Segment}
    (h : (q.run segments).bind finish = .ok [.declaration prop value source]) :
    Declares start head ending (.declaration prop value source) ∧ q.blocks = [] := by
  rcases statement_cases hq with ⟨brace, rfl, rfl⟩ | ⟨prop, value, source, hd, rfl⟩ | ⟨c, -, rfl⟩
  · exact absurd h (not_of_opened hp hb)
  · rw [← eq_of_add hp hb h]
    exact ⟨hd, hb⟩
  · cases eq_of_add hp hb h

/-- The head that a text of one declaration starts with is that of the declaration. It ends with its
semicolon, or else with the text. -/
theorem declares_of_run {t : Token} {rest : List Token} (hp : p.nodes = []) (hb : p.blocks = [])
    (hs : Segment.startsHead t.kind = true)
    (h : (p.run (Segment.ofTokens (t :: rest))).bind finish = .ok [.declaration prop value source]) :
    ∃ start head behind, t :: rest = head ++ behind ∧
      .statement start head (Segment.splitEnding behind).1 ∈ Segment.ofTokens (t :: rest) ∧
      Declares start head (Segment.splitEnding behind).1 (.declaration prop value source) ∧
      (behind = [] ∨ ∃ stop us, behind = stop :: us ∧ stop.kind = .semicolon) := by
  have happ := Segment.splitHead_append [] (t :: rest)
  have hcut := @Segment.ofTokens_head t rest hs
  rw [hcut] at h
  obtain ⟨q, hq, hn⟩ := exists_step_of_finish h
  obtain ⟨hd, hqb⟩ := declares_of_statement hp hb hq hn
  refine ⟨t.position, _, _, happ.symm, ?_, hd, ?_⟩
  · rw [hcut]
    exact List.mem_cons_self
  · cases hbehind : (Segment.splitHead [] (t :: rest)).2 with
    | nil => exact .inl rfl
    | cons stop us =>
      refine .inr ⟨stop, us, rfl, ?_⟩
      have hblock := hd.not_block
      rw [hbehind] at hn hblock
      rw [Segment.splitHead_eq] at hbehind
      have hstop := (Account.closed_of_split hbehind).2
      cases hk : stop.kind with
      | semicolon => rfl
      | leftBrace =>
        rw [Segment.splitEnding, hk] at hblock
        exact absurd rfl (hblock _)
      | rightBrace =>
        rw [Segment.splitEnding, hk, Segment.ofTokens_rightBrace hk] at hn
        obtain ⟨r, hr, -⟩ := exists_step_of_finish hn
        rw [step, close, hqb] at hr
        cases hr
      | _ =>
        rw [Segment.isStop, hk] at hstop
        cases hstop

end Progress

/-! ### The tokens of the line -/

theorem kind_of_punctuation {u : Bool} {t : Token} {k cs : List Char} (h : t.ReadAs u k) {c : Char}
    {kind : TokenKind} (hc : Lexeme.punctuation? c = some kind) (htext : t.text.toList = c :: cs) :
    t.kind = kind := by
  obtain ⟨d, ds, l, hr, hkind, hd, -⟩ := h
  obtain ⟨rfl, -⟩ := List.cons.inj (htext.symm.trans hd)
  have hread := (Lexeme.Reading.punctuation hc).read_eq.symm.trans hr.read_eq
  rw [← hkind, ← Except.ok.inj hread]

/-- White space and comments do not end with a semicolon. -/
theorem getLast?_of_trivia {u : Bool} {t : Token} {k : List Char} (h : t.ReadAs u k)
    (ht : t.isTrivia = true) : t.text.toList.getLast? ≠ some ';' := by
  intro hlast
  rcases isTrivia_iff.mp ht with hk | hk
  · have := h.blank hk _ (List.mem_of_getLast? hlast)
    exact absurd this (by decide)
  · obtain ⟨c, cs, l, hr, hkind, htext, -⟩ := h
    obtain ⟨_, body, -, -, hbody, split⟩ := hr.comment_inv (hkind.trans hk)
    rw [htext, hbody, List.getLast?_cons_cons, List.getLast?_cons, Lexeme.getLast?_of_splitComment? split] at hlast
    cases hlast

/-- White space and comments are not what a text with a semicolon at its end ends with. -/
theorem eq_nil_of_semicolon {u : Bool} {ts : List Token} {k cs ds : List Char} (h : Reads u ts k)
    (htrivia : ∀ t ∈ ts, t.isTrivia = true) (hc : cs ++ chars ts = ds ++ [';']) : ts = [] := by
  rcases List.eq_nil_or_concat ts with hnil | ⟨us, t, ht⟩
  · exact hnil
  · rw [List.concat_eq_append] at ht
    have hmem : t ∈ ts := by simp [ht]
    obtain ⟨v, r, hr⟩ := h.readAs hmem
    have hlast := congrArg List.getLast? hc
    rw [ht, chars_append, chars_cons, chars_nil, List.append_nil, ← List.append_assoc,
      List.getLast?_append_of_ne_nil _ hr.toList_ne, List.getLast?_concat] at hlast
    exact absurd hlast (getLast?_of_trivia hr (htrivia t hmem))

theorem eq_nil_of_chars {u : Bool} {ts : List Token} {k : List Char} (h : Reads u ts k)
    (hc : chars ts = []) : ts = [] := by
  cases ts with
  | nil => rfl
  | cons t ts => exact absurd (List.append_eq_nil_iff.mp hc).1 h.1.toList_ne

/-- The beginning of a statement is no white space. -/
theorem isBlank_head {ts : List Token} {k : List Char} (h : Reads false ts k) (hstart : Segment.StartsHead ts) :
    ∀ c ∈ (chars ts).head?, Text.isBlank c = false := by
  obtain ⟨t, ht, hs⟩ := hstart.kind_ne
  obtain ⟨ts, rfl⟩ := List.head?_eq_some_iff.mp ht
  intro c hc
  rw [chars_cons, List.head?_append_of_ne_nil _ h.1.toList_ne] at hc
  exact (h.1.tight hs).head c hc

/-- The parts of a declaration in the text of its head. -/
theorem exists_chars {ts : List Token} {k : List Char} (h : Reads false ts k) (hstart : Segment.StartsHead ts)
    (hcolon : hasColon ts = true) {start : Position} {prop value : String} {source : Source}
    (hd : declarationOf start ts = .ok (.declaration prop value source)) :
    ∃ before after, chars ts = before ++ ':' :: after ∧ before ≠ [] ∧
      (∀ c ∈ before.head?, Text.isBlank c = false) ∧ Text.trim before = prop.toList ∧
      Text.trim after = value.toList := by
  obtain ⟨before, c, after, rfl, -, hc, hne, hprop, hvalue⟩ := exists_parts hcolon hd
  obtain ⟨hb, hcr⟩ := Reads.append.mp h
  have hctext : c.text.toList = [':'] := hcr.1.punctuation (by rw [hc]; rfl)
  have hbne : before ≠ [] := by
    rintro rfl
    exact hne hprop.symm
  rw [trimmedText_eq] at hprop hvalue
  refine ⟨chars before, chars after, ?_, fun hnil => hbne (eq_nil_of_chars hb hnil),
    isBlank_head hb (hstart.of_append hbne), ?_, ?_⟩
  · rw [chars_append, chars_cons, hctext]
    rfl
  · rw [← hprop, String.toList_ofList]
  · rw [← hvalue, String.toList_ofList]

theorem head?_chars {u : Bool} {t : Token} {ts : List Token} {k : List Char} (h : Reads u (t :: ts) k)
    (cs : List Char) : (chars (t :: ts) ++ cs).head? = t.text.toList.head? := by
  rw [chars_cons, List.append_assoc, List.head?_append_of_ne_nil _ h.1.toList_ne]

/-- A line that starts like its property has nothing before its statement. -/
theorem eq_nil_of_head {a rest : List Token} {t : Token} {k : List Char} (h : Reads false (a ++ t :: rest) k)
    (ha : ∀ u ∈ a, u.kind = .space ∨ u.kind = .semicolon) (hs : Segment.startsHead t.kind = true)
    (hhead : (chars (a ++ t :: rest)).head? = t.text.toList.head?) : a = [] := by
  cases a with
  | nil => rfl
  | cons u a =>
    have ht := (Reads.append.mp h).2.1
    have hu := h.1
    have hfirst : t.text.toList.head? = u.text.toList.head? := by
      rw [← hhead, ← @head?_chars false u _ k h [], List.append_nil]
      rfl
    obtain ⟨c, cs, hc⟩ := List.exists_cons_of_ne_nil ht.toList_ne
    obtain ⟨c', cs', hc'⟩ := List.exists_cons_of_ne_nil hu.toList_ne
    rw [hc, hc'] at hfirst
    obtain rfl := Option.some.inj hfirst
    rcases ha u List.mem_cons_self with hk | hk
    · have hblank := hu.blank hk c (by rw [hc']; exact List.mem_cons_self)
      have htight := (ht.tight (by intro hk'; rw [hk'] at hs; cases hs)).head c (by rw [hc]; rfl)
      rw [hblank] at htight
      cases htight
    · have hsemi : u.text.toList = [';'] := hu.punctuation (by rw [hk]; rfl)
      obtain rfl := (List.cons.inj (hc'.symm.trans hsemi)).1
      have := kind_of_punctuation ht rfl hc
      rw [this] at hs
      cases hs

theorem toList_line (d : Declaration) :
    d.line.toList = d.prop.toList ++ ':' :: ' ' :: (d.value.toList ++ [';']) := by
  simp [Declaration.line]

section Line

variable {d : Declaration} {ts : List Token} {k : List Char} {start : Position} {source : Source}

/-- A head starts like the line of the declaration that is read of it. -/
theorem head?_line (h : Reads false ts k) (hstart : Segment.StartsHead ts) (hcolon : hasColon ts = true)
    (hd : declarationOf start ts = .ok (.declaration d.prop d.value source)) (cs : List Char) :
    (chars ts ++ cs).head? = d.line.toList.head? := by
  obtain ⟨before, after, hchars, hne, hhead, hprop, -⟩ := exists_chars h hstart hcolon hd
  have hbefore : before.head? = d.prop.toList.head? := by
    rw [← hprop, Text.head?_trim hhead]
  have hprop_ne : d.prop.toList ≠ [] := by
    intro hnil
    rw [hnil] at hbefore
    exact hne (List.head?_eq_none_iff.mp hbefore)
  rw [hchars, List.append_assoc, List.head?_append_of_ne_nil _ hne, hbefore, toList_line,
    List.head?_append_of_ne_nil _ hprop_ne]

/-- In a line that starts with the head of its declaration, the value goes on to the last semicolon. -/
theorem exists_value (h : Reads false ts k) (hstart : Segment.StartsHead ts) (hcolon : hasColon ts = true)
    (hd : declarationOf start ts = .ok (.declaration d.prop d.value source)) {cs : List Char}
    (hline : chars ts ++ cs = d.line.toList) :
    ∃ after, Text.trim after = d.value.toList ∧ after ++ cs = ' ' :: (d.value.toList ++ [';']) := by
  obtain ⟨before, after, hchars, -, hhead, hprop, hvalue⟩ := exists_chars h hstart hcolon hd
  rw [hchars, toList_line, List.append_assoc] at hline
  exact ⟨after, hvalue, (Text.eq_of_line hprop hhead hline).2⟩

end Line

/-- A line that is read back is the head of its declaration and its semicolon. -/
theorem exists_head_of_readsBack {d : Declaration} (h : d.ReadsBack) :
    ∃ head stop start source, Reads false (head ++ [stop]) [] ∧ chars (head ++ [stop]) = d.line.toList ∧
      Segment.StartsHead head ∧ Segment.headAccount.Whole head ∧ hasColon head = true ∧
      stop.kind = .semicolon ∧ declarationOf start head = .ok (.declaration d.prop d.value source) := by
  obtain ⟨source, hparse⟩ := h
  obtain ⟨us, hr, hline, hrun⟩ := exists_run_of_parse hparse
  obtain ⟨a, t, rest, rfl, ha, hs, q, hqn, hqb, hq⟩ := Progress.exists_head rfl rfl hrun
  obtain ⟨start, head, behind, hcut, hmem, hdeclares, hend⟩ := Progress.declares_of_run hqn hqb hs hq
  have hrest : Reads false (t :: rest) [] := by
    have := (Reads.append.mp hr).2
    rwa [endsUrl_of_kind_ne fun u hu => by rcases ha u hu with hk | hk <;> simp [hk]] at this
  obtain ⟨us, k, hus, htrivia, hread, hstart, hw, hcolon⟩ := hdeclares.read (Segment.read_of_reads hrest _ hmem)
  have hd := hdeclares.node_eq
  generalize hdeclared : Progress.declared head (Segment.splitEnding behind).1 = ts at hus hread hstart hw hcolon hd
  obtain ⟨hts, htrailing⟩ := Reads.append.mp hread
  have htail : chars (t :: rest) = chars ts ++ (chars us ++ chars behind) := by
    rw [hcut, hus, chars_append, chars_append, List.append_assoc]
  obtain rfl : a = [] := by
    refine eq_nil_of_head hr ha hs ?_
    have hhead := head?_chars hrest []
    rw [List.append_nil, htail] at hhead
    rw [hline, ← head?_line hts hstart hcolon hd _, hhead]
  obtain ⟨after, hvalue, hafter⟩ := exists_value hts hstart hcolon hd (htail.symm.trans hline)
  rcases hend with rfl | ⟨stop, rest', rfl, hstop⟩
  · -- without its semicolon the line would be a declaration of a longer value
    exfalso
    rw [chars_nil, List.append_nil] at hafter
    obtain rfl : us = [] := @eq_nil_of_semicolon _ _ _ _ (' ' :: d.value.toList) htrailing htrivia hafter
    rw [chars_nil, List.append_nil] at hafter
    rw [hafter] at hvalue
    exact Text.trim_ne_of_value (hvalue ▸ Text.trim_tight _) hvalue
  · obtain rfl : head = ts := by
      rw [← hdeclared, Segment.splitEnding, hstop]
      rfl
    obtain rfl : us = [] := List.append_right_eq_self.mp hus.symm
    have hbehind : Reads (endsUrl false head) (stop :: rest') [] := by
      rw [hcut] at hrest
      exact (Reads.append.mp hrest).2
    have hstopText : stop.text.toList = [';'] := hbehind.1.punctuation (by rw [hstop]; rfl)
    rw [chars_nil, List.nil_append, chars_cons, hstopText] at hafter
    obtain ⟨-, hnil⟩ := Text.eq_of_value hvalue hafter
    obtain rfl : rest' = [] := eq_nil_of_chars hbehind.2 hnil
    rw [List.nil_append, hcut] at hr hline
    exact ⟨head, stop, start, source, hr, hline, hstart, hw, hcolon, hstop, hd⟩

/-- The line of a declaration that is read back is read as the declaration wherever it stands. -/
theorem leads_of_readsBack {d : Declaration} (h : d.ReadsBack) (p : Progress) :
    Leads d.line.toList p (p.add (.declaration d.prop d.value .none)) := by
  obtain ⟨head, stop, start, source, hr, hline, hstart, hw, hcolon, hstop, hd⟩ := exists_head_of_readsBack h
  obtain ⟨hread, hend⟩ := Reads.append.mp hr
  have hstopText : stop.text.toList = [';'] := hend.1.punctuation (by rw [hstop]; rfl)
  have htext : chars head ++ [';'] = d.line.toList := by
    rw [← hline, chars_append, chars_cons, hstopText]
    rfl
  rw [← htext]
  refine leads_head hstart hw hcolon (fun k => Reads.append.mpr ⟨?_, .singleton (readAs_punctuation rfl _ _)⟩) hd p
  rw [chars_cons, hstopText] at hread
  have hbefore : Before head (';' :: k) := by
    refine ⟨fun _ _ _ c hc => ?_, fun _ _ _ => rfl, .inl (Segment.parensClosed_of_closed hw.closed)⟩
    obtain rfl := Option.some.inj hc
    decide
  simpa using hread.change hbefore

end Node
end Mixsheet
