import Mixsheet.Proofs.Node.Body
import Mixsheet.Proofs.Node.Spans

/-! # Where a declaration is cut

A statement is a declaration for a colon outside its brackets, but it is cut at the first colon that it has anywhere.
So the property is what stands before the first colon outside the brackets, just if there is none in the brackets
before it. -/

namespace Mixsheet

open Token

namespace Text

theorem count_trim {c : Char} (hc : isBlank c = false) (cs : List Char) : (trim cs).count c = cs.count c := by
  have hblank : ∀ {ds : List Char}, Blank ds → ds.count c = 0 := by
    refine fun hds => List.count_eq_zero.mpr fun hmem => ?_
    rw [hds c hmem] at hc
    cases hc
  obtain ⟨a, b, hcs, ha, hb⟩ := exists_eq_trim cs
  have hcount := congrArg (List.count c) hcs
  rw [List.count_append, List.count_append, hblank ha, hblank hb] at hcount
  omega

end Text

namespace Node

/-! ### The statements of declarations -/

/-- Every declaration of the stylesheet of a text was read of a statement. -/
theorem exists_declares_of_parse {s : String} {sheet : Stylesheet} {ts : List Token}
    (h : Stylesheet.parse s = .ok sheet) (hts : Token.ofText s = .ok ts) {prop value : String} {source : Source}
    (hn : .declaration prop value source ∈ statementsAll sheet.nodes) :
    ∃ start head ending, .statement start head ending ∈ Segment.ofTokens (content ts) ∧
      Progress.Declares start head ending (.declaration prop value source) := by
  have hall : ∀ n ∈ statementsAll sheet.nodes, ∀ prop value source, n = .declaration prop value source →
      ∃ start head ending, .statement start head ending ∈ Segment.ofTokens (content ts) ∧
        Progress.Declares start head ending n := by
    refine forall_statements_of_parse h hts (fun s hs p node hnode prop value source heq => ?_)
      fun header _ _ => by cases header <;> nofun
    obtain ⟨start, head, ending, rfl, hd⟩ := hnode.declaration prop value source heq
    exact ⟨start, head, ending, hs, hd⟩
  exact hall _ hn _ _ _ rfl

/-! ### The first colon -/

/-- Tokens are cut at a colon. -/
def CutAtColon (ts before after : List Token) : Prop := ∃ colon, ts = before ++ colon :: after ∧ colon.kind = .colon

/-- Tokens are cut at their first colon. -/
structure CutFirst (ts before after : List Token) : Prop where
  cut : CutAtColon ts before after
  first : ∀ t ∈ before, t.kind ≠ .colon

/-- Tokens are cut at their first colon outside all brackets. -/
structure CutOutside (ts before after : List Token) : Prop where
  cut : CutAtColon ts before after
  first : ∃ out, Segment.Head before out ∧ ∀ t ∈ out, t.kind ≠ .colon

variable {t : Token} {ts us before after before' after' : List Token}

theorem CutAtColon.append (h : CutAtColon ts before after) (us : List Token) :
    CutAtColon (us ++ ts) (us ++ before) after := by
  obtain ⟨colon, rfl, hkind⟩ := h
  exact ⟨colon, by simp, hkind⟩

theorem CutFirst.cons (h : CutFirst ts before after) (ht : t.kind ≠ .colon) : CutFirst (t :: ts) (t :: before) after :=
  ⟨h.cut.append [t], List.forall_mem_cons.mpr ⟨ht, h.first⟩⟩

theorem cutFirst_cons_of_colon (ht : t.kind = .colon) (ts : List Token) : CutFirst (t :: ts) [] ts :=
  ⟨⟨t, rfl, ht⟩, nofun⟩

theorem exists_cutFirst (h : ∃ t ∈ ts, t.kind = .colon) : ∃ before after, CutFirst ts before after := by
  obtain ⟨u, hu, hukind⟩ := h
  induction ts with
  | nil => cases hu
  | cons t ts ih =>
    by_cases hkind : t.kind = .colon
    · exact ⟨[], ts, cutFirst_cons_of_colon hkind ts⟩
    · obtain ⟨before, after, hcut⟩ := ih ((List.mem_cons.mp hu).resolve_left fun heq => hkind (heq ▸ hukind))
      exact ⟨t :: before, after, hcut.cons hkind⟩

theorem CutFirst.eq_takeWhile (h : CutFirst ts before after) :
    before = ts.takeWhile (·.kind != .colon) ∧ after = (ts.dropWhile (·.kind != .colon)).drop 1 := by
  obtain ⟨⟨colon, rfl, hkind⟩, hfirst⟩ := h
  have hbefore : ∀ t ∈ before, (t.kind != .colon) = true := fun t ht => by simpa using hfirst t ht
  constructor
  · rw [List.takeWhile_append_of_pos hbefore, List.takeWhile_cons_of_neg (by simp [hkind]), List.append_nil]
  · rw [List.dropWhile_append_of_pos hbefore, List.dropWhile_cons_of_neg (by simp [hkind]), List.drop_succ_cons,
      List.drop_zero]

theorem CutFirst.unique (h : CutFirst ts before after) (h' : CutFirst ts before' after') :
    before' = before ∧ after' = after := by
  obtain ⟨rfl, rfl⟩ := h.eq_takeWhile
  exact h'.eq_takeWhile

/-- A head with a colon outside its brackets is cut at the first one. -/
theorem exists_cutOutside {out : List Token} (h : Segment.Head ts out) (hcolon : ∃ t ∈ out, t.kind = .colon) :
    ∃ before after, CutOutside ts before after := by
  obtain ⟨u, hu, hukind⟩ := hcolon
  induction h with
  | nil => cases hu
  | @token t ts out opens stop _ ih =>
    by_cases hkind : t.kind = .colon
    · exact ⟨[], ts, ⟨t, rfl, hkind⟩, [], .nil, nofun⟩
    obtain ⟨before, after, hcut, out', hhead, hfirst⟩ :=
      ih ((List.mem_cons.mp hu).resolve_left fun heq => hkind (heq ▸ hukind))
    exact ⟨t :: before, after, hcut.append [t], t :: out', hhead.token opens stop,
      List.forall_mem_cons.mpr ⟨hkind, hfirst⟩⟩
  | @bracket kind opener close inner ts out opens inside closes _ ih =>
    have hopener : opener.kind ≠ .colon := fun hk => by simp [hk, Segment.closerOf?] at opens
    obtain ⟨before, after, hcut, out', hhead, hfirst⟩ :=
      ih ((List.mem_cons.mp hu).resolve_left fun heq => hopener (heq ▸ hukind))
    have hbracket : CutAtColon (opener :: (inner ++ close :: ts)) (opener :: (inner ++ close :: before)) after := by
      simpa using hcut.append (opener :: (inner ++ [close]))
    exact ⟨_, after, hbracket, opener :: out', hhead.bracket opens inside closes,
      List.forall_mem_cons.mpr ⟨hopener, hfirst⟩⟩

/-- Behind a head a token stands outside all brackets. -/
theorem mem_of_head_append {out out' : List Token} (h : Segment.Head before out)
    (h' : Segment.Head (before ++ t :: us) out') : t ∈ out' := by
  have hclosed : Segment.headAccount.afterAll [] before = [] := List.isEmpty_iff.mp h.whole.1.closed
  rw [← h'.whole.2, Segment.outside_append, hclosed, Segment.outside_nil_cons]
  exact List.mem_append_right _ List.mem_cons_self

theorem CutOutside.unique (h : CutOutside ts before after) (h' : CutOutside ts before' after') :
    before' = before ∧ after' = after := by
  have hbehind : ∀ {x mid : List Token} {c d : Token} {y z : List Token} {out out' : List Token},
      c :: y = mid ++ d :: z → c.kind = .colon → Segment.Head x out → Segment.Head (x ++ mid) out' →
        (∀ t ∈ out', t.kind ≠ .colon) → mid = [] := by
    intro x mid c d y z out out' heq hkind hhead hhead' hfirst
    rcases List.cons_eq_append_iff.mp heq with ⟨rfl, -⟩ | ⟨mid, rfl, -⟩
    · rfl
    · exact absurd hkind (hfirst c (mem_of_head_append hhead hhead'))
  obtain ⟨⟨c, hts, hkind⟩, out, hhead, hfirst⟩ := h
  obtain ⟨⟨c', hts', hkind'⟩, out', hhead', hfirst'⟩ := h'
  rcases List.append_eq_append_iff.mp (hts.symm.trans hts') with ⟨mid, rfl, heq⟩ | ⟨mid, rfl, heq⟩
  · obtain rfl := hbehind heq hkind hhead hhead' hfirst'
    exact ⟨List.append_nil _, (List.cons.inj heq).2.symm⟩
  · obtain rfl := hbehind heq hkind' hhead' hhead hfirst
    exact ⟨(List.append_nil _).symm, (List.cons.inj heq).2⟩

/-- The run up to its first colon is a text of its own: behind it the run goes on with a `:`. -/
theorem trimmedText_ne_of_colon {colon : Token} (htext : colon.text.toList = [':']) (us : List Token) :
    trimmedText before ≠ trimmedText (before ++ colon :: us) := by
  intro heq
  have htrim := congrArg String.toList heq
  rw [trimmedText_eq, trimmedText_eq, String.toList_ofList, String.toList_ofList] at htrim
  have hcount := congrArg (List.count ':') htrim
  rw [Text.count_trim (by decide), Text.count_trim (by decide), chars_append, chars_cons, htext, List.count_append,
    List.count_append, List.count_singleton_self] at hcount
  omega

/-- The two cuts give the same texts, just if no colon stands in brackets before the first one outside. -/
theorem CutOutside.trimmedText_iff (h : CutOutside ts before after) (h' : CutFirst ts before' after')
    (htext : ∀ t ∈ ts, t.kind = .colon → t.text.toList = [':']) :
    trimmedText before' = trimmedText before ∧ trimmedText after' = trimmedText after ↔
      ∀ t ∈ before, t.kind ≠ .colon := by
  constructor
  · rintro ⟨hprop, -⟩ t ht htkind
    obtain ⟨x, y, ⟨inner, rfl, hinner⟩, hnone⟩ := exists_cutFirst ⟨t, ht, htkind⟩
    obtain ⟨⟨colon, rfl, -⟩, -⟩ := h
    have hcut : CutFirst (x ++ inner :: y ++ colon :: after) x (y ++ colon :: after) :=
      ⟨⟨inner, by simp, hinner⟩, hnone⟩
    obtain ⟨rfl, -⟩ := hcut.unique h'
    exact trimmedText_ne_of_colon (htext inner (by simp) hinner) y hprop
  · intro hnone
    have hcut : CutFirst ts before after := ⟨h.cut, hnone⟩
    obtain ⟨rfl, rfl⟩ := hcut.unique h'
    exact ⟨rfl, rfl⟩

end Node

open Node

/-- In the stylesheet of a text every declaration was read of a statement with a colon outside its brackets. Its
property and its value are the texts before and behind the first such colon, just if no colon stands in the brackets
before it; else they are those before and behind the first colon of the statement, which stands in a bracket. -/
theorem Stylesheet.declarations_cut {s : String} {sheet : Stylesheet} {ts : List Token}
    (h : Stylesheet.parse s = .ok sheet) (hts : Token.ofText s = .ok ts) {prop value : String} {source : Source}
    (hn : .declaration prop value source ∈ statementsAll sheet.nodes) :
    ∃ start head ending before after, .statement start head ending ∈ Segment.ofTokens (content ts) ∧
      source = ⟨start, lastPosition start (Progress.declared head ending)⟩ ∧
      CutOutside (Progress.declared head ending) before after ∧
      (prop = trimmedText before ∧ value = trimmedText after ↔ ∀ t ∈ before, t.kind ≠ .colon) ∧
      ∃ before' after', CutFirst (Progress.declared head ending) before' after' ∧
        prop = trimmedText before' ∧ value = trimmedText after' := by
  obtain ⟨start, head, ending, hmem, hd⟩ := exists_declares_of_parse h hts hn
  obtain ⟨us, k, -, -, hreads, -, hwhole, hcolon⟩ := hd.read (Segment.read_of_reads (reads_of_ofText hts).1 _ hmem)
  have hhead := Segment.head_of_whole hwhole
  obtain ⟨before, after, hcut⟩ := exists_cutOutside hhead ((hasColon_iff hhead).mp hcolon)
  obtain ⟨before', c, after', hrun, hnone, hc, -, rfl, rfl⟩ := exists_parts hcolon hd.node_eq
  have hfirst : CutFirst (Progress.declared head ending) before' after' :=
    ⟨⟨c, hrun, hc⟩, fun t ht => by simpa using hnone t ht⟩
  have htext : ∀ t ∈ Progress.declared head ending, t.kind = .colon → t.text.toList = [':'] := by
    intro t ht hkind
    obtain ⟨u, k, hread⟩ := hreads.readAs (List.mem_append_left us ht)
    exact hread.punctuation (by rw [hkind]; rfl)
  exact ⟨start, head, ending, before, after, hmem, source_of_declarationOf hd.node_eq, hcut,
    hcut.trimmedText_iff hfirst htext, before', after', hfirst, rfl, rfl⟩

/-- Brackets before the colon of a declaration, and a colon in the brackets of its value. -/
theorem Stylesheet.declarations_cut_of_brackets : ∃ sheet ts,
    Stylesheet.parse "a[b]:c[d:e];" = .ok sheet ∧ Token.ofText "a[b]:c[d:e];" = .ok ts ∧
    .declaration "a[b]" "c[d:e]" ⟨⟨1, 1⟩, ⟨1, 11⟩⟩ ∈ statementsAll sheet.nodes ∧
    ∃ start head ending before after, .statement start head ending ∈ Segment.ofTokens (content ts) ∧
      CutOutside (Progress.declared head ending) before after ∧
      "a[b]" = trimmedText before ∧ "c[d:e]" = trimmedText after := by
  have hparse : Stylesheet.parse "a[b]:c[d:e];" = .ok ⟨[.declaration "a[b]" "c[d:e]" ⟨⟨1, 1⟩, ⟨1, 11⟩⟩]⟩ := by cbv
  obtain ⟨property, hproperty⟩ : ∃ property : List Token, property = [⟨.word, "a", 0, 1, ⟨1, 1⟩⟩,
      ⟨.leftBracket, "[", 1, 2, ⟨1, 2⟩⟩, ⟨.word, "b", 2, 3, ⟨1, 3⟩⟩, ⟨.rightBracket, "]", 3, 4, ⟨1, 4⟩⟩] := ⟨_, rfl⟩
  obtain ⟨run, hrun⟩ : ∃ run : List Token, run = property ++ [⟨.colon, ":", 4, 5, ⟨1, 5⟩⟩,
      ⟨.word, "c", 5, 6, ⟨1, 6⟩⟩, ⟨.leftBracket, "[", 6, 7, ⟨1, 7⟩⟩, ⟨.word, "d", 7, 8, ⟨1, 8⟩⟩,
      ⟨.colon, ":", 8, 9, ⟨1, 9⟩⟩, ⟨.word, "e", 9, 10, ⟨1, 10⟩⟩, ⟨.rightBracket, "]", 10, 11, ⟨1, 11⟩⟩] := ⟨_, rfl⟩
  have hts : Token.ofText "a[b]:c[d:e];" =
      .ok (run ++ [⟨.semicolon, ";", 11, 12, ⟨1, 12⟩⟩, ⟨.eof, "", 12, 12, ⟨1, 13⟩⟩]) := by
    subst hproperty hrun
    decide +kernel
  have hsegments : Segment.ofTokens (content (run ++ [⟨.semicolon, ";", 11, 12, ⟨1, 12⟩⟩, ⟨.eof, "", 12, 12, ⟨1, 13⟩⟩])) =
      [.statement ⟨1, 1⟩ run (.semicolon ⟨1, 12⟩)] := by
    subst hproperty hrun
    cbv
  have hmem := List.mem_singleton_self (.declaration "a[b]" "c[d:e]" ⟨⟨1, 1⟩, ⟨1, 11⟩⟩ : Node)
  obtain ⟨start, head, ending, before, after, hstatement, -, hcut, hsame, -⟩ :=
    Stylesheet.declarations_cut hparse hts hmem
  have hwhole : Segment.headAccount.Whole property := by
    subst hproperty
    exact ⟨rfl, rfl⟩
  have hnone : ∀ t ∈ before, t.kind ≠ .colon := by
    rw [hsegments] at hstatement
    obtain ⟨rfl, rfl, rfl⟩ := Segment.statement.inj (List.mem_singleton.mp hstatement)
    have hcolon : CutOutside head property _ :=
      ⟨⟨_, hrun, rfl⟩, _, Segment.head_of_whole hwhole, by subst hproperty; decide⟩
    obtain ⟨rfl, -⟩ := hcolon.unique hcut
    subst hproperty
    decide
  exact ⟨_, _, hparse, hts, hmem, start, head, ending, before, after, hstatement, hcut, hsame.mpr hnone⟩

/-- A colon in the brackets of a property ends the property, though it is not the colon of the declaration. -/
theorem Stylesheet.declarations_cut_fails : ¬ ∀ (s : String) (sheet : Stylesheet) (ts : List Token),
    Stylesheet.parse s = .ok sheet → Token.ofText s = .ok ts →
      ∀ prop value source, .declaration prop value source ∈ statementsAll sheet.nodes →
        ∀ start head ending before after, .statement start head ending ∈ Segment.ofTokens (content ts) →
          source.start = start → CutOutside (Progress.declared head ending) before after →
            prop = trimmedText before ∧ value = trimmedText after := by
  intro h
  have hparse : Stylesheet.parse "a[b:c]:d;" = .ok ⟨[.declaration "a[b" "c]:d" ⟨⟨1, 1⟩, ⟨1, 8⟩⟩]⟩ := by cbv
  obtain ⟨property, hproperty⟩ : ∃ property : List Token, property = [⟨.word, "a", 0, 1, ⟨1, 1⟩⟩,
      ⟨.leftBracket, "[", 1, 2, ⟨1, 2⟩⟩, ⟨.word, "b", 2, 3, ⟨1, 3⟩⟩, ⟨.colon, ":", 3, 4, ⟨1, 4⟩⟩,
      ⟨.word, "c", 4, 5, ⟨1, 5⟩⟩, ⟨.rightBracket, "]", 5, 6, ⟨1, 6⟩⟩] := ⟨_, rfl⟩
  obtain ⟨run, hrun⟩ : ∃ run : List Token,
      run = property ++ ⟨.colon, ":", 6, 7, ⟨1, 7⟩⟩ :: [⟨.word, "d", 7, 8, ⟨1, 8⟩⟩] := ⟨_, rfl⟩
  have hts : Token.ofText "a[b:c]:d;" =
      .ok (run ++ [⟨.semicolon, ";", 8, 9, ⟨1, 9⟩⟩, ⟨.eof, "", 9, 9, ⟨1, 10⟩⟩]) := by
    subst hproperty hrun
    decide +kernel
  have hsegments : Segment.ofTokens (content (run ++ [⟨.semicolon, ";", 8, 9, ⟨1, 9⟩⟩, ⟨.eof, "", 9, 9, ⟨1, 10⟩⟩])) =
      [.statement ⟨1, 1⟩ run (.semicolon ⟨1, 9⟩)] := by
    subst hproperty hrun
    cbv
  have hwhole : Segment.headAccount.Whole property := by
    subst hproperty
    exact ⟨rfl, rfl⟩
  have hcut : CutOutside run property _ :=
    ⟨⟨_, hrun, rfl⟩, _, Segment.head_of_whole hwhole, by subst hproperty; decide⟩
  obtain ⟨hprop, -⟩ := h _ _ _ hparse hts _ _ _ (List.mem_singleton_self _) ⟨1, 1⟩ run (.semicolon ⟨1, 9⟩) property _
    (hsegments ▸ List.mem_singleton_self _) rfl hcut
  have hlength := congrArg String.length hprop
  subst hproperty
  revert hlength
  decide

end Mixsheet
