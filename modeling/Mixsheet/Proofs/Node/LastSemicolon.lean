import Mixsheet.Proofs.Node.Concat
import Mixsheet.Proofs.Node.Gains
import Mixsheet.Proofs.Token.Semicolon

/-! # The last semicolon of a block

A declaration at the end of a block needs no `;`. With one behind it the stylesheet is the same, but for the comments
between the declaration and the end of the block: without the `;` they are passed over, and with it they are statements
of the block. -/

namespace Mixsheet

open Token

/-! ### The tokens before a statement -/

namespace Account

variable {σ : Type} {a : Account σ} {s : σ}

theorem split_concat (s : σ) (ts : List Token) : (a.split s ts).1 ++ (a.split s ts).2 = ts := by
  induction ts generalizing s with
  | nil => rfl
  | cons t ts ih =>
    rw [split]
    split
    · rfl
    · exact congrArg (t :: ·) (ih _)

/-- Where a run is cut before a statement it is cut the same with other tokens in place of the statement. -/
theorem exists_cut {ts before tail : List Token} (htail : Segment.StartsHead tail)
    (h : (Segment.splitEnding (a.split s ts).2).2 = before ++ tail) :
    ∃ mid, ts = (a.split s ts).1 ++ mid ++ tail ∧ ∀ us,
      a.split s ((a.split s ts).1 ++ mid ++ us) = ((a.split s ts).1, mid ++ us) ∧
      Segment.splitEnding (mid ++ us) = ((Segment.splitEnding (a.split s ts).2).1, before ++ us) := by
  obtain ⟨e, he, -⟩ := Segment.exists_splitEnding (a.split s ts).2
  rw [h, ← List.append_assoc] at he
  have hne : e ++ before ≠ [] := by
    intro hnil
    obtain ⟨t, ht, hstarts⟩ := htail
    have hstop := @Segment.isStop_of_split _ a s ts t (by rwa [he, hnil, List.nil_append])
    cases hk : t.kind <;> simp_all [Segment.isStop, Segment.startsHead]
  have hsplit := Segment.splitEnding_append hne
  have hending := hsplit tail
  rw [← he] at hending
  have hbefore : (Segment.splitEnding (e ++ before)).2 = before := by
    have hsnd := congrArg Prod.snd hending
    rw [h] at hsnd
    exact (List.append_cancel_right hsnd).symm
  obtain ⟨stop, mid, hmid⟩ := List.exists_cons_of_ne_nil hne
  rw [hmid, List.cons_append] at he
  obtain ⟨hclosed, hstop⟩ := closed_of_split he
  have hcut := (a.uncut_split s ts).split_append
  refine ⟨stop :: mid, ?_, fun us => ⟨?_, ?_⟩⟩
  · rw [List.append_assoc, List.cons_append, ← he, split_concat]
  · rw [List.append_assoc]
    rw [List.cons_append, hcut, split_stop hclosed hstop, List.append_nil]
  · rw [← hmid, hsplit, hbefore, congrArg Prod.fst hending]

end Account

namespace Segment

/-- The tokens are the segments, whatever is behind them. -/
def Firm (before : List Token) (front : List Segment) : Prop := ∀ us, ofTokens (before ++ us) = front ++ ofTokens us

theorem firm_nil : Firm [] [] := fun _ => rfl

theorem Firm.cons {before mid : List Token} {front : List Segment} {s : Segment} (h : Firm before front)
    (hs : ∀ us, ofTokens (mid ++ us) = s :: ofTokens (before ++ us)) : Firm mid (s :: front) :=
  fun us => by rw [hs, h, List.cons_append]

/-- A statement among the segments of a run, with the tokens before it and behind it. -/
structure Splits (ts before : List Token) (front : List Segment) (start : Position) (head : List Token) (ending : Ending)
    (behind : List Token) : Prop where
  tokens : ts = before ++ (head ++ behind)
  firm : Firm before front
  first : ∃ t ∈ head.head?, start = t.position ∧ startsHead t.kind = true
  stop : ∀ t ∈ behind.head?, isStop t = true
  ending_eq : ending = (splitEnding behind).1
  cut : ofTokens (head ++ behind) = .statement start head ending :: ofTokens (splitEnding behind).2

section Splits

variable {ts rest before before' head behind : List Token} {front : List Segment} {start : Position} {ending : Ending}

theorem Splits.startsHead (h : Splits ts before front start head ending behind) : StartsHead (head ++ behind) := by
  obtain ⟨t, ht, -, hstarts⟩ := h.first
  exact StartsHead.append ⟨t, ht, hstarts⟩ behind

theorem Splits.cons (h : Splits rest before front start head ending behind) (s : Segment)
    (hts : ts = before' ++ (head ++ behind)) (hs : ∀ us, ofTokens (before' ++ us) = s :: ofTokens (before ++ us)) :
    Splits ts before' (s :: front) start head ending behind :=
  ⟨hts, h.firm.cons hs, h.first, h.stop, h.ending_eq, h.cut⟩

theorem exists_splits (h : .statement start head ending ∈ ofTokens ts) (hne : head ≠ []) :
    ∃ before front behind, Splits ts before front start head ending behind := by
  induction ts using ofTokens_induction with
  | nil =>
    rw [ofTokens_nil] at h
    cases h
  | one t rest hs ha ih =>
    obtain ⟨s, hsingle, hcons⟩ := exists_single hs ha
    rw [hcons] at h
    rcases List.mem_cons.mp h with rfl | h
    · cases hsingle
      exact absurd rfl hne
    · obtain ⟨before, front, behind, hsplits⟩ := ih h
      exact ⟨t :: before, _, behind, hsplits.cons s (congrArg (t :: ·) hsplits.tokens) fun us => hcons (before ++ us)⟩
  | atRule word rest hkind ih =>
    rw [ofTokens_atWord hkind] at h
    obtain ⟨before, front, behind, hsplits⟩ := ih ((List.mem_cons.mp h).resolve_left nofun)
    have htail := hsplits.tokens
    rw [splitParams_eq] at htail
    obtain ⟨mid, hmid, hcut⟩ := Account.exists_cut hsplits.startsHead htail
    refine ⟨word :: ((paramsAccount.split 0 rest).1 ++ mid), _, behind,
      hsplits.cons (.atRule word (paramsAccount.split 0 rest).1 (splitEnding (paramsAccount.split 0 rest).2).1)
        (congrArg (word :: ·) hmid) fun us => ?_⟩
    obtain ⟨hparams, hending⟩ := hcut us
    rw [List.cons_append, ofTokens_atWord hkind, splitParams_eq, hparams, hending]
  | head t rest hs ih =>
    rw [ofTokens_head hs] at h
    rcases List.mem_cons.mp h with heq | h
    · obtain ⟨rfl, rfl, rfl⟩ := Segment.statement.inj heq
      have happ := splitHead_append [] (t :: rest)
      refine ⟨[], [], (splitHead [] (t :: rest)).2, happ.symm, firm_nil, ⟨t, ?_, rfl, hs⟩, isStop_of_splitHead, rfl, ?_⟩
      · rw [splitHead_cons hs]
        rfl
      · rw [happ, ofTokens_head hs]
    · obtain ⟨before, front, behind, hsplits⟩ := ih h
      have htail := hsplits.tokens
      rw [splitHead_eq] at htail
      obtain ⟨mid, hmid, hcut⟩ := Account.exists_cut hsplits.startsHead htail
      obtain ⟨run, hrun⟩ : ∃ run, (headAccount.split [] (t :: rest)).1 = t :: run := by
        rw [← splitHead_eq, splitHead_cons hs]
        exact ⟨_, rfl⟩
      refine ⟨(headAccount.split [] (t :: rest)).1 ++ mid, _, behind,
        hsplits.cons (.statement t.position (headAccount.split [] (t :: rest)).1
          (splitEnding (headAccount.split [] (t :: rest)).2).1) hmid fun us => ?_⟩
      obtain ⟨hhead, hending⟩ := hcut us
      have hfirst : (headAccount.split [] (t :: rest)).1 ++ mid ++ us = t :: (run ++ mid ++ us) := by rw [hrun]; rfl
      rw [hfirst, ofTokens_head hs, ← hfirst, splitHead_eq, hhead, hending]

end Splits

end Segment

namespace Node

open Segment

/-! ### The end of a block -/

/-- The comments among tokens, as statements. -/
def commentsOf (ts : List Token) : List Node :=
  (ts.filter (·.kind == .comment)).map fun t => .comment (commentText t.text) ⟨t.position, t.position⟩

theorem commentsOf_eq_nil_iff {ts : List Token} : commentsOf ts = [] ↔ ∀ t ∈ ts, t.kind ≠ .comment := by
  simp [commentsOf, List.filter_eq_nil_iff]

/-- Of white space and comments only the comments are statements. -/
theorem run_trivia {ts : List Token} (hts : ∀ t ∈ ts, t.isTrivia = true) (p : Progress) (us : List Token) : ∃ spaces,
    p.run (Segment.ofTokens (ts ++ us)) =
      (⟨spaces, (commentsOf ts).reverse ++ p.nodes, p.blocks⟩ : Progress).run (Segment.ofTokens us) := by
  induction ts generalizing p with
  | nil => exact ⟨p.spaces, rfl⟩
  | cons t ts ih =>
    obtain ⟨ht, hts⟩ := List.forall_mem_cons.mp hts
    rcases isTrivia_iff.mp ht with hk | hk
    · obtain ⟨spaces, hrun⟩ := ih hts { p with spaces := p.spaces ++ t.text }
      refine ⟨spaces, ?_⟩
      rw [List.cons_append, ofTokens_space hk, Progress.run_step rfl, hrun]
      simp [commentsOf, hk]
    · obtain ⟨spaces, hrun⟩ := ih hts (p.add (.comment (commentText t.text) ⟨t.position, t.position⟩))
      refine ⟨spaces, ?_⟩
      rw [List.cons_append, ofTokens_comment hk, Progress.run_step rfl, hrun]
      simp [commentsOf, hk, Progress.add]

/-- Further statements behind the last one of a block are all that is read differently, up to the end of the text. -/
theorem exists_gains {p : Progress} {last : Node} {ts : List Token} {nodes : List Node}
    (hts : ∀ t ∈ ts.head?, t.kind = .rightBrace)
    (h : ((p.add last).run (Segment.ofTokens ts)).bind Progress.finish = .ok nodes) (spaces : String)
    (extra : List Node) : ∃ nodes', ((⟨spaces, extra.reverse ++ last :: p.nodes, p.blocks⟩ : Progress).run
      (Segment.ofTokens ts)).bind Progress.finish = .ok nodes' ∧ Gains last extra nodes nodes' := by
  have hgains : Gains last extra (last :: p.nodes).reverse (extra.reverse ++ last :: p.nodes).reverse := by
    simpa using Gains.last p.nodes.reverse
  obtain ⟨q, hq, hfinish⟩ := bind_eq_ok_iff.mp h
  cases ts with
  | nil =>
    rw [ofTokens_nil] at hq
    obtain rfl := Except.ok.inj hq
    obtain ⟨hblocks, rfl⟩ := Progress.of_finish hfinish
    have hopen : p.blocks = [] := hblocks
    refine ⟨_, ?_, hgains⟩
    rw [ofTokens_nil, hopen]
    rfl
  | cons close ts =>
    rw [ofTokens_rightBrace (hts close rfl)] at hq ⊢
    obtain ⟨r, hr, hq⟩ := Progress.exists_step hq
    obtain ⟨block, blocks, hblocks, rfl⟩ := Progress.exists_of_close hr
    have hopen : p.blocks = block :: blocks := hblocks
    have hin : Progress.GainsIn last extra
        ⟨"", block.header.node (last :: p.nodes).reverse ⟨block.start, close.position⟩ :: block.before, blocks⟩
        ⟨"", block.header.node (extra.reverse ++ last :: p.nodes).reverse ⟨block.start, close.position⟩ :: block.before,
          blocks⟩ :=
      ⟨rfl, .nodes [] block.before blocks block.header _ hgains⟩
    obtain ⟨q', hq', hgainsIn⟩ := hin.run hq
    obtain ⟨nodes', hfinish', hnodes'⟩ := hgainsIn.finish hfinish
    refine ⟨nodes', ?_, hnodes'⟩
    rw [hopen, Progress.run_step rfl, hq']
    exact hfinish'

/-! ### The semicolon -/

/-- What is read of a statement that nothing or a `}` ends is a declaration. -/
theorem Progress.exists_declares_of_last {p q : Progress} {start : Position} {head : List Token}
    (h : p.statement start head .last = .ok q) : ∃ d, Declares start head .last d := by
  rcases statement_cases h with ⟨brace, hbrace, -⟩ | ⟨prop, value, source, hd, -⟩ | ⟨c, hc, -⟩
  · cases hbrace
  · exact ⟨_, hd⟩
  · obtain ⟨stop, hstop, -⟩ := hc.node_eq
    cases hstop

theorem splitEnding_of_last {ts : List Token} (hstop : ∀ t ∈ ts.head?, isStop t = true)
    (h : .last = (splitEnding ts).1) : (∀ t ∈ ts.head?, t.kind = .rightBrace) ∧ (splitEnding ts).2 = ts := by
  rcases splitEnding_cases hstop with ⟨stop, us, rfl, -, he⟩ | ⟨brace, us, rfl, -, he⟩ | ⟨hlast, he⟩ <;> rw [he] at h ⊢
  · cases h
  · cases h
  · exact ⟨hlast, rfl⟩

/-- A whole head before a `;` is a statement. -/
theorem ofTokens_semicolon_of_whole {head : List Token} {start : Position}
    (hfirst : ∃ t ∈ head.head?, start = t.position ∧ startsHead t.kind = true) (hwhole : headAccount.Whole head)
    (us : List Token) : Segment.ofTokens (head ++ semicolonToken :: us) =
      .statement start head (.semicolon semicolonToken.position) :: Segment.ofTokens us := by
  have hsplit : splitHead [] (head ++ semicolonToken :: us) = (head, semicolonToken :: us) := by
    rw [splitHead_eq]
    exact hwhole.split_append rfl us
  obtain ⟨t, ht, rfl, hstarts⟩ := hfirst
  obtain ⟨rest, rfl⟩ := List.head?_eq_some_iff.mp ht
  rw [List.cons_append, ofTokens_head hstarts, ← List.cons_append, hsplit]
  rfl

theorem getLast?_dropTriviaEnd (ts : List Token) : ∀ t ∈ (dropTriviaEnd ts).getLast?, t.isTrivia = false := by
  intro t ht
  rw [dropTriviaEnd, List.getLast?_reverse] at ht
  have hkind := List.head?_dropWhile_not isTrivia ts.reverse
  rw [Option.mem_def.mp ht] at hkind
  simpa using hkind

theorem getLast?_of_parensClosed {ts : List Token} (h : ParensClosed ts) : ∀ t ∈ ts.getLast?, t.kind ≠ .leftParen := by
  intro t ht hkind
  obtain ⟨us, rfl⟩ := List.getLast?_eq_some_iff.mp ht
  obtain ⟨t', ht', -⟩ := h.of_append.1 hkind
  cases ht'

/-- With a `;` behind it a declaration at the end of a block is the same, and the comments behind it are statements of
the block. -/
theorem exists_gains_of_semicolon {ts : List Token} {nodes : List Node} {start : Position} {head : List Token}
    (hreads : Reads false ts []) (h : ofTokens ts = .ok nodes) (hs : .statement start head .last ∈ Segment.ofTokens ts) :
    ∃ before trivia behind d, ts = before ++ (dropTriviaEnd head ++ (trivia ++ behind)) ∧
      head = dropTriviaEnd head ++ trivia ∧ (∀ t ∈ trivia, t.isTrivia = true) ∧
      (∀ t ∈ behind.head?, t.kind = .rightBrace) ∧ Progress.Declares start head .last d ∧
      (∀ t ∈ (before ++ dropTriviaEnd head).getLast?, t.isTrivia = false ∧ t.kind ≠ .leftParen) ∧
      ∃ nodes', ofTokens (before ++ (dropTriviaEnd head ++ semicolonToken :: (trivia ++ behind))) = .ok nodes' ∧
        Gains d (commentsOf trivia) nodes nodes' := by
  obtain ⟨r, hr, hfinish⟩ := bind_eq_ok_iff.mp h
  obtain ⟨p', q', hstep⟩ := Progress.exists_step_of_mem hr hs
  obtain ⟨d, hd⟩ := Progress.exists_declares_of_last hstep
  obtain ⟨trivia, k, hhead, htrivia, -, hstart, hwhole, hcolon⟩ := hd.read (read_of_reads hreads _ hs)
  obtain ⟨before, front, behind, hsplits⟩ := exists_splits hs (ne_nil_of_hasColon hd.colon)
  obtain ⟨hbrace, hbehind⟩ := splitEnding_of_last hsplits.stop hsplits.ending_eq
  rw [Progress.declared] at hhead hstart hwhole hcolon
  have hne : dropTriviaEnd head ≠ [] := ne_nil_of_hasColon hcolon
  have hfirst : ∃ t ∈ (dropTriviaEnd head).head?, start = t.position ∧ startsHead t.kind = true := by
    obtain ⟨t, ht, hfirst⟩ := hsplits.first
    rw [hhead, List.head?_append_of_ne_nil _ hne] at ht
    exact ⟨t, ht, hfirst⟩
  -- both runs come to `p` before the declaration and to `p.add d` behind it
  rw [hsplits.tokens, hsplits.firm, Progress.run_append] at hr
  obtain ⟨p, hp, hr⟩ := bind_eq_ok_iff.mp hr
  have hadd : p.step (.statement start head .last) = .ok (p.add d) := hd.statement_eq p
  rw [hsplits.cut, hbehind, Progress.run_step hadd] at hr
  have hd' : Progress.Declares start (dropTriviaEnd head) (.semicolon semicolonToken.position) d :=
    ⟨fun _ hblock => (by cases hblock), fun hlast => (by cases hlast), hcolon, hd.node_eq⟩
  have hadd' : p.step (.statement start (dropTriviaEnd head) (.semicolon semicolonToken.position)) = .ok (p.add d) :=
    hd'.statement_eq p
  obtain ⟨spaces, hrun⟩ := run_trivia htrivia (p.add d) behind
  obtain ⟨nodes', hnodes', hgains⟩ := exists_gains hbrace (bind_eq_ok_iff.mpr ⟨r, hr, hfinish⟩) spaces (commentsOf trivia)
  refine ⟨before, trivia, behind, d, ?_, hhead, htrivia, hbrace, hd, ?_, nodes', ?_, hgains⟩
  · rw [hsplits.tokens, ← List.append_assoc (dropTriviaEnd head), ← hhead]
  · intro t ht
    rw [List.getLast?_append_of_ne_nil _ hne] at ht
    exact ⟨getLast?_dropTriviaEnd head t ht, getLast?_of_parensClosed (parensClosed_of_closed hwhole.closed) t ht⟩
  · rw [ofTokens, hsplits.firm, Progress.run_append, hp, ofTokens_semicolon_of_whole hfirst hwhole]
    refine Eq.trans ?_ hnodes'
    rw [Except.bind, Progress.run_step hadd', hrun]
    rfl

end Node

open Node

/-- A declaration at the end of a block, or of the text, may have a `;` behind its last token that is neither white
space nor a comment. The stylesheet is then the same, but for the places, and but for the comments behind the
declaration, which are statements of its block only with the `;`. So it is the same just if there are none. -/
theorem Stylesheet.parse_semicolon {s : String} {sheet : Stylesheet} {ts : List Token}
    (h : Stylesheet.parse s = .ok sheet) (hts : Token.ofText s = .ok ts) {start : Position} {head : List Token}
    (hs : .statement start head .last ∈ Segment.ofTokens (content ts)) :
    ∃ before trivia behind d, content ts = before ++ (dropTriviaEnd head ++ (trivia ++ behind)) ∧
      head = dropTriviaEnd head ++ trivia ∧ (∀ t ∈ trivia, t.isTrivia = true) ∧
      (∀ t ∈ behind.head?, t.kind = .rightBrace) ∧ Progress.Declares start head .last d ∧
      ∃ sheet' nodes', Stylesheet.parse (join (before ++ dropTriviaEnd head) ++ ";" ++ join (trivia ++ behind)) = .ok sheet' ∧
        sheet'.bare = Stylesheet.bare ⟨nodes'⟩ ∧ Gains d (commentsOf trivia) sheet.nodes nodes' ∧
        (sheet'.bare = sheet.bare ↔ ∀ t ∈ trivia, t.kind ≠ .comment) := by
  have hreads := (reads_of_ofText hts).1
  obtain ⟨before, trivia, behind, d, htokens, hhead, htrivia, hbrace, hd, hlast, nodes', hnodes', hgains⟩ :=
    exists_gains_of_semicolon hreads (ofTokens_of_parse h hts) hs
  have hreads' : Reads false (before ++ (dropTriviaEnd head ++ semicolonToken :: (trivia ++ behind))) [] := by
    rw [← List.append_assoc]
    refine Reads.insert_semicolon (by rwa [List.append_assoc, ← htokens]) (fun t ht => ?_) fun t ht => ?_
    · obtain ⟨htriviaLast, hparen⟩ := hlast t ht
      exact ⟨fun hk => by simp [Token.isTrivia, hk, TokenKind.isTrivia] at htriviaLast, hparen⟩
    · cases trivia with
      | nil => simp [hbrace t ht]
      | cons space rest =>
        obtain rfl := Option.some.inj ht
        rcases isTrivia_iff.mp (htrivia space List.mem_cons_self) with hk | hk <;> simp [hk]
  have htext : chars (before ++ (dropTriviaEnd head ++ semicolonToken :: (trivia ++ behind))) =
      (join (before ++ dropTriviaEnd head) ++ ";" ++ join (trivia ++ behind)).toList := by
    simp [join]
  obtain ⟨sheet', hsheet', hbare⟩ := parse_of_yields (htext ▸ yields_of_ofTokens hreads' hnodes')
  refine ⟨before, trivia, behind, d, htokens, hhead, htrivia, hbrace, hd, sheet', nodes', hsheet', hbare, hgains, ?_⟩
  rw [← commentsOf_eq_nil_iff, ← hgains.bareAll_eq_iff, bareAll_eq_map, bareAll_eq_map, hbare]
  exact ⟨congrArg Stylesheet.nodes, congrArg Stylesheet.mk⟩

/-- White space behind the last declaration of a block, with a rule behind the block. -/
theorem Stylesheet.parse_semicolon_of_space : ∃ sheet ts head before trivia behind sheet',
    Stylesheet.parse "@a\x7bb:c \x7dd\x7b\x7d" = .ok sheet ∧ Token.ofText "@a\x7bb:c \x7dd\x7b\x7d" = .ok ts ∧
    .statement ⟨1, 4⟩ head .last ∈ Segment.ofTokens (content ts) ∧
    content ts = before ++ (dropTriviaEnd head ++ (trivia ++ behind)) ∧
    Stylesheet.parse (join (before ++ dropTriviaEnd head) ++ ";" ++ join (trivia ++ behind)) = .ok sheet' ∧
    sheet'.bare = sheet.bare := by
  have hparse : Stylesheet.parse "@a\x7bb:c \x7dd\x7b\x7d" = .ok ⟨[.atBlock "a" "" [.declaration "b" "c"
      ⟨⟨1, 4⟩, ⟨1, 6⟩⟩] ⟨⟨1, 1⟩, ⟨1, 8⟩⟩, .rule "d" [] ⟨⟨1, 9⟩, ⟨1, 11⟩⟩]⟩ := by cbv
  obtain ⟨head, hhead⟩ : ∃ head : List Token, head = [⟨.word, "b", 3, 4, ⟨1, 4⟩⟩, ⟨.colon, ":", 4, 5, ⟨1, 5⟩⟩,
      ⟨.word, "c", 5, 6, ⟨1, 6⟩⟩, ⟨.space, " ", 6, 7, ⟨1, 7⟩⟩] := ⟨_, rfl⟩
  obtain ⟨ts, hts, hstatement⟩ : ∃ ts, Token.ofText "@a\x7bb:c \x7dd\x7b\x7d" = .ok ts ∧
      (Segment.ofTokens (content ts))[1]? = some (.statement ⟨1, 4⟩ head .last) := by
    subst hhead
    exact ⟨[⟨.atWord, "@a", 0, 2, ⟨1, 1⟩⟩, ⟨.leftBrace, "\x7b", 2, 3, ⟨1, 3⟩⟩, ⟨.word, "b", 3, 4, ⟨1, 4⟩⟩,
      ⟨.colon, ":", 4, 5, ⟨1, 5⟩⟩, ⟨.word, "c", 5, 6, ⟨1, 6⟩⟩, ⟨.space, " ", 6, 7, ⟨1, 7⟩⟩,
      ⟨.rightBrace, "\x7d", 7, 8, ⟨1, 8⟩⟩, ⟨.word, "d", 8, 9, ⟨1, 9⟩⟩, ⟨.leftBrace, "\x7b", 9, 10, ⟨1, 10⟩⟩,
      ⟨.rightBrace, "\x7d", 10, 11, ⟨1, 11⟩⟩, ⟨.eof, "", 11, 11, ⟨1, 12⟩⟩], by decide +kernel, by cbv⟩
  have hmem := List.mem_of_getElem? hstatement
  obtain ⟨before, trivia, behind, d, htokens, hrun, -, -, -, sheet', nodes', hsheet', -, -, hsame⟩ :=
    Stylesheet.parse_semicolon hparse hts hmem
  have hnone : ∀ t ∈ trivia, t.kind ≠ .comment := by
    intro t ht
    have hin : t ∈ head := hrun ▸ List.mem_append_right _ ht
    have hcomment : ∀ t ∈ head, t.kind ≠ .comment := by
      subst hhead
      decide
    exact hcomment t hin
  exact ⟨_, ts, head, before, trivia, behind, sheet', hparse, hts, hmem, htokens, hsheet', hsame.mpr hnone⟩

/-- The comment behind the last declaration of a block is a statement of the block only behind a `;`. -/
theorem Stylesheet.parse_semicolon_fails : ¬ ∀ (s : String) (sheet : Stylesheet) (ts : List Token),
    Stylesheet.parse s = .ok sheet → Token.ofText s = .ok ts →
      ∀ start head before trivia behind, .statement start head .last ∈ Segment.ofTokens (content ts) →
        content ts = before ++ (head ++ behind) → head = dropTriviaEnd head ++ trivia →
          ∃ sheet', Stylesheet.parse (join (before ++ dropTriviaEnd head) ++ ";" ++ join (trivia ++ behind)) = .ok sheet' ∧
            sheet'.bare = sheet.bare := by
  intro h
  have hparse : Stylesheet.parse "a\x7bb:c/*d*/\x7d" =
      .ok ⟨[.rule "a" [.declaration "b" "c" ⟨⟨1, 3⟩, ⟨1, 5⟩⟩] ⟨⟨1, 1⟩, ⟨1, 11⟩⟩]⟩ := by cbv
  have hparse' : Stylesheet.parse "a\x7bb:c;/*d*/\x7d" = .ok ⟨[.rule "a" [.declaration "b" "c" ⟨⟨1, 3⟩, ⟨1, 5⟩⟩,
      .comment "d" ⟨⟨1, 7⟩, ⟨1, 7⟩⟩] ⟨⟨1, 1⟩, ⟨1, 12⟩⟩]⟩ := by cbv
  have hts : Token.ofText "a\x7bb:c/*d*/\x7d" = .ok [⟨.word, "a", 0, 1, ⟨1, 1⟩⟩, ⟨.leftBrace, "\x7b", 1, 2, ⟨1, 2⟩⟩,
      ⟨.word, "b", 2, 3, ⟨1, 3⟩⟩, ⟨.colon, ":", 3, 4, ⟨1, 4⟩⟩, ⟨.word, "c", 4, 5, ⟨1, 5⟩⟩,
      ⟨.comment, "/*d*/", 5, 10, ⟨1, 6⟩⟩, ⟨.rightBrace, "\x7d", 10, 11, ⟨1, 11⟩⟩, ⟨.eof, "", 11, 11, ⟨1, 12⟩⟩] := by
    decide +kernel
  obtain ⟨sheet', hsheet', hbare⟩ := h _ _ _ hparse hts ⟨1, 3⟩ [⟨.word, "b", 2, 3, ⟨1, 3⟩⟩, ⟨.colon, ":", 3, 4, ⟨1, 4⟩⟩,
      ⟨.word, "c", 4, 5, ⟨1, 5⟩⟩, ⟨.comment, "/*d*/", 5, 10, ⟨1, 6⟩⟩]
    [⟨.word, "a", 0, 1, ⟨1, 1⟩⟩, ⟨.leftBrace, "\x7b", 1, 2, ⟨1, 2⟩⟩] [⟨.comment, "/*d*/", 5, 10, ⟨1, 6⟩⟩]
    [⟨.rightBrace, "\x7d", 10, 11, ⟨1, 11⟩⟩] (@List.mem_of_getElem? _ _ 1 _ (by cbv)) rfl rfl
  have htext : join ([⟨.word, "a", 0, 1, ⟨1, 1⟩⟩, ⟨.leftBrace, "\x7b", 1, 2, ⟨1, 2⟩⟩] ++ dropTriviaEnd
      [⟨.word, "b", 2, 3, ⟨1, 3⟩⟩, ⟨.colon, ":", 3, 4, ⟨1, 4⟩⟩, ⟨.word, "c", 4, 5, ⟨1, 5⟩⟩,
        ⟨.comment, "/*d*/", 5, 10, ⟨1, 6⟩⟩]) ++ ";" ++ join ([⟨.comment, "/*d*/", 5, 10, ⟨1, 6⟩⟩] ++
      [⟨.rightBrace, "\x7d", 10, 11, ⟨1, 11⟩⟩]) = "a\x7bb:c;/*d*/\x7d" := by decide +kernel
  rw [htext, hparse'] at hsheet'
  obtain rfl := Except.ok.inj hsheet'
  simp [Stylesheet.bare, Node.bare, Node.bareAll] at hbare

end Mixsheet
