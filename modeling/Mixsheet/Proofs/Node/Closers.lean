import Mixsheet.Proofs.Node.ParseBody

/-! # Closed brackets

In a text that is read as a stylesheet every `(` and `[` of a statement is closed in the statement by a
bracket of its own kind. In the parameters of an at-rule only the number of brackets counts, and at the end of
the text not even that: there the brackets are closed exactly if the stack of missing closers, by which
statements are read, is empty behind them. -/

namespace Mixsheet

open Token

namespace Segment

/-- Every `(` and `[` has its closer behind it, and so have the brackets between the two. -/
def Closes (ts : List Token) : Prop :=
  ∀ before opener after kind, ts = before ++ opener :: after → closerOf? opener.kind = some kind →
    ∃ inner close rest, after = inner ++ close :: rest ∧ close.kind = kind ∧ Inside kind inner

section Closes

variable {kind : TokenKind} {t opener close : Token} {inner ts us out : List Token}

theorem closes_nil : Closes [] := by
  intro before opener after kind heq
  cases before <;> cases heq

theorem Closes.of_append (h : Closes (ts ++ us)) : Closes us := by
  rintro before opener after kind rfl hkind
  exact h (ts ++ before) opener after kind (by simp) hkind

theorem Closes.cons (h : Closes ts) (opens : closerOf? t.kind = none) : Closes (t :: ts) := by
  intro before opener after kind heq hkind
  rcases List.cons_eq_append_iff.mp heq with ⟨rfl, hts⟩ | ⟨before, rfl, hts⟩
  · obtain ⟨rfl, rfl⟩ := List.cons.inj hts
    rw [opens] at hkind
    cases hkind
  · exact h before opener after kind hts hkind

theorem Closes.bracket (h : Closes ts) (opens : closerOf? opener.kind = some kind) (inside : Inside kind inner)
    (hinner : Closes inner) (closes : close.kind = kind) : Closes (opener :: (inner ++ close :: ts)) := by
  have hclose := h.cons (t := close) (closes ▸ not_opens_of_closerOf? opens)
  intro before opener' after kind' heq hkind
  rcases List.cons_eq_append_iff.mp heq with ⟨rfl, hts⟩ | ⟨before, rfl, hts⟩
  · obtain ⟨rfl, rfl⟩ := List.cons.inj hts
    obtain rfl := Option.some.inj (opens.symm.trans hkind)
    exact ⟨inner, close, ts, rfl, closes, inside⟩
  rcases List.append_eq_append_iff.mp hts with ⟨mid, rfl, hmid⟩ | ⟨mid, rfl, hmid⟩
  · exact hclose mid opener' after kind' hmid hkind
  · rcases List.cons_eq_append_iff.mp hmid with ⟨rfl, hmid⟩ | ⟨mid, rfl, rfl⟩
    · exact hclose [] opener' after kind' hmid.symm hkind
    · obtain ⟨inner', close', rest, rfl, hclose', hinside⟩ := hinner before opener' mid kind' rfl hkind
      exact ⟨inner', close', rest ++ close :: ts, by simp, hclose', hinside⟩

theorem Inside.closes (h : Inside kind ts) : Closes ts := by
  induction h with
  | nil closer => exact closes_nil
  | token opens _ _ ih => exact ih.cons opens
  | bracket opens inside closes _ ihi ih => exact ih.bracket opens inside ihi closes

theorem closes_of_closed (h : headAccount.closed (headAccount.afterAll [] ts) = true) : Closes ts := by
  induction hn : ts.length using Nat.strongRecOn generalizing ts with
  | ind n ih =>
    cases ts with
    | nil => exact closes_nil
    | cons t ts =>
      rw [List.length_cons] at hn
      rw [afterAll_cons] at h
      cases hopens : closerOf? t.kind with
      | none =>
        rw [missing_nil_of_not_opens hopens] at h
        exact (ih ts.length (by omega) h rfl).cons hopens
      | some kind =>
        rw [missing_of_opens hopens] at h
        obtain ⟨inner, close, rest, rfl, hclose, hinside, hafter⟩ := exists_inside h
        rw [hafter] at h
        rw [List.length_append, List.length_cons] at hn
        exact (ih rest.length (by omega) h rfl).bracket hopens hinside hinside.closes hclose

theorem Closes.closed (h : Closes ts) : headAccount.closed (headAccount.afterAll [] ts) = true := by
  induction hn : ts.length using Nat.strongRecOn generalizing ts with
  | ind n ih =>
    cases ts with
    | nil => rfl
    | cons t ts =>
      rw [List.length_cons] at hn
      cases hopens : closerOf? t.kind with
      | none =>
        rw [afterAll_cons, missing_nil_of_not_opens hopens]
        exact ih ts.length (by omega) (@Closes.of_append [t] ts h) rfl
      | some kind =>
        obtain ⟨inner, close, rest, rfl, hclose, hinside⟩ := h [] t ts kind rfl hopens
        have hrest : Closes rest := @Closes.of_append (t :: (inner ++ [close])) rest (by simpa using h)
        rw [((hinside.passes []).bracket hopens hclose rest).1]
        rw [List.length_append, List.length_cons] at hn
        exact ih rest.length (by omega) hrest rfl

/-- Brackets are closed by their own kind exactly if no closer is missing in the end. -/
theorem closes_iff : Closes ts ↔ unclosed? [] none ts = none :=
  ⟨fun h => unclosed?_of_closed h.closed, fun h => closes_of_closed (closed_of_unclosed? h fun hne => absurd rfl hne)⟩

end Closes

/-! ### Where the brackets of a text stand -/

/-- The tokens of a statement, or of the parameters of an at-rule. -/
def run : Segment → List Token
  | .atRule _ params _ => params
  | .statement _ head _ => head
  | .space _ | .semicolon | .comment _ | .close _ => []

theorem mem_of_splitEnding {ts : List Token} (hstop : ∀ t ∈ ts.head?, isStop t = true) {t : Token} (ht : t ∈ ts)
    (hopens : closerOf? t.kind ≠ none) : t ∈ (splitEnding ts).2 := by
  cases ts with
  | nil => cases ht
  | cons stop us =>
    have hmem : t ∈ us := by
      refine (List.mem_cons.mp ht).resolve_left ?_
      rintro rfl
      obtain ⟨kind, hkind⟩ := Option.ne_none_iff_exists'.mp hopens
      have := hstop t rfl
      rw [isStop_of_opens hkind] at this
      cases this
    rcases exists_stop (hstop stop rfl) us with ⟨-, h⟩ | ⟨-, h⟩ | ⟨-, h⟩ <;> rw [h]
    · exact hmem
    · exact hmem
    · exact List.mem_cons_of_mem _ hmem

/-- Every `(` and `[` of a run stands in a statement or in parameters. -/
theorem exists_segment {ts : List Token} {t : Token} (ht : t ∈ ts) (hopens : closerOf? t.kind ≠ none) :
    ∃ segment ∈ ofTokens ts, t ∈ segment.run := by
  induction ts using ofTokens_induction with
  | nil => cases ht
  | one first rest hs ha ih =>
    obtain ⟨s, -, heq⟩ := exists_single hs ha
    have hmem : t ∈ rest := by
      refine (List.mem_cons.mp ht).resolve_left ?_
      rintro rfl
      cases hk : t.kind <;> simp_all [startsHead, closerOf?]
    obtain ⟨segment, hsegment, hrun⟩ := ih hmem
    exact ⟨segment, heq rest ▸ List.mem_cons_of_mem _ hsegment, hrun⟩
  | atRule word rest hkind ih =>
    rw [ofTokens_atWord hkind]
    have hmem : t ∈ (splitParams 0 rest).1 ++ (splitParams 0 rest).2 := by
      rw [splitParams_append]
      refine (List.mem_cons.mp ht).resolve_left ?_
      rintro rfl
      simp [hkind, closerOf?] at hopens
    rcases List.mem_append.mp hmem with hparams | hbehind
    · exact ⟨_, List.mem_cons_self, hparams⟩
    · obtain ⟨segment, hsegment, hrun⟩ := ih (mem_of_splitEnding isStop_of_splitParams hbehind hopens)
      exact ⟨segment, List.mem_cons_of_mem _ hsegment, hrun⟩
  | head first rest hs ih =>
    rw [ofTokens_head hs]
    rw [← splitHead_append [] (first :: rest)] at ht
    rcases List.mem_append.mp ht with hhead | hbehind
    · exact ⟨_, List.mem_cons_self, hhead⟩
    · obtain ⟨segment, hsegment, hrun⟩ := ih (mem_of_splitEnding isStop_of_splitHead hbehind hopens)
      exact ⟨segment, List.mem_cons_of_mem _ hsegment, hrun⟩

/-- The parameters stand in the run behind the word of their at-rule, and as many brackets are closed in them as
opened if anything follows. -/
def Around (ts : List Token) (word : Token) (params : List Token) : Prop :=
  ∃ before after, ts = before ++ word :: (params ++ after) ∧ (after ≠ [] → Node.depth params = 0)

theorem Around.of_suffix {ts us : List Token} {word : Token} {params : List Token} (h : Around us word params)
    (hsuffix : us <:+ ts) : Around ts word params := by
  obtain ⟨front, rfl⟩ := hsuffix
  obtain ⟨before, after, rfl, hdepth⟩ := h
  exact ⟨front ++ before, after, by simp, hdepth⟩

theorem around_of_mem {ts : List Token} {word : Token} {params : List Token} {ending : Ending}
    (h : .atRule word params ending ∈ ofTokens ts) : Around ts word params := by
  induction ts using ofTokens_induction with
  | nil => simp [ofTokens_nil] at h
  | one t rest hs ha ih =>
    obtain ⟨s, hsingle, heq⟩ := exists_single hs ha
    rw [heq] at h
    have hmem : .atRule word params ending ∈ ofTokens rest := by
      refine (List.mem_cons.mp h).resolve_left ?_
      rintro rfl
      cases hsingle
    exact (ih hmem).of_suffix (List.suffix_cons t rest)
  | atRule t rest hkind ih =>
    rw [ofTokens_atWord hkind] at h
    rcases List.mem_cons.mp h with he | h
    · injection he with hword hparams hending
      subst hword hparams
      refine ⟨[], (splitParams 0 rest).2, by rw [splitParams_append]; rfl, fun hne => ?_⟩
      obtain ⟨stop, us, hus⟩ := List.exists_cons_of_ne_nil hne
      rw [splitParams_eq] at hus ⊢
      exact beq_iff_eq.mp (Account.closed_of_split hus).1
    · exact (ih h).of_suffix ((splitEnding_splitParams_suffix 0 rest).trans (List.suffix_cons t rest))
  | head t rest hs ih =>
    rw [ofTokens_head hs] at h
    have hmem := (List.mem_cons.mp h).resolve_left (by simp)
    exact (ih hmem).of_suffix (splitEnding_splitHead_suffix [] (t :: rest))

end Segment

/-! ### Stylesheets -/

namespace Node

open Segment

theorem Progress.exists_step_of_mem {p r : Progress} {segments : List Segment} (h : p.run segments = .ok r)
    {s : Segment} (hs : s ∈ segments) : ∃ p' q, Progress.step p' s = .ok q := by
  induction segments generalizing p with
  | nil => cases hs
  | cons s' rest ih =>
    obtain ⟨q, hq, hrest⟩ := exists_step h
    rcases List.mem_cons.mp hs with rfl | hs
    · exact ⟨p, q, hq⟩
    · exact ih hrest hs

theorem closes_of_statement {p q : Progress} {start : Position} {head : List Token} {ending : Ending}
    (hread : (Segment.statement start head ending).Read) (h : p.step (.statement start head ending) = .ok q) :
    Closes head := by
  by_cases hnil : head = []
  · exact hnil ▸ closes_nil
  obtain ⟨-, -, -, hclosed⟩ := hread hnil
  rcases Progress.statement_cases h with ⟨brace, rfl, -⟩ | ⟨prop, value, source, hd, -⟩ | ⟨c, hc, -⟩
  · exact closes_of_closed (hclosed nofun)
  · by_cases hlast : ending = .last
    · exact closes_iff.mpr (hd.unclosed hlast)
    · exact closes_of_closed (hclosed hlast)
  · obtain ⟨stop, rfl, -⟩ := hc.node_eq
    exact closes_of_closed (hclosed nofun)

end Node

/-- In a text that is read as a stylesheet every `(` and `[` stands in a statement or in the parameters of an
at-rule, and all of them are closed in there by their own kind exactly if no closer is missing behind the
parameters of any at-rule. Those in statements always are, and behind parameters that anything follows as many
brackets of either kind are closed as opened. -/
theorem Stylesheet.closes_iff_params {s : String} {sheet : Stylesheet} {ts : List Token}
    (h : Stylesheet.parse s = .ok sheet) (hts : Token.ofText s = .ok ts) :
    (∀ t ∈ content ts, Segment.closerOf? t.kind ≠ none → ∃ segment ∈ Segment.ofTokens (content ts), t ∈ segment.run) ∧
    ((∀ segment ∈ Segment.ofTokens (content ts), Segment.Closes segment.run) ↔
      ∀ word params ending, .atRule word params ending ∈ Segment.ofTokens (content ts) →
        Segment.unclosed? [] none params = none) ∧
    (∀ start head ending, .statement start head ending ∈ Segment.ofTokens (content ts) → Segment.Closes head) ∧
    ∀ word params ending, .atRule word params ending ∈ Segment.ofTokens (content ts) →
      Segment.Around (content ts) word params := by
  have hparse : (Node.ofTokens (content ts)).map Stylesheet.mk = .ok sheet := by
    rw [← h, Stylesheet.parse, hts]
    rfl
  obtain ⟨nodes, hnodes, -⟩ := map_eq_ok_iff.mp hparse
  obtain ⟨p, hrun, -⟩ := bind_eq_ok_iff.mp hnodes
  have hread := Segment.read_of_reads (reads_of_ofText hts).1
  have hstatements : ∀ start head ending, .statement start head ending ∈ Segment.ofTokens (content ts) →
      Segment.Closes head := by
    intro start head ending hmem
    obtain ⟨p', q, hstep⟩ := Node.Progress.exists_step_of_mem hrun hmem
    exact Node.closes_of_statement (hread _ hmem) hstep
  refine ⟨fun t ht hopens => Segment.exists_segment ht hopens, ⟨fun hall word params ending hmem => ?_,
    fun hparams segment hmem => ?_⟩, hstatements, fun word params ending hmem => Segment.around_of_mem hmem⟩
  · exact Segment.closes_iff.mp (hall _ hmem)
  · cases segment with
    | statement start head ending => exact hstatements start head ending hmem
    | atRule word params ending => exact Segment.closes_iff.mpr (hparams word params ending hmem)
    | _ => exact Segment.closes_nil

/-- A selector with both kinds of brackets behind an at-rule. -/
theorem Stylesheet.closes_iff_params_of_rule : ∃ sheet ts,
    Stylesheet.parse "@a (/);[(/)]\x7b\x7d" = .ok sheet ∧ Token.ofText "@a (/);[(/)]\x7b\x7d" = .ok ts ∧
    ((∀ segment ∈ Segment.ofTokens (content ts), Segment.Closes segment.run) ↔
      ∀ word params ending, .atRule word params ending ∈ Segment.ofTokens (content ts) →
        Segment.unclosed? [] none params = none) ∧
    ∀ start head ending, .statement start head ending ∈ Segment.ofTokens (content ts) → Segment.Closes head := by
  have hparse : Stylesheet.parse "@a (/);[(/)]\x7b\x7d" = .ok ⟨[.atStatement "a" "(/)" ⟨⟨1, 1⟩, ⟨1, 6⟩⟩,
      .rule "[(/)]" [] ⟨⟨1, 8⟩, ⟨1, 14⟩⟩]⟩ := by cbv
  have hts : ∃ ts, Token.ofText "@a (/);[(/)]\x7b\x7d" = .ok ts := ⟨_, by cbv⟩
  obtain ⟨ts, hts⟩ := hts
  have h := Stylesheet.closes_iff_params hparse hts
  exact ⟨_, ts, hparse, hts, h.2.1, h.2.2.1⟩

/-- The brackets of an at-rule may stay open at the end of the text, or be closed by the other kind. -/
theorem Stylesheet.closes_params_fails : (∃ sheet ts, Stylesheet.parse "@a (" = .ok sheet ∧
    Token.ofText "@a (" = .ok ts ∧ ¬ ∀ segment ∈ Segment.ofTokens (content ts), Segment.Closes segment.run) ∧
    ∃ sheet ts, Stylesheet.parse "@a (];" = .ok sheet ∧ Token.ofText "@a (];" = .ok ts ∧
      ¬ ∀ segment ∈ Segment.ofTokens (content ts), Segment.Closes segment.run := by
  have hnot : ∀ {ts : List Token} {word : Token} {params : List Token} {ending : Ending},
      Segment.ofTokens (content ts) = [.atRule word params ending] → Segment.unclosed? [] none params ≠ none →
      ¬ ∀ segment ∈ Segment.ofTokens (content ts), Segment.Closes segment.run := by
    intro ts word params ending hsegments hopen h
    rw [hsegments] at h
    exact hopen (Segment.closes_iff.mp (h _ (List.mem_singleton_self _)))
  constructor
  · have hparse : Stylesheet.parse "@a (" = .ok ⟨[.atStatement "a" "(" ⟨⟨1, 1⟩, ⟨1, 4⟩⟩]⟩ := by cbv
    have hts : Token.ofText "@a (" = .ok [⟨.atWord, "@a", 0, 2, ⟨1, 1⟩⟩, ⟨.space, " ", 2, 3, ⟨1, 3⟩⟩,
        ⟨.leftParen, "(", 3, 4, ⟨1, 4⟩⟩, ⟨.eof, "", 4, 4, ⟨1, 5⟩⟩] := by decide +kernel
    exact ⟨_, _, hparse, hts, hnot (by cbv) (by decide)⟩
  · have hparse : Stylesheet.parse "@a (];" = .ok ⟨[.atStatement "a" "(]" ⟨⟨1, 1⟩, ⟨1, 5⟩⟩]⟩ := by cbv
    have hts : Token.ofText "@a (];" = .ok [⟨.atWord, "@a", 0, 2, ⟨1, 1⟩⟩, ⟨.space, " ", 2, 3, ⟨1, 3⟩⟩,
        ⟨.leftParen, "(", 3, 4, ⟨1, 4⟩⟩, ⟨.rightBracket, "]", 4, 5, ⟨1, 5⟩⟩, ⟨.semicolon, ";", 5, 6, ⟨1, 6⟩⟩,
        ⟨.eof, "", 6, 6, ⟨1, 7⟩⟩] := by decide +kernel
    exact ⟨_, _, hparse, hts, hnot (by cbv) (by decide)⟩

end Mixsheet
