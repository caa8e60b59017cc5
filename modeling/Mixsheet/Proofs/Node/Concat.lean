import Mixsheet.Proofs.Node.Closers

/-! # Stylesheets one after the other

A stylesheet that ends with a `;` or a `}` ends there whatever follows it on the next line: its tokens are the
same, the segments of more tokens come behind its own, and the statements of another stylesheet behind its
statements. What could reach into the text behind is a `(` without its `)`, and parameters of an at-rule with a
bracket left open. -/

namespace Mixsheet

open Token

/-! ### Where a run ends -/

namespace Account

variable {σ : Type} {a : Account σ} {Valid : σ → Prop} {s : σ} {ts us : List Token}

theorem Skips.valid_afterAll (h : a.Skips Valid) (hs : Valid s) (ts : List Token) : Valid (a.afterAll s ts) := by
  induction ts generalizing s with
  | nil => exact hs
  | cons t ts ih => exact ih (h.after hs t)

/-- A run that is cut is cut at the same place when more tokens follow it. -/
theorem split_append_of_cut (h : ¬ a.Uncut s ts) (us : List Token) :
    a.split s (ts ++ us) = ((a.split s ts).1, (a.split s ts).2 ++ us) := by
  induction ts generalizing s with
  | nil => exact absurd rfl h
  | cons t ts ih =>
    rw [List.cons_append, split, split]
    by_cases hs : a.closed s = true ∧ Segment.isStop t = true
    · rw [if_pos hs, if_pos hs]
      rfl
    · have htail : ¬ a.Uncut (a.after s t) ts := fun hu => h (uncut_cons.mpr ⟨hs, hu⟩)
      rw [if_neg hs, if_neg hs, ih htail]

/-- A `;`, `{` or `}` opens and closes no bracket. -/
def PassesStops (a : Account σ) (Valid : σ → Prop) : Prop :=
  ∀ {s}, Valid s → ∀ {t : Token}, Segment.isStop t = true → a.after s t = s

/-- The last token of a whole run, but for white space and comments, ends no statement. -/
theorem Skips.isStop_of_whole (h : a.Skips Valid) (hpass : a.PassesStops Valid) (hw : a.Whole ts) :
    ∀ t ∈ (significant ts).getLast?, Segment.isStop t = false := by
  intro t ht
  have hsig : significant (significant ts) = significant ts := by simp [significant]
  obtain ⟨hu, hclosed⟩ := (h.whole_congr hsig).mpr hw
  obtain ⟨us, hus⟩ := List.getLast?_eq_some_iff.mp ht
  rw [hus] at hu hclosed
  refine Bool.eq_false_iff.mpr fun hstop => (uncut_cons.mp (uncut_append.mp hu).2).1 ⟨?_, hstop⟩
  have hafter : a.afterAll a.start (us ++ [t]) = a.afterAll a.start us := by
    rw [afterAll_append]
    exact hpass (h.valid_afterAll h.start us) hstop
  rwa [hafter] at hclosed

/-- A run that ends where a statement does is cut before its end, if no bracket is open where it is cut with white
space behind it. -/
theorem Skips.cut_of_stop (h : a.Skips Valid) (hpass : a.PassesStops Valid) (hus : significant us = [])
    (hstop : ∃ t ∈ (significant ts).getLast?, Segment.isStop t = true)
    (hclosed : a.closed (a.afterAll a.start (a.split a.start (ts ++ us)).1) = true) : ¬ a.Uncut a.start ts := by
  intro hu
  have hsig : significant (ts ++ us) = significant ts := by rw [significant_append, hus, List.append_nil]
  have hall : a.Uncut a.start (ts ++ us) := by
    rw [← h.uncut_significant h.start, hsig, h.uncut_significant h.start]
    exact hu
  have hsplit := hall.split_append []
  rw [List.append_nil] at hsplit
  rw [hsplit, split, List.append_nil] at hclosed
  obtain ⟨t, ht, hstop⟩ := hstop
  have hnot := h.isStop_of_whole hpass ⟨hall, hclosed⟩ t (hsig ▸ ht)
  rw [hstop] at hnot
  cases hnot

end Account

namespace Segment

theorem headAccount_passesStops : headAccount.PassesStops Closers := by
  intro closers hs t ht
  rcases missing_cases closers t with ⟨hk, -⟩ | ⟨hk, -⟩ | ⟨-, -, he⟩ | ⟨-, -, -, he⟩
  · simp [isStop, hk] at ht
  · simp [isStop, hk] at ht
  · rw [he] at hs
    rcases hs t.kind List.mem_cons_self with hk | hk <;> simp [isStop, hk] at ht
  · exact he

theorem paramsAccount_passesStops : paramsAccount.PassesStops fun _ => True := by
  intro depth _ t ht
  cases hk : t.kind <;> simp_all [isStop, paramsAccount, depthAfter]

/-! ### Segments of tokens one after the other -/

/-- The brackets of a statement, and of the parameters of an at-rule, are closed. -/
def Shut : Segment → Prop
  | .atRule _ params _ => Closed params
  | .statement _ head _ => headAccount.closed (headAccount.afterAll [] head) = true
  | .space _ | .semicolon | .comment _ | .close _ => True

/-- The last token, but for white space and comments, ends a statement. -/
def EndsStatement (ts : List Token) : Prop := ∀ t ∈ (significant ts).getLast?, isStop t = true

theorem EndsStatement.of_suffix {ts us : List Token} (h : EndsStatement ts) (hsuffix : us <:+ ts) : EndsStatement us := by
  obtain ⟨front, rfl⟩ := hsuffix
  intro t ht
  refine h t ?_
  rw [significant_append, List.getLast?_append, Option.mem_def.mp ht, Option.some_or]
  rfl

theorem EndsStatement.exists_last {t : Token} {ts : List Token} (h : EndsStatement (t :: ts)) (ht : t.isTrivia = false) :
    ∃ u ∈ (significant (t :: ts)).getLast?, isStop u = true := by
  cases hlast : (significant (t :: ts)).getLast? with
  | none =>
    rw [significant_cons ht, List.getLast?_cons] at hlast
    cases hlast
  | some u => exact ⟨u, rfl, h u hlast⟩

theorem splitEnding_append {ts : List Token} (h : ts ≠ []) (us : List Token) :
    splitEnding (ts ++ us) = ((splitEnding ts).1, (splitEnding ts).2 ++ us) := by
  obtain ⟨t, ts, rfl⟩ := List.exists_cons_of_ne_nil h
  rw [List.cons_append, splitEnding, splitEnding]
  split <;> rfl

theorem isTrivia_of_startsHead {t : Token} (h : startsHead t.kind = true) : t.isTrivia = false := by
  refine Bool.eq_false_iff.mpr fun ht => ?_
  rcases isTrivia_iff.mp ht with hk | hk <;> (rw [hk] at h; cases h)

section Append

variable {word t : Token} {rest a : List Token}

/-- An at-rule with closed brackets that ends where a statement does ends before. -/
theorem cut_params (hkind : word.kind = .atWord) (ha : significant a = []) (hend : EndsStatement (word :: rest))
    (hshut : ∀ s ∈ ofTokens (word :: rest ++ a), s.Shut) : ¬ paramsAccount.Uncut 0 rest := by
  have hword : word.isTrivia = false := by simp [isTrivia, hkind, TokenKind.isTrivia]
  have hstop : isStop word = false := by simp [isStop, hkind]
  have hafter : paramsAccount.after paramsAccount.start word = 0 := by simp [paramsAccount, depthAfter, hkind]
  rw [List.cons_append, ofTokens_atWord hkind, splitParams_eq] at hshut
  have hclosed := (List.forall_mem_cons.mp hshut).1.closed
  -- the word counts as the first of its parameters here: it neither ends a statement nor is a bracket
  have hcut : ¬ paramsAccount.Uncut paramsAccount.start (word :: rest) := by
    refine paramsAccount_skips.cut_of_stop paramsAccount_passesStops ha (hend.exists_last hword) ?_
    rw [List.cons_append, Account.split, hstop, hafter]
    simpa [Account.afterAll, hafter] using hclosed
  refine fun hu => hcut (Account.uncut_cons.mpr ⟨by simp [hstop], ?_⟩)
  rwa [hafter]

theorem cut_head (hs : startsHead t.kind = true) (ha : significant a = []) (hend : EndsStatement (t :: rest))
    (hshut : ∀ s ∈ ofTokens (t :: rest ++ a), s.Shut) : ¬ headAccount.Uncut [] (t :: rest) := by
  rw [List.cons_append, ofTokens_head hs, splitHead_eq] at hshut
  have hclosed := (List.forall_mem_cons.mp hshut).1
  exact headAccount_skips.cut_of_stop headAccount_passesStops ha (hend.exists_last (isTrivia_of_startsHead hs)) hclosed

/-- If more tokens behind leave the first segment as it is, the segments of what is behind it come behind them. -/
theorem ofTokens_append_of_cons {ts behind us : List Token} {s : Segment}
    (hcons : ∀ vs, ofTokens (ts ++ vs) = s :: ofTokens (behind ++ vs)) (hsuffix : behind <:+ ts) (hend : EndsStatement ts)
    (hshut : ∀ s ∈ ofTokens (ts ++ a), s.Shut)
    (ih : EndsStatement behind → (∀ s ∈ ofTokens (behind ++ a), s.Shut) →
      ofTokens (behind ++ us) = ofTokens behind ++ ofTokens us) : ofTokens (ts ++ us) = ofTokens ts ++ ofTokens us := by
  have hts := hcons []
  rw [List.append_nil, List.append_nil] at hts
  rw [hcons] at hshut
  rw [hcons, hts, List.cons_append, ih (hend.of_suffix hsuffix) (List.forall_mem_cons.mp hshut).2]

/-- Behind tokens that end where a statement does the segments of further tokens come behind their own. -/
theorem ofTokens_append {ts : List Token} (ha : significant a = []) (hend : EndsStatement ts)
    (hshut : ∀ s ∈ ofTokens (ts ++ a), s.Shut) (us : List Token) : ofTokens (ts ++ us) = ofTokens ts ++ ofTokens us := by
  induction ts using ofTokens_induction with
  | nil => rw [ofTokens_nil, List.nil_append, List.nil_append]
  | one t rest hs hat ih =>
    obtain ⟨s, -, hcons⟩ := exists_single hs hat
    exact ofTokens_append_of_cons (fun vs => hcons (rest ++ vs)) (List.suffix_cons t rest) hend hshut ih
  | atRule word rest hkind ih =>
    have hcut := cut_params hkind ha hend hshut
    have hne : (splitParams 0 rest).2 ≠ [] := by rwa [splitParams_eq]
    have hsplit : ∀ vs, splitParams 0 (rest ++ vs) = ((splitParams 0 rest).1, (splitParams 0 rest).2 ++ vs) := by
      intro vs
      rw [splitParams_eq, splitParams_eq, Account.split_append_of_cut hcut]
    have hcons : ∀ vs, ofTokens (word :: rest ++ vs) =
        .atRule word (splitParams 0 rest).1 (splitEnding (splitParams 0 rest).2).1 ::
          ofTokens ((splitEnding (splitParams 0 rest).2).2 ++ vs) := by
      intro vs
      rw [List.cons_append, ofTokens_atWord hkind, hsplit, splitEnding_append hne]
    have hsuffix := (splitEnding_splitParams_suffix 0 rest).trans (List.suffix_cons word rest)
    exact ofTokens_append_of_cons hcons hsuffix hend hshut ih
  | head t rest hs ih =>
    have hcut := cut_head hs ha hend hshut
    have hne : (splitHead [] (t :: rest)).2 ≠ [] := by rwa [splitHead_eq]
    have hsplit : ∀ vs, splitHead [] (t :: rest ++ vs) =
        ((splitHead [] (t :: rest)).1, (splitHead [] (t :: rest)).2 ++ vs) := by
      intro vs
      rw [splitHead_eq, splitHead_eq, Account.split_append_of_cut hcut]
    have hcons : ∀ vs, ofTokens (t :: rest ++ vs) =
        .statement t.position (splitHead [] (t :: rest)).1 (splitEnding (splitHead [] (t :: rest)).2).1 ::
          ofTokens ((splitEnding (splitHead [] (t :: rest)).2).2 ++ vs) := by
      intro vs
      rw [List.cons_append, ofTokens_head hs, ← List.cons_append, hsplit, splitEnding_append hne]
    exact ofTokens_append_of_cons hcons (splitEnding_splitHead_suffix [] (t :: rest)) hend hshut ih

end Append

/-! ### Parentheses -/

theorem Shut.parensClosed {s : Segment} (h : s.Shut) : ParensClosed s.run := by
  cases s with
  | atRule word params ending => exact parensClosed_of_openAfter h.1
  | statement start head ending => exact parensClosed_of_closed h
  | _ => trivial

theorem parensClosed_of_splitEnding {ts : List Token} (hstop : ∀ t ∈ ts.head?, isStop t = true)
    (h : ParensClosed (splitEnding ts).2) : ParensClosed ts := by
  rcases splitEnding_cases hstop with ⟨stop, us, rfl, hk, he⟩ | ⟨stop, us, rfl, hk, he⟩ | ⟨-, he⟩ <;> rw [he] at h
  · exact ⟨fun hparen => by simp [hk] at hparen, h⟩
  · exact ⟨fun hparen => by simp [hk] at hparen, h⟩
  · exact h

/-- Parentheses are closed in a run if they are in its statements and parameters. -/
theorem parensClosed_of_shut {ts : List Token} (h : ∀ s ∈ ofTokens ts, s.Shut) : ParensClosed ts := by
  induction ts using ofTokens_induction with
  | nil => trivial
  | one t rest hs hat ih =>
    obtain ⟨s, -, hcons⟩ := exists_single hs hat
    rw [hcons] at h
    refine ⟨fun hk => ?_, ih (List.forall_mem_cons.mp h).2⟩
    rw [hk] at hs
    cases hs
  | atRule word rest hkind ih =>
    rw [ofTokens_atWord hkind] at h
    obtain ⟨hparams, hbehind⟩ := List.forall_mem_cons.mp h
    have hrest := hparams.parensClosed.append (parensClosed_of_splitEnding isStop_of_splitParams (ih hbehind))
    rw [run, splitParams_append] at hrest
    exact ⟨fun hparen => by simp [hkind] at hparen, hrest⟩
  | head t rest hs ih =>
    rw [ofTokens_head hs] at h
    obtain ⟨hhead, hbehind⟩ := List.forall_mem_cons.mp h
    have hall := hhead.parensClosed.append (parensClosed_of_splitEnding isStop_of_splitHead (ih hbehind))
    rwa [run, splitHead_append] at hall

end Segment

/-! ### Statements one after the other -/

namespace Node

open Segment

mutual

theorem plain_bare : ∀ node : Node, node.bare.plain = node.plain
  | .rule selector nodes source => by rw [bare, plain, plainAll_bareAll nodes, plain]
  | .atBlock name params nodes source => by rw [bare, plain, plainAll_bareAll nodes, plain]
  | .atStatement name params source => rfl
  | .declaration prop value source => rfl
  | .comment text source => rfl
  | .call c => rfl

theorem plainAll_bareAll : ∀ nodes : List Node, plainAll (bareAll nodes) = plainAll nodes
  | [] => rfl
  | node :: rest => by rw [bareAll, plainAll, plain_bare node, plainAll_bareAll rest, plainAll]

end

/-- A body that starts with white space is a body without it. -/
theorem Body.of_space {nested : Bool} {t : Token} {ts : List Token} {nodes : List Node}
    (h : Body nested (t :: ts) nodes) (ht : t.kind = .space) : Body nested ts nodes := by
  -- no statement starts with white space, so only `skip` takes the first token
  have hstarts : ∀ {head rest : List Token}, Starts head → head ≠ [] → t :: ts ≠ head ++ rest := by
    intro head rest hstart hne heq
    obtain ⟨u, us, rfl⟩ := List.exists_cons_of_ne_nil hne
    obtain ⟨rfl, -⟩ := List.cons.inj heq
    have := hstart t rfl
    rw [ht] at this
    cases this
  generalize hts : t :: ts = us at h
  cases h with
  | nil => cases hts
  | skip kind rest =>
    obtain ⟨-, rfl⟩ := List.cons.inj hts
    exact rest
  | comment kind | atStatement kind | atLast kind | atBlock kind =>
    obtain ⟨rfl, -⟩ := List.cons.inj hts
    rw [ht] at kind
    cases kind
  | @rule _ brace close head out inner us block nodes starts head_ opens =>
    by_cases hne : head = []
    · subst hne
      obtain ⟨rfl, -⟩ := List.cons.inj hts
      rw [ht] at opens
      cases opens
    · exact absurd hts (hstarts starts hne)
  | statement starts node_ => exact absurd hts (hstarts starts (whole_of_statement node_).2)
  | last starts node_ =>
    have hne : us ≠ [] := hts ▸ List.cons_ne_nil t ts
    rw [← List.append_nil us] at hts
    exact absurd hts (hstarts starts hne)

theorem Body.of_spaces {nested : Bool} {b ts : List Token} {nodes : List Node} (h : Body nested (b ++ ts) nodes)
    (hb : Spaces b) : Body nested ts nodes := by
  induction b with
  | nil => exact h
  | cons t b ih =>
    obtain ⟨ht, hb⟩ := List.forall_mem_cons.mp hb
    exact ih (h.of_space ht) hb

namespace Progress

theorem run_append (p : Progress) (segments rest : List Segment) :
    p.run (segments ++ rest) = (p.run segments).bind fun q => q.run rest := by
  induction segments generalizing p with
  | nil => rfl
  | cons s segments ih =>
    rw [List.cons_append, run, run]
    cases p.step s with
    | ok q => exact ih q
    | error e => rfl

theorem run_spaces {ts : List Token} (hts : Spaces ts) (p : Progress) :
    ∃ spaces, p.run (Segment.ofTokens ts) = .ok { p with spaces := spaces } := by
  induction ts generalizing p with
  | nil => exact ⟨p.spaces, by rw [ofTokens_nil]; rfl⟩
  | cons t ts ih =>
    obtain ⟨ht, hts⟩ := List.forall_mem_cons.mp hts
    rw [ofTokens_space ht, run_step rfl]
    exact ih hts _

end Progress

/-- What is read of a text that leaves no bracket open shuts its segments. -/
theorem shut_of_run {ts : List Token} {k : List Char} (hreads : Reads false ts k) {p q : Progress}
    (hrun : p.run (Segment.ofTokens ts) = .ok q)
    (hclosed : ∀ word params ending, .atRule word params ending ∈ Segment.ofTokens ts → Closed params) :
    ∀ s ∈ Segment.ofTokens ts, s.Shut := by
  intro s hs
  cases s with
  | atRule word params ending => exact hclosed word params ending hs
  | statement start head ending =>
    obtain ⟨p', q', hstep⟩ := Progress.exists_step_of_mem hrun hs
    exact (closes_of_statement (read_of_reads hreads _ hs) hstep).closed
  | _ => trivial

/-- Statements that are read behind others, with white space between, come behind them. -/
theorem ofTokens_concat {front a back : List Token} {space : Token} {found nodes : List Node}
    (hfound : ofTokens (front ++ a) = .ok found) (ha : Spaces a) (hend : EndsStatement front)
    (hshut : ∀ s ∈ Segment.ofTokens (front ++ a), s.Shut) (hspace : space.kind = .space)
    (hback : Body false back nodes) :
    ∃ found', ofTokens (front ++ space :: back) = .ok found' ∧ plainAll found' = plainAll found ++ nodes := by
  obtain ⟨r, hr, hfinish⟩ := bind_eq_ok_iff.mp hfound
  rw [Segment.ofTokens_append (significant_of_spaces ha) hend hshut, Progress.run_append] at hr
  obtain ⟨p, hp, hpr⟩ := bind_eq_ok_iff.mp hr
  -- the white space at the end of the first text ends up before the name of a call at most
  obtain ⟨spaces, hspaces⟩ := Progress.run_spaces ha p
  obtain rfl := Except.ok.inj (hspaces.symm.trans hpr)
  obtain ⟨hblocks, rfl⟩ := Progress.of_finish hfinish
  have hbehind : Behind false [] := rfl
  obtain ⟨q, hq, hadds⟩ := hback.run hbehind { p with spaces := p.spaces ++ space.text }
  rw [List.append_nil, ofTokens_nil] at hq
  refine ⟨q.nodes.reverse, ?_, ?_⟩
  · have hqblocks : q.blocks = [] := hadds.blocks.trans hblocks
    have hrun : Progress.initial.run (Segment.ofTokens (front ++ space :: back)) = .ok q := by
      rw [Segment.ofTokens_append (significant_of_spaces ha) hend hshut, Progress.run_append, hp, ofTokens_space hspace]
      have hstep : p.step (.space space.text) = .ok { p with spaces := p.spaces ++ space.text } := rfl
      exact (Progress.run_step hstep _).trans hq
    rw [ofTokens, hrun, Except.bind, Progress.finish, hqblocks]
  · rw [plainAll_eq_map, plainAll_eq_map, List.map_reverse, hadds.nodes, List.map_reverse, List.reverse_append,
      List.reverse_reverse]

theorem yields_of_ofTokens {ts : List Token} {found : List Node} (hreads : Reads false ts [])
    (h : ofTokens ts = .ok found) : Yields .initial (chars ts) (found.map bare) := by
  have hbare := ofTokens_map_bare ts
  rw [h, ofTokens, Segment.ofTokens_map_bare] at hbare
  exact ⟨ts, rfl, hreads, hbare⟩

/-- A line feed between two texts is one token with the white space around it, and the other tokens stay. -/
theorem reads_concat {front a b back : List Token} (h₁ : Reads false (front ++ a) []) (h₂ : Reads false (b ++ back) [])
    (ha : Spaces a) (hb : Spaces b) (hfront : ∀ t ∈ front.getLast?, t.kind ≠ .space)
    (hback : ∀ t ∈ back.head?, t.kind ≠ .space) (hparens : ParensClosed front) :
    Reads false (front ++ ofKind .space (chars a ++ '\n' :: chars b) :: back) [] := by
  obtain ⟨hreads, hreadsa⟩ := Reads.append.mp h₁
  obtain ⟨hreadsb, hreadsBack⟩ := Reads.append.mp h₂
  rw [endsUrl_of_kind_ne fun t ht => by simp [hb t ht]] at hreadsBack
  have hblank : Text.Blank (chars a ++ '\n' :: chars b) :=
    Text.blank_append.mpr ⟨hreadsa.blank ha, List.forall_mem_cons.mpr ⟨by decide, hreadsb.blank hb⟩⟩
  have hne : chars a ++ '\n' :: chars b ≠ [] := by simp
  have hbehind : ∀ c ∈ (chars back ++ []).head?, Text.isBlank c = false := by
    intro c hc
    rw [List.append_nil] at hc
    cases back with
    | nil => cases hc
    | cons t back =>
      rw [chars_cons, List.head?_append_of_ne_nil _ hreadsBack.1.toList_ne] at hc
      exact (hreadsBack.1.tight (hback t rfl)).head c hc
  have hspace := readAs_space hblank hne hbehind (endsUrl false front)
  -- nothing of the first text looks behind it: its last token is no white space, and no `(` misses its `)`
  refine Reads.append.mpr ⟨hreads.change ⟨fun t ht hk => absurd hk (hfront t ht), fun _ _ _ => ?_, .inl hparens⟩,
    hspace, hreadsBack⟩
  rw [chars_cons, List.append_assoc]
  exact hspace.delimits_of_kind ⟨by simp, by simp⟩ _

end Node

/-- A stylesheet whose last token, but for white space and comments, is a `;` or a `}`, and whose at-rules close their
brackets, is followed on the next line by the statements of another one. -/
theorem Stylesheet.parse_append {s₁ s₂ : String} {sheet₁ sheet₂ : Stylesheet} {ts : List Token}
    (h₁ : Stylesheet.parse s₁ = .ok sheet₁) (h₂ : Stylesheet.parse s₂ = .ok sheet₂) (hts : Token.ofText s₁ = .ok ts)
    (hlast : ∀ t ∈ (significant (content ts)).getLast?, t.kind = .semicolon ∨ t.kind = .rightBrace)
    (hclosed : ∀ word params ending, .atRule word params ending ∈ Segment.ofTokens (content ts) → Closed params) :
    ∃ sheet, Stylesheet.parse (s₁ ++ "\n" ++ s₂) = .ok sheet ∧
      Node.plainAll sheet.nodes = Node.plainAll sheet₁.nodes ++ Node.plainAll sheet₂.nodes := by
  obtain ⟨hreads₁, hchars₁⟩ := reads_of_ofText hts
  have hfound := Node.ofTokens_of_parse h₁ hts
  obtain ⟨us, hreads₂, hchars₂, hrun₂⟩ := Node.exists_run_of_parse h₂
  obtain ⟨front, a, hfront, ha, hlastFront⟩ := exists_spaces_behind (content ts)
  obtain ⟨b, back, rfl, hb, hheadBack⟩ := exists_spaces_before us
  rw [hfront] at hreads₁ hchars₁ hfound hlast hclosed
  obtain ⟨p, hp, -⟩ := bind_eq_ok_iff.mp hfound
  have hshut := Node.shut_of_run hreads₁ hp hclosed
  have hend : Segment.EndsStatement front := by
    intro t ht
    rw [significant_append, significant_of_spaces ha, List.append_nil] at hlast
    rcases hlast t ht with hk | hk <;> simp [Segment.isStop, hk]
  have hfrontShut : ∀ s ∈ Segment.ofTokens front, s.Shut := by
    rw [Segment.ofTokens_append (significant_of_spaces ha) hend hshut] at hshut
    exact (List.forall_mem_append.mp hshut).1
  have hbody : Node.Body false (b ++ back) (Node.plainAll sheet₂.nodes) := Node.exists_run_iff.mp ⟨_, hrun₂, rfl⟩
  have hreads := Node.reads_concat hreads₁ hreads₂ ha hb hlastFront hheadBack (Segment.parensClosed_of_shut hfrontShut)
  obtain ⟨found, hall, hnodes⟩ := Node.ofTokens_concat hfound ha hend hshut (kind_ofKind .space _) (hbody.of_spaces hb)
  have htext : chars (front ++ ofKind .space (chars a ++ '\n' :: chars b) :: back) = (s₁ ++ "\n" ++ s₂).toList := by
    rw [String.toList_append, String.toList_append, ← hchars₁, ← hchars₂]
    simp
  obtain ⟨sheet, hsheet, hbare⟩ := Node.parse_of_yields (htext ▸ Node.yields_of_ofTokens hreads hall)
  refine ⟨sheet, hsheet, ?_⟩
  have hbare : Node.bareAll sheet.nodes = Node.bareAll found := by
    rw [Node.bareAll_eq_map, Node.bareAll_eq_map]
    exact congrArg Stylesheet.nodes hbare
  rw [← Node.plainAll_bareAll, hbare, Node.plainAll_bareAll, hnodes]

/-- A call behind an at-rule and a comment: there is white space at the end of the first text and at the start of the
second. -/
theorem Stylesheet.parse_append_of_call : ∃ ts, Token.ofText "@a (/);/*b*/ " = .ok ts ∧
    (∀ t ∈ (significant (content ts)).getLast?, t.kind = .semicolon ∨ t.kind = .rightBrace) ∧
    (∀ word params ending, .atRule word params ending ∈ Segment.ofTokens (content ts) → Closed params) ∧
    ∃ sheet, Stylesheet.parse "@a (/);/*b*/ \n c(d);" = .ok sheet ∧ Node.plainAll sheet.nodes =
      [.atStatement "a" "(/)" .none, .comment "b" .none, .call ⟨"c", [.text "d"], "", "(d)", .none⟩] := by
  have h₁ : Stylesheet.parse "@a (/);/*b*/ " = .ok ⟨[.atStatement "a" "(/)" ⟨⟨1, 1⟩, ⟨1, 6⟩⟩,
      .comment "b" ⟨⟨1, 8⟩, ⟨1, 8⟩⟩]⟩ := by cbv
  have h₂ : Stylesheet.parse " c(d);" = .ok ⟨[.call ⟨"c", [.text "d"], " ", "(d)", ⟨⟨1, 2⟩, ⟨1, 6⟩⟩⟩]⟩ := by cbv
  obtain ⟨ts, hts, hlast, hsegments⟩ : ∃ ts, Token.ofText "@a (/);/*b*/ " = .ok ts ∧
      (∀ t ∈ (significant (content ts)).getLast?, t.kind = .semicolon ∨ t.kind = .rightBrace) ∧
      Segment.ofTokens (content ts) = [.atRule ⟨.atWord, "@a", 0, 2, ⟨1, 1⟩⟩ [⟨.space, " ", 2, 3, ⟨1, 3⟩⟩,
        ⟨.leftParen, "(", 3, 4, ⟨1, 4⟩⟩, ⟨.word, "/", 4, 5, ⟨1, 5⟩⟩, ⟨.rightParen, ")", 5, 6, ⟨1, 6⟩⟩]
        (.semicolon ⟨1, 7⟩), .comment ⟨.comment, "/*b*/", 7, 12, ⟨1, 8⟩⟩, .space " "] :=
    ⟨[⟨.atWord, "@a", 0, 2, ⟨1, 1⟩⟩, ⟨.space, " ", 2, 3, ⟨1, 3⟩⟩, ⟨.leftParen, "(", 3, 4, ⟨1, 4⟩⟩,
      ⟨.word, "/", 4, 5, ⟨1, 5⟩⟩, ⟨.rightParen, ")", 5, 6, ⟨1, 6⟩⟩, ⟨.semicolon, ";", 6, 7, ⟨1, 7⟩⟩,
      ⟨.comment, "/*b*/", 7, 12, ⟨1, 8⟩⟩, ⟨.space, " ", 12, 13, ⟨1, 13⟩⟩, ⟨.eof, "", 13, 13, ⟨1, 14⟩⟩],
      by decide +kernel, by decide, by cbv⟩
  have hclosed : ∀ word params ending, .atRule word params ending ∈ Segment.ofTokens (content ts) → Closed params := by
    intro word params ending hmem
    rw [hsegments, List.mem_cons] at hmem
    rcases hmem with heq | hmem
    · obtain ⟨-, rfl, -⟩ := Segment.atRule.inj heq
      decide
    · simp at hmem
  exact ⟨_, hts, hlast, hclosed, Stylesheet.parse_append h₁ h₂ hts hlast hclosed⟩

end Mixsheet
