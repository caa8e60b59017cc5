import Mixsheet.Proofs.Node.Progress
import Mixsheet.Proofs.Node.Segment
import Mixsheet.Proofs.Token.Faults

/-! # Where a text has its fault

The error of a text that is no stylesheet is the place of one of its tokens, or of the quote or the `/*` that is never
closed. -/

namespace Mixsheet

open Token

/-! ### Places of segments -/

namespace Segment

variable {P : Position → Prop}

/-- All places of a segment are of one kind. -/
def Each (P : Position → Prop) : Segment → Prop
  | .space _ | .semicolon | .comment _ => True
  | .close position => P position
  | .atRule word _ ending => P word.position ∧ ∀ brace, ending = .block brace → P brace
  | .statement start head ending =>
    P start ∧ (∀ t ∈ head, P t.position) ∧ ∀ brace, ending = .block brace → P brace

theorem each_ending {ts : List Token} (h : ∀ t ∈ ts, P t.position) :
    ∀ brace, (splitEnding ts).1 = .block brace → P brace := by
  intro brace hbrace
  obtain ⟨e, he, hplace⟩ := exists_splitEnding ts
  obtain ⟨t, rfl, rfl⟩ := hplace brace (.inr hbrace)
  exact h t (by rw [he]; exact List.mem_cons_self)

/-- The segments of some tokens have their places. -/
theorem each_ofTokens {ts : List Token} (h : ∀ t ∈ ts, P t.position) : ∀ s ∈ ofTokens ts, s.Each P := by
  induction ts using ofTokens_induction with
  | nil =>
    rw [ofTokens_nil]
    exact nofun
  | one t rest hs ha ih =>
    obtain ⟨ht, hrest⟩ := List.forall_mem_cons.mp h
    obtain ⟨s, hsingle, hcons⟩ := exists_single hs ha
    rw [hcons]
    refine List.forall_mem_cons.mpr ⟨?_, ih hrest⟩
    cases hsingle with
    | space | semicolon | comment => trivial
    | close => exact ht
    | block => exact ⟨ht, nofun, fun brace hbrace => Ending.block.inj hbrace ▸ ht⟩
  | atRule t rest ht ih =>
    obtain ⟨hplace, hrest⟩ := List.forall_mem_cons.mp h
    have hsplit := splitParams_append 0 rest
    have hbehind : ∀ u ∈ (splitParams 0 rest).2, P u.position := fun u hu =>
      hrest u (by rw [← hsplit]; exact List.mem_append_right _ hu)
    rw [ofTokens_atWord ht]
    exact List.forall_mem_cons.mpr ⟨⟨hplace, each_ending hbehind⟩,
      ih fun u hu => hbehind u ((splitEnding_suffix _).subset hu)⟩
  | head t rest hs ih =>
    have hsplit := splitHead_append [] (t :: rest)
    rw [← hsplit] at h
    obtain ⟨hhead, hbehind⟩ := List.forall_mem_append.mp h
    rw [ofTokens_head hs]
    refine List.forall_mem_cons.mpr ⟨⟨hhead t ?_, hhead, each_ending hbehind⟩,
      ih fun u hu => hbehind u ((splitEnding_suffix _).subset hu)⟩
    rw [splitHead_cons hs]
    exact List.mem_cons_self

theorem mem_of_unclosed? {closers : List TokenKind} {opened? : Option Token} {ts : List Token} {b : Token}
    (h : unclosed? closers opened? ts = some b) : b ∈ ts ∨ opened? = some b := by
  induction ts generalizing closers opened? with
  | nil =>
    rw [unclosed?] at h
    split at h
    · cases h
    · exact .inr h
  | cons t ts ih =>
    rcases ih h with hb | hb
    · exact .inl (List.mem_cons_of_mem t hb)
    · split at hb
      · obtain rfl := Option.some.inj hb
        exact .inl List.mem_cons_self
      · exact .inr hb

end Segment

namespace Node

section Errors

variable {e : ParseError} {start : Position} {run : List Token}

theorem position_of_declarationOf (h : declarationOf start run = .error e) : e.position = start := by
  unfold declarationOf at h
  dsimp only at h
  split at h
  · obtain rfl := Except.error.inj h
    rfl
  · cases h

theorem position_of_callOf {spaces : String} {stop : Position} (h : callOf spaces start run stop = .error e) :
    e.position = start := by
  unfold callOf at h
  split at h
  · obtain rfl := Except.error.inj h
    rfl
  · cases h

end Errors

namespace Progress

variable {P : Position → Prop} {p q : Progress} {s : Segment} {e : ParseError}

/-- Every block that is open was opened at a place of one kind. -/
def Opens (P : Position → Prop) (p : Progress) : Prop := ∀ b ∈ p.blocks, P b.brace

theorem Opens.opened (h : p.Opens P) (header : Header) (start : Position) {brace : Position} (hbrace : P brace) :
    (p.opened header start brace).Opens P :=
  List.forall_mem_cons.mpr ⟨hbrace, h⟩

theorem Opens.step (h : p.Opens P) (hs : s.Each P) (hq : p.step s = .ok q) : q.Opens P := by
  cases s with
  | space | semicolon | comment =>
    obtain rfl := Except.ok.inj hq
    exact h
  | close position =>
    obtain ⟨block, blocks, hblocks, rfl⟩ := exists_of_close hq
    rw [Opens, hblocks] at h
    exact (List.forall_mem_cons.mp h).2
  | atRule word params ending =>
    obtain rfl := Except.ok.inj hq
    cases ending with
    | block brace => exact h.opened _ _ (hs.2 brace rfl)
    | semicolon | last => exact h
  | statement start head ending =>
    rcases statement_cases hq with ⟨brace, rfl, rfl⟩ | ⟨prop, value, source, -, rfl⟩ | ⟨c, -, rfl⟩
    · exact h.opened _ _ (hs.2.2 brace rfl)
    · exact h
    · exact h

/-- A statement has its fault where it starts, at a bracket in it or at its last token. -/
theorem place_of_statement {start : Position} {head : List Token} {ending : Ending} (hstart : P start)
    (hhead : ∀ t ∈ head, P t.position) (h : p.statement start head ending = .error e) : P e.position := by
  cases ending with
  | block brace => cases h
  | semicolon stop =>
    rw [statement] at h
    split at h
    · rw [position_of_declarationOf (map_eq_error_iff.mp h)]
      exact hstart
    split at h
    · rw [position_of_callOf (map_eq_error_iff.mp h)]
      exact hstart
    · obtain rfl := Except.error.inj h
      exact hstart
  | last =>
    rw [statement] at h
    split at h
    · rename_i bracket hopen
      obtain rfl := Except.error.inj h
      rcases Segment.mem_of_unclosed? hopen with hbracket | hnone
      · exact hhead bracket hbracket
      · cases hnone
    dsimp only at h
    split at h
    · rw [position_of_declarationOf (map_eq_error_iff.mp h)]
      exact hstart
    split at h
    · obtain rfl := Except.error.inj h
      exact place_lastPosition hstart fun t ht => hhead t (@mem_of_mem_declared _ .last t ht)
    · obtain rfl := Except.error.inj h
      exact hstart

theorem place_of_step (hs : s.Each P) (h : p.step s = .error e) : P e.position := by
  cases s with
  | space | semicolon | comment | atRule => cases h
  | close position =>
    change p.close position = _ at h
    unfold close at h
    split at h
    · obtain rfl := Except.error.inj h
      exact hs
    · cases h
  | statement start head ending => exact place_of_statement hs.1 hs.2.1 h

theorem place_of_run {segments : List Segment} (hs : ∀ s ∈ segments, s.Each P) (h : p.run segments = .error e) :
    P e.position := by
  induction segments generalizing p with
  | nil => cases h
  | cons s rest ih =>
    obtain ⟨hfirst, hrest⟩ := List.forall_mem_cons.mp hs
    rw [run] at h
    split at h
    · exact ih hrest h
    · rename_i hstep
      obtain rfl := Except.error.inj h
      exact place_of_step hfirst hstep

theorem place_of_finish (h : p.Opens P) (he : p.finish = .error e) : P e.position := by
  unfold finish at he
  split at he
  · cases he
  · rename_i b bs hblocks
    obtain rfl := Except.error.inj he
    exact h b (by rw [hblocks]; exact List.mem_cons_self)

end Progress

/-- The fault of some tokens is at one of them. -/
theorem exists_token_of_error {ts : List Token} {e : ParseError} (h : ofTokens ts = .error e) :
    ∃ t ∈ ts, e.position = t.position := by
  let P : Position → Prop := fun q => ∃ t ∈ ts, q = t.position
  have hsegments : ∀ s ∈ Segment.ofTokens ts, s.Each P := Segment.each_ofTokens fun t ht => ⟨t, ht, rfl⟩
  rcases bind_eq_error_iff.mp h with h | ⟨p, hp, h⟩
  · exact Progress.place_of_run hsegments h
  · have hinitial : Progress.initial.Opens P := nofun
    have hopens : p.Opens P := Progress.run_induction (fun s hs _ _ hp hq => hp.step (hsegments s hs) hq) hinitial hp
    exact Progress.place_of_finish hopens h

end Node

/-- The error of a text is at the first character of one of its tokens, or behind its first tokens at the quote or the
`/*` that is never closed. -/
inductive Located (s : String) (e : ParseError) : Prop where
  | token {ts : List Token} {t : Token} (tokens : ofText s = .ok ts) (mem : t ∈ ts) (kind : t.kind ≠ .eof)
    (text : t.text ≠ "") (standsIn : t.StandsIn s) (position : e.position = t.position)
  | unclosed {ts : List Token} {c : Char} {rest : List Char} {fault : LexicalFault}
    (text : s.toList = chars ts ++ c :: rest) (tokens : Reads false ts (c :: rest))
    (unclosed : Lexeme.Unclosed c rest fault) (fault_eq : e.fault = .lexical fault)
    (position : e.position = .after .first (chars ts))

/-- A text that is no stylesheet has its error at one of its tokens, or where it has no token. -/
theorem located_of_parse {s : String} {e : ParseError} (h : Stylesheet.parse s = .error e) : Located s e := by
  unfold Stylesheet.parse at h
  split at h
  · rename_i lexical hlexical
    obtain rfl := Except.error.inj h
    obtain ⟨ts, c, rest, htext, hreads, hunclosed, hposition⟩ := @unclosed_of_ofCharsFrom none [] _ _ hlexical
    exact .unclosed htext hreads hunclosed rfl hposition
  · rename_i ts hts
    obtain ⟨t, ht, hposition⟩ := Node.exists_token_of_error (map_eq_error_iff.mp h)
    obtain ⟨hrun, hchars⟩ := @run_of_ofCharsFrom none [] _ _ hts
    have hmem : t ∈ ts := (List.takeWhile_sublist _).subset ht
    have hkind : t.kind ≠ .eof := by simpa using List.mem_takeWhile_imp ht
    exact .token hts hmem hkind (hrun.text_ne hmem hkind) (hrun.standsIn hchars hmem) hposition

/-- Every place in a text has a line and a column. -/
theorem Located.pos {s : String} {e : ParseError} (h : Located s e) :
    1 ≤ e.position.line ∧ 1 ≤ e.position.column := by
  cases h with
  | token _ _ _ _ standsIn position =>
    rw [position, standsIn.line, standsIn.column]
    omega
  | unclosed _ _ _ _ position =>
    rw [position, Position.line_after_first, Position.column_after_first]
    omega

end Mixsheet
