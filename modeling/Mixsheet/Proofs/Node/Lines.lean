import Mathlib.Data.List.DropRight
import Mixsheet.Proofs.Node.Legible
import Mixsheet.Proofs.Token.Comment

/-! # The lines of statements that were read

A statement that was read from a text is legible: its trimmed parts are the same tokens in its line. What
this needs of the text around is in the line as well. A bracket left open in the parameters of an at-rule
or in the property of a declaration is another matter, so these have to close their brackets. -/

namespace Mixsheet

open Token Text

/-- The first token of a run is one that a statement starts with. -/
def Segment.StartsHead (ts : List Token) : Prop := ∃ t ∈ ts.head?, startsHead t.kind = true

namespace Segment.StartsHead

variable {ts : List Token}

theorem append (h : StartsHead ts) (us : List Token) : StartsHead (ts ++ us) := by
  obtain ⟨t, ht, hs⟩ := h
  refine ⟨t, ?_, hs⟩
  rw [List.head?_append]
  exact Option.or_eq_some_iff.mpr (.inl ht)

theorem of_append {us : List Token} (h : StartsHead (ts ++ us)) (hne : ts ≠ []) : StartsHead ts := by
  obtain ⟨t, ht, hs⟩ := h
  rw [List.head?_append_of_ne_nil _ hne] at ht
  exact ⟨t, ht, hs⟩

theorem kind_ne (h : StartsHead ts) : ∃ t ∈ ts.head?, t.kind ≠ .space := by
  obtain ⟨t, ht, hs⟩ := h
  refine ⟨t, ht, fun hk => ?_⟩
  rw [hk] at hs
  cases hs

end Segment.StartsHead

/-! ### Runs on their own -/

namespace Token

theorem significant_of_spaces {ts : List Token} (h : Spaces ts) : significant ts = [] := by
  refine List.filter_eq_nil_iff.mpr ?_
  intro t ht
  have := isTrivia_iff.mpr (.inl (h t ht))
  simp [this]

theorem endsUrl_of_kind_ne {ts : List Token} (h : ∀ t ∈ ts, t.kind ≠ .word) : endsUrl false ts = false := by
  induction ts with
  | nil => rfl
  | cons t ts ih =>
    obtain ⟨ht, hts⟩ := List.forall_mem_cons.mp h
    rw [endsUrl, isUrl_of_kind_ne ht, ih hts]

/-- A trimmed run with its parentheses closed is read alike before any text that ends a word. -/
theorem Reads.move {ts : List Token} {k : List Char} {u : Bool} (h : Reads u ts k) (ht : Trimmed ts)
    (hp : ParensClosed ts) {k' : List Char} (hk : Lexeme.Delimits k') : Reads u ts k' :=
  h.change ⟨fun t hl hs => absurd hs (ht.last t hl), fun _ _ _ => hk, .inl hp⟩

/-- A run that starts a statement is a trimmed run with white space behind it. -/
theorem Reads.trimHead {ts : List Token} {k : List Char} (h : Reads false ts k)
    (hstart : Segment.StartsHead ts) : ∃ r b, ts = r ++ b ∧ Spaces b ∧ Trimmed r ∧
      Text.trim (chars ts) = chars r ∧ Segment.StartsHead r := by
  obtain ⟨a, r, b, rfl, ha, hb, hr, htrim⟩ := h.trim
  obtain ⟨t, ht, hs⟩ := hstart
  have hspace : ∀ {us : List Token}, Spaces us → t ∉ us.head? := by
    intro us hus hm
    rw [hus t (List.mem_of_mem_head? hm)] at hs
    cases hs
  have ha' : a = [] := by
    cases a with
    | nil => rfl
    | cons x a =>
      have : t ∉ (x :: a).head? := hspace ha
      exact absurd ht this
  subst ha'
  refine ⟨r, b, rfl, hb, hr, htrim, t, ?_, hs⟩
  cases r with
  | nil => exact absurd ht (hspace hb)
  | cons x r => exact ht

end Token

/-- The text closes its brackets: every `(` and every `[` token in it has a `)` or a `]` token behind it,
one for each. -/
def ClosesBrackets (s : String) : Prop := ∀ ts, Token.ofText s = .ok ts → Closed (content ts)

theorem closesBrackets_of_ofText {s : String} {ts : List Token} (h : Token.ofText s = .ok ts)
    (hc : Closed (content ts)) : ClosesBrackets s := by
  intro us hus
  obtain rfl := Except.ok.inj (h.symm.trans hus)
  exact hc

/-- Every `(` in the text has a `)` behind it. -/
def ClosesParens (s : String) : Prop := ∀ ts, Token.ofText s = .ok ts → ParensClosed (content ts)

/-- An at-rule with the text as its parameters ends behind them: no bracket is open there as at-rules count them, and
every `(` has a `)` behind it. -/
def EndsParams (s : String) : Prop :=
  ∀ ts, Token.ofText s = .ok ts → ParensClosed (content ts) ∧ (content ts).foldl Segment.depthAfter 0 = 0

/-- A text that closes its brackets closes its parentheses, and at-rules with it as their parameters end behind it. -/
theorem ClosesBrackets.closesParens {s : String} (h : ClosesBrackets s) : ClosesParens s :=
  fun ts hts => parensClosed_of_openAfter (h ts hts).1

theorem ClosesBrackets.endsParams {s : String} (h : ClosesBrackets s) : EndsParams s :=
  fun ts hts => ⟨parensClosed_of_openAfter (h ts hts).1, eq_of_beq (h ts hts).closed⟩

/-- What holds of the tokens of a text holds of the tokens that it was read as elsewhere. -/
theorem of_content {P : List Token → Prop} (hbare : ∀ vs, P (vs.map bare) ↔ P vs) {ts : List Token} {k : List Char}
    (h : Reads false ts k) (hp : ∀ us, Token.ofText (join ts) = .ok us → P (content us)) : P ts := by
  have hr : Reads false ts [] := h.change ⟨nofun, fun _ _ _ => trivial, .inr rfl⟩
  obtain ⟨us, hus, hts⟩ := ofText_of_reads hr
  exact (congr_of_bare hbare hts).mp (hp us hus)

theorem ClosesParens.parensClosed {ts : List Token} {k : List Char} (h : ClosesParens (join ts))
    (hr : Reads false ts k) : ParensClosed ts :=
  of_content parensClosed_map_bare hr h

theorem EndsParams.of_reads {ts : List Token} {k : List Char} (h : EndsParams (join ts)) (hr : Reads false ts k) :
    ParensClosed ts ∧ ts.foldl Segment.depthAfter 0 = 0 := by
  refine of_content (P := fun vs => ParensClosed vs ∧ vs.foldl Segment.depthAfter 0 = 0) (fun vs => ?_) hr h
  rw [parensClosed_map_bare, depthAfter_map_bare]

namespace Segment

/-- A whole head is a statement before the token that ends it. -/
theorem ofTokens_statement {head : List Token} (hstart : StartsHead head)
    (hw : headAccount.Whole head) (stop : Token) (hstop : isStop stop = true) (us : List Token) :
    ∃ start, ofTokens (head ++ stop :: us) =
      .statement start head (splitEnding (stop :: us)).1 :: ofTokens (splitEnding (stop :: us)).2 := by
  have hsplit : splitHead [] (head ++ stop :: us) = (head, stop :: us) := by
    rw [splitHead_eq]
    exact hw.split_append hstop us
  obtain ⟨t, ht, hs⟩ := hstart
  cases head with
  | nil => cases ht
  | cons t' head =>
    obtain rfl := Option.some.inj ht
    refine ⟨t'.position, ?_⟩
    rw [List.cons_append, ofTokens_head hs, ← List.cons_append, hsplit]

theorem ofTokens_atRule {word : Token} (hkind : word.kind = .atWord) {params : List Token}
    (hw : paramsAccount.Whole params) (stop : Token) (hstop : isStop stop = true) (us : List Token) :
    ofTokens (word :: (params ++ stop :: us)) =
      .atRule word params (splitEnding (stop :: us)).1 :: ofTokens (splitEnding (stop :: us)).2 := by
  have hsplit : splitParams 0 (params ++ stop :: us) = (params, stop :: us) := by
    rw [splitParams_eq]
    exact hw.split_append hstop us
  rw [ofTokens_atWord hkind, hsplit]

end Segment

namespace Node

open Segment

theorem trimmedText_eq (ts : List Token) : trimmedText ts = .ofList (trim (chars ts)) := by
  rw [trimmedText, trimmed, join, String.toList_ofList]

/-- A blank. -/
def blankToken : Token := ofKind .space [' ']

/-- The `{` of a block. -/
def braceToken : Token := ofKind .leftBrace ['\x7b']

/-- The `;` behind a statement. -/
def semicolonToken : Token := ofKind .semicolon [';']

theorem significant_blank (ts : List Token) : significant (blankToken :: ts) = significant ts :=
  significant_cons_of_trivia rfl ts

@[simp] theorem text_blankToken : blankToken.text.toList = [' '] := String.toList_ofList

@[simp] theorem text_braceToken : braceToken.text.toList = ['\x7b'] := String.toList_ofList

@[simp] theorem text_semicolonToken : semicolonToken.text.toList = [';'] := String.toList_ofList

theorem trimmedText_blank_cons {ts : List Token} (h : Tight (chars ts)) :
    trimmedText (blankToken :: ts) = .ofList (chars ts) := by
  have := @trim_between [' '] (chars ts) [] blank_space blank_nil
  rw [List.append_nil, h.trim_eq] at this
  rw [trimmedText_eq, chars_cons, text_blankToken, this]

theorem trimmedText_append_blank (ts : List Token) : trimmedText (ts ++ [blankToken]) = trimmedText ts := by
  rw [trimmedText_eq, chars_append, chars_cons, text_blankToken, chars_nil, List.append_nil,
    trim_append blank_space, trimmedText_eq]

theorem trimmedText_of_tight {ts : List Token} (h : Tight (chars ts)) : trimmedText ts = .ofList (chars ts) := by
  rw [trimmedText_eq, h.trim_eq]

theorem readAs_blank {k : List Char} (hk : ∀ c ∈ k.head?, isBlank c = false) (u : Bool) :
    ReadAs u blankToken k :=
  readAs_space blank_space (List.cons_ne_nil _ _) hk u

/-- A trimmed run with its parentheses closed is read behind a blank. -/
theorem reads_blank_cons {ts : List Token} {k k' : List Char} (h : Reads false ts k) (ht : Trimmed ts)
    (hne : chars ts ≠ []) (hp : ParensClosed ts) (hk : Lexeme.Delimits k') (u : Bool) :
    Reads u (blankToken :: ts) k' := by
  refine ⟨readAs_blank (fun c hc => ?_) u, h.move ht hp hk⟩
  rw [List.head?_append_of_ne_nil _ hne] at hc
  exact (h.tight ht).head c hc

/-- A blank and a `{` are read behind any token. -/
theorem reads_blank_brace (u : Bool) (k : List Char) : Reads u [blankToken, braceToken] k := by
  refine ⟨readAs_blank (fun c hc => ?_) u, readAs_punctuation rfl _ _, trivial⟩
  rw [chars_cons, text_braceToken] at hc
  obtain rfl := Option.some.inj hc
  decide

/-! ### Rules -/

theorem leads_rule {head : List Token} {k : List Char} (h : Reads false head k)
    (hstart : StartsHead head) (hw : headAccount.Whole head) (p : Progress) :
    Leads (trimmedText head ++ " \x7b").toList p (p.opened (.rule (trimmedText head)) .none .none) := by
  obtain ⟨r, b, rfl, hb, hr, htrim, hr0⟩ := h.trimHead hstart
  have hreads := (Reads.append.mp h).1
  have hwr : headAccount.Whole r := (headAccount_skips.whole_congr
    (by rw [significant_append, significant_of_spaces hb, List.append_nil])).mp hw
  have hwb : headAccount.Whole (r ++ [blankToken]) := (headAccount_skips.whole_congr
    (by rw [significant_append, significant_blank]; simp [significant])).mp hwr
  have htext : trimmedText (r ++ b) = .ofList (chars r) := by rw [trimmedText_eq, htrim]
  have htext' : trimmedText (r ++ [blankToken]) = .ofList (chars r) := by
    rw [trimmedText_append_blank, trimmedText_of_tight (hreads.tight hr)]
  refine ⟨r ++ [blankToken, braceToken], .statement .none ((r ++ [blankToken]).map Token.bare) (.block .none),
    ?_, ⟨(hr0.append _).kind_ne, fun k => ?_, ?_, fun us => ?_⟩, ?_⟩
  · rw [htext]
    simp
  · exact Reads.append.mpr ⟨hreads.move hr (parensClosed_of_closed hwr.closed) rfl, reads_blank_brace _ k⟩
  · rw [endsUrl_append]
    rfl
  · obtain ⟨start, hcut⟩ := ofTokens_statement (hr0.append [blankToken]) hwb braceToken rfl us
    rw [List.append_assoc] at hcut
    rw [List.append_assoc]
    exact congrArg (List.map Segment.bare) hcut
  · rw [Progress.step, Progress.statement, trimmedText_map_bare, htext', htext]

/-! ### Comments -/

theorem leads_comment {t : Token} {u : Bool} {k : List Char} (h : t.ReadAs u k) (ht : t.kind = .comment)
    (p : Progress) :
    Leads ("/* " ++ commentText t.text ++ " */").toList p (p.add (.comment (commentText t.text) .none)) := by
  obtain ⟨cs, hcs, htight, hplain⟩ := h.commentText ht
  have hstand : Stands [ofKind .comment (commented cs)] (.comment (ofKind .comment (commented cs))) := by
    have hkind : (ofKind .comment (commented cs)).kind ≠ .word := nofun
    refine ⟨⟨_, rfl, nofun⟩, fun k => .singleton (readAs_commented hplain false k),
      isUrl_of_kind_ne hkind, fun us => ?_⟩
    rw [List.singleton_append, ofTokens_comment rfl]
    rfl
  refine ⟨_, _, ?_, hstand, ?_⟩
  · rw [hcs]
    simp [commented]
  · rw [Progress.step, text_ofKind, commentText_commented htight, hcs]
    rfl

/-! ### Declarations -/

theorem mem_of_mem_outside {closers : List TokenKind} {ts : List Token} {t : Token}
    (h : t ∈ outside closers ts) : t ∈ ts := by
  induction ts generalizing closers with
  | nil => cases h
  | cons u ts ih =>
    rw [outside] at h
    split at h
    · rcases List.mem_cons.mp h with rfl | h
      · exact List.mem_cons_self
      · exact List.mem_cons_of_mem _ (ih h)
    · exact List.mem_cons_of_mem _ (ih h)

/-- A statement with a colon outside its brackets is cut at its first colon. -/
theorem exists_colon {ts : List Token} (h : hasColon ts = true) :
    ∃ c rest, ts.dropWhile (·.kind != .colon) = c :: rest ∧ c.kind = .colon := by
  obtain ⟨t, ht, hkind⟩ := List.any_eq_true.mp h
  cases hd : ts.dropWhile (·.kind != .colon) with
  | nil =>
    have := List.dropWhile_eq_nil_iff.mp hd t (mem_of_mem_outside ht)
    simp [eq_of_beq hkind] at this
  | cons c rest =>
    have := List.head?_dropWhile_not (·.kind != .colon) ts
    rw [hd] at this
    exact ⟨c, rest, rfl, by simpa using this⟩

/-- The head of a declaration is one before a semicolon. -/
theorem leads_head {head : List Token} (hstart : StartsHead head) (hw : headAccount.Whole head)
    (hcolon : hasColon head = true) (hreads : ∀ k, Reads false (head ++ [semicolonToken]) k) {start : Position}
    {prop value : String} {source : Source}
    (hd : declarationOf start head = .ok (.declaration prop value source)) (p : Progress) :
    Leads (chars head ++ [';']) p (p.add (.declaration prop value .none)) := by
  refine ⟨head ++ [semicolonToken], .statement .none (head.map Token.bare) (.semicolon .none),
    ?_, ⟨(hstart.append _).kind_ne, hreads, ?_, fun us => ?_⟩, ?_⟩
  · simp
  · rw [endsUrl_append]
    rfl
  · obtain ⟨start, hcut⟩ := ofTokens_statement hstart hw semicolonToken rfl us
    rw [List.append_assoc]
    exact congrArg (List.map Segment.bare) hcut
  · rw [Progress.step, Progress.statement, hasColon_map_bare, if_pos hcolon, declarationOf_map_bare start, hd]
    rfl

theorem declarationOf_eq_ok {ts : List Token} {start : Position} {prop value : String} {source : Source}
    (h : declarationOf start ts = .ok (.declaration prop value source)) :
    prop ≠ "" ∧ trimmedText (ts.takeWhile (·.kind != .colon)) = prop ∧
      trimmedText ((ts.dropWhile (·.kind != .colon)).drop 1) = value := by
  unfold declarationOf at h
  dsimp only at h
  split at h
  · cases h
  · rename_i hne
    obtain ⟨hprop, hvalue, -⟩ := Node.declaration.inj (Except.ok.inj h)
    exact ⟨hprop ▸ hne, hprop, hvalue⟩

/-- A declaration is cut into its property and its value at the first colon of its head. -/
theorem exists_parts {ts : List Token} (hcolon : hasColon ts = true) {start : Position} {prop value : String}
    {source : Source} (h : declarationOf start ts = .ok (.declaration prop value source)) :
    ∃ before c after, ts = before ++ c :: after ∧ (∀ t ∈ before, (t.kind != .colon) = true) ∧ c.kind = .colon ∧
      prop ≠ "" ∧ trimmedText before = prop ∧ trimmedText after = value := by
  obtain ⟨c, after, hdrop, hc⟩ := exists_colon hcolon
  obtain ⟨hne, hprop, hvalue⟩ := declarationOf_eq_ok h
  rw [hdrop, List.drop_succ_cons, List.drop_zero] at hvalue
  refine ⟨_, c, after, ?_, fun t ht => ?_, hc, hne, hprop, hvalue⟩
  · rw [← hdrop, List.takeWhile_append_dropWhile]
  · exact List.mem_takeWhile_imp (p := fun t : Token => t.kind != .colon) ht

/-- A run with a property before its first colon is a declaration. -/
theorem declarationOf_append {x y : List Token} {c : Token} (hx : ∀ t ∈ x, (t.kind != .colon) = true)
    (hc : c.kind = .colon) (hne : trimmedText x ≠ "") (start : Position) :
    declarationOf start (x ++ c :: y) =
      .ok (.declaration (trimmedText x) (trimmedText y) ⟨start, lastPosition start (x ++ c :: y)⟩) := by
  have htake : (x ++ c :: y).takeWhile (·.kind != .colon) = x := by
    rw [List.takeWhile_append_of_pos hx, List.takeWhile_cons_of_neg (by simp [hc]), List.append_nil]
  have hdrop : (x ++ c :: y).dropWhile (·.kind != .colon) = c :: y := by
    rw [List.dropWhile_append_of_pos hx, List.dropWhile_cons_of_neg (by simp [hc])]
  rw [declarationOf, htake, hdrop, List.drop_succ_cons, List.drop_zero]
  exact if_neg hne

/-- Two trimmed runs with a colon and a blank between them are read as they stand before a semicolon. -/
theorem reads_declaration {x y : List Token} {c : Token} {k k₁ k₂ : List Char} (hx : Reads false x k)
    (hxt : Trimmed x) (hxp : ParensClosed x) {u : Bool} (hc : ReadAs u c k₁) (hcolon : c.kind = .colon)
    (hy : Reads false y k₂) (hyt : Trimmed y) (hyp : ParensClosed y) (k' : List Char) :
    Reads false (x ++ c :: blankToken :: (y ++ [semicolonToken])) k' := by
  have hctext : c.text.toList = [':'] := hc.punctuation (by rw [hcolon]; rfl)
  refine Reads.append.mpr ⟨hx.move hxt hxp ?_, ?_, ?_, ?_⟩
  · rw [chars_cons, hctext]
    rfl
  · have := hc.of_kind (by simp [hcolon]) (by simp [hcolon]) (endsUrl false x)
    exact this.change (by rw [hcolon]; exact ⟨nofun, nofun, nofun⟩)
  · refine readAs_blank (fun d hd => ?_) _
    cases hcy : chars y with
    | nil =>
      rw [chars_append, hcy, chars_cons, text_semicolonToken] at hd
      obtain rfl := Option.some.inj hd
      decide
    | cons e es =>
      rw [chars_append, hcy] at hd
      refine (hy.tight hyt).head d ?_
      rw [hcy]
      exact hd
  · refine Reads.append.mpr ⟨hy.move hyt hyp ?_, .singleton (readAs_punctuation rfl _ _)⟩
    rw [chars_cons, text_semicolonToken]
    rfl

/-- The line of two trimmed runs, the first without a colon, is the declaration of both. -/
theorem leads_line {x y : List Token} {c : Token} {k k₁ k₂ : List Char} {u : Bool} (hx : Reads false x k)
    (hxt : Trimmed x) (hxp : ParensClosed x) (hstart : StartsHead x) (hfirst : ∀ t ∈ x, (t.kind != .colon) = true)
    (hc : ReadAs u c k₁) (hcolon : c.kind = .colon) (hy : Reads false y k₂) (hyt : Trimmed y) (hyp : ParensClosed y)
    (hw : headAccount.Whole (x ++ c :: blankToken :: y)) (hhas : hasColon (x ++ c :: blankToken :: y) = true)
    (p : Progress) :
    Leads (join x ++ ": " ++ join y ++ ";").toList p (p.add (.declaration (join x) (join y) .none)) := by
  have hctext : c.text.toList = [':'] := hc.punctuation (by rw [hcolon]; rfl)
  have hxtext : trimmedText x = join x := trimmedText_of_tight (hx.tight hxt)
  have hytext : trimmedText (blankToken :: y) = join y := trimmedText_blank_cons (hy.tight hyt)
  have hne : trimmedText x ≠ "" := by
    obtain ⟨t, ht, -⟩ := hstart
    obtain ⟨us, rfl⟩ := List.head?_eq_some_iff.mp ht
    rw [hxtext, join, Ne, String.ofList_eq_empty_iff]
    exact List.append_ne_nil_of_left_ne_nil hx.1.toList_ne _
  have hd := @declarationOf_append x (blankToken :: y) c hfirst hcolon hne .none
  rw [hxtext, hytext] at hd
  have hreads := reads_declaration hx hxt hxp hc hcolon hy hyt hyp
  have := leads_head (hstart.append _) hw hhas (by simpa using hreads) hd p
  simpa [hctext, join] using this

/-- The line of a declaration whose property closes its parentheses. -/
theorem leads_declaration {ts : List Token} {k : List Char} (h : Reads false ts k) (hstart : StartsHead ts)
    (hw : headAccount.Whole ts) (hcolon : hasColon ts = true) {start : Position} {prop value : String}
    {source : Source} (hd : declarationOf start ts = .ok (.declaration prop value source))
    (hclosed : ClosesParens prop) (p : Progress) :
    Leads (prop ++ ": " ++ value ++ ";").toList p (p.add (.declaration prop value .none)) := by
  obtain ⟨before, c, rest, rfl, hnocolon, hc, hne, hprop, hvalue⟩ := exists_parts hcolon hd
  rw [trimmedText_eq] at hprop hvalue
  obtain ⟨hb, hcr⟩ := Reads.append.mp h
  have hr : Reads false rest k := by
    have := hcr.2
    rwa [isUrl_of_kind_ne (by simp [hc])] at this
  have hbne : before ≠ [] := by
    rintro rfl
    exact hne hprop.symm
  -- the property and the value are the two parts without the white space around them
  obtain ⟨x, s, rfl, hs, hx, hxtrim, hx0⟩ := hb.trimHead (hstart.of_append hbne)
  obtain ⟨s₁, y, s₂, rfl, hs₁, hs₂, hy, hytrim⟩ := hr.trim
  rw [hxtrim] at hprop
  rw [hytrim] at hvalue
  have hxr := (Reads.append.mp hb).1
  have hyr := (Reads.append.mp (Reads.append.mp hr).1).2
  rw [endsUrl_of_kind_ne fun t ht => by simp [hs₁ t ht]] at hyr
  have hc' : c.isTrivia = false := by rw [isTrivia, hc]; rfl
  have hsig : significant (x ++ c :: blankToken :: y) = significant (x ++ s ++ c :: (s₁ ++ y ++ s₂)) := by
    simp [significant_append, significant_of_spaces, hs, hs₁, hs₂, significant_cons hc', significant_blank]
  have hw' : headAccount.Whole (x ++ c :: blankToken :: y) := (headAccount_skips.whole_congr hsig).mpr hw
  -- what closes a parenthesis of the value is in the value, as it is behind it; of the property this is given
  have hyp : ParensClosed y := by
    have := parensClosed_of_closed hw'.closed
    exact @ParensClosed.of_append (x ++ [c, blankToken]) y (by simpa using this)
  have hxp : ParensClosed x := ClosesParens.parensClosed (by rwa [join, hprop]) hxr
  have hline := leads_line hxr hx hxp hx0 (fun t ht => hnocolon t (List.mem_append_left _ ht)) hcr.1 hc hyr hy hyp hw'
    ((hasColon_congr hsig).trans hcolon) p
  rwa [join, join, hprop, hvalue] at hline

/-! ### At-rules -/

theorem exists_splitWord_of_append {a n cs : List Char} (h : (Lexeme.splitWord cs).1 = a ++ n) :
    ∃ ds, (Lexeme.splitWord ds).1 = n := by
  induction a generalizing cs with
  | nil => exact ⟨cs, h⟩
  | cons c a ih =>
    cases cs with
    | nil => cases h
    | cons d ds =>
      rw [Lexeme.splitWord] at h
      split at h
      · cases h
      · exact ih (List.cons.inj h).2

/-- The name of an at-rule with one `@` before it is one token. -/
theorem exists_atName {word : Token} {u : Bool} {k : List Char} (h : ReadAs u word k)
    (hw : word.kind = .atWord) :
    ∃ n, atName word = .ofList n ∧ atName (ofKind .atWord ('@' :: n)) = .ofList n ∧
      ∀ k', Lexeme.Delimits k' → ReadAs false (ofKind .atWord ('@' :: n)) k' := by
  obtain ⟨c, cs, l, hr, hkind, htext, -⟩ := h
  obtain ⟨rfl, rfl⟩ := hr.atWord_inv (hkind.trans hw)
  obtain ⟨n, hn⟩ : ∃ n, (Lexeme.splitWord cs).1.dropWhile (· == '@') = n := ⟨_, rfl⟩
  have hsplit : (Lexeme.splitWord cs).1 = (Lexeme.splitWord cs).1.takeWhile (· == '@') ++ n := by
    rw [← hn, List.takeWhile_append_dropWhile]
  obtain ⟨ds, hds⟩ := exists_splitWord_of_append hsplit
  refine ⟨n, ?_, ?_, fun k' hk' => ?_⟩
  · rw [atName, htext, List.dropWhile_cons_of_pos rfl]
    exact congrArg _ hn
  · rw [atName, text_ofKind, String.toList_ofList, List.dropWhile_cons_of_pos rfl, ← hn, List.dropWhile_idempotent]
  · have hs := Lexeme.splitWord_append_of_delimits ds hk'
    rw [hds] at hs
    refine ⟨'@', n ++ k', ⟨.atWord, n, k'⟩, ?_, rfl, ?_, rfl⟩
    · have := @Lexeme.Reading.atWord false (n ++ k')
      rwa [hs] at this
    · rw [text_ofKind, String.toList_ofList]

/-- The tokens of an at-rule in its line: its name, and behind a blank its parameters without the white
space around them. -/
structure AtLine (word : Token) (run : List Token) (name params : String) : Prop where
  kind : word.kind = .atWord
  atName_eq : atName word = name
  text_eq : trimmedText run = params
  line : chars (word :: run) = (renderAtRule name params).toList
  whole : paramsAccount.Whole run
  reads : ∀ k, Lexeme.Delimits k → Reads false (word :: run) k

theorem exists_atLine {word : Token} {params : List Token} {k : List Char}
    (h : Reads false (word :: params) k) (hw : word.kind = .atWord) (hu : paramsAccount.Uncut 0 params)
    (hclosed : EndsParams (trimmedText params)) :
    ∃ w ps, AtLine w ps (atName word) (trimmedText params) := by
  obtain ⟨n, hn, hn', hread⟩ := exists_atName h.1 hw
  have hp : Reads false params k := by
    have := h.2
    rwa [isUrl_of_kind_ne (by simp [hw])] at this
  obtain ⟨a, r, b, rfl, ha, hb, hr, htrim⟩ := hp.trim
  have htext : trimmedText (a ++ r ++ b) = .ofList (chars r) := by rw [trimmedText_eq, htrim]
  rw [htext] at hclosed ⊢
  rw [hn]
  have hrr := (Reads.append.mp (Reads.append.mp hp).1).2
  rw [endsUrl_of_kind_ne fun t ht => by simp [ha t ht]] at hrr
  obtain ⟨hparens, hdepth⟩ := EndsParams.of_reads hclosed hrr
  have hsig : significant r = significant (a ++ r ++ b) := by
    simp [significant_append, significant_of_spaces, ha, hb]
  have hwhole : paramsAccount.Whole r :=
    ⟨(paramsAccount_skips.uncut_significant trivial r).mp
      (hsig ▸ (paramsAccount_skips.uncut_significant trivial _).mpr hu), beq_iff_eq.mpr hdepth⟩
  by_cases hne : r = []
  · subst hne
    refine ⟨ofKind .atWord ('@' :: n), [], rfl, hn', rfl, ?_, hwhole, fun k' hk' => .singleton (hread k' hk')⟩
    simp [renderAtRule]
  · have htr := hrr.tight hr
    have hcne : chars r ≠ [] := by
      obtain ⟨t, r', rfl⟩ := List.exists_cons_of_ne_nil hne
      exact List.append_ne_nil_of_left_ne_nil hrr.1.toList_ne _
    have htne : String.ofList (chars r) ≠ "" := fun he => hcne (by rw [← String.toList_ofList (l := chars r), he]; rfl)
    refine ⟨ofKind .atWord ('@' :: n), blankToken :: r, rfl, hn', ?_, ?_, ?_, fun k' hk' => ⟨hread _ rfl, ?_⟩⟩
    · exact trimmedText_blank_cons htr
    · rw [renderAtRule, if_neg htne]
      simp
    · exact (paramsAccount_skips.whole_congr (significant_blank r)).mpr hwhole
    · exact reads_blank_cons hrr hr hcne hparens hk' _

namespace AtLine

variable {word : Token} {run : List Token} {name params : String}

theorem start (h : AtLine word run name params) (us : List Token) :
    ∃ t ∈ (word :: run ++ us).head?, t.kind ≠ .space :=
  ⟨word, rfl, by simp [h.kind]⟩

theorem leads_block (h : AtLine word run name params) (p : Progress) :
    Leads (renderAtRule name params ++ " \x7b").toList p (p.opened (.atRule name params) .none .none) := by
  have hw : paramsAccount.Whole (run ++ [blankToken]) := (paramsAccount_skips.whole_congr
    (by rw [significant_append, significant_blank]; simp [significant])).mp h.whole
  refine ⟨word :: run ++ [blankToken, braceToken],
    .atRule word.bare ((run ++ [blankToken]).map Token.bare) (.block .none),
    ?_, ⟨h.start _, fun k => ?_, ?_, fun us => ?_⟩, ?_⟩
  · rw [chars_append, h.line]
    simp
  · exact Reads.append.mpr ⟨h.reads _ rfl, reads_blank_brace _ k⟩
  · rw [endsUrl_append]
    rfl
  · have hcut := ofTokens_atRule h.kind hw braceToken rfl us
    rw [List.append_assoc] at hcut
    rw [List.cons_append, List.cons_append, List.append_assoc]
    exact congrArg (List.map Segment.bare) hcut
  · rw [Progress.step, Progress.atRule, trimmedText_map_bare, trimmedText_append_blank, h.text_eq]
    exact congrArg (fun n => Except.ok (p.opened (.atRule n params) .none .none)) h.atName_eq

theorem leads_statement (h : AtLine word run name params) (p : Progress) :
    Leads (renderAtRule name params ++ ";").toList p (p.add (.atStatement name params .none)) := by
  refine ⟨word :: run ++ [semicolonToken], .atRule word.bare (run.map Token.bare) (.semicolon .none),
    ?_, ⟨h.start _, fun k => ?_, ?_, fun us => ?_⟩, ?_⟩
  · rw [chars_append, h.line]
    simp
  · refine Reads.append.mpr ⟨h.reads _ ?_, .singleton (readAs_punctuation rfl _ _)⟩
    rw [chars_cons, text_semicolonToken]
    rfl
  · rw [endsUrl_append]
    rfl
  · have hcut := ofTokens_atRule h.kind h.whole semicolonToken rfl us
    rw [List.cons_append, List.cons_append, List.append_assoc]
    exact congrArg (List.map Segment.bare) hcut
  · have hlast : lastPosition word.bare.position (run.map Token.bare) = .none := lastPosition_map_bare run
    have hname : atName word.bare = name := h.atName_eq
    rw [Progress.step, Progress.atRule, trimmedText_map_bare, h.text_eq, hlast, hname]
    · rfl
    · simp

end AtLine

end Node
end Mixsheet
