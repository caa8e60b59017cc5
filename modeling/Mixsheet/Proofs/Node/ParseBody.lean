import Mixsheet.Proofs.Node.Body

/-! # Reading a body

The segments of a body take what is read as far as its statements (`Body.run`), and tokens that are read
to their end start with a body (`reached`). So a text is read as a stylesheet exactly if its tokens are a
body. -/

namespace Mixsheet

open Token

namespace Account

variable {σ : Type} (a : Account σ)

/-- A run is cut before a token that ends a statement where no bracket is open, or not at all. -/
theorem exists_split (s : σ) (ts : List Token) : ∃ front back,
    a.split s ts = (front, back) ∧ front ++ back = ts ∧ a.Uncut s front ∧
      (back = [] ∨ ∃ stop us, back = stop :: us ∧ a.closed (a.afterAll s front) = true ∧
        Segment.isStop stop = true) := by
  refine ⟨_, _, rfl, ?_, uncut_split s ts, ?_⟩
  · induction ts generalizing s with
    | nil => rfl
    | cons t ts ih =>
      rw [split]
      split
      · rfl
      · exact congrArg (t :: ·) (ih _)
  · cases h : (a.split s ts).2 with
    | nil => exact .inl rfl
    | cons stop us => exact .inr ⟨stop, us, rfl, closed_of_split h⟩

end Account

namespace Segment

theorem unclosed?_of_closed {closers : List TokenKind} {opened? : Option Token} {ts : List Token}
    (h : headAccount.closed (headAccount.afterAll closers ts) = true) :
    unclosed? closers opened? ts = none := by
  induction ts generalizing closers opened? with
  | nil => exact if_pos (List.isEmpty_iff.mp h)
  | cons t ts ih => exact ih h

/-- What stands behind a body: a `}` if it is nested, and nothing if it is not. -/
def Behind : Bool → List Token → Prop
  | true, rest => ∃ close us, rest = close :: us ∧ close.kind = .rightBrace
  | false, rest => rest = []

theorem ofTokens_atLast {nested : Bool} {word : Token} {params rest : List Token}
    (hkind : word.kind = .atWord) (hu : paramsAccount.Uncut 0 params)
    (hclosed : nested = true → paramsAccount.Whole params) (hrest : Behind nested rest) :
    ofTokens (word :: (params ++ rest)) = .atRule word params .last :: ofTokens rest := by
  cases nested with
  | true =>
    obtain ⟨close, us, rfl, hclose⟩ := hrest
    have hstop : isStop close = true := by simp [isStop, hclose]
    rw [ofTokens_atRule hkind (hclosed rfl) close hstop us]
    simp [splitEnding, hclose]
  | false =>
    obtain rfl := hrest
    have hsplit : splitParams 0 (params ++ []) = (params, []) := by
      rw [splitParams_eq, hu.split_append]
      simp [Account.split]
    rw [ofTokens_atWord hkind, hsplit]
    rfl

theorem ofTokens_last {nested : Bool} {head rest : List Token} (hstart : StartsHead head)
    (hw : headAccount.Whole head) (hrest : Behind nested rest) :
    ∃ start, ofTokens (head ++ rest) = .statement start head .last :: ofTokens rest := by
  cases nested with
  | true =>
    obtain ⟨close, us, rfl, hclose⟩ := hrest
    have hstop : isStop close = true := by simp [isStop, hclose]
    obtain ⟨start, hcut⟩ := ofTokens_statement hstart hw close hstop us
    refine ⟨start, hcut.trans ?_⟩
    simp [splitEnding, hclose]
  | false =>
    obtain rfl := hrest
    obtain ⟨t, ht, hs⟩ := hstart
    obtain ⟨us, rfl⟩ := List.head?_eq_some_iff.mp ht
    have hsplit : splitHead [] (t :: us ++ []) = (t :: us, []) := by
      have hu : headAccount.Uncut [] (t :: us) := hw.uncut
      rw [splitHead_eq, hu.split_append]
      simp [Account.split]
    refine ⟨t.position, ?_⟩
    rw [List.append_nil] at hsplit ⊢
    rw [ofTokens_head hs, hsplit]
    rfl

end Segment

namespace Node

open Segment

theorem isParams_iff {params : List Token} : IsParams params ↔ paramsAccount.Uncut 0 params := by
  rw [Account.uncut_iff]
  refine forall_congr' fun before => forall_congr' fun t => imp_congr_right fun _ => ?_
  simp [paramsAccount, Account.afterAll, depth]

theorem IsParams.whole {params : List Token} (h : IsParams params) (hclosed : depth params = 0) :
    paramsAccount.Whole params :=
  ⟨isParams_iff.mp h, beq_iff_eq.mpr hclosed⟩

theorem Starts.startsHead {head : List Token} (h : Starts head) (hne : head ≠ []) : StartsHead head := by
  obtain ⟨t, ts, rfl⟩ := List.exists_cons_of_ne_nil hne
  exact ⟨t, rfl, h t rfl⟩

theorem starts_of_startsHead {head : List Token} (h : StartsHead head) : Starts head := by
  obtain ⟨t, ht, hs⟩ := h
  intro t' ht'
  obtain rfl := Option.some.inj (ht.symm.trans ht')
  exact hs

/-! ### From the body to its statements -/

namespace Progress

/-- Statements are read between `p` and `q`, and every block that was opened is closed. -/
structure Adds (p q : Progress) (nodes : List Node) : Prop where
  nodes : q.nodes.map plain = nodes.reverse ++ p.nodes.map plain
  blocks : q.blocks = p.blocks

theorem Adds.cons {p q : Progress} {node : Node} {nodes : List Node} (h : (p.add node).Adds q nodes) :
    p.Adds q (node.plain :: nodes) :=
  ⟨by simp [h.nodes, add], h.blocks⟩

theorem run_step {p q : Progress} {s : Segment} (h : p.step s = .ok q) (rest : List Segment) :
    p.run (s :: rest) = q.run rest := by
  rw [run, h]

theorem plain_header (header : Header) (nodes : List Node) (source : Source) :
    (header.node nodes source).plain = header.node (plainAll nodes) .none := by
  cases header <;> rfl

/-- A `}` behind the statements of a block completes the statement that the block belongs to. -/
theorem Adds.close {p q : Progress} {header : Header} {start brace : Position} {block : List Node}
    (h : (p.opened header start brace).Adds q block) (position : Position) :
    ∃ node, q.step (.close position) = .ok (p.add node) ∧ node.plain = header.node block .none := by
  have hblocks : q.blocks = ⟨header, start, brace, p.nodes⟩ :: p.blocks := h.blocks
  have hnodes : q.nodes.map plain = block.reverse := by simpa [opened] using h.nodes
  refine ⟨header.node q.nodes.reverse ⟨start, position⟩, ?_, ?_⟩
  · rw [step, Progress.close, hblocks]
    rfl
  · rw [plain_header, plainAll_eq_map, List.map_reverse, hnodes, List.reverse_reverse]

theorem run_block {p : Progress} {header : Header} {start brace : Position} {close : Token}
    {inner ts : List Token} {block : List Node} (hclose : close.kind = .rightBrace)
    (hinner : ∃ q, (p.opened header start brace).run (Segment.ofTokens (inner ++ close :: ts)) =
      q.run (Segment.ofTokens (close :: ts)) ∧ (p.opened header start brace).Adds q block) :
    ∃ node, (p.opened header start brace).run (Segment.ofTokens (inner ++ close :: ts)) =
      (p.add node).run (Segment.ofTokens ts) ∧ node.plain = header.node block .none := by
  obtain ⟨q, hq, hadds⟩ := hinner
  obtain ⟨node, hstep, hplain⟩ := hadds.close close.position
  refine ⟨node, ?_, hplain⟩
  rw [hq, ofTokens_rightBrace hclose]
  exact run_step hstep _

theorem statement_semicolon {head : List Token} {node : Node}
    (h : IsDeclaration head node ∨ IsCall head node) (p : Progress) (start stop : Position) :
    ∃ node', p.step (.statement start head (.semicolon stop)) = .ok (p.add node') ∧ node'.plain = node := by
  rcases h with h | h
  · obtain ⟨-, -, hcolon⟩ := h.head
    obtain ⟨node', hd, hplain⟩ := h.declarationOf_eq start
    refine ⟨node', ?_, hplain⟩
    rw [step, statement, if_pos hcolon, hd]
    rfl
  · obtain ⟨-, -, hcolon, hbrackets⟩ := h.head
    obtain ⟨node', hc, hplain⟩ := h.callOf_eq p.spaces start stop
    refine ⟨node', ?_, hplain⟩
    rw [step, statement, hcolon, if_neg Bool.false_ne_true, if_pos hbrackets, hc]
    rfl

theorem statement_last {head : List Token} {node : Node} (hw : headAccount.Whole head)
    (hsig : significant (dropTriviaEnd head) = significant head) (h : IsDeclaration (dropTriviaEnd head) node)
    (p : Progress) (start : Position) :
    ∃ node', p.step (.statement start head .last) = .ok (p.add node') ∧ node'.plain = node := by
  obtain ⟨-, -, hcolon⟩ := h.head
  obtain ⟨node', hd, hplain⟩ := h.declarationOf_eq start
  refine ⟨node', ?_, hplain⟩
  have hun : unclosed? [] none head = none := unclosed?_of_closed hw.closed
  rw [step, statement, hun]
  dsimp only
  rw [← hasColon_congr hsig, if_pos hcolon, hd]
  rfl

end Progress

theorem whole_of_statement {head : List Token} {node : Node} (h : IsDeclaration head node ∨ IsCall head node) :
    headAccount.Whole head ∧ head ≠ [] := by
  rcases h with h | h
  · obtain ⟨out, hhead, -⟩ := h.head
    obtain ⟨-, -, -, -, -⟩ := h
    exact ⟨hhead.whole.1, by simp⟩
  · obtain ⟨out, hhead, -, -⟩ := h.head
    obtain ⟨-, -, -, -, -⟩ := h
    exact ⟨hhead.whole.1, by simp⟩

/-- The segments of a body take what is read as far as the statements of the body. -/
theorem Body.run {nested : Bool} {ts : List Token} {nodes : List Node} (h : Body nested ts nodes)
    {rest : List Token} (hrest : Behind nested rest) (p : Progress) :
    ∃ q, p.run (Segment.ofTokens (ts ++ rest)) = q.run (Segment.ofTokens rest) ∧ p.Adds q nodes := by
  induction h generalizing p rest with
  | nil => exact ⟨p, rfl, rfl, rfl⟩
  | @skip nested t ts nodes kind _ ih =>
    rcases kind with hk | hk
    · obtain ⟨q, hq, hadds⟩ := ih hrest { p with spaces := p.spaces ++ t.text }
      refine ⟨q, ?_, hadds.nodes, hadds.blocks⟩
      rw [List.cons_append, ofTokens_space hk, ← hq]
      exact Progress.run_step rfl _
    · obtain ⟨q, hq, hadds⟩ := ih hrest p
      refine ⟨q, ?_, hadds⟩
      rw [List.cons_append, ofTokens_semicolon hk, ← hq]
      exact Progress.run_step rfl _
  | @comment nested t ts nodes kind _ ih =>
    obtain ⟨q, hq, hadds⟩ := ih hrest (p.add (.comment (commentText t.text) ⟨t.position, t.position⟩))
    refine ⟨q, ?_, hadds.cons⟩
    rw [List.cons_append, ofTokens_comment kind, ← hq]
    exact Progress.run_step rfl _
  | @atStatement nested word stop params ts nodes kind params_ closed stop_ _ ih =>
    have hstop : isStop stop = true := by simp [isStop, stop_]
    obtain ⟨q, hq, hadds⟩ := ih hrest (p.atRule word params (.semicolon stop.position))
    refine ⟨q, ?_, hadds.cons⟩
    rw [List.cons_append, List.append_assoc, List.cons_append,
      ofTokens_atRule kind (params_.whole closed) stop hstop, ← hq]
    simp only [splitEnding, stop_]
    exact Progress.run_step rfl _
  | @atLast nested word params kind params_ closed =>
    refine ⟨p.atRule word params .last, ?_, rfl, rfl⟩
    have hwhole : nested = true → paramsAccount.Whole params := fun hn => params_.whole (closed hn)
    rw [List.cons_append, ofTokens_atLast kind (isParams_iff.mp params_) hwhole hrest]
    exact Progress.run_step rfl _
  | @atBlock nested word brace close params inner ts block nodes kind params_ closed opens _ closes _ ihb ih =>
    have hstop : isStop brace = true := by simp [isStop, opens]
    have hbehind : Behind true (close :: (ts ++ rest)) := ⟨close, _, rfl, closes⟩
    have hinner := ihb hbehind
      (p.opened (.atRule (atName word) (trimmedText params)) word.position brace.position)
    obtain ⟨node, hnode, hplain⟩ := Progress.run_block closes hinner
    obtain ⟨q, hq, hadds⟩ := ih hrest (p.add node)
    have hadds := hadds.cons
    rw [hplain] at hadds
    refine ⟨q, ?_, hadds⟩
    rw [List.cons_append, List.append_assoc, List.cons_append, List.append_assoc, List.cons_append,
      ofTokens_atRule kind (params_.whole closed) brace hstop, ← hq, ← hnode]
    simp only [splitEnding, opens]
    exact Progress.run_step rfl _
  | @rule nested brace close head out inner ts block nodes starts head_ opens _ closes _ ihb ih =>
    have hstop : isStop brace = true := by simp [isStop, opens]
    have hcut : ∀ us, ∃ start, Segment.ofTokens (head ++ brace :: us) =
        .statement start head (.block brace.position) :: Segment.ofTokens us := by
      intro us
      by_cases hne : head = []
      · subst hne
        exact ⟨_, ofTokens_leftBrace opens⟩
      · obtain ⟨start, hcut⟩ := ofTokens_statement (starts.startsHead hne) head_.whole.1 brace hstop us
        simp only [splitEnding, opens] at hcut
        exact ⟨start, hcut⟩
    obtain ⟨start, hcut⟩ := hcut (inner ++ close :: (ts ++ rest))
    have hbehind : Behind true (close :: (ts ++ rest)) := ⟨close, _, rfl, closes⟩
    have hinner := ihb hbehind
      (p.opened (.rule (trimmedText head)) start brace.position)
    obtain ⟨node, hnode, hplain⟩ := Progress.run_block closes hinner
    obtain ⟨q, hq, hadds⟩ := ih hrest (p.add node)
    have hadds := hadds.cons
    rw [hplain] at hadds
    refine ⟨q, ?_, hadds⟩
    rw [List.append_assoc, List.cons_append, List.append_assoc, List.cons_append, hcut, ← hq, ← hnode]
    exact Progress.run_step rfl _
  | @statement nested stop head ts node nodes starts node_ stop_ _ ih =>
    have hstop : isStop stop = true := by simp [isStop, stop_]
    obtain ⟨hw, hne⟩ := whole_of_statement node_
    obtain ⟨start, hcut⟩ := ofTokens_statement (starts.startsHead hne) hw stop hstop (ts ++ rest)
    simp only [splitEnding, stop_] at hcut
    obtain ⟨node', hstep, hplain⟩ := Progress.statement_semicolon node_ p start stop.position
    obtain ⟨q, hq, hadds⟩ := ih hrest (p.add node')
    have hadds := hadds.cons
    rw [hplain] at hadds
    refine ⟨q, ?_, hadds⟩
    rw [List.append_assoc, List.cons_append, hcut, ← hq]
    exact Progress.run_step hstep _
  | @last nested head node starts node_ =>
    obtain ⟨hw, hne⟩ := whole_of_statement (.inl node_)
    have hstart := starts.startsHead fun he => hne (by rw [he]; rfl)
    obtain ⟨-, -, -, hsig, -⟩ := exists_dropTriviaEnd hstart
    have hw := (headAccount_skips.whole_congr hsig).mp hw
    obtain ⟨start, hcut⟩ := ofTokens_last hstart hw hrest
    obtain ⟨node', hstep, hplain⟩ := Progress.statement_last hw hsig node_ p start
    refine ⟨p.add node', ?_, by simp [Progress.add, hplain], rfl⟩
    rw [hcut]
    exact Progress.run_step hstep _

/-! ### From the statements to the body -/

/-- Tokens start with a body, up to a `}` or to their end. Otherwise a block stays open behind them: they
are read as far as `r`, which has more open blocks than `blocks`. -/
def Reached (blocks : List OpenBlock) (r : Progress) (ts : List Token) : Prop :=
  (∃ nested inner rest nodes, ts = inner ++ rest ∧ Behind nested rest ∧ Body nested inner nodes ∧
    (nested = false → r.blocks = blocks)) ∨ blocks.length < r.blocks.length

section Reached

variable {p r : Progress} {us : List Token}

theorem Reached.prepend {blocks : List OpenBlock} (h : Reached blocks r us) (front : List Token)
    (hfront : ∀ nested inner nodes, Body nested inner nodes → ∃ nodes', Body nested (front ++ inner) nodes') :
    Reached blocks r (front ++ us) := by
  rcases h with ⟨nested, inner, rest, nodes, rfl, hrest, hbody, hblocks⟩ | hlt
  · obtain ⟨nodes', hbody⟩ := hfront nested inner nodes hbody
    exact .inl ⟨nested, front ++ inner, rest, nodes', (List.append_assoc ..).symm, hrest, hbody, hblocks⟩
  · exact .inr hlt

/-- Tokens no longer than `n` that are read as far as `r` start with a body. -/
def ReachedTo (r : Progress) (n : Nat) : Prop :=
  ∀ vs : List Token, vs.length ≤ n → ∀ p : Progress, p.run (Segment.ofTokens vs) = .ok r → Reached p.blocks r vs

theorem ReachedTo.mono {m n : Nat} (h : ReachedTo r n) (hle : m ≤ n) : ReachedTo r m :=
  fun vs hvs => h vs (hvs.trans hle)

theorem reached_block {header : Header} {start brace : Position} (ih : ReachedTo r us.length)
    (front : List Token) (hrun : (p.opened header start brace).run (Segment.ofTokens us) = .ok r)
    (hfront : ∀ {nested inner close ts block nodes}, Body true inner block → close.kind = .rightBrace →
      Body nested ts nodes → ∃ nodes', Body nested (front ++ (inner ++ close :: ts)) nodes') :
    Reached p.blocks r (front ++ us) := by
  rcases ih us le_rfl _ hrun with ⟨nested, inner, rest, block, rfl, hrest, hbody, hblocks⟩ | hlt
  · cases nested with
    | false =>
      have hr : r.blocks = ⟨header, start, brace, p.nodes⟩ :: p.blocks := hblocks rfl
      refine .inr ?_
      rw [hr]
      exact Nat.lt_succ_self _
    | true =>
      obtain ⟨close, ts, rfl, hclose⟩ := hrest
      have hinner := hbody.run ⟨close, ts, rfl, hclose⟩ (p.opened header start brace)
      obtain ⟨node, hnode, -⟩ := Progress.run_block hclose hinner
      have hts : Reached p.blocks r ts := ih ts (by simp; omega) (p.add node) (hnode ▸ hrun)
      have := hts.prepend (front ++ (inner ++ [close])) fun nested ts nodes h => by
        simpa using hfront hbody hclose h
      simpa using this
  · exact .inr (Nat.lt_of_succ_lt hlt)

theorem reached_last {nested : Bool} {inner : List Token} {nodes : List Node}
    (hbody : Body nested inner nodes) (hrest : Behind nested us) {q : Progress} (hblocks : q.blocks = p.blocks)
    (hrun : q.run (Segment.ofTokens us) = .ok r) : Reached p.blocks r (inner ++ us) := by
  refine .inl ⟨nested, inner, us, nodes, rfl, hrest, hbody, ?_⟩
  rintro rfl
  obtain rfl := hrest
  rw [ofTokens_nil] at hrun
  obtain rfl := Except.ok.inj hrun
  exact hblocks

theorem isDeclaration_of_declares {start : Position} {head : List Token} {ending : Ending}
    {prop value : String} {source : Source} (hd : Progress.Declares start head ending (.declaration prop value source))
    (hstart : StartsHead head) (hu : headAccount.Uncut [] head)
    (hc : ending ≠ .last → headAccount.closed (headAccount.afterAll [] head) = true) :
    IsDeclaration (Progress.declared head ending) (.declaration prop value .none) := by
  obtain ⟨hw, hcolon⟩ := hd.whole hstart hu hc
  exact isDeclaration_of_declarationOf (head_of_whole hw) hcolon hd.node_eq

theorem reached_statement_last {nested : Bool} {head : List Token} {start : Position}
    (hstart : StartsHead head) (hu : headAccount.Uncut [] head) (hrest : Behind nested us)
    (hrun : p.run (.statement start head .last :: Segment.ofTokens us) = .ok r) :
    Reached p.blocks r (head ++ us) := by
  obtain ⟨q, hstep, hrun⟩ := Progress.exists_step hrun
  have hstep : p.statement start head .last = .ok q := hstep
  rcases Progress.statement_cases hstep with ⟨brace, he, -⟩ | ⟨prop, value, source, hd, rfl⟩ | ⟨c, hc, -⟩
  · cases he
  · have hnode := isDeclaration_of_declares hd hstart hu (absurd rfl)
    have hblocks : (p.add (.declaration prop value source)).blocks = p.blocks := rfl
    exact reached_last (.last (starts_of_startsHead hstart) hnode) hrest hblocks hrun
  · obtain ⟨stop, he, -⟩ := hc.node_eq
    cases he

theorem reached_statement {head : List Token} {start : Position} {stop : Token} (ih : ReachedTo r us.length)
    (hstart : Starts head) (hw : headAccount.Whole head) (hstop : isStop stop = true)
    (hrun : p.run (.statement start head (splitEnding (stop :: us)).1 ::
      Segment.ofTokens (splitEnding (stop :: us)).2) = .ok r) :
    Reached p.blocks r (head ++ stop :: us) := by
  rcases exists_stop hstop us with ⟨hk, he⟩ | ⟨hk, he⟩ | ⟨hk, he⟩
  · rw [he] at hrun
    obtain ⟨q, hstep, hrun⟩ := Progress.exists_step hrun
    have hstep : p.statement start head (.semicolon stop.position) = .ok q := hstep
    have hprepend : ∀ {node}, IsDeclaration head node ∨ IsCall head node → q.blocks = p.blocks →
        Reached p.blocks r (head ++ stop :: us) := by
      intro node hnode hq
      have := (hq ▸ ih us le_rfl q hrun).prepend (head ++ [stop]) fun nested inner nodes h =>
        ⟨node :: nodes, by simpa using Body.statement hstart hnode hk h⟩
      simpa using this
    rcases Progress.statement_cases hstep with ⟨brace, he, -⟩ | ⟨prop, value, source, hd, rfl⟩ | ⟨c, hc, rfl⟩
    · cases he
    · have hne := ne_nil_of_hasColon hd.colon
      have hnode := isDeclaration_of_declares hd (hstart.startsHead hne) hw.uncut fun _ => hw.closed
      exact hprepend (.inl hnode) rfl
    · obtain ⟨stop', -, hcall⟩ := hc.node_eq
      exact hprepend (.inr (isCall_of_callOf (head_of_whole hw) hc.colon hc.brackets hcall)) rfl
  · rw [he] at hrun
    obtain ⟨q, hstep, hrun⟩ := Progress.exists_step hrun
    obtain rfl := Except.ok.inj hstep
    have := reached_block ih (head ++ [stop]) hrun fun hinner hclose hts =>
      ⟨_, by simpa using Body.rule hstart (head_of_whole hw) hk hinner hclose hts⟩
    simpa using this
  · rw [he] at hrun
    have hne : head ≠ [] := by
      rintro rfl
      obtain ⟨q, hstep, -⟩ := Progress.exists_step hrun
      cases hstep
    have hbehind : Behind true (stop :: us) := ⟨stop, us, rfl, hk⟩
    exact reached_statement_last (hstart.startsHead hne) hw.uncut hbehind hrun

theorem reached_atRule {word stop : Token} {params : List Token} (ih : ReachedTo r us.length)
    (hkind : word.kind = .atWord) (hw : paramsAccount.Whole params) (hstop : isStop stop = true)
    (hrun : p.run (.atRule word params (splitEnding (stop :: us)).1 ::
      Segment.ofTokens (splitEnding (stop :: us)).2) = .ok r) :
    Reached p.blocks r (word :: params ++ stop :: us) := by
  have hparams : IsParams params := isParams_iff.mpr hw.uncut
  have hclosed : depth params = 0 := beq_iff_eq.mp hw.closed
  obtain ⟨q, hstep, hrun⟩ := Progress.exists_step hrun
  obtain rfl := Except.ok.inj hstep
  rcases exists_stop hstop us with ⟨hk, he⟩ | ⟨hk, he⟩ | ⟨hk, he⟩
  · rw [he] at hrun
    have hus : Reached p.blocks r us := ih us le_rfl (p.atRule word params (.semicolon stop.position)) hrun
    have := hus.prepend (word :: params ++ [stop]) fun nested inner nodes h =>
      ⟨_, by simpa using Body.atStatement hkind hparams hclosed hk h⟩
    simpa using this
  · rw [he] at hrun
    have := reached_block ih (word :: params ++ [stop]) hrun fun hinner hclose hts =>
      ⟨_, by simpa using Body.atBlock hkind hparams hclosed hk hinner hclose hts⟩
    simpa using this
  · rw [he] at hrun
    have hbehind : Behind true (stop :: us) := ⟨stop, us, rfl, hk⟩
    have hblocks : (p.atRule word params .last).blocks = p.blocks := rfl
    exact reached_last (.atLast hkind hparams fun _ => hclosed) hbehind hblocks hrun

/-- Behind its first token, which is a segment that leaves the open blocks as they are, the tokens go on. -/
theorem reached_one {t : Token} {s : Segment} {q : Progress} (ih : ReachedTo r us.length)
    (hcut : Segment.ofTokens (t :: us) = s :: Segment.ofTokens us) (hstep : p.step s = .ok q)
    (hblocks : q.blocks = p.blocks) (h : p.run (Segment.ofTokens (t :: us)) = .ok r)
    (hbody : ∀ nested inner nodes, Body nested inner nodes → ∃ nodes', Body nested (t :: inner) nodes') :
    Reached p.blocks r (t :: us) := by
  rw [hcut, Progress.run_step hstep] at h
  exact (hblocks ▸ ih us le_rfl q h).prepend [t] hbody

theorem reached_head {t : Token} (ih : ReachedTo r us.length) (hs : startsHead t.kind = true)
    (h : p.run (Segment.ofTokens (t :: us)) = .ok r) :
    Reached p.blocks r (t :: us) := by
  obtain ⟨head, tail, hsplit, happ, hu, htail⟩ := headAccount.exists_split [] (t :: us)
  have hstart : StartsHead head := by
    rw [← splitHead_eq, splitHead_cons hs] at hsplit
    obtain ⟨rfl, -⟩ := Prod.mk.inj hsplit
    exact ⟨t, rfl, hs⟩
  rw [ofTokens_head hs, splitHead_eq, hsplit] at h
  rw [← happ]
  rcases htail with rfl | ⟨stop, vs, rfl, hclosed, hstop⟩
  · have hbehind : Behind false [] := rfl
    exact reached_statement_last hstart hu hbehind h
  · have hpos := List.length_pos_of_mem (List.mem_of_mem_head? hstart.choose_spec.1)
    have hlength := congrArg List.length happ
    simp only [List.length_append, List.length_cons] at hlength
    exact reached_statement (ih.mono (by omega)) (starts_of_startsHead hstart) ⟨hu, hclosed⟩ hstop h

theorem reached_atWord {t : Token} (ih : ReachedTo r us.length) (hkind : t.kind = .atWord)
    (h : p.run (Segment.ofTokens (t :: us)) = .ok r) :
    Reached p.blocks r (t :: us) := by
  obtain ⟨params, tail, hsplit, happ, hu, htail⟩ := paramsAccount.exists_split 0 us
  rw [ofTokens_atWord hkind, splitParams_eq, hsplit] at h
  rw [← happ]
  rcases htail with rfl | ⟨stop, vs, rfl, hclosed, hstop⟩
  · obtain ⟨q, hstep, hrun⟩ := Progress.exists_step h
    obtain rfl := Except.ok.inj hstep
    have hblocks : (p.atRule t params .last).blocks = p.blocks := rfl
    have hbehind : Behind false [] := rfl
    exact reached_last (.atLast hkind (isParams_iff.mpr hu) fun h => by cases h) hbehind hblocks hrun
  · have hlength := congrArg List.length happ
    simp only [List.length_append, List.length_cons] at hlength
    exact reached_atRule (ih.mono (by omega)) hkind ⟨hu, hclosed⟩ hstop h

end Reached

/-- Tokens that are read to their end start with a body, unless a block stays open. -/
theorem reached {ts : List Token} {p r : Progress} (h : p.run (Segment.ofTokens ts) = .ok r) :
    Reached p.blocks r ts := by
  induction hn : ts.length using Nat.strongRecOn generalizing ts p with
  | ind n ih =>
    cases ts with
    | nil => exact reached_last (.nil false) rfl rfl h
    | cons t ts =>
      have hts : ReachedTo r ts.length := fun vs hvs p hp => ih vs.length (by simp at hn; omega) hp rfl
      by_cases hs : startsHead t.kind = true
      · exact reached_head hts hs h
      cases hk : t.kind with
      | space => exact reached_one hts (ofTokens_space hk) rfl rfl h fun _ _ _ hb => ⟨_, .skip (.inl hk) hb⟩
      | semicolon => exact reached_one hts (ofTokens_semicolon hk) rfl rfl h fun _ _ _ hb => ⟨_, .skip (.inr hk) hb⟩
      | comment => exact reached_one hts (ofTokens_comment hk) rfl rfl h fun _ _ _ hb => ⟨_, .comment hk hb⟩
      | rightBrace => exact .inl ⟨true, [], t :: ts, [], rfl, ⟨t, ts, rfl, hk⟩, .nil true, nofun⟩
      | leftBrace =>
        have hstop : isStop t = true := by simp [isStop, hk]
        have hend : splitEnding (t :: ts) = (.block t.position, ts) := by simp [splitEnding, hk]
        have hrun : p.run (.statement t.position [] (splitEnding (t :: ts)).1 ::
            Segment.ofTokens (splitEnding (t :: ts)).2) = .ok r := by
          rw [hend, ← ofTokens_leftBrace hk]
          exact h
        have hstart : Starts [] := fun _ ht => by cases ht
        exact reached_statement hts hstart Segment.Head.nil.whole.1 hstop hrun
      | atWord => exact reached_atWord hts hk h
      | _ => simp [startsHead, hk] at hs

theorem Body.exists_run {ts : List Token} {nodes : List Node} (h : Body false ts nodes) : ∃ found,
    (Progress.initial.run (Segment.ofTokens ts)).bind Progress.finish = .ok found ∧ plainAll found = nodes := by
  have hbehind : Behind false [] := rfl
  obtain ⟨q, hq, hadds⟩ := h.run hbehind Progress.initial
  have hblocks : q.blocks = [] := hadds.blocks
  have hnodes : q.nodes.map plain = nodes.reverse := by simpa [Progress.initial] using hadds.nodes
  rw [List.append_nil, ofTokens_nil] at hq
  refine ⟨q.nodes.reverse, ?_, ?_⟩
  · rw [hq, Progress.run, Except.bind, Progress.finish, hblocks]
  · rw [plainAll_eq_map, List.map_reverse, hnodes, List.reverse_reverse]

theorem exists_body {ts : List Token} {found : List Node}
    (h : (Progress.initial.run (Segment.ofTokens ts)).bind Progress.finish = .ok found) :
    ∃ nodes, Body false ts nodes := by
  obtain ⟨r, hr, hfinish⟩ := bind_eq_ok_iff.mp h
  rcases reached hr with ⟨nested, inner, rest, nodes, rfl, hrest, hbody, -⟩ | hlt
  · cases nested with
    | false =>
      obtain rfl := hrest
      exact ⟨nodes, by rwa [List.append_nil]⟩
    | true =>
      -- a `}` behind the body would close a block, and none is open
      obtain ⟨q, hq, hadds⟩ := hbody.run hrest Progress.initial
      obtain ⟨close, us, rfl, hclose⟩ := hrest
      rw [hq, ofTokens_rightBrace hclose] at hr
      obtain ⟨q', hstep, -⟩ := Progress.exists_step hr
      rw [Progress.step, Progress.close, hadds.blocks] at hstep
      cases hstep
  · rw [(Progress.of_finish hfinish).1] at hlt
    cases hlt

/-- Tokens come to statements exactly if they are a body of these. -/
theorem exists_run_iff {ts : List Token} {nodes : List Node} : (∃ found,
    (Progress.initial.run (Segment.ofTokens ts)).bind Progress.finish = .ok found ∧ plainAll found = nodes) ↔
      Body false ts nodes := by
  refine ⟨?_, Body.exists_run⟩
  rintro ⟨found, hfound, rfl⟩
  obtain ⟨nodes, hbody⟩ := exists_body hfound
  obtain ⟨found', hfound', hnodes⟩ := hbody.exists_run
  obtain rfl := Except.ok.inj (hfound.symm.trans hfound')
  exact hnodes ▸ hbody

end Node

/-- A text with tokens is read as a stylesheet exactly if the tokens are a body, and the statements are
those of the body, in its order. -/
theorem Stylesheet.parse_iff_body {s : String} {ts : List Token} (h : Token.ofText s = .ok ts)
    (nodes : List Node) : (∃ sheet, Stylesheet.parse s = .ok sheet ∧ Node.plainAll sheet.nodes = nodes) ↔
      Node.Body false (Token.content ts) nodes := by
  have hparse : Stylesheet.parse s = (Node.ofTokens (Token.content ts)).map .mk := by
    rw [Stylesheet.parse, h]
    rfl
  rw [← Node.exists_run_iff, hparse]
  constructor
  · rintro ⟨sheet, hsheet, rfl⟩
    obtain ⟨found, hfound, rfl⟩ := map_eq_ok_iff.mp hsheet
    exact ⟨found, hfound, rfl⟩
  · rintro ⟨found, hfound, rfl⟩
    exact ⟨⟨found⟩, map_eq_ok_iff.mpr ⟨found, hfound, rfl⟩, rfl⟩

/-- A mixin call and a last declaration in the block of an at-rule. -/
theorem Stylesheet.parse_iff_body_of_block : ∃ ts nodes, Token.ofText "@a\x7bd(e);b:c\x7d" = .ok ts ∧
    nodes = [.atBlock "a" "" [.call ⟨"d", [.text "e"], "", "(e)", .none⟩, .declaration "b" "c" .none] .none] ∧
    Node.Body false (Token.content ts) nodes ∧
    ((∃ sheet, Stylesheet.parse "@a\x7bd(e);b:c\x7d" = .ok sheet ∧ Node.plainAll sheet.nodes = nodes) ↔
      Node.Body false (Token.content ts) nodes) := by
  have hts : Token.ofText "@a\x7bd(e);b:c\x7d" = .ok [⟨.atWord, "@a", 0, 2, ⟨1, 1⟩⟩,
      ⟨.leftBrace, "\x7b", 2, 3, ⟨1, 3⟩⟩, ⟨.word, "d", 3, 4, ⟨1, 4⟩⟩, ⟨.brackets, "(e)", 4, 7, ⟨1, 5⟩⟩,
      ⟨.semicolon, ";", 7, 8, ⟨1, 8⟩⟩, ⟨.word, "b", 8, 9, ⟨1, 9⟩⟩, ⟨.colon, ":", 9, 10, ⟨1, 10⟩⟩,
      ⟨.word, "c", 10, 11, ⟨1, 11⟩⟩, ⟨.rightBrace, "\x7d", 11, 12, ⟨1, 12⟩⟩, ⟨.eof, "", 12, 12, ⟨1, 13⟩⟩] := by
    decide +kernel
  have hparse : ∃ sheet, Stylesheet.parse "@a\x7bd(e);b:c\x7d" = .ok sheet ∧ Node.plainAll sheet.nodes =
      [.atBlock "a" "" [.call ⟨"d", [.text "e"], "", "(e)", .none⟩, .declaration "b" "c" .none] .none] := by
    refine ⟨⟨[.atBlock "a" "" [.call ⟨"d", [.text "e"], "", "(e)", ⟨⟨1, 4⟩, ⟨1, 8⟩⟩⟩,
      .declaration "b" "c" ⟨⟨1, 9⟩, ⟨1, 11⟩⟩] ⟨⟨1, 1⟩, ⟨1, 12⟩⟩]⟩, ?_, rfl⟩
    cbv
  have hiff := Stylesheet.parse_iff_body hts
  exact ⟨_, _, hts, rfl, (hiff _).mp hparse, hiff _⟩

end Mixsheet
