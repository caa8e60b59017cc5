import Mixsheet.Node.OfTokens
import Mixsheet.Proofs.Except
import Mixsheet.Proofs.Node.Segment
import Mixsheet.Proofs.Node.Statements

/-! # What is read of a stylesheet

A segment takes what is read one step further. What each step keeps holds of every statement read in the
end, and the statement that was read first is the first one in the end. -/

namespace Mixsheet.Node

theorem exists_of_declarationOf {start : Position} {ts : List Token} {node : Node}
    (h : declarationOf start ts = .ok node) : ∃ prop value source, node = .declaration prop value source := by
  unfold declarationOf at h
  dsimp only at h
  split at h
  · cases h
  · exact ⟨_, _, _, (Except.ok.inj h).symm⟩

theorem source_of_declarationOf {start : Position} {run : List Token} {node : Node}
    (h : declarationOf start run = .ok node) : node.source = ⟨start, lastPosition start run⟩ := by
  unfold declarationOf at h
  dsimp only at h
  split at h
  · cases h
  · obtain rfl := Except.ok.inj h
    rfl

/-- A call has the first word of a run as its name. -/
theorem exists_name {ts : List Token} {spaces : String} {start stop : Position} {node : Node}
    (h : callOf spaces start ts stop = .ok node) : ∃ before name rest, ts = before ++ name :: rest ∧
      (∀ t ∈ before, t.kind ≠ .word) ∧ name.kind = .word ∧
      node = .call
        ⟨name.text, Argument.ofTokens rest, spaces ++ Token.join before, Token.join rest, ⟨name.position, stop⟩⟩ := by
  unfold callOf at h
  split at h
  · cases h
  · rename_i name rest hdrop
    have hsplit := List.takeWhile_append_dropWhile (p := (·.kind != .word)) (l := ts)
    rw [hdrop] at hsplit
    have hkind := List.head?_dropWhile_not (·.kind != .word) ts
    rw [hdrop] at hkind
    refine ⟨_, name, rest, hsplit.symm, fun t ht => ?_, by simpa using hkind, (Except.ok.inj h).symm⟩
    simpa using List.all_eq_true.mp List.all_takeWhile t ht

/-- A run ends where it starts or at one of its tokens. -/
theorem place_lastPosition {P : Position → Prop} {start : Position} {run : List Token} (hstart : P start)
    (hrun : ∀ t ∈ run, P t.position) : P (lastPosition start run) := by
  unfold lastPosition
  cases hlast : run.getLast? with
  | none => exact hstart
  | some t => exact hrun t (List.mem_of_getLast? hlast)

namespace Progress

/-! ### Steps -/

/-- The run of tokens of a statement that its end leaves. -/
def declared (head : List Token) : Ending → List Token
  | .last => Token.dropTriviaEnd head
  | .block _ | .semicolon _ => head

theorem mem_of_mem_declared {head : List Token} {ending : Ending} {t : Token} (h : t ∈ declared head ending) :
    t ∈ head := by
  cases ending with
  | last =>
    have hdropped : t ∈ head.reverse.dropWhile Token.isTrivia := List.mem_reverse.mp h
    exact List.mem_reverse.mp ((List.dropWhile_sublist _).subset hdropped)
  | block | semicolon => exact h

/-- A declaration is read of a statement. -/
structure Declares (start : Position) (head : List Token) (ending : Ending) (node : Node) : Prop where
  not_block : ∀ brace, ending ≠ .block brace
  unclosed : ending = .last → Segment.unclosed? [] none head = none
  colon : hasColon head = true
  node_eq : declarationOf start (declared head ending) = .ok node

/-- A mixin call is read of a statement. -/
structure Calls (spaces : String) (start : Position) (head : List Token) (ending : Ending) (c : MixinCall) :
    Prop where
  colon : hasColon head = false
  brackets : hasBrackets head = true
  node_eq : ∃ stop, ending = .semicolon stop ∧ callOf spaces start head stop = .ok (.call c)

theorem Calls.exists_name {spaces : String} {start : Position} {head : List Token} {ending : Ending} {c : MixinCall}
    (h : Calls spaces start head ending c) : ∃ before name rest stop, head = before ++ name :: rest ∧
      ending = .semicolon stop ∧ (∀ t ∈ before, t.kind ≠ .word) ∧ name.kind = .word ∧
      c = ⟨name.text, Argument.ofTokens rest, spaces ++ Token.join before, Token.join rest, ⟨name.position, stop⟩⟩ := by
  obtain ⟨stop, hending, hcall⟩ := h.node_eq
  obtain ⟨before, name, rest, hhead, hfirst, hkind, heq⟩ := Node.exists_name hcall
  exact ⟨before, name, rest, stop, hhead, hending, hfirst, hkind, Node.call.inj heq⟩

/-- A statement opens the block of a rule, or it is a declaration or a mixin call. -/
theorem statement_cases {p q : Progress} {start : Position} {head : List Token} {ending : Ending}
    (h : p.statement start head ending = .ok q) :
    (∃ brace, ending = .block brace ∧ q = p.opened (.rule (trimmedText head)) start brace) ∨
      (∃ prop value source, Declares start head ending (.declaration prop value source) ∧
        q = p.add (.declaration prop value source)) ∨
      ∃ c, Calls p.spaces start head ending c ∧ q = p.add (.call c) := by
  cases ending with
  | block brace => exact .inl ⟨brace, rfl, (Except.ok.inj h).symm⟩
  | semicolon stop =>
    rw [statement] at h
    split at h
    · rename_i hcolon
      obtain ⟨node, hd, rfl⟩ := map_eq_ok_iff.mp h
      obtain ⟨prop, value, source, rfl⟩ := exists_of_declarationOf hd
      exact .inr (.inl ⟨prop, value, source, ⟨by simp, by simp, hcolon, hd⟩, rfl⟩)
    rename_i hcolon
    split at h
    · rename_i hbrackets
      obtain ⟨node, hc, rfl⟩ := map_eq_ok_iff.mp h
      obtain ⟨_, _, _, -, -, -, rfl⟩ := Node.exists_name hc
      exact .inr (.inr ⟨_, ⟨Bool.eq_false_iff.mpr hcolon, hbrackets, stop, rfl, hc⟩, rfl⟩)
    · cases h
  | last =>
    rw [statement] at h
    split at h
    · cases h
    rename_i hun
    dsimp only at h
    split at h
    · rename_i hcolon
      obtain ⟨node, hd, rfl⟩ := map_eq_ok_iff.mp h
      obtain ⟨prop, value, source, rfl⟩ := exists_of_declarationOf hd
      exact .inr (.inl ⟨prop, value, source, ⟨by simp, fun _ => hun, hcolon, hd⟩, rfl⟩)
    · split at h <;> cases h

/-- A `}` puts the statement of the innermost block behind those before the block. -/
theorem exists_of_close {p q : Progress} {position : Position} (h : p.close position = .ok q) :
    ∃ block blocks, p.blocks = block :: blocks ∧
      q = ⟨"", block.header.node p.nodes.reverse ⟨block.start, position⟩ :: block.before, blocks⟩ := by
  unfold close at h
  split at h
  · cases h
  · rename_i block blocks hblocks
    exact ⟨block, blocks, hblocks, (Except.ok.inj h).symm⟩

theorem of_finish {p : Progress} {nodes : List Node} (h : p.finish = .ok nodes) :
    p.blocks = [] ∧ nodes = p.nodes.reverse := by
  unfold finish at h
  split at h
  · rename_i hblocks
    exact ⟨hblocks, (Except.ok.inj h).symm⟩
  · cases h

theorem exists_step {p r : Progress} {s : Segment} {rest : List Segment} (h : p.run (s :: rest) = .ok r) :
    ∃ q, p.step s = .ok q ∧ q.run rest = .ok r := by
  rw [run] at h
  split at h
  · rename_i q hq
    exact ⟨q, hq, h⟩
  · cases h

/-- What each step keeps a run keeps. -/
theorem run_induction {motive : Progress → Prop} {segments : List Segment} {p q : Progress}
    (hstep : ∀ s ∈ segments, ∀ p q, motive p → p.step s = .ok q → motive q) (h : motive p)
    (hq : p.run segments = .ok q) : motive q := by
  induction segments generalizing p with
  | nil =>
    obtain rfl := Except.ok.inj hq
    exact h
  | cons s rest ih =>
    obtain ⟨r, hr, hq⟩ := exists_step hq
    exact ih (fun s hs => hstep s (List.mem_cons_of_mem _ hs)) (hstep s List.mem_cons_self p r h hr) hq

/-- What is kept of what is read and of the tokens behind it by each token that is a segment, by each at-rule and by
each statement, is kept up to the end of the tokens. -/
theorem run_ofTokens_induction {motive : Progress → List Token → Prop} {ts : List Token} {p q : Progress}
    (one : ∀ {p q t us s}, motive p (t :: us) → Segment.Single t s → p.step s = .ok q → motive q us)
    (atRule : ∀ {p word params us}, motive p (word :: (params ++ us)) → word.kind = .atWord →
      (∀ t ∈ us.head?, Segment.isStop t = true) →
      motive (p.atRule word params (Segment.splitEnding us).1) (Segment.splitEnding us).2)
    (statement : ∀ {p q t head us}, motive p (t :: (head ++ us)) → Segment.startsHead t.kind = true →
      (∀ t ∈ us.head?, Segment.isStop t = true) →
      p.statement t.position (t :: head) (Segment.splitEnding us).1 = .ok q → motive q (Segment.splitEnding us).2)
    (h : motive p ts) (hq : p.run (Segment.ofTokens ts) = .ok q) : motive q [] := by
  induction ts using Segment.ofTokens_induction generalizing p with
  | nil =>
    rw [Segment.ofTokens_nil] at hq
    obtain rfl := Except.ok.inj hq
    exact h
  | one t rest hs ha ih =>
    obtain ⟨s, hsingle, hcons⟩ := Segment.exists_single hs ha
    rw [hcons] at hq
    obtain ⟨r, hr, hq⟩ := exists_step hq
    exact ih (one h hsingle hr) hq
  | atRule t rest ht ih =>
    rw [Segment.ofTokens_atWord ht] at hq
    obtain ⟨r, hr, hq⟩ := exists_step hq
    obtain rfl := Except.ok.inj hr
    rw [← Segment.splitParams_append 0 rest] at h
    exact ih (atRule h ht Segment.isStop_of_splitParams) hq
  | head t rest hs ih =>
    rw [Segment.ofTokens_head hs] at hq
    obtain ⟨r, hr, hq⟩ := exists_step hq
    rw [Segment.splitHead_cons hs] at hr hq ih
    rw [← Segment.splitHead_append (Segment.missing [] t) rest] at h
    exact ih (statement h hs Segment.isStop_of_splitHead hr) hq

/-- A segment completes a statement without a block, which is a declaration or a mixin call only if it was read as
one. -/
structure Completes (p : Progress) (s : Segment) (node : Node) : Prop where
  statements_eq : node.statements = [node]
  declaration : ∀ prop value source, node = .declaration prop value source → ∃ start head ending,
    s = .statement start head ending ∧ Declares start head ending node
  call : ∀ c, node = .call c → ∃ start head ending, s = .statement start head ending ∧
    Calls p.spaces start head ending c

/-- A segment adds to the white space, completes a statement, opens a block or closes one. -/
theorem step_cases {p q : Progress} {s : Segment} (h : p.step s = .ok q) :
    (∃ spaces, q = { p with spaces := spaces }) ∨ (∃ node, q = p.add node ∧ p.Completes s node) ∨
      (∃ header start brace, q = p.opened header start brace) ∨ ∃ position, p.close position = .ok q := by
  cases s with
  | space text => exact .inl ⟨_, (Except.ok.inj h).symm⟩
  | semicolon => exact .inl ⟨p.spaces, (Except.ok.inj h).symm⟩
  | comment t => exact .inr (.inl ⟨_, (Except.ok.inj h).symm, rfl, nofun, nofun⟩)
  | close position => exact .inr (.inr (.inr ⟨position, h⟩))
  | atRule word params ending =>
    obtain rfl := Except.ok.inj h
    cases ending with
    | block brace => exact .inr (.inr (.inl ⟨_, _, _, rfl⟩))
    | semicolon stop => exact .inr (.inl ⟨_, rfl, rfl, nofun, nofun⟩)
    | last => exact .inr (.inl ⟨_, rfl, rfl, nofun, nofun⟩)
  | statement start head ending =>
    rcases statement_cases h with ⟨brace, -, rfl⟩ | ⟨prop, value, source, hd, rfl⟩ | ⟨c, hc, rfl⟩
    · exact .inr (.inr (.inl ⟨_, _, _, rfl⟩))
    · exact .inr (.inl ⟨_, rfl, rfl, fun _ _ _ _ => ⟨_, _, _, rfl, hd⟩, nofun⟩)
    · refine .inr (.inl ⟨.call c, rfl, rfl, nofun, fun c' hc' => ?_⟩)
      obtain rfl := Node.call.inj hc'
      exact ⟨_, _, _, rfl, hc⟩

/-! ### Every statement -/

/-- Every statement read, at any depth, has a property, and so has the statement of every open block,
whatever the block will hold. -/
structure Each (Q : Node → Prop) (p : Progress) : Prop where
  nodes : ∀ n ∈ statementsAll p.nodes, Q n
  headers : ∀ b ∈ p.blocks, ∀ nodes source, Q (b.header.node nodes source)
  before : ∀ b ∈ p.blocks, ∀ n ∈ statementsAll b.before, Q n

variable {Q : Node → Prop} {p q : Progress}

theorem each_initial : initial.Each Q := ⟨nofun, nofun, nofun⟩

theorem Each.add (h : p.Each Q) {node : Node} (hn : ∀ n ∈ node.statements, Q n) : (p.add node).Each Q :=
  ⟨List.forall_mem_append.mpr ⟨hn, h.nodes⟩, h.headers, h.before⟩

theorem Each.opened (h : p.Each Q) {header : Header} (hh : ∀ nodes source, Q (header.node nodes source))
    (start brace : Position) : (p.opened header start brace).Each Q :=
  ⟨nofun, List.forall_mem_cons.mpr ⟨hh, h.headers⟩, List.forall_mem_cons.mpr ⟨h.nodes, h.before⟩⟩

theorem statements_header (header : Header) (nodes : List Node) (source : Source) :
    (header.node nodes source).statements = header.node nodes source :: statementsAll nodes := by
  cases header <;> rfl

theorem Each.close (h : p.Each Q) {position : Position} (hq : p.close position = .ok q) : q.Each Q := by
  obtain ⟨block, blocks, hb, rfl⟩ := exists_of_close hq
  obtain ⟨hh, hhs⟩ := List.forall_mem_cons.mp (hb ▸ h.headers)
  obtain ⟨hbf, hbfs⟩ := List.forall_mem_cons.mp (hb ▸ h.before)
  refine ⟨List.forall_mem_append.mpr ⟨?_, hbf⟩, hhs, hbfs⟩
  rw [statements_header]
  exact List.forall_mem_cons.mpr ⟨hh _ _, forall_statementsAll_reverse h.nodes⟩

/-- What holds of every statement with a block, and of the others where they are completed, is kept. -/
theorem Each.step {s : Segment} (h : p.Each Q) (hq : p.step s = .ok q) (hnode : ∀ node, p.Completes s node → Q node)
    (hheader : ∀ header nodes source, Q (Header.node header nodes source)) : q.Each Q := by
  rcases step_cases hq with ⟨spaces, rfl⟩ | ⟨node, rfl, hcompletes⟩ | ⟨header, start, brace, rfl⟩ | ⟨position, hc⟩
  · exact ⟨h.nodes, h.headers, h.before⟩
  · refine h.add ?_
    rw [hcompletes.statements_eq]
    exact List.forall_mem_singleton.mpr (hnode node hcompletes)
  · exact h.opened (hheader header) start brace
  · exact h.close hc

theorem Each.finish (h : p.Each Q) {nodes : List Node} (hn : p.finish = .ok nodes) :
    ∀ n ∈ statementsAll nodes, Q n := by
  obtain ⟨-, rfl⟩ := of_finish hn
  exact forall_statementsAll_reverse h.nodes

/-! ### The first statement -/

/-- The statement that was read first, or the one that the block opened first is going to be, has a
property; `nodes` are the statements of the innermost block, last first. -/
def FirstOf (Q : Node → Prop) (nodes : List Node) : List OpenBlock → Prop
  | [] => ∃ n ∈ nodes.getLast?, Q n
  | b :: bs =>
    FirstOf Q b.before bs ∨ b.before = [] ∧ bs = [] ∧ ∀ nodes source, Q (b.header.node nodes source)

theorem FirstOf.cons {nodes : List Node} {blocks : List OpenBlock} (h : FirstOf Q nodes blocks) (node : Node) :
    FirstOf Q (node :: nodes) blocks := by
  cases blocks with
  | nil =>
    obtain ⟨n, hn, hq⟩ := h
    refine ⟨n, ?_, hq⟩
    rw [List.getLast?_cons, hn]
    rfl
  | cons b bs => exact h

/-- The first statement, or the one that the first block is going to be, has a property. -/
def First (Q : Node → Prop) (p : Progress) : Prop := FirstOf Q p.nodes p.blocks

theorem first_of_add (hp : p.nodes = []) (hb : p.blocks = []) {node : Node} (h : Q node) :
    (p.add node).First Q := by
  rw [First, add, hp, hb]
  exact ⟨node, rfl, h⟩

theorem first_of_opened (hp : p.nodes = []) (hb : p.blocks = []) {header : Header}
    (h : ∀ nodes source, Q (header.node nodes source)) (start brace : Position) :
    (p.opened header start brace).First Q :=
  .inr ⟨hp, hb, h⟩

theorem First.close (h : p.First Q) {position : Position} (hq : p.close position = .ok q) : q.First Q := by
  obtain ⟨block, blocks, hb, rfl⟩ := exists_of_close hq
  rw [First, hb] at h
  rcases h with h | ⟨hbefore, rfl, hh⟩
  · exact h.cons _
  · rw [First, hbefore]
    exact ⟨_, rfl, hh _ _⟩

/-- The first statement stays the first one. -/
theorem First.step {s : Segment} (h : p.First Q) (hq : p.step s = .ok q) : q.First Q := by
  rcases step_cases hq with ⟨spaces, rfl⟩ | ⟨node, rfl, -⟩ | ⟨header, start, brace, rfl⟩ | ⟨position, hc⟩
  · exact h
  · exact FirstOf.cons h node
  · exact .inl h
  · exact h.close hc

theorem First.of_run {segments : List Segment} {nodes : List Node} (h : p.First Q)
    (hn : (p.run segments).bind finish = .ok nodes) : ∃ n ∈ nodes.head?, Q n := by
  obtain ⟨q, hq, hf⟩ := bind_eq_ok_iff.mp hn
  have hfirst := run_induction (fun s _ p q hp hs => First.step hp hs) h hq
  obtain ⟨hb, rfl⟩ := of_finish hf
  rw [First, hb] at hfirst
  obtain ⟨n, hn, hq⟩ := hfirst
  exact ⟨n, by rwa [List.head?_reverse], hq⟩

end Progress

end Mixsheet.Node
