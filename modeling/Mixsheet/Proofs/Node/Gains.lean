import Mixsheet.Proofs.Node.ParseBody

/-! # Statements behind the last one of a block

Of two stylesheets one has further statements behind the last statement of one block, and is else the same. The two
stay so whatever is read behind that block. -/

namespace Mixsheet.Node

/-- The second statements are the first ones with `extra` behind `last`, which is the last statement of its block. -/
inductive Gains (last : Node) (extra : List Node) : List Node → List Node → Prop where
  | last (before : List Node) : Gains last extra (before ++ [last]) (before ++ last :: extra)
  | block {nodes nodes' : List Node} (before behind : List Node) (header : Header) (source : Source)
    (inner : Gains last extra nodes nodes') :
    Gains last extra (before ++ header.node nodes source :: behind) (before ++ header.node nodes' source :: behind)

section Gains

variable {last : Node} {extra nodes nodes' : List Node}

theorem Gains.eq_of_nil (h : Gains last [] nodes nodes') : nodes' = nodes := by
  induction h with
  | last before => rfl
  | block before behind header source inner ih => rw [ih]

/-- All further statements are further ones at some depth. -/
theorem Gains.length (h : Gains last extra nodes nodes') :
    (statementsAll nodes').length = (statementsAll nodes).length + (statementsAll extra).length := by
  induction h with
  | last before =>
    simp [statementsAll_append, statementsAll]
    omega
  | block before behind header source inner ih =>
    simp [statementsAll_append, statementsAll, Progress.statements_header, ih]
    omega

/-- With further statements the statements are others, whatever the places. -/
theorem Gains.bareAll_eq_iff (h : Gains last extra nodes nodes') : bareAll nodes' = bareAll nodes ↔ extra = [] := by
  constructor
  · intro hbare
    have hlength := congrArg (fun found => (statementsAll found).length) hbare
    simp only [statementsAll_bareAll, List.length_map, h.length] at hlength
    have hnil : statementsAll extra = [] := List.length_eq_zero_iff.mp (by omega)
    cases extra with
    | nil => rfl
    | cons node rest => cases node <;> cases hnil
  · rintro rfl
    rw [h.eq_of_nil]

end Gains

namespace Progress

/-- Of what is read, the block of a statement that is read completely has further statements. -/
inductive GainsBehind (last : Node) (extra : List Node) :
    List Node → List OpenBlock → List Node → List OpenBlock → Prop where
  | nodes {nodes nodes' : List Node} (later before : List Node) (blocks : List OpenBlock) (header : Header)
    (source : Source) (inner : Gains last extra nodes nodes') :
    GainsBehind last extra (later ++ header.node nodes source :: before) blocks
      (later ++ header.node nodes' source :: before) blocks
  | before {nodes before before' : List Node} {blocks blocks' : List OpenBlock} (header : Header) (start brace : Position)
    (outer : GainsBehind last extra before blocks before' blocks') :
    GainsBehind last extra nodes (⟨header, start, brace, before⟩ :: blocks)
      nodes (⟨header, start, brace, before'⟩ :: blocks')

/-- What is read is the same but for further statements in a block that is closed. -/
structure GainsIn (last : Node) (extra : List Node) (p q : Progress) : Prop where
  spaces : q.spaces = p.spaces
  behind : GainsBehind last extra p.nodes p.blocks q.nodes q.blocks

section GainsIn

variable {last : Node} {extra : List Node} {p p' q : Progress}

theorem GainsBehind.cons {nodes nodes' : List Node} {blocks blocks' : List OpenBlock}
    (h : GainsBehind last extra nodes blocks nodes' blocks') (node : Node) :
    GainsBehind last extra (node :: nodes) blocks (node :: nodes') blocks' := by
  cases h with
  | nodes later before blocks header source inner => exact .nodes (node :: later) before blocks header source inner
  | before header start brace outer => exact .before header start brace outer

theorem GainsIn.add (h : GainsIn last extra p p') (node : Node) : GainsIn last extra (p.add node) (p'.add node) :=
  ⟨rfl, h.behind.cons node⟩

theorem GainsIn.opened (h : GainsIn last extra p p') (header : Header) (start brace : Position) :
    GainsIn last extra (p.opened header start brace) (p'.opened header start brace) :=
  ⟨rfl, .before header start brace h.behind⟩

theorem GainsIn.close (h : GainsIn last extra p p') {position : Position} (hq : p.close position = .ok q) :
    ∃ q', p'.close position = .ok q' ∧ GainsIn last extra q q' := by
  obtain ⟨spaces, nodes, blocks⟩ := p
  obtain ⟨spaces', nodes', blocks'⟩ := p'
  obtain ⟨block, outer, rfl, rfl⟩ := exists_of_close hq
  obtain ⟨-, hbehind⟩ := h
  cases hbehind with
  | @nodes nodes nodes' later before _ header source inner =>
    have hclosed : Gains last extra (later ++ header.node nodes source :: before).reverse
        (later ++ header.node nodes' source :: before).reverse := by
      simpa using inner.block before.reverse later.reverse header source
    exact ⟨_, rfl, rfl, .nodes [] block.before outer block.header ⟨block.start, position⟩ hclosed⟩
  | before header start brace outer => exact ⟨_, rfl, rfl, outer.cons _⟩

theorem GainsIn.finish (h : GainsIn last extra p p') {nodes : List Node} (hn : p.finish = .ok nodes) :
    ∃ nodes', p'.finish = .ok nodes' ∧ Gains last extra nodes nodes' := by
  obtain ⟨spaces, nodes, blocks⟩ := p
  obtain ⟨spaces', nodes', blocks'⟩ := p'
  obtain ⟨rfl, rfl⟩ := of_finish hn
  obtain ⟨-, hbehind⟩ := h
  cases hbehind with
  | nodes later before _ header source inner =>
    refine ⟨_, rfl, ?_⟩
    simpa using inner.block before.reverse later.reverse header source

end GainsIn

/-! ### Steps -/

theorem Declares.statement_eq {start : Position} {head : List Token} {ending : Ending} {node : Node}
    (h : Declares start head ending node) (p : Progress) : p.statement start head ending = .ok (p.add node) := by
  have hnode := h.node_eq
  cases ending with
  | block brace => exact absurd rfl (h.not_block brace)
  | semicolon stop =>
    rw [declared] at hnode
    rw [statement, if_pos h.colon, hnode]
    rfl
  | last =>
    rw [declared] at hnode
    rw [statement, h.unclosed rfl]
    dsimp only
    rw [if_pos h.colon, hnode]
    rfl

theorem Calls.statement_eq {p : Progress} {start : Position} {head : List Token} {ending : Ending} {c : MixinCall}
    (h : Calls p.spaces start head ending c) : p.statement start head ending = .ok (p.add (.call c)) := by
  obtain ⟨stop, rfl, hnode⟩ := h.node_eq
  rw [statement, if_neg (Bool.eq_false_iff.mp h.colon), if_pos h.brackets, hnode]
  rfl

section Run

variable {last : Node} {extra : List Node} {p p' q : Progress}

theorem GainsIn.statement (h : GainsIn last extra p p') {start : Position} {head : List Token} {ending : Ending}
    (hq : p.statement start head ending = .ok q) :
    ∃ q', p'.statement start head ending = .ok q' ∧ GainsIn last extra q q' := by
  rcases statement_cases hq with ⟨brace, rfl, rfl⟩ | ⟨prop, value, source, hd, rfl⟩ | ⟨c, hc, rfl⟩
  · exact ⟨_, rfl, h.opened _ _ _⟩
  · exact ⟨_, hd.statement_eq p', h.add _⟩
  · exact ⟨_, Calls.statement_eq (h.spaces ▸ hc), h.add _⟩

theorem GainsIn.step (h : GainsIn last extra p p') {s : Segment} (hq : p.step s = .ok q) :
    ∃ q', p'.step s = .ok q' ∧ GainsIn last extra q q' := by
  cases s with
  | space text =>
    obtain rfl := Except.ok.inj hq
    exact ⟨_, rfl, congrArg (· ++ text) h.spaces, h.behind⟩
  | semicolon =>
    obtain rfl := Except.ok.inj hq
    exact ⟨_, rfl, h⟩
  | comment t =>
    obtain rfl := Except.ok.inj hq
    exact ⟨_, rfl, h.add _⟩
  | close position => exact h.close hq
  | atRule word params ending =>
    obtain rfl := Except.ok.inj hq
    cases ending with
    | block brace => exact ⟨_, rfl, h.opened _ _ _⟩
    | semicolon | last => exact ⟨_, rfl, h.add _⟩
  | statement start head ending => exact h.statement hq

/-- What is read stays the same but for the further statements, whatever is read behind. -/
theorem GainsIn.run {segments : List Segment} (h : GainsIn last extra p p') (hq : p.run segments = .ok q) :
    ∃ q', p'.run segments = .ok q' ∧ GainsIn last extra q q' := by
  induction segments generalizing p p' with
  | nil =>
    obtain rfl := Except.ok.inj hq
    exact ⟨p', rfl, h⟩
  | cons s rest ih =>
    obtain ⟨r, hr, hq⟩ := exists_step hq
    obtain ⟨r', hr', hgains⟩ := h.step hr
    rw [run_step hr']
    exact ih hgains hq

end Run

end Progress

end Mixsheet.Node
