import Mixsheet.Proofs.Node.Progress

/-! # What calls stand behind

Every call of a stylesheet, at any depth, stands right behind another statement, behind the `{` of its block, or at the
start of the text. What holds of each call when it is read, and of what it stands behind, holds of all calls and of what
they stand behind in the end. -/

namespace Mixsheet.Node

/-- What a statement stands right behind: nothing, the `{` of its block, or the statement before it. -/
inductive Edge where
  | start
  | brace (header : Header) (start : Position)
  | statement (node : Node)

/-- In statements that begin at the edge `front` a call stands, at any depth, right behind the edge `before`. -/
inductive Follows : Edge → List Node → Edge → MixinCall → Prop where
  | here (front : Edge) (c : MixinCall) (rest : List Node) : Follows front (.call c :: rest) front c
  | later {front before : Edge} {node : Node} {rest : List Node} {c : MixinCall}
    (behind : Follows (.statement node) rest before c) : Follows front (node :: rest) before c
  | rule {front before : Edge} {selector : String} {nodes rest : List Node} {source : Source} {c : MixinCall}
    (inner : Follows (.brace (.rule selector) source.start) nodes before c) :
    Follows front (.rule selector nodes source :: rest) before c
  | atBlock {front before : Edge} {name params : String} {nodes rest : List Node} {source : Source} {c : MixinCall}
    (inner : Follows (.brace (.atRule name params) source.start) nodes before c) :
    Follows front (.atBlock name params nodes source :: rest) before c

mutual

theorem exists_follows_cons : ∀ (node : Node) (front : Edge) (rest : List Node) {c : MixinCall}, c ∈ calls [node] →
    ∃ before, Follows front (node :: rest) before c
  | .rule selector nodes source, front, rest, c, h => by
    rw [calls_rule] at h
    obtain ⟨before, hinner⟩ := exists_follows nodes (.brace (.rule selector) source.start) h
    exact ⟨before, .rule hinner⟩
  | .atBlock name params nodes source, front, rest, c, h => by
    rw [calls_atBlock] at h
    obtain ⟨before, hinner⟩ := exists_follows nodes (.brace (.atRule name params) source.start) h
    exact ⟨before, .atBlock hinner⟩
  | .atStatement name params source, front, rest, c, h => nomatch h
  | .declaration prop value source, front, rest, c, h => nomatch h
  | .comment text source, front, rest, c, h => nomatch h
  | .call c', front, rest, c, h => by
    obtain rfl := List.mem_singleton.mp h
    exact ⟨front, .here front c rest⟩

/-- Every call stands behind an edge. -/
theorem exists_follows : ∀ (nodes : List Node) (front : Edge) {c : MixinCall}, c ∈ calls nodes →
    ∃ before, Follows front nodes before c
  | [], _, _, h => nomatch h
  | node :: rest, front, c, h => by
    rw [calls_cons, ← calls_singleton] at h
    rcases List.mem_append.mp h with h | h
    · exact exists_follows_cons node front rest h
    · obtain ⟨before, hrest⟩ := exists_follows rest (.statement node) h
      exact ⟨before, .later hrest⟩

end

section Follows

variable {front before : Edge} {nodes rest : List Node} {c : MixinCall}

/-- What a statement behind the others stands behind. -/
def Edge.behind (front : Edge) (nodes : List Node) : Edge := nodes.foldl (fun _ node => .statement node) front

theorem Follows.of_append (h : Follows front (nodes ++ rest) before c) :
    Follows front nodes before c ∨ Follows (front.behind nodes) rest before c := by
  induction nodes generalizing front with
  | nil => exact .inr h
  | cons node nodes ih =>
    cases h with
    | here => exact .inl (.here ..)
    | rule inner => exact .inl (.rule inner)
    | atBlock inner => exact .inl (.atBlock inner)
    | later behind => exact (ih behind).imp_left .later

theorem Follows.of_leaf {node : Node} (hleaf : node.statements = [node]) (h : Follows front [node] before c) :
    node = .call c ∧ before = front := by
  have hempty {nodes : List Node} {front : Edge} (hnone : statementsAll nodes = []) :
      ¬ Follows front nodes before c := by
    cases nodes with
    | nil => exact nofun
    | cons n nodes => cases n <;> cases hnone
  cases h with
  | here => exact ⟨rfl, rfl⟩
  | later behind => cases behind
  | rule inner | atBlock inner => exact absurd inner (hempty (List.cons.inj hleaf).2)

theorem Follows.of_header {header : Header} {source : Source} (h : Follows front [header.node nodes source] before c) :
    Follows (.brace header source.start) nodes before c := by
  cases header with
  | rule selector =>
    cases h with
    | later behind => cases behind
    | rule inner => exact inner
  | atRule name params =>
    cases h with
    | later behind => cases behind
    | atBlock inner => exact inner

end Follows

/-! ### What is read -/

/-- What the first statement of the innermost block stands behind. -/
def Edge.ofBlocks : List OpenBlock → Edge
  | [] => .start
  | b :: _ => .brace b.header b.start

/-- What a statement behind those of the innermost block, last first, stands behind. -/
def Edge.next (nodes : List Node) (blocks : List OpenBlock) : Edge :=
  match nodes with
  | [] => .ofBlocks blocks
  | node :: _ => .statement node

theorem behind_reverse (nodes : List Node) (blocks : List OpenBlock) :
    (Edge.ofBlocks blocks).behind nodes.reverse = .next nodes blocks := by
  rw [Edge.behind, List.foldl_reverse]
  cases nodes <;> rfl

/-- A property of all calls of the innermost block, its statements last first, and of those before it, and of the
edges that they stand behind. -/
def Holds (P : Edge → MixinCall → Prop) (nodes : List Node) : List OpenBlock → Prop
  | [] => ∀ before c, Follows .start nodes.reverse before c → P before c
  | b :: bs => (∀ before c, Follows (.brace b.header b.start) nodes.reverse before c → P before c) ∧ Holds P b.before bs

section Holds

variable {P : Edge → MixinCall → Prop} {nodes : List Node} {blocks : List OpenBlock}

theorem holds_initial : Holds P Progress.initial.nodes Progress.initial.blocks := by rintro before c ⟨⟩

theorem Holds.inner (h : Holds P nodes blocks) {before : Edge} {c : MixinCall}
    (hc : Follows (.ofBlocks blocks) nodes.reverse before c) : P before c := by
  cases blocks with
  | nil => exact h before c hc
  | cons b bs => exact h.1 before c hc

theorem Holds.cons (h : Holds P nodes blocks) {node : Node}
    (hnode : ∀ before c, Follows (.next nodes blocks) [node] before c → P before c) : Holds P (node :: nodes) blocks := by
  have hall : ∀ before c, Follows (.ofBlocks blocks) (node :: nodes).reverse before c → P before c := by
    intro before c hc
    rw [List.reverse_cons] at hc
    rcases hc.of_append with hc | hc
    · exact h.inner hc
    · rw [behind_reverse] at hc
      exact hnode before c hc
  cases blocks with
  | nil => exact hall
  | cons b bs => exact ⟨hall, h.2⟩

theorem Holds.close {p q : Progress} (h : Holds P p.nodes p.blocks) {position : Position}
    (hq : p.close position = .ok q) : Holds P q.nodes q.blocks := by
  obtain ⟨b, bs, hblocks, rfl⟩ := Progress.exists_of_close hq
  rw [hblocks] at h
  exact h.2.cons fun before c hc => h.1 before c hc.of_header

/-- A step keeps the property if it has it of the call that it completes. -/
theorem Holds.step {p q : Progress} {s : Segment} (h : Holds P p.nodes p.blocks) (hq : p.step s = .ok q)
    (hcall : ∀ c, p.Completes s (.call c) → P (.next p.nodes p.blocks) c) : Holds P q.nodes q.blocks := by
  rcases Progress.step_cases hq with ⟨spaces, rfl⟩ | ⟨node, rfl, hcompletes⟩ | ⟨header, start, brace, rfl⟩ |
    ⟨position, hclose⟩
  · exact h
  · refine Holds.cons h fun before c hc => ?_
    obtain ⟨rfl, rfl⟩ := hc.of_leaf hcompletes.statements_eq
    exact hcall c hcompletes
  · exact ⟨nofun, h⟩
  · exact h.close hclose

end Holds

end Mixsheet.Node
