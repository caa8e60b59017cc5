import Mixsheet.Node

/-! # The statements of a tree

The statements of a stylesheet at any depth, as they stand in it: a rule or an at-rule comes before
what its block holds. The calls among them are the mixin calls in document order. -/

namespace Mixsheet.Node

mutual

/-- A statement and those in its block, in the order in which they stand. -/
def statements : Node → List Node
  | .rule selector nodes source => .rule selector nodes source :: statementsAll nodes
  | .atBlock name params nodes source => .atBlock name params nodes source :: statementsAll nodes
  | .atStatement name params source => [.atStatement name params source]
  | .declaration prop value source => [.declaration prop value source]
  | .comment text source => [.comment text source]
  | .call c => [.call c]

/-- The statements of a block, each before those in it. -/
def statementsAll : List Node → List Node
  | [] => []
  | node :: rest => node.statements ++ statementsAll rest

end

theorem mem_statementsAll {n : Node} {nodes : List Node} :
    n ∈ statementsAll nodes ↔ ∃ m ∈ nodes, n ∈ m.statements := by
  induction nodes with
  | nil => simp [statementsAll]
  | cons node rest ih => simp [statementsAll, ih]

theorem statementsAll_append (nodes rest : List Node) :
    statementsAll (nodes ++ rest) = statementsAll nodes ++ statementsAll rest := by
  induction nodes with
  | nil => rfl
  | cons node nodes ih => rw [List.cons_append, statementsAll, ih, statementsAll, List.append_assoc]

theorem forall_statementsAll_reverse {Q : Node → Prop} {nodes : List Node}
    (h : ∀ n ∈ statementsAll nodes, Q n) : ∀ n ∈ statementsAll nodes.reverse, Q n := by
  intro n hn
  obtain ⟨m, hm, hnm⟩ := mem_statementsAll.mp hn
  exact h n (mem_statementsAll.mpr ⟨m, List.mem_reverse.mp hm, hnm⟩)

/-- The mixin call that a statement is. -/
def call? : Node → Option MixinCall
  | .call c => some c
  | _ => none

/-- The mixin calls of statements at any depth, in document order. -/
def calls (nodes : List Node) : List MixinCall := (statementsAll nodes).filterMap call?

@[simp] theorem calls_nil : calls [] = [] := rfl

theorem calls_cons (node : Node) (rest : List Node) :
    calls (node :: rest) = node.statements.filterMap call? ++ calls rest := by
  simp [calls, statementsAll]

theorem calls_append (nodes rest : List Node) : calls (nodes ++ rest) = calls nodes ++ calls rest := by
  rw [calls, statementsAll_append, List.filterMap_append, calls, calls]

theorem calls_singleton (node : Node) : calls [node] = node.statements.filterMap call? := by
  simp [calls_cons]

@[simp] theorem calls_call (c : MixinCall) : calls [.call c] = [c] := rfl

@[simp] theorem calls_rule (selector : String) (nodes : List Node) (source : Source) :
    calls [.rule selector nodes source] = calls nodes := by
  rw [calls_singleton, statements]
  exact List.filterMap_cons_none rfl

@[simp] theorem calls_atBlock (name params : String) (nodes : List Node) (source : Source) :
    calls [.atBlock name params nodes source] = calls nodes := by
  rw [calls_singleton, statements]
  exact List.filterMap_cons_none rfl

@[simp] theorem calls_atStatement (name params : String) (source : Source) :
    calls [.atStatement name params source] = [] := rfl

@[simp] theorem calls_declaration (prop value : String) (source : Source) :
    calls [.declaration prop value source] = [] := rfl

@[simp] theorem calls_comment (text : String) (source : Source) : calls [.comment text source] = [] := rfl

mutual

/-- What a statement becomes when every call in it, at any depth, gives way to statements. -/
def substitute (f : MixinCall → List Node) : Node → List Node
  | .rule selector nodes source => [.rule selector (substituteAll f nodes) source]
  | .atBlock name params nodes source => [.atBlock name params (substituteAll f nodes) source]
  | .atStatement name params source => [.atStatement name params source]
  | .declaration prop value source => [.declaration prop value source]
  | .comment text source => [.comment text source]
  | .call c => f c

/-- The statements of a block with others in the place of each call. -/
def substituteAll (f : MixinCall → List Node) : List Node → List Node
  | [] => []
  | node :: rest => node.substitute f ++ substituteAll f rest

end

section Substitution

variable {f g : MixinCall → List Node}

mutual

theorem calls_substitute (f : MixinCall → List Node) : ∀ node : Node,
    calls (node.substitute f) = (calls [node]).flatMap fun c => calls (f c)
  | .rule selector nodes source => by
    rw [substitute, calls_rule, calls_rule, calls_substituteAll f nodes]
  | .atBlock name params nodes source => by
    rw [substitute, calls_atBlock, calls_atBlock, calls_substituteAll f nodes]
  | .atStatement name params source => rfl
  | .declaration prop value source => rfl
  | .comment text source => rfl
  | .call c => by
    rw [substitute, calls_call, List.flatMap_cons, List.flatMap_nil, List.append_nil]

/-- The calls left are those of the statements that the calls gave way to, in order. -/
theorem calls_substituteAll (f : MixinCall → List Node) : ∀ nodes : List Node,
    calls (substituteAll f nodes) = (calls nodes).flatMap fun c => calls (f c)
  | [] => rfl
  | node :: rest => by
    rw [substituteAll, calls_append, calls_substitute f node, calls_substituteAll f rest, calls_cons node rest,
      List.flatMap_append, calls_singleton]

end

mutual

theorem substitute_congr : ∀ node : Node, (∀ c ∈ calls [node], f c = g c) →
    node.substitute f = node.substitute g
  | .rule selector nodes source, h => by
    rw [calls_rule] at h
    rw [substitute, substitute, substituteAll_congr nodes h]
  | .atBlock name params nodes source, h => by
    rw [calls_atBlock] at h
    rw [substitute, substitute, substituteAll_congr nodes h]
  | .atStatement name params source, _ => rfl
  | .declaration prop value source, _ => rfl
  | .comment text source, _ => rfl
  | .call c, h => h c List.mem_cons_self

/-- Only what the calls among statements give way to matters. -/
theorem substituteAll_congr : ∀ nodes : List Node, (∀ c ∈ calls nodes, f c = g c) →
    substituteAll f nodes = substituteAll g nodes
  | [], _ => rfl
  | node :: rest, h => by
    rw [calls_cons, ← calls_singleton] at h
    rw [substituteAll, substituteAll, substitute_congr node fun c hc => h c (List.mem_append_left _ hc),
      substituteAll_congr rest fun c hc => h c (List.mem_append_right _ hc)]

end

mutual

theorem substitute_of_calls : ∀ node : Node, calls [node] = [] → node.substitute f = [node]
  | .rule selector nodes source, h => by
    rw [calls_rule] at h
    rw [substitute, substituteAll_of_calls nodes h]
  | .atBlock name params nodes source, h => by
    rw [calls_atBlock] at h
    rw [substitute, substituteAll_of_calls nodes h]
  | .atStatement name params source, _ => rfl
  | .declaration prop value source, _ => rfl
  | .comment text source, _ => rfl
  | .call c, h => nomatch h

/-- Statements without calls stay as they are. -/
theorem substituteAll_of_calls : ∀ nodes : List Node, calls nodes = [] → substituteAll f nodes = nodes
  | [], _ => rfl
  | node :: rest, h => by
    rw [calls_cons, ← calls_singleton, List.append_eq_nil_iff] at h
    rw [substituteAll, substitute_of_calls node h.1, substituteAll_of_calls rest h.2, List.singleton_append]

end

end Substitution

end Mixsheet.Node
