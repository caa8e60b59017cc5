import Mixsheet.Proofs.Node.RoundTrip
import Mixsheet.Proofs.Node.Body
import Mixsheet.Proofs.Node.Transcript
import Mixsheet.Proofs.Token.Partition

/-! # Where mixin calls stand

A mixin call has the position of the token that is its name, and it was read of that token. The tokens of a text
come later and later in it, so the calls of a stylesheet, in document order, do too, however deep in blocks they
stand and whatever stands before their names. -/

namespace Mixsheet

open Token

/-! ### The order of positions -/

namespace Position

/-- The position is on an earlier line, or further to the left on the same line. -/
def Precedes (p q : Position) : Prop := p.line < q.line ∨ p.line = q.line ∧ p.column < q.column

theorem Precedes.trans {p q r : Position} (h : p.Precedes q) (h' : q.Precedes r) : p.Precedes r := by
  unfold Precedes at *
  omega

theorem precedes_next (p : Position) (c : Char) : p.Precedes (p.next c) := by
  unfold next Precedes
  split
  · exact .inl (Nat.lt_succ_self _)
  · exact .inr ⟨rfl, Nat.lt_succ_self _⟩

/-- Behind a text one is at a later place. -/
theorem precedes_after (p : Position) {cs : List Char} (h : cs ≠ []) : p.Precedes (p.after cs) := by
  induction cs generalizing p with
  | nil => exact absurd rfl h
  | cons c cs ih =>
    rw [after_cons]
    by_cases hcs : cs = []
    · rw [hcs, after_nil]
      exact p.precedes_next c
    · exact (p.precedes_next c).trans (ih _ hcs)

end Position

namespace Token.Run

variable {before : List Char} {ts : List Token}

theorem exists_position (h : Run before ts) {t : Token} (ht : t ∈ ts) :
    ∃ cs, t.position = .after .first (before ++ cs) := by
  induction h with
  | eof before =>
    obtain rfl := List.mem_singleton.mp ht
    exact ⟨[], by rw [List.append_nil]⟩
  | cons kind text start stop position rest ih =>
    rcases List.mem_cons.mp ht with rfl | ht
    · exact ⟨[], by rw [List.append_nil, position]⟩
    · obtain ⟨cs, hcs⟩ := ih ht
      exact ⟨_, by rw [hcs, List.append_assoc]⟩

/-- Every token of a run stands before those behind it. -/
theorem pairwise_precedes (h : Run before ts) : ts.Pairwise fun t u => t.position.Precedes u.position := by
  induction h with
  | eof before => exact List.pairwise_singleton _ _
  | @cons before t ts kind text start stop position rest ih =>
    refine List.pairwise_cons.mpr ⟨fun u hu => ?_, ih⟩
    obtain ⟨cs, hcs⟩ := rest.exists_position hu
    have hne : t.text.toList ++ cs ≠ [] := by simp [text]
    have := t.position.precedes_after hne
    rwa [position, ← Position.after_append, ← List.append_assoc, ← hcs, ← position] at this

end Token.Run

/-! ### Names of calls -/

namespace Segment

/-- The token of the name of the mixin call that a segment is. -/
def callName : Segment → List Token
  | .statement _ head (.semicolon _) =>
    if Node.hasColon head then [] else (head.dropWhile (·.kind != .word)).take 1
  | _ => []

theorem callName_sublist (s : Segment) : s.callName.Sublist s.tokens := by
  unfold callName
  split
  · split
    · exact List.nil_sublist _
    · exact (List.take_sublist _ _).trans (List.dropWhile_sublist _)
  · exact List.nil_sublist _

theorem flatMap_callName_sublist (ts : List Token) : ((ofTokens ts).flatMap callName).Sublist ts :=
  (List.Sublist.flatMap_right _ fun s _ => s.callName_sublist).trans (flatMap_tokens_sublist ts)

end Segment

/-- The name of a call, and where it stands. -/
def MixinCall.place (c : MixinCall) : String × Position := (c.name, c.source.start)

/-- The text of a token with its place. -/
def Token.place (t : Token) : String × Position := (t.text, t.position)

namespace Node

theorem calls_eq_flatMap (nodes : List Node) : calls nodes = nodes.flatMap fun node => calls [node] := by
  induction nodes with
  | nil => rfl
  | cons node rest ih => rw [calls_cons, List.flatMap_cons, ih, calls_singleton]

/-- The names of mixin calls, each with its place. -/
def called : Transcript (String × Position) where
  node n := (calls [n]).map MixinCall.place
  header _ := []
  close := []
  block h nodes source := by cases h <;> simp [Header.node, calls_eq_flatMap nodes, List.map_flatMap]

/-- A step that reads a call writes down the place of its name. -/
theorem called_step {p q : Progress} {s : Segment} (h : p.step s = .ok q) :
    called.ofProgress q = called.ofProgress p ++ s.callName.map Token.place := by
  cases s with
  | space | semicolon =>
    obtain rfl := Except.ok.inj h
    exact (List.append_nil _).symm
  | comment t =>
    obtain rfl := Except.ok.inj h
    exact called.ofProgress_add p _
  | close position => exact called.ofProgress_close h
  | atRule word params ending =>
    obtain rfl := Except.ok.inj h
    cases ending with
    | block brace => exact called.ofProgress_opened p _ _ _
    | semicolon | last => exact called.ofProgress_add p _
  | statement start head ending =>
    rcases Progress.statement_cases h with ⟨brace, rfl, rfl⟩ | ⟨prop, value, source, hd, rfl⟩ | ⟨c, hc, rfl⟩
    · exact called.ofProgress_opened p _ _ _
    · -- a declaration has a colon
      have hname : (Segment.statement start head ending).callName = [] := by
        cases ending with
        | semicolon stop => exact if_pos hd.colon
        | block | last => rfl
      rw [hname]
      exact called.ofProgress_add p _
    · obtain ⟨before, name, rest, stop, rfl, rfl, hfirst, hkind, rfl⟩ := hc.exists_name
      have hname : (Segment.statement start (before ++ name :: rest) (.semicolon stop)).callName = [name] := by
        rw [Segment.callName, hc.colon, List.dropWhile_append_of_pos fun t ht => by simpa using hfirst t ht,
          List.dropWhile_cons_of_neg (by simp [hkind])]
        rfl
      rw [hname]
      exact called.ofProgress_add p _

/-- The calls of a stylesheet have the places of tokens of its text, one after the other. -/
theorem calls_sublist_of_parse {s : String} {sheet : Stylesheet} {ts : List Token} (h : Stylesheet.parse s = .ok sheet)
    (hts : Token.ofText s = .ok ts) :
    ((calls sheet.nodes).map MixinCall.place).Sublist ((content ts).map Token.place) := by
  obtain ⟨p, hp, hfinish⟩ := bind_eq_ok_iff.mp (ofTokens_of_parse h hts)
  have hstep : ∀ s ∈ Segment.ofTokens (content ts), ∀ p q : Progress, True → p.step s = .ok q →
      True ∧ called.ofProgress q = called.ofProgress p ++ s.callName.map Token.place :=
    fun s _ p q _ hq => ⟨trivial, called_step hq⟩
  have hrun := called.ofProgress_run hstep trivial hp
  rw [called.ofProgress_initial, List.nil_append, called.ofProgress_finish hfinish] at hrun
  rw [calls_eq_flatMap, List.map_flatMap]
  refine hrun ▸ ?_
  rw [← List.map_flatMap]
  exact (Segment.flatMap_callName_sublist _).map _

end Node
end Mixsheet
