import Mixsheet.Proofs.Node.Progress

/-! # What is read in document order

Something is written down of each statement, what its block holds between what stands before the block and
what stands behind it. Of what is read of a stylesheet, open blocks included, the same is written down in the
order of the text, and a step only writes behind what is there. -/

namespace Mixsheet.Node

/-- What is written down of a statement, and of what stands before a block and behind it. -/
structure Transcript (α : Type) where
  node : Node → List α
  header : Header → List α
  close : List α
  block : ∀ (h : Header) (nodes : List Node) (source : Source),
    node (h.node nodes source) = header h ++ nodes.flatMap node ++ close

namespace Transcript

variable {α : Type} (m : Transcript α)

/-- What is written down of the statements of the innermost block, last first, and of those before it. -/
def ofBlocks (nodes : List Node) : List OpenBlock → List α
  | [] => nodes.reverse.flatMap m.node
  | b :: bs => ofBlocks b.before bs ++ m.header b.header ++ nodes.reverse.flatMap m.node

/-- What is written down of all that is read. -/
def ofProgress (p : Progress) : List α := m.ofBlocks p.nodes p.blocks

theorem ofBlocks_cons (node : Node) (nodes : List Node) (blocks : List OpenBlock) :
    m.ofBlocks (node :: nodes) blocks = m.ofBlocks nodes blocks ++ m.node node := by
  cases blocks <;> simp [ofBlocks]

@[simp] theorem ofProgress_initial : m.ofProgress .initial = [] := rfl

@[simp] theorem ofProgress_add (p : Progress) (node : Node) : m.ofProgress (p.add node) = m.ofProgress p ++ m.node node :=
  m.ofBlocks_cons node p.nodes p.blocks

@[simp] theorem ofProgress_opened (p : Progress) (header : Header) (start brace : Position) :
    m.ofProgress (p.opened header start brace) = m.ofProgress p ++ m.header header :=
  List.append_nil _

variable {p q : Progress}

theorem ofProgress_close {position : Position} (h : p.close position = .ok q) :
    m.ofProgress q = m.ofProgress p ++ m.close := by
  obtain ⟨block, blocks, hblocks, rfl⟩ := Progress.exists_of_close h
  rw [ofProgress, ofBlocks_cons, m.block, ofProgress, hblocks, ofBlocks]
  simp only [List.append_assoc]

theorem ofProgress_finish {nodes : List Node} (h : p.finish = .ok nodes) : m.ofProgress p = nodes.flatMap m.node := by
  obtain ⟨hblocks, rfl⟩ := Progress.of_finish h
  rw [ofProgress, hblocks, ofBlocks]

/-- What each step writes behind what is there a run writes, segment after segment. `Keeps` is what is known of all
that is read. -/
theorem ofProgress_run {Keeps : Progress → Prop} {written : Segment → List α} {segments : List Segment}
    (hstep : ∀ s ∈ segments, ∀ p q, Keeps p → p.step s = .ok q →
      Keeps q ∧ m.ofProgress q = m.ofProgress p ++ written s)
    (hp : Keeps p) (hq : p.run segments = .ok q) : m.ofProgress q = m.ofProgress p ++ segments.flatMap written := by
  induction segments generalizing p with
  | nil =>
    obtain rfl := Except.ok.inj hq
    simp
  | cons s rest ih =>
    obtain ⟨r, hr, hq⟩ := Progress.exists_step hq
    obtain ⟨hkeeps, hwritten⟩ := hstep s List.mem_cons_self p r hp hr
    rw [ih (fun s hs => hstep s (List.mem_cons_of_mem _ hs)) hkeeps hq, hwritten, List.flatMap_cons, List.append_assoc]

end Transcript

end Mixsheet.Node
