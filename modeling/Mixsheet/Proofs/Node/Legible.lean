import Mixsheet.Proofs.Node.Leads
import Mixsheet.Proofs.Node.Statements

/-! # Statements that are read back

A statement is legible if its own line, without the statements of its block, is read as the statement
wherever it stands. A tree of legible statements is what its text is read as. -/

namespace Mixsheet.Node

open Token Text

/-- The line of a statement, without the statements of its block, is read as the statement wherever it
stands. A rule without a selector needs no line but its `{`. -/
def Legible : Node → Prop
  | .rule selector _ _ =>
    selector ≠ "" → ∀ p, Leads (selector ++ " \x7b").toList p (p.opened (.rule selector) .none .none)
  | .atBlock name params _ _ =>
    ∀ p, Leads (renderAtRule name params ++ " \x7b").toList p (p.opened (.atRule name params) .none .none)
  | .atStatement name params _ =>
    ∀ p, Leads (renderAtRule name params ++ ";").toList p (p.add (.atStatement name params .none))
  | .declaration prop value _ =>
    ∀ p, Leads (prop ++ ": " ++ value ++ ";").toList p (p.add (.declaration prop value .none))
  | .comment text _ => ∀ p, Leads ("/* " ++ text ++ " */").toList p (p.add (.comment text .none))
  | .call _ => False

/-! ### Blocks -/

namespace Progress

/-- What is read when statements follow. -/
def addAll (p : Progress) (nodes : List Node) : Progress := nodes.foldl (fun p node => p.add node.bare) p

@[simp] theorem addAll_nil (p : Progress) : p.addAll [] = p := rfl

@[simp] theorem addAll_cons (p : Progress) (node : Node) (nodes : List Node) :
    p.addAll (node :: nodes) = (p.add node.bare).addAll nodes := rfl

theorem addAll_nodes (p : Progress) (nodes : List Node) :
    (p.addAll nodes).nodes = (nodes.map Node.bare).reverse ++ p.nodes := by
  induction nodes generalizing p with
  | nil => rfl
  | cons node rest ih =>
    rw [addAll, List.foldl_cons]
    refine (ih (p.add node.bare)).trans ?_
    simp [add]

theorem addAll_blocks (p : Progress) (nodes : List Node) : (p.addAll nodes).blocks = p.blocks := by
  induction nodes generalizing p with
  | nil => rfl
  | cons node rest ih => exact ih (p.add node.bare)

/-- A `}` behind the statements of a block completes the statement that the block belongs to. -/
theorem close_addAll (p : Progress) (header : Header) (nodes : List Node) (w : List Char) :
    (((p.opened header .none .none).addAll nodes).spaced w).close .none =
      .ok (p.add (header.node (bareAll nodes) .none)) := by
  have hnodes := (p.opened header .none .none).addAll_nodes nodes
  have hblocks := (p.opened header .none .none).addAll_blocks nodes
  rw [close, spaced, hblocks]
  dsimp only
  rw [hnodes]
  simp [opened, add, bareAll_eq_map, Source.none]

end Progress

theorem blank_indent (depth : Nat) : Blank (indent depth).toList := by
  rw [indent, String.toList_ofList]
  exact blank_replicate _

theorem blank_newline_cons {w : List Char} (hw : Blank w) : Blank ('\n' :: w) :=
  List.forall_mem_cons.mpr ⟨by decide, hw⟩

/-- The text of a block behind its `{`. -/
def blockRest (depth : Nat) (nodes : List Node) : List Char :=
  if nodes.isEmpty then ['\x7d', '\n']
  else '\n' :: ((renderAll (depth + 1) nodes).toList ++ ((indent depth).toList ++ ['\x7d', '\n']))

theorem toList_renderBlock (depth : Nat) (nodes : List Node) :
    (renderBlock depth nodes.isEmpty (renderAll (depth + 1) nodes)).toList = '\x7b' :: blockRest depth nodes := by
  unfold renderBlock blockRest
  split
  · rfl
  · simp

section

variable {p : Progress} {k : List Char} {result : List Node}

/-- Statements are read behind a line feed as far as the line feed that ends them. -/
def ReadsAll (depth : Nat) (nodes : List Node) : Prop :=
  ∀ p k result, Yields (Progress.addAll p nodes) ('\n' :: k) result →
    Yields p ('\n' :: ((renderAll depth nodes).toList ++ k)) result

theorem yields_blockRest {depth : Nat} {nodes : List Node} (hnodes : ReadsAll (depth + 1) nodes)
    (header : Header) (h : Yields (p.add (header.node (bareAll nodes) .none)) ('\n' :: k) result) :
    Yields (p.opened header .none .none) (blockRest depth nodes ++ k) result := by
  unfold blockRest
  split
  · rename_i he
    obtain rfl := List.isEmpty_iff.mp he
    exact (leads_rightBrace (p.close_addAll header [] [])).yields blank_nil h
  · have hclose := leads_rightBrace (p.close_addAll header nodes ('\n' :: (indent depth).toList))
    have := hclose.yields (blank_newline_cons (blank_indent depth)) h
    have := hnodes _ _ _ this
    simpa using this

end

/-! ### Trees -/

theorem legible_of_rule {selector : String} {nodes : List Node} {source : Source}
    (h : ∀ n ∈ (rule selector nodes source).statements, n.Legible) :
    (rule selector nodes source).Legible ∧ ∀ n ∈ statementsAll nodes, n.Legible :=
  List.forall_mem_cons.mp h

theorem legible_of_atBlock {name params : String} {nodes : List Node} {source : Source}
    (h : ∀ n ∈ (atBlock name params nodes source).statements, n.Legible) :
    (atBlock name params nodes source).Legible ∧ ∀ n ∈ statementsAll nodes, n.Legible :=
  List.forall_mem_cons.mp h

theorem toList_render_rule (depth : Nat) (selector : String) (nodes : List Node) (source : Source) :
    ((rule selector nodes source).render depth).toList =
      (indent depth).toList ++ ((selector ++ " \x7b").toList ++ blockRest depth nodes) := by
  rw [render, String.toList_append, toList_renderBlock]
  simp

theorem toList_render_atBlock (depth : Nat) (name params : String) (nodes : List Node) (source : Source) :
    ((atBlock name params nodes source).render depth).toList =
      (indent depth).toList ++ ((renderAtRule name params ++ " \x7b").toList ++ blockRest depth nodes) := by
  rw [render, String.toList_append, toList_renderBlock]
  simp

section

variable {p : Progress} {k w : List Char} {result : List Node}

/-- A line with no block is read behind white space, as far as the line feed that ends it. -/
theorem yields_line (depth : Nat) {line : String} {node : Node} (hw : Blank w)
    (hline : ∀ p, Leads line.toList p (p.add node)) (h : Yields (p.add node) ('\n' :: k) result) :
    Yields p (w ++ ((indent depth ++ line ++ "\n").toList ++ k)) result := by
  have hw' : Blank (w ++ (indent depth).toList) := blank_append.mpr ⟨hw, blank_indent depth⟩
  have := (hline (p.spaced (w ++ (indent depth).toList))).yields hw' h
  simpa using this

theorem yields_block {depth : Nat} {line : String} {nodes : List Node} {header : Header} (hw : Blank w)
    (hline : ∀ p, Leads line.toList p (p.opened header .none .none)) (hnodes : ReadsAll (depth + 1) nodes)
    (h : Yields (p.add (header.node (bareAll nodes) .none)) ('\n' :: k) result) :
    Yields p (w ++ ((indent depth).toList ++ (line.toList ++ blockRest depth nodes) ++ k)) result := by
  have hw' : Blank (w ++ (indent depth).toList) := blank_append.mpr ⟨hw, blank_indent depth⟩
  have := (hline (p.spaced (w ++ (indent depth).toList))).yields hw' (yields_blockRest hnodes header h)
  simpa using this

end

mutual

/-- The text of a statement is read behind white space, as far as the line feed that ends it. -/
theorem yields_render : ∀ (node : Node) (depth : Nat), (∀ n ∈ node.statements, n.Legible) →
    ∀ (p : Progress) (w k : List Char) (result : List Node), Blank w →
      Yields (p.add node.bare) ('\n' :: k) result → Yields p (w ++ ((node.render depth).toList ++ k)) result
  | .rule selector nodes source, depth, hlegible, p, w, k, result, hw, h => by
    obtain ⟨hline, hnodes⟩ := legible_of_rule hlegible
    rw [toList_render_rule]
    by_cases hs : selector = ""
    · -- the space before the brace belongs to the white space before the statement
      subst hs
      have hw' : Blank (w ++ ((indent depth).toList ++ [' '])) :=
        blank_append.mpr ⟨hw, blank_append.mpr ⟨blank_indent depth, blank_space⟩⟩
      have hblock := yields_blockRest (yields_renderAll nodes (depth + 1) hnodes) (.rule "") h
      have := (leads_leftBrace (p.spaced (w ++ ((indent depth).toList ++ [' '])))).yields hw' hblock
      simpa using this
    · exact yields_block hw (hline hs) (yields_renderAll nodes (depth + 1) hnodes) h
  | .atBlock name params nodes source, depth, hlegible, p, w, k, result, hw, h => by
    obtain ⟨hline, hnodes⟩ := legible_of_atBlock hlegible
    rw [toList_render_atBlock]
    exact yields_block hw hline (yields_renderAll nodes (depth + 1) hnodes) h
  | .atStatement name params source, depth, hlegible, p, w, k, result, hw, h => by
    have hline : ∀ p, Leads (renderAtRule name params ++ ";").toList p (p.add (.atStatement name params .none)) :=
      hlegible _ List.mem_cons_self
    have := yields_line depth hw hline h
    simpa [render, String.append_assoc] using this
  | .declaration prop value source, depth, hlegible, p, w, k, result, hw, h => by
    have hline : ∀ p, Leads (prop ++ ": " ++ value ++ ";").toList p (p.add (.declaration prop value .none)) :=
      hlegible _ List.mem_cons_self
    have := yields_line depth hw hline h
    simpa [render, String.append_assoc] using this
  | .comment text source, depth, hlegible, p, w, k, result, hw, h => by
    have hline : ∀ p, Leads ("/* " ++ text ++ " */").toList p (p.add (.comment text .none)) :=
      hlegible _ List.mem_cons_self
    have := yields_line depth hw hline h
    simpa [render, String.append_assoc] using this
  | .call c, depth, hlegible, p, w, k, result, hw, h => (hlegible _ List.mem_cons_self).elim

/-- The text of statements is read behind a line feed. -/
theorem yields_renderAll : ∀ (nodes : List Node) (depth : Nat), (∀ n ∈ statementsAll nodes, n.Legible) →
    ReadsAll depth nodes
  | [], depth, _, p, k, result, h => h
  | node :: rest, depth, hlegible, p, k, result, h => by
    obtain ⟨hnode, hrest⟩ := List.forall_mem_append.mp hlegible
    have := yields_render node depth hnode p ['\n'] ((renderAll depth rest).toList ++ k) result
      (blank_newline_cons blank_nil) (yields_renderAll rest depth hrest (p.add node.bare) k result h)
    rw [renderAll, String.toList_append, List.append_assoc]
    exact this

end

/-! ### Stylesheets -/

/-- Statements at the top are read behind white space and to the end of the text. -/
theorem yields_intercalate {p : Progress} (hp : p.blocks = []) {nodes : List Node} (hne : nodes ≠ [])
    (h : ∀ n ∈ statementsAll nodes, n.Legible) {w : List Char} (hw : Blank w) :
    Yields p (w ++ ("\n".intercalate (nodes.map (render 0))).toList) (p.addAll nodes).nodes.reverse := by
  induction nodes generalizing p w with
  | nil => exact absurd rfl hne
  | cons node rest ih =>
    obtain ⟨hnode, hrest⟩ := List.forall_mem_append.mp h
    cases rest with
    | nil =>
      have hend : Yields (p.add node.bare) ['\n'] (p.add node.bare).nodes.reverse := by
        refine (yields_nil ?_).spaced (blank_newline_cons blank_nil) nofun
        rw [Progress.finish, Progress.spaced, Progress.add, hp]
      have := yields_render node 0 hnode p w [] _ hw hend
      simpa [String.intercalate_singleton] using this
    | cons next rest =>
      have hnext := ih (p := p.add node.bare) hp (List.cons_ne_nil _ _) hrest
        (blank_newline_cons (blank_newline_cons blank_nil))
      have := yields_render node 0 hnode p w _ _ hw hnext
      rw [List.map_cons, List.map_cons, String.intercalate_cons_cons, ← List.map_cons]
      simpa using this

theorem yields_stylesheet {sheet : Stylesheet} (h : ∀ n ∈ statementsAll sheet.nodes, n.Legible) :
    Yields .initial sheet.render.toList (sheet.nodes.map bare) := by
  by_cases hne : sheet.nodes = []
  · rw [Stylesheet.render, hne]
    exact yields_nil rfl
  · have := yields_intercalate (p := .initial) rfl hne h blank_nil
    rw [Progress.addAll_nodes] at this
    simpa [Progress.initial, Stylesheet.render] using this

/-- A text that yields statements is a stylesheet of these statements, but for their places. -/
theorem parse_of_yields {s : String} {nodes : List Node} (h : Yields .initial s.toList nodes) :
    ∃ sheet, Stylesheet.parse s = .ok sheet ∧ sheet.bare = ⟨nodes⟩ := by
  obtain ⟨ts, hchars, hreads, hrun⟩ := h
  obtain ⟨us, hus, hbare⟩ := ofText_of_reads hreads
  rw [join, hchars, String.ofList_toList] at hus
  have hparse := ofTokens_map_bare (content us)
  rw [hbare, ofTokens, Segment.ofTokens_map_bare, hrun] at hparse
  have hsheet : Stylesheet.parse s = (ofTokens (content us)).map Stylesheet.mk := by
    rw [Stylesheet.parse, hus, content]
  rw [hsheet]
  cases ho : ofTokens (content us) with
  | error e =>
    rw [ho] at hparse
    cases hparse
  | ok found =>
    rw [ho] at hparse
    exact ⟨⟨found⟩, rfl, congrArg Stylesheet.mk (Except.ok.inj hparse).symm⟩

/-- A stylesheet of legible statements is what its text is read as, but for the places. -/
theorem parse_render_of_legible {sheet : Stylesheet} (h : ∀ n ∈ statementsAll sheet.nodes, n.Legible) :
    ∃ sheet', Stylesheet.parse sheet.render = .ok sheet' ∧ sheet'.bare = sheet.bare :=
  parse_of_yields (yields_stylesheet h)

end Mixsheet.Node
