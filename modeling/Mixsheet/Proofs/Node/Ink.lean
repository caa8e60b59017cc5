import Mixsheet.Node.Render
import Mixsheet.Proofs.Node.CallText
import Mixsheet.Proofs.Node.Closers
import Mixsheet.Proofs.Node.Transcript

/-! # What printing keeps

The ink of a text is its characters other than white space and semicolons. Reading cuts and trims a text at many
places, and printing puts separators of its own there, but what is cut off and put in has no ink: a stylesheet has
the ink of the text that it was read from, and its own text has it too. -/

namespace Mixsheet

open Token Text

namespace Text

/-- A character other than white space and semicolons. -/
def isInk (c : Char) : Bool := !isBlank c && c != ';'

/-- The ink of a text. -/
def ink (cs : List Char) : List Char := cs.filter isInk

@[simp] theorem ink_append (cs ds : List Char) : ink (cs ++ ds) = ink cs ++ ink ds := List.filter_append ..

theorem Blank.ink_eq {cs : List Char} (h : Blank cs) : ink cs = [] :=
  List.filter_eq_nil_iff.mpr fun c hc => by simp [isInk, h c hc]

theorem ink_cons (c : Char) (cs : List Char) : ink (c :: cs) = if isInk c then c :: ink cs else ink cs := List.filter_cons

@[simp] theorem ink_trim (cs : List Char) : ink (trim cs) = ink cs := by
  obtain ⟨a, b, hcs, ha, hb⟩ := exists_eq_trim cs
  have := congrArg ink hcs
  rw [ink_append, ink_append, ha.ink_eq, hb.ink_eq, List.nil_append, List.append_nil] at this
  exact this.symm

@[simp] theorem ink_trimmed (s : String) : ink (trimmed s).toList = ink s.toList := by
  rw [trimmed, String.toList_ofList, ink_trim]

end Text

theorem Token.ReadAs.ink_eq {u : Bool} {t : Token} {k : List Char} (h : ReadAs u t k) (c : Char)
    (hc : Lexeme.punctuation? c = some t.kind) : ink t.text.toList = ink [c] :=
  congrArg ink (h.punctuation hc)

/-! ### The ink of segments -/

/-- The ink of what ends a head. -/
def Ending.ink : Ending → List Char
  | .block _ => ['\x7b']
  | .semicolon _ | .last => []

namespace Segment

/-- The ink of the tokens of a segment. -/
def ink : Segment → List Char
  | .space _ | .semicolon => []
  | .comment t => Text.ink t.text.toList
  | .close _ => ['\x7d']
  | .atRule word params ending => Text.ink (chars (word :: params)) ++ ending.ink
  | .statement _ head ending => Text.ink (chars head) ++ ending.ink

theorem Single.ink_eq {u : Bool} {t : Token} {k : List Char} {s : Segment} (h : Single t s) (hread : ReadAs u t k) :
    s.ink = Text.ink t.text.toList := by
  cases h with
  | space kind => exact (hread.blank kind).ink_eq.symm
  | semicolon kind => exact (hread.ink_eq ';' (by rw [kind]; rfl)).symm
  | comment => rfl
  | block kind => exact (hread.ink_eq '\x7b' (by rw [kind]; rfl)).symm
  | close kind => exact (hread.ink_eq '\x7d' (by rw [kind]; rfl)).symm

/-- The ink of an ending and of what stands behind it is that of the tokens they were cut from. -/
theorem ink_splitEnding {u : Bool} {ts : List Token} {k : List Char} (h : Reads u ts k) :
    (splitEnding ts).1.ink ++ Text.ink (chars (splitEnding ts).2) = Text.ink (chars ts) := by
  cases ts with
  | nil => rfl
  | cons t rest =>
    rw [splitEnding]
    split
    · rename_i hk
      rw [chars_cons, ink_append, h.1.ink_eq ';' (by rw [hk]; rfl)]
      rfl
    · rename_i hk
      rw [chars_cons, ink_append, h.1.ink_eq '\x7b' (by rw [hk]; rfl)]
      rfl
    · rfl

theorem flatMap_ink {u : Bool} {ts : List Token} {k : List Char} (h : Reads u ts k) :
    (ofTokens ts).flatMap ink = Text.ink (chars ts) := by
  induction ts using ofTokens_induction generalizing u with
  | nil => rw [ofTokens_nil]; rfl
  | one t rest hs ha ih =>
    obtain ⟨s, hsingle, hcons⟩ := exists_single hs ha
    rw [hcons, List.flatMap_cons, ih h.2, chars_cons, ink_append, hsingle.ink_eq h.1]
  | atRule t rest ht ih =>
    obtain ⟨v, hbehind⟩ := h.2.of_suffix ⟨_, splitParams_append 0 rest⟩
    obtain ⟨w, hending⟩ := hbehind.of_suffix (splitEnding_suffix _)
    rw [ofTokens_atWord ht, List.flatMap_cons, ih hending, ink, List.append_assoc, ink_splitEnding hbehind,
      ← ink_append, ← chars_append, List.cons_append, splitParams_append]
  | head t rest hs ih =>
    obtain ⟨v, hbehind⟩ := h.of_suffix ⟨_, splitHead_append [] (t :: rest)⟩
    obtain ⟨w, hending⟩ := hbehind.of_suffix (splitEnding_suffix _)
    rw [ofTokens_head hs, List.flatMap_cons, ih hending, ink, List.append_assoc, ink_splitEnding hbehind,
      ← ink_append, ← chars_append, splitHead_append]

theorem blank_of_space {u : Bool} {ts : List Token} {k : List Char} (h : Reads u ts k) {text : String}
    (hmem : .space text ∈ ofTokens ts) : Blank text.toList := by
  induction ts using ofTokens_induction generalizing u with
  | nil => simp [ofTokens_nil] at hmem
  | one t rest hs ha ih =>
    obtain ⟨s, hsingle, hcons⟩ := exists_single hs ha
    rw [hcons] at hmem
    rcases List.mem_cons.mp hmem with rfl | hmem
    · cases hsingle with
      | space kind => exact h.1.blank kind
    · exact ih h.2 hmem
  | atRule t rest ht ih =>
    obtain ⟨v, hending⟩ := h.2.of_suffix (splitEnding_splitParams_suffix 0 rest)
    exact ih hending (by simpa [ofTokens_atWord ht] using hmem)
  | head t rest hs ih =>
    obtain ⟨v, hending⟩ := h.of_suffix (splitEnding_splitHead_suffix [] (t :: rest))
    exact ih hending (by simpa [ofTokens_head hs] using hmem)

end Segment

/-! ### The ink of statements -/

namespace Node

mutual

/-- The ink of a statement: that of its parts, and the characters that hold them together. -/
def ink : Node → List Char
  | .rule selector nodes _ => Text.ink selector.toList ++ '\x7b' :: inkAll nodes ++ ['\x7d']
  | .atBlock name params nodes _ => '@' :: Text.ink (name ++ params).toList ++ '\x7b' :: inkAll nodes ++ ['\x7d']
  | .atStatement name params _ => '@' :: Text.ink (name ++ params).toList
  | .declaration prop value _ => Text.ink prop.toList ++ ':' :: Text.ink value.toList
  | .comment text _ => Text.ink ("/*" ++ text ++ "*/").toList
  | .call c => Text.ink (c.before ++ c.name ++ c.written).toList

/-- The ink of the statements of a block. -/
def inkAll : List Node → List Char
  | [] => []
  | node :: rest => node.ink ++ inkAll rest

end

theorem inkAll_eq_flatMap (nodes : List Node) : inkAll nodes = nodes.flatMap ink := by
  induction nodes with
  | nil => rfl
  | cons node rest ih => rw [inkAll, ih, List.flatMap_cons]

/-- The ink of a header and its `{`. -/
def Header.ink : Header → List Char
  | .rule selector => Text.ink selector.toList ++ ['\x7b']
  | .atRule name params => '@' :: Text.ink (name ++ params).toList ++ ['\x7b']

/-- The ink of statements in document order. -/
def inked : Transcript Char where
  node := ink
  header := Header.ink
  close := ['\x7d']
  block h nodes source := by cases h <;> simp [Header.node, Header.ink, ink, inkAll_eq_flatMap]

/-! ### Reading -/

theorem toList_join (ts : List Token) : (join ts).toList = chars ts := String.toList_ofList

theorem ink_trimmedText (ts : List Token) : Text.ink (trimmedText ts).toList = Text.ink (chars ts) := by
  rw [trimmedText, ink_trimmed, toList_join]

/-- The text of an at-rule whose word has one `@` is its name behind that. -/
theorem toList_atName {u : Bool} {word : Token} {k : List Char} (h : ReadAs u word k) (hkind : word.kind = .atWord)
    (hone : ¬ ['@', '@'] <+: word.text.toList) : '@' :: (atName word).toList = word.text.toList := by
  obtain ⟨c, cs, l, hr, hl, htext, -⟩ := h
  obtain ⟨rfl, -⟩ := hr.atWord_inv (hl.trans hkind)
  rw [htext] at hone
  have hbody : l.body.dropWhile (· == '@') = l.body := by
    cases hb : l.body with
    | nil => rfl
    | cons d ds =>
      refine List.dropWhile_cons_of_neg fun hd => hone ?_
      rw [hb, eq_of_beq hd]
      exact ⟨ds, rfl⟩
  rw [atName, htext, List.dropWhile_cons_of_pos rfl, hbody, String.toList_ofList]

theorem ink_declaration {u : Bool} {ts : List Token} {k : List Char} (h : Reads u ts k) (hcolon : hasColon ts = true)
    {start : Position} {prop value : String} {source : Source}
    (hd : declarationOf start ts = .ok (.declaration prop value source)) :
    (Node.declaration prop value source).ink = Text.ink (chars ts) := by
  obtain ⟨before, c, after, rfl, -, hc, -, rfl, rfl⟩ := exists_parts hcolon hd
  obtain ⟨-, hcolon, -⟩ := Reads.append.mp h
  rw [ink, ink_trimmedText, ink_trimmedText, chars_append, chars_cons, ink_append, ink_append,
    hcolon.ink_eq ':' (by rw [hc]; rfl)]
  rfl

/-- The token is no comment, and no word with a second `@`. -/
def Plain (t : Token) : Prop := t.kind ≠ .comment ∧ (t.kind = .atWord → ¬ ['@', '@'] <+: t.text.toList)

theorem ink_declared {head : List Token} {ending : Ending} {start : Position} {prop value : String} {source : Source}
    (hs : (Segment.statement start head ending).Read) (hplain : ∀ t ∈ head, Plain t)
    (hd : Progress.Declares start head ending (.declaration prop value source)) :
    (Node.declaration prop value source).ink = (Segment.statement start head ending).ink := by
  obtain ⟨us, k, hhead, htrivia, hreads, -, -, hcolon⟩ := hd.read hs
  obtain ⟨hdeclared, hbehind⟩ := Reads.append.mp hreads
  -- what is cut off behind a declaration would be lost if it were not white space
  have hspaces : Spaces us := by
    intro t ht
    have hmem : t ∈ head := hhead ▸ List.mem_append_right _ ht
    exact (isTrivia_iff.mp (htrivia t ht)).resolve_right (hplain t hmem).1
  have hending : ending.ink = [] := by
    cases ending with
    | block brace => exact absurd rfl (hd.not_block brace)
    | semicolon | last => rfl
  have hink : Text.ink (chars head) = Text.ink (chars (Progress.declared head ending)) := by
    have := congrArg (Text.ink ∘ chars) hhead
    simpa [(hbehind.blank hspaces).ink_eq] using this
  rw [ink_declaration hdeclared hcolon hd.node_eq, Segment.ink, hending, hink, List.append_nil]

theorem ink_called {spaces : String} {head : List Token} {ending : Ending} {start : Position} {c : MixinCall}
    (hspaces : Blank spaces.toList) (hc : Progress.Calls spaces start head ending c) :
    (Node.call c).ink = (Segment.statement start head ending).ink := by
  obtain ⟨before, name, rest, stop, rfl, rfl, -, -, rfl⟩ := hc.exists_name
  simp [ink, Segment.ink, Ending.ink, toList_join, hspaces.ink_eq]

theorem ink_atRule {word : Token} {params : List Token} {ending : Ending}
    (hs : (Segment.atRule word params ending).Read) (hplain : Plain word) :
    '@' :: Text.ink (atName word ++ trimmedText params).toList = Text.ink (chars (word :: params)) := by
  obtain ⟨hkind, -, k, hreads⟩ := hs
  rw [String.toList_append, ink_append, ink_trimmedText, chars_cons, ink_append,
    ← toList_atName hreads.1 hkind (hplain.2 hkind), ink_cons]
  rfl

/-- A step writes the ink of its segment. -/
theorem ink_step {p q : Progress} {s : Segment} (hs : s.Read) (hspace : ∀ text, s = .space text → Blank text.toList)
    (hplain : ∀ t ∈ s.tokens, Plain t) (hp : Blank p.spaces.toList) (hq : p.step s = .ok q) :
    Blank q.spaces.toList ∧ inked.ofProgress q = inked.ofProgress p ++ s.ink := by
  cases s with
  | space text =>
    obtain rfl := Except.ok.inj hq
    rw [String.toList_append]
    exact ⟨blank_append.mpr ⟨hp, hspace text rfl⟩, (List.append_nil _).symm⟩
  | semicolon =>
    obtain rfl := Except.ok.inj hq
    exact ⟨hp, (List.append_nil _).symm⟩
  | comment t => exact absurd hs.1 (hplain t (List.mem_singleton_self t)).1
  | close position =>
    refine ⟨?_, inked.ofProgress_close hq⟩
    obtain ⟨block, blocks, -, rfl⟩ := Progress.exists_of_close hq
    exact blank_nil
  | atRule word params ending =>
    obtain rfl := Except.ok.inj hq
    rw [Segment.ink, ← ink_atRule hs (hplain word List.mem_cons_self)]
    cases ending with
    | block brace => exact ⟨blank_nil, inked.ofProgress_opened p (.atRule (atName word) (trimmedText params)) _ _⟩
    | semicolon | last =>
      rw [show Ending.ink _ = [] from rfl, List.append_nil]
      exact ⟨blank_nil, inked.ofProgress_add p (.atStatement (atName word) (trimmedText params) _)⟩
  | statement start head ending =>
    rcases Progress.statement_cases hq with ⟨brace, rfl, rfl⟩ | ⟨prop, value, source, hd, rfl⟩ | ⟨c, hc, rfl⟩
    · refine ⟨blank_nil, ?_⟩
      rw [inked.ofProgress_opened, Segment.ink, ← ink_trimmedText]
      rfl
    · exact ⟨blank_nil, by rw [inked.ofProgress_add, ← ink_declared hs hplain hd]; rfl⟩
    · exact ⟨blank_nil, by rw [inked.ofProgress_add, ← ink_called hp hc]; rfl⟩

end Node

/-! ### Printing -/

/-- Nothing but white space stands before the name of a call, and something else behind it. -/
structure MixinCall.Plain (c : MixinCall) : Prop where
  before : Blank c.before.toList
  written : ¬ Blank c.written.toList

theorem MixinCall.Plain.ink_render {c : MixinCall} (h : c.Plain) : Text.ink c.render.toList = (Node.call c).ink := by
  have hwritten : trimmed c.written ≠ "" := by
    intro htrimmed
    have := congrArg String.toList htrimmed
    rw [trimmed, String.toList_ofList] at this
    exact h.written (trim_eq_nil_iff.mp this)
  rw [render, if_neg hwritten]
  simp [Node.ink, h.before.ink_eq]

namespace Node

/-- The brackets of a call stand behind its name if nothing but white space stands before that. -/
theorem Progress.Calls.plain {spaces : String} {start : Position} {head : List Token} {ending : Ending}
    {c : MixinCall} (h : Progress.Calls spaces start head ending c) (hs : (Segment.statement start head ending).Read)
    (hbefore : Blank c.before.toList) : c.Plain := by
  refine ⟨hbefore, fun hwritten => ?_⟩
  -- else all tokens but the name are white space, and there are no brackets for a call to have
  obtain ⟨before, name, rest, stop, rfl, -, -, hkind, rfl⟩ := h.exists_name
  rw [String.toList_append, toList_join] at hbefore
  rw [toList_join] at hwritten
  obtain ⟨-, -, ⟨k, hreads⟩, -⟩ := hs (by simp)
  obtain ⟨hreadsBefore, -, hreadsRest⟩ := Reads.append.mp hreads
  obtain ⟨t, ht, hbracket⟩ := hasBrackets_iff.mp h.brackets
  have hspace : t.kind = .space ∨ t.kind = .word := by
    rcases List.mem_append.mp ht with ht | ht
    · exact .inl (hreadsBefore.spaces (blank_append.mp hbefore).2 t ht)
    · rcases List.mem_cons.mp ht with rfl | ht
      · exact .inr hkind
      · exact .inl (hreadsRest.spaces hwritten t ht)
  rcases hspace with hk | hk <;> simp [hk] at hbracket

theorem ink_indent (depth : Nat) : Text.ink (indent depth).toList = [] := by
  rw [indent, String.toList_ofList]
  exact (blank_replicate _).ink_eq

theorem ink_renderAtRule (name params : String) :
    Text.ink (renderAtRule name params).toList = '@' :: Text.ink (name ++ params).toList := by
  unfold renderAtRule
  split
  · rename_i hparams
    simp +decide [hparams, ink_cons]
  · simp +decide [ink_cons]

theorem ink_renderBlock (depth : Nat) {empty : Bool} {body : String} (h : empty = true → body = "") :
    Text.ink (renderBlock depth empty body).toList = '\x7b' :: Text.ink body.toList ++ ['\x7d'] := by
  cases empty with
  | true =>
    rw [h rfl]
    simp +decide [renderBlock, ink_cons]
  | false => simp +decide [renderBlock, ink_cons, ink_indent]

theorem ink_renderBlock_all (depth : Nat) (nodes : List Node) :
    Text.ink (renderBlock depth nodes.isEmpty (renderAll (depth + 1) nodes)).toList =
      '\x7b' :: Text.ink (renderAll (depth + 1) nodes).toList ++ ['\x7d'] := by
  refine ink_renderBlock depth fun hempty => ?_
  rw [List.isEmpty_iff.mp hempty]
  rfl

mutual

theorem ink_render : ∀ (depth : Nat) (node : Node), (∀ c ∈ calls [node], c.Plain) →
    Text.ink (node.render depth).toList = node.ink
  | depth, .rule selector nodes source, h => by
    have hnodes := ink_renderAll (depth + 1) nodes (calls_rule selector nodes source ▸ h)
    simp +decide [render, ink, ink_cons, ink_indent, ink_renderBlock_all, hnodes]
  | depth, .atBlock name params nodes source, h => by
    have hnodes := ink_renderAll (depth + 1) nodes (calls_atBlock name params nodes source ▸ h)
    simp +decide [render, ink, ink_cons, ink_indent, ink_renderAtRule, ink_renderBlock_all, hnodes]
  | depth, .atStatement name params source, _ => by
    simp +decide [render, ink, ink_cons, ink_indent, ink_renderAtRule]
  | depth, .declaration prop value source, _ => by
    simp +decide [render, ink, ink_cons, ink_indent]
  | depth, .comment text source, _ => by
    simp +decide [render, ink, ink_cons, ink_indent]
  | depth, .call c, h => by
    have hcall := (h c List.mem_cons_self).ink_render
    simp +decide [render, ink_cons, ink_indent, hcall]

theorem ink_renderAll : ∀ (depth : Nat) (nodes : List Node), (∀ c ∈ calls nodes, c.Plain) →
    Text.ink (renderAll depth nodes).toList = inkAll nodes
  | depth, [], _ => rfl
  | depth, node :: rest, h => by
    rw [calls_cons, ← calls_singleton] at h
    obtain ⟨hnode, hrest⟩ := List.forall_mem_append.mp h
    rw [renderAll, String.toList_append, ink_append, ink_render depth node hnode, ink_renderAll depth rest hrest, inkAll]

end

theorem ink_intercalate (nodes : List Node) (h : ∀ c ∈ calls nodes, c.Plain) :
    Text.ink ("\n".intercalate (nodes.map (render 0))).toList = inkAll nodes := by
  induction nodes with
  | nil => rfl
  | cons node rest ih =>
    rw [calls_cons, ← calls_singleton] at h
    obtain ⟨hnode, hrest⟩ := List.forall_mem_append.mp h
    have hnode := ink_render 0 node hnode
    cases rest with
    | nil => simp [String.intercalate_singleton, hnode, inkAll]
    | cons next rest =>
      have hnext := ih hrest
      rw [List.map_cons, List.map_cons, String.intercalate_cons_cons, ← List.map_cons, String.toList_append,
        String.toList_append, ink_append, ink_append, hnode, hnext]
      simp +decide [ink_cons, inkAll]

end Node

/-- Printing loses and invents nothing but white space and semicolons: the text of a stylesheet has the ink of the
text that it was read from, if that has no comment and no word with a second `@` and nothing but white space stands
before the name of a mixin call. -/
theorem Stylesheet.render_keeps_ink {s : String} {sheet : Stylesheet} {ts : List Token} (h : Stylesheet.parse s = .ok sheet)
    (hts : Token.ofText s = .ok ts) (hcomment : ∀ t ∈ ts, t.kind ≠ .comment)
    (hat : ∀ t ∈ ts, t.kind = .atWord → ¬ ['@', '@'] <+: t.text.toList)
    (hcalls : ∀ c ∈ Node.calls sheet.nodes, Blank c.before.toList) :
    Text.ink sheet.render.toList = Text.ink s.toList := by
  obtain ⟨hreads, hchars⟩ := reads_of_ofText hts
  obtain ⟨p, hp, hfinish⟩ := bind_eq_ok_iff.mp (Node.ofTokens_of_parse h hts)
  have hplain : ∀ segment ∈ Segment.ofTokens (content ts), ∀ t ∈ segment.tokens, Node.Plain t := by
    intro segment hsegment t ht
    have hmem : t ∈ ts := (List.takeWhile_sublist _).subset
      ((Segment.flatMap_tokens_sublist _).subset (List.mem_flatMap.mpr ⟨segment, hsegment, ht⟩))
    exact ⟨hcomment t hmem, hat t hmem⟩
  have hread := Segment.read_of_reads hreads
  -- what is kept of all that is read: what stands before the next call is white space
  have hstep : ∀ segment ∈ Segment.ofTokens (content ts), ∀ p q : Node.Progress, Blank p.spaces.toList →
      p.step segment = .ok q →
        Blank q.spaces.toList ∧ Node.inked.ofProgress q = Node.inked.ofProgress p ++ segment.ink :=
    fun segment hs p q hp hq => Node.ink_step (hread segment hs)
      (fun text htext => Segment.blank_of_space hreads (htext ▸ hs)) (hplain segment hs) hp hq
  have hinitial : Blank Node.Progress.initial.spaces.toList := blank_nil
  have hrun := Node.inked.ofProgress_run hstep hinitial hp
  rw [Node.inked.ofProgress_initial, List.nil_append, Segment.flatMap_ink hreads, hchars,
    Node.inked.ofProgress_finish hfinish] at hrun
  have hcallsPlain := Node.forall_calls_of_parse h fun hs hc => hc.plain hs
  rw [render, Node.ink_intercalate sheet.nodes fun c hc => hcallsPlain c hc (hcalls c hc), Node.inkAll_eq_flatMap]
  exact hrun

/-- Semicolons after an at-rule and white space in a call, which printing leaves out or keeps. -/
theorem Stylesheet.render_keeps_ink_of_rule : ∃ sheet ts,
    Stylesheet.parse "@a;;b\x7bc ( d,e );f:g\x7d" = .ok sheet ∧ Token.ofText "@a;;b\x7bc ( d,e );f:g\x7d" = .ok ts ∧
    (∀ t ∈ ts, t.kind ≠ .comment) ∧ (∀ t ∈ ts, t.kind = .atWord → ¬ ['@', '@'] <+: t.text.toList) ∧
    (∀ c ∈ Node.calls sheet.nodes, Blank c.before.toList) ∧
    sheet.render = "@a;\n\nb \x7b\n  c( d,e );\n  f: g;\n\x7d\n" ∧
    Text.ink sheet.render.toList = Text.ink "@a;;b\x7bc ( d,e );f:g\x7d".toList := by
  have h : Stylesheet.parse "@a;;b\x7bc ( d,e );f:g\x7d" = .ok ⟨[.atStatement "a" "" ⟨⟨1, 1⟩, ⟨1, 1⟩⟩,
      .rule "b" [.call ⟨"c", [.text "d", .text "e"], "", " ( d,e )", ⟨⟨1, 7⟩, ⟨1, 16⟩⟩⟩,
        .declaration "f" "g" ⟨⟨1, 17⟩, ⟨1, 19⟩⟩] ⟨⟨1, 5⟩, ⟨1, 20⟩⟩]⟩ := by cbv
  have hts : ∃ ts, Token.ofText "@a;;b\x7bc ( d,e );f:g\x7d" = .ok ts ∧ (∀ t ∈ ts, t.kind ≠ .comment) ∧
      ∀ t ∈ ts, t.kind = .atWord → ¬ ['@', '@'] <+: t.text.toList :=
    ⟨[⟨.atWord, "@a", 0, 2, ⟨1, 1⟩⟩, ⟨.semicolon, ";", 2, 3, ⟨1, 3⟩⟩, ⟨.semicolon, ";", 3, 4, ⟨1, 4⟩⟩,
      ⟨.word, "b", 4, 5, ⟨1, 5⟩⟩, ⟨.leftBrace, "\x7b", 5, 6, ⟨1, 6⟩⟩, ⟨.word, "c", 6, 7, ⟨1, 7⟩⟩,
      ⟨.space, " ", 7, 8, ⟨1, 8⟩⟩, ⟨.brackets, "( d,e )", 8, 15, ⟨1, 9⟩⟩, ⟨.semicolon, ";", 15, 16, ⟨1, 16⟩⟩,
      ⟨.word, "f", 16, 17, ⟨1, 17⟩⟩, ⟨.colon, ":", 17, 18, ⟨1, 18⟩⟩, ⟨.word, "g", 18, 19, ⟨1, 19⟩⟩,
      ⟨.rightBrace, "\x7d", 19, 20, ⟨1, 20⟩⟩, ⟨.eof, "", 20, 20, ⟨1, 21⟩⟩],
      by decide +kernel, by decide, by decide⟩
  obtain ⟨ts, hts, hcomment, hat⟩ := hts
  have hcalls : ∀ c ∈ Node.calls [.atStatement "a" "" ⟨⟨1, 1⟩, ⟨1, 1⟩⟩,
      .rule "b" [.call ⟨"c", [.text "d", .text "e"], "", " ( d,e )", ⟨⟨1, 7⟩, ⟨1, 16⟩⟩⟩,
        .declaration "f" "g" ⟨⟨1, 17⟩, ⟨1, 19⟩⟩] ⟨⟨1, 5⟩, ⟨1, 20⟩⟩], Blank c.before.toList := by
    intro c hc
    obtain rfl := List.mem_singleton.mp hc
    exact blank_nil
  exact ⟨_, ts, h, hts, hcomment, hat, hcalls, by decide, Stylesheet.render_keeps_ink h hts hcomment hat hcalls⟩

end Mixsheet
