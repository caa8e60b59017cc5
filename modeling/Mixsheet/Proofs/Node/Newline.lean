import Mixsheet.Proofs.Node.Parens

/-! # Calls with a line feed in their parentheses

A line feed behind the `(` keeps the parentheses of a call from being one token, so the call is scanned
and not cut at its characters. A plain call has the same arguments either way. -/

namespace Mixsheet

open Token Text Lexeme

namespace Grouped

/-- The text between the parentheses is blank, or its parts are plain pieces that are aligned if one of
them has a key. -/
def PlainCall (cs : List Char) : Prop :=
  Blank cs ∨ ∃ pieces, PlainParts cs pieces ∧ (pieces.any Piece.isPair = true → Piece.Aligned pieces)

/-- The tokens of a plain call behind a line feed are scanned as what the call is cut into. -/
theorem PlainCall.exists_tokens {cs : List Char} (h : PlainCall cs) : ∃ ts, Spells Stops ts ('\n' :: cs) ∧
    Scan.arguments ts = Piece.arguments ((pieces cs).any Piece.isPair) (pieces cs) := by
  rcases h with hblank | ⟨ps, hplain, haligned⟩
  · have hline : Blank ('\n' :: cs) := List.forall_mem_cons.mpr ⟨by decide, hblank⟩
    refine ⟨spaces ('\n' :: cs), (spells_spaces hline).mono fun k hk => hk.2, ?_⟩
    rw [Scan.arguments, (gap_spaces _).argumentsFrom_nil, pieces_of_blank hblank]
    rfl
  · obtain ⟨parts, hparts, hbetween, hps⟩ := hplain
    have hfeed : Blank ['\n'] := List.forall_mem_singleton.mpr (by decide)
    have hline : PlainParts ('\n' :: cs) ps := ⟨parts, hparts, hbetween.spaced hfeed, hps⟩
    obtain ⟨ts, hspells, hts⟩ := hline.exists_parts
    have hfree : Scan.CommaFree ts := (hspells.reads false [] ⟨trivial, by simp⟩).commaFree
    have hpieces : pieces cs = ps := PlainParts.pieces_eq ⟨parts, hparts, hbetween, hps⟩
    refine ⟨ts, hspells, ?_⟩
    rw [Scan.arguments_of_pieces hts hfree, Piece.arguments_scanned haligned, hpieces]

end Grouped

namespace Lexeme

/-- Only what holds no parenthesis and nothing that could hide one is one token with its parentheses. -/
theorem groups_of_splitBrackets? {u : Bool} {cs : List Char}
    (h : splitBrackets? u (cs ++ [')']) = some (cs ++ [')'], [])) : ')' ∉ cs ∧ groups u cs = true := by
  have hmem : ')' ∉ cs := by
    intro hmem
    obtain ⟨as, bs, rfl, has⟩ := List.eq_append_cons_of_mem hmem
    rw [List.append_assoc, List.cons_append, splitBrackets?_append_cons has] at h
    split at h
    · obtain ⟨-, hrest⟩ := Prod.mk.inj (Option.some.inj h)
      simp at hrest
    · cases h
  rw [splitBrackets?_append_cons hmem] at h
  split at h
  · rename_i hgroups
    exact ⟨hmem, hgroups⟩
  · cases h

end Lexeme

/-! ### The two calls -/

/-- The text `name(inner)` is a word, which is not `url`, and one token in parentheses. -/
def IsGroupedCall (name inner : String) : Prop :=
  ∃ ts word group, Token.ofText (name ++ "(" ++ inner ++ ")") = .ok ts ∧ content ts = [word, group] ∧
    word.kind = .word ∧ word.text = name ∧ word.isUrl = false ∧ group.kind = .brackets

/-- What the tokens of such a call are. -/
structure GroupedCall (inner : List Char) (word group : Token) : Prop where
  reads : Reads false [word, group] []
  word_kind : word.kind = .word
  url : word.isUrl = false
  group_kind : group.kind = .brackets
  text : group.text.toList = '(' :: (inner ++ [')'])

theorem IsGroupedCall.exists_tokens {name inner : String} (h : IsGroupedCall name inner) :
    ∃ word group, GroupedCall inner.toList word group ∧ word.text = name := by
  obtain ⟨ts, word, group, hts, hcontent, hkind, rfl, hurl, hgroup⟩ := h
  obtain ⟨hreads, hchars⟩ := reads_of_ofText hts
  rw [hcontent] at hreads hchars
  refine ⟨word, group, ⟨hreads, hkind, hurl, hgroup, ?_⟩, rfl⟩
  simpa using hchars

namespace GroupedCall

variable {inner : List Char} {word group : Token}

theorem groups (h : GroupedCall inner word group) : ')' ∉ inner ∧ Lexeme.groups false inner = true := by
  obtain ⟨c, cs, l, hreading, hkind, htext, hrest⟩ := h.reads.2.1
  obtain ⟨rfl, hsplit⟩ := hreading.brackets_inv (hkind.trans h.group_kind)
  have hbody : l.body = inner ++ [')'] := by simpa [h.text] using htext.symm
  have hcs := hreading.append
  rw [hbody, hrest] at hsplit hcs
  simp only [chars_nil, List.append_nil] at hsplit hcs
  rw [← hcs, h.url] at hsplit
  exact groups_of_splitBrackets? hsplit

theorem reads_semicolon (h : GroupedCall inner word group) (k : List Char) :
    Reads false (word :: [group] ++ [Node.semicolonToken]) k := by
  have hbefore : Before [word, group] (';' :: k) := by
    refine ⟨?_, ?_, .inl ⟨?_, ?_, trivial⟩⟩ <;> simp [h.word_kind, h.group_kind]
  refine Reads.append.mpr ⟨h.reads.change ?_, Node.readAs_punctuation rfl _ _, trivial⟩
  simpa using hbefore

theorem ofTokens_eq (h : GroupedCall inner word group) : Argument.ofTokens [group] =
    Piece.arguments ((Grouped.pieces inner).any Piece.isPair) (Grouped.pieces inner) :=
  Argument.ofTokens_group h.group_kind h.text

/-- A line feed keeps the parentheses from being one token. -/
theorem reads_newline (h : GroupedCall inner word group) {ts : List Token}
    (hspells : Grouped.Spells Grouped.Stops ts ('\n' :: inner)) (k : List Char) :
    Reads false (word :: (openToken :: (ts ++ [closeToken])) ++ [Node.semicolonToken]) k := by
  have hparen : ')' ∉ '\n' :: inner := by simpa using h.groups.1
  have hgroups : Lexeme.groups word.isUrl ('\n' :: inner) = false := by
    rw [h.url]
    simp [Lexeme.groups, ungroupable]
  exact (wordOf_of_readAs h.reads.1 h.word_kind).reads_tokens hparen hgroups hspells k

end GroupedCall

/-- A plain call has the same arguments with a line feed behind its `(` as without. -/
theorem Stylesheet.readsAsCall_newline {name inner : String} (h : IsGroupedCall name inner)
    (hplain : Grouped.PlainCall inner.toList) :
    ∃ arguments, ReadsAsCall (name ++ "(" ++ inner ++ ");") name arguments ∧
      ReadsAsCall (name ++ "(\n" ++ inner ++ ");") name arguments := by
  obtain ⟨word, group, hcall, rfl⟩ := h.exists_tokens
  obtain ⟨ts, hspells, hscan⟩ := hplain.exists_tokens
  have hgrouped := (Node.callTokens_brackets hcall.word_kind hcall.group_kind).readsAsCall hcall.reads_semicolon
    blank_nil blank_nil
  have hline := (callTokens_of_spells hcall.word_kind hspells).readsAsCall (hcall.reads_newline hspells) blank_nil
    blank_nil
  rw [hcall.ofTokens_eq] at hgrouped
  rw [Argument.ofTokens_parens rfl rfl, hscan] at hline
  have htext : .ofList ([] ++ (chars [word, group] ++ [';'])) = word.text ++ "(" ++ inner ++ ");" := by
    apply String.toList_injective
    simp [hcall.text]
  have htext' : .ofList ([] ++ (chars (word :: openToken :: (ts ++ [closeToken])) ++ [';'])) =
      word.text ++ "(\n" ++ inner ++ ");" := by
    apply String.toList_injective
    simp [hspells.chars, openToken, closeToken]
  rw [htext] at hgrouped
  rw [htext'] at hline
  exact ⟨_, hgrouped, hline⟩

/-- A keyed call with a list. -/
theorem Stylesheet.readsAsCall_newline_of_list : IsGroupedCall "grid" "a: b, c: [d, e]" ∧
    Grouped.PlainCall "a: b, c: [d, e]".toList ∧
    ∃ arguments, ReadsAsCall ("grid" ++ "(" ++ "a: b, c: [d, e]" ++ ");") "grid" arguments ∧
      ReadsAsCall ("grid" ++ "(\n" ++ "a: b, c: [d, e]" ++ ");") "grid" arguments := by
  have hcall : IsGroupedCall "grid" "a: b, c: [d, e]" := by
    refine ⟨[⟨.word, "grid", 0, 4, ⟨1, 1⟩⟩, ⟨.brackets, "(a: b, c: [d, e])", 4, 21, ⟨1, 5⟩⟩,
      ⟨.eof, "", 21, 21, ⟨1, 22⟩⟩], _, _, ?_, rfl, rfl, rfl, rfl, rfl⟩
    decide +kernel
  have hword : ∀ c : Char, Inert c ∧ c ≠ '/' → Grouped.IsWord [c] := fun c hc =>
    ⟨List.cons_ne_nil _ _, List.forall_mem_singleton.mpr hc⟩
  have ha : Grouped.IsWord ['a'] := hword _ ⟨⟨by decide, rfl, by decide, rfl⟩, by decide⟩
  have hb : Grouped.IsWord ['b'] := hword _ ⟨⟨by decide, rfl, by decide, rfl⟩, by decide⟩
  have hc : Grouped.IsWord ['c'] := hword _ ⟨⟨by decide, rfl, by decide, rfl⟩, by decide⟩
  have hd : Grouped.IsWord ['d'] := hword _ ⟨⟨by decide, rfl, by decide, rfl⟩, by decide⟩
  have he : Grouped.IsWord ['e'] := hword _ ⟨⟨by decide, rfl, by decide, rfl⟩, by decide⟩
  have hlist : Grouped.Value ['[', 'd', ',', ' ', 'e', ']'] (.list [.text "d", .text "e"]) :=
    @Grouped.Value.list ['d', ',', ' ', 'e'] [(['d'], .text "d"), (['e'], .text "e")]
      (List.forall_mem_cons.mpr ⟨.word hd, List.forall_mem_singleton.mpr (.word he)⟩)
      (@Grouped.Between.more ['d'] [] [] [' ', 'e'] _ blank_nil blank_nil (.one blank_space blank_nil))
  have hfirst : Grouped.PlainPiece ['a', ':', ' ', 'b'] (.pair "a" (.text "b")) :=
    @Grouped.PlainPiece.entry ['a'] [] [] ['b'] _ ha blank_nil blank_nil (.word hb)
  have hsecond : Grouped.PlainPiece ['c', ':', ' ', '[', 'd', ',', ' ', 'e', ']']
      (.pair "c" (.list [.text "d", .text "e"])) :=
    @Grouped.PlainPiece.entry ['c'] [] [] _ _ hc blank_nil blank_nil hlist
  have hplain : Grouped.PlainCall "a: b, c: [d, e]".toList :=
    .inr ⟨_, ⟨[(_, _), (_, _)], List.forall_mem_cons.mpr ⟨hfirst, List.forall_mem_singleton.mpr hsecond⟩,
      @Grouped.Between.more _ [] [] (' ' :: ['c', ':', ' ', '[', 'd', ',', ' ', 'e', ']']) _ blank_nil blank_nil
        (@Grouped.Between.one _ [' '] [] blank_space blank_nil), rfl⟩, fun _ => .two rfl .nil⟩
  exact ⟨hcall, hplain, Stylesheet.readsAsCall_newline hcall hplain⟩

/-- A part of two words is not plain: the scan puts a comma between the words. -/
theorem Stylesheet.readsAsCall_newline_fails : ¬ ∀ name inner : String, IsGroupedCall name inner →
    (∀ part ∈ Grouped.splitCommas inner.toList, ¬ Blank part) →
    ∃ arguments, ReadsAsCall (name ++ "(" ++ inner ++ ");") name arguments ∧
      ReadsAsCall (name ++ "(\n" ++ inner ++ ");") name arguments := by
  intro h
  have hcall : IsGroupedCall "m" "0 1" := by
    refine ⟨[⟨.word, "m", 0, 1, ⟨1, 1⟩⟩, ⟨.brackets, "(0 1)", 1, 6, ⟨1, 2⟩⟩,
      ⟨.eof, "", 6, 6, ⟨1, 7⟩⟩], _, _, ?_, rfl, rfl, rfl, rfl, rfl⟩
    decide +kernel
  have hparts : ∀ part ∈ Grouped.splitCommas "0 1".toList, ¬ Blank part := by
    have hsplit : Grouped.splitCommas "0 1".toList = [['0', ' ', '1']] := by decide +kernel
    rw [hsplit]
    refine List.forall_mem_singleton.mpr fun hblank => ?_
    exact absurd (hblank '0' List.mem_cons_self) (by decide)
  obtain ⟨arguments, ⟨c, hc, -, hargs⟩, ⟨c', hc', -, hargs'⟩⟩ := h _ _ hcall hparts
  have htext : "m" ++ "(" ++ "0 1" ++ ");" = "m(0 1);" := by decide
  have htext' : "m" ++ "(\n" ++ "0 1" ++ ");" = "m(\n0 1);" := by decide
  have hparse : Stylesheet.parse "m(0 1);" =
      .ok ⟨[.call ⟨"m", [.text "0 1"], "", "(0 1)", ⟨⟨1, 1⟩, ⟨1, 7⟩⟩⟩]⟩ := by cbv
  have hparse' : Stylesheet.parse "m(\n0 1);" =
      .ok ⟨[.call ⟨"m", [.text "0, 1"], "", "(\n0 1)", ⟨⟨1, 1⟩, ⟨2, 5⟩⟩⟩]⟩ := by cbv
  rw [htext] at hc
  rw [htext'] at hc'
  have hnodes := congrArg Stylesheet.nodes (Except.ok.inj (hparse.symm.trans hc))
  have hnodes' := congrArg Stylesheet.nodes (Except.ok.inj (hparse'.symm.trans hc'))
  obtain rfl := Node.call.inj (List.cons.inj hnodes).1
  obtain rfl := Node.call.inj (List.cons.inj hnodes').1
  have hne := Argument.text.inj (List.cons.inj (hargs.trans hargs'.symm)).1
  exact absurd hne (by decide)

end Mixsheet
