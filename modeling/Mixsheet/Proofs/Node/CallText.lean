import Mixsheet.Node.Render
import Mixsheet.Proofs.Node.Parens

/-! # The text of a mixin call that was read

A call is written as its name with the rest of its statement, trimmed, right behind. What stood before
the name is left out, and so is the white space behind it, which may have kept the name from a word or
`url` from its parenthesis. Where neither matters, the text is read as the same call. -/

namespace Mixsheet

open Token Text Lexeme

/-! ### White space at the ends -/

theorem Token.trimTrivia_between {a ts b : List Token} (ha : Spaces a) (hb : Spaces b) :
    trimTrivia (a ++ ts ++ b) = trimTrivia ts := by
  have htrivia : ∀ {us : List Token}, Spaces us → ∀ t ∈ us, isTrivia t = true :=
    fun hus t ht => isTrivia_iff.mpr (.inl (hus t ht))
  have hback : ∀ us, dropTriviaEnd (us ++ b) = dropTriviaEnd us := by
    intro us
    have hreverse : ∀ t ∈ b.reverse, isTrivia t = true := fun t ht => htrivia hb t (List.mem_reverse.mp ht)
    rw [dropTriviaEnd, List.reverse_append, List.dropWhile_append_of_pos hreverse, dropTriviaEnd]
  rw [trimTrivia, dropTrivia, List.append_assoc, List.dropWhile_append_of_pos (htrivia ha), List.dropWhile_append]
  split
  · rename_i hts
    rw [trimTrivia, dropTrivia, List.isEmpty_iff.mp hts, List.dropWhile_eq_nil_iff.mpr (htrivia hb)]
  · exact hback _

theorem Argument.ofTokens_between {a ts b : List Token} (ha : Spaces a) (hb : Spaces b) :
    ofTokens (a ++ ts ++ b) = ofTokens ts := by
  rw [ofTokens, trimTrivia_between ha hb, ofTokens]

theorem Token.Reads.spaces {u : Bool} {ts : List Token} {k : List Char} (h : Reads u ts k)
    (hblank : Blank (chars ts)) : Spaces ts := by
  intro t ht
  obtain ⟨v, r, hr⟩ := h.readAs ht
  by_contra hkind
  obtain ⟨c, cs, hc⟩ := List.exists_cons_of_ne_nil hr.toList_ne
  have hmem : c ∈ chars ts := List.mem_flatMap.mpr ⟨t, ht, hc ▸ List.mem_cons_self⟩
  have htight := (hr.tight hkind).head c (by rw [hc]; rfl)
  rw [hblank c hmem] at htight
  cases htight

namespace Node

theorem CallTokens.trimmed {name : Token} {a ts b : List Token} (h : CallTokens name (a ++ ts ++ b))
    (ha : Spaces a) (hb : Spaces b) : CallTokens name ts := by
  have hname : name.isTrivia = false := by simp [isTrivia, TokenKind.isTrivia, h.kind]
  have hsig : significant (name :: (a ++ ts ++ b)) = significant (name :: ts) := by
    rw [significant_cons hname, significant_cons hname, significant_append, significant_append,
      significant_of_spaces ha, significant_of_spaces hb, List.nil_append, List.append_nil]
  obtain ⟨out, hhead⟩ := h.head
  refine ⟨h.kind, ⟨_, Segment.head_of_whole ?_⟩, (hasColon_congr hsig).symm.trans h.colon, ?_⟩
  · exact (Segment.headAccount_skips.whole_congr hsig).mp hhead.whole.1
  · obtain ⟨t, ht, hkind⟩ := hasBrackets_iff.mp h.brackets
    have hspace : ∀ {us : List Token}, Spaces us → t ∉ us := by
      intro us hus hmem
      rw [hus t hmem] at hkind
      simp at hkind
    refine hasBrackets_iff.mpr ⟨t, ?_, hkind⟩
    simpa [hspace ha, hspace hb] using ht

/-- The first token other than white space is a string. -/
def StartsString (ts : List Token) : Prop :=
  ∃ spaces s behind, ts = spaces ++ s :: behind ∧ Spaces spaces ∧ s.kind = .string

/-- The white space behind a name may go: no word stands behind it, and if the name is `url` no `(`,
unless it is a `(` before a string. -/
def Joins (name : Token) (rest : List Token) : Prop :=
  ∀ spaces t behind, rest = spaces ++ t :: behind → spaces ≠ [] → Spaces spaces →
    t.kind ≠ .word ∧ t.kind ≠ .atWord ∧ (name.isUrl = true → t.kind = .leftParen → StartsString behind)

theorem StartsString.splitBrackets? {ts : List Token} (h : StartsString ts) {u : Bool} {k : List Char}
    (hreads : Reads u ts k) : Lexeme.splitBrackets? true (chars ts ++ k) = none := by
  obtain ⟨spaces, s, behind, rfl, hspaces, hs⟩ := h
  obtain ⟨hfront, ⟨c, cs, l, hr, hkind, htext, -⟩, -⟩ := Reads.append.mp hreads
  have hquote : isQuote c = true := hr.string_inv (hkind.trans hs)
  rw [chars_append, chars_cons, htext, List.append_assoc]
  exact splitBrackets?_quote (hfront.blank hspaces) hquote _

/-- The name is read right before what stands behind the white space. -/
theorem Joins.reads {name t : Token} {a us b : List Token} {k : List Char} (h : Joins name (a ++ t :: us ++ b))
    (hkind : name.kind = .word) (ha : Spaces a) (hreads : Reads false (name :: (a ++ t :: us ++ b)) k) :
    Reads false (name :: t :: us) (chars b ++ k) := by
  obtain ⟨hname, hrest⟩ := hreads
  rw [List.append_assoc, List.cons_append] at h hname hrest
  obtain ⟨-, ht, hbehind⟩ := Reads.append.mp hrest
  have hus := (Reads.append.mp hbehind).1
  cases a with
  | nil =>
    refine ⟨?_, ?_, hus⟩
    · simpa using hname
    · simpa [endsUrl] using ht
  | cons space a =>
    obtain ⟨hword, hat, hurl⟩ := h (space :: a) t (us ++ b) rfl (List.cons_ne_nil _ _) ha
    have hspaces : endsUrl name.isUrl (space :: a) = false := by
      rw [endsUrl, isUrl_of_kind_ne (by simp [ha space List.mem_cons_self])]
      exact endsUrl_of_kind_ne fun s hs => by simp [ha s (List.mem_cons_of_mem _ hs)]
    rw [hspaces] at ht
    have hjoined : ReadAs name.isUrl t (chars (us ++ b) ++ k) := by
      cases hu : name.isUrl with
      | false => exact ht
      | true =>
        by_cases hp : t.kind = .leftParen
        · exact ht.afterUrl_of_leftParen hp ((hurl hu hp).splitBrackets? hbehind)
        · exact ht.afterUrl hp true
    rw [chars_append, List.append_assoc] at hjoined
    -- the word now ends at the token behind the white space, and not before it
    refine ⟨hname.change ⟨by simp [hkind], fun _ => ?_, by simp [hkind]⟩, hjoined, hus⟩
    rw [chars_cons, List.append_assoc]
    exact hjoined.delimits_of_kind ⟨hword, hat⟩ _

end Node

/-! ### The tokens of a call -/

/-- A mixin call was read of these tokens, from its name on. -/
structure MixinCall.IsOf (c : MixinCall) (name : Token) (rest : List Token) : Prop where
  kind : name.kind = .word
  reads : ∃ k, Reads false (name :: rest) k
  name_eq : c.name = name.text
  written_eq : c.written = join rest
  arguments_eq : c.arguments = Argument.ofTokens rest

namespace Node

theorem Progress.Calls.exists_tokens {spaces : String} {start : Position} {head : List Token} {ending : Ending}
    {c : MixinCall} (h : Progress.Calls spaces start head ending c)
    (hs : (Segment.statement start head ending).Read) : ∃ name rest, c.IsOf name rest := by
  obtain ⟨before, name, rest, stop, rfl, -, -, hkind, rfl⟩ := h.exists_name
  obtain ⟨-, -, ⟨k, hreads⟩, -⟩ := hs (by simp)
  obtain ⟨hname, hrest⟩ := (Reads.append.mp hreads).2
  have hname := hname.of_kind (by simp [hkind]) (by simp [hkind]) false
  exact ⟨name, rest, hkind, ⟨k, hname, hrest⟩, rfl, rfl, rfl⟩

/-- What holds of every call where it is read holds of all mixin calls that were read from a text. -/
theorem forall_calls_of_parse {Q : MixinCall → Prop} {s : String} {sheet : Stylesheet}
    (h : Stylesheet.parse s = .ok sheet)
    (hcall : ∀ {spaces : String} {start : Position} {head : List Token} {ending : Ending} {c : MixinCall},
      (Segment.statement start head ending).Read → Progress.Calls spaces start head ending c → Q c) :
    ∀ c ∈ calls sheet.nodes, Q c := by
  intro c hc
  obtain ⟨ts, hts⟩ := exists_ofText_of_parse h
  have hread := Segment.read_of_reads (reads_of_ofText hts).1
  have hall : ∀ n ∈ statementsAll sheet.nodes, ∀ c, n = .call c → Q c := by
    refine forall_statements_of_parse h hts (fun s hs p node hnode c heq => ?_) fun header _ _ => by cases header <;> nofun
    obtain ⟨start, head, ending, rfl, hcalls⟩ := hnode.call c heq
    exact hcall (hread _ hs) hcalls
  obtain ⟨node, hnode, hsome⟩ := List.mem_filterMap.mp hc
  cases node with
  | call c' =>
    obtain rfl := Option.some.inj hsome
    exact hall _ hnode _ rfl
  | _ => cases hsome

theorem exists_tokens_of_parse {s : String} {sheet : Stylesheet} (h : Stylesheet.parse s = .ok sheet)
    {c : MixinCall} (hc : c ∈ calls sheet.nodes) : ∃ name rest, c.IsOf name rest :=
  forall_calls_of_parse h (fun hs hcalls => hcalls.exists_tokens hs) c hc

end Node

/-! ### The text of a call -/

/-- The text of a call from its name on is a call by itself, and the name may stand right before the rest
of it. -/
def MixinCall.Alone (c : MixinCall) : Prop :=
  ∃ ts name rest, Token.ofText (c.name ++ c.written) = .ok ts ∧ content ts = name :: rest ∧
    Node.CallTokens name rest ∧ Node.Joins name rest

namespace MixinCall

variable {c : MixinCall} {name : Token} {rest : List Token}

/-- The tokens of the text are those that the call was read of. -/
theorem IsOf.of_alone (h : c.IsOf name rest) (ha : c.Alone) :
    ∃ name rest, c.IsOf name rest ∧ Node.CallTokens name rest ∧ Node.Joins name rest := by
  obtain ⟨k, hreads⟩ := h.reads
  have hend : Reads false (name :: rest) [] := hreads.change ⟨nofun, fun _ _ _ => trivial, .inr rfl⟩
  -- the text gives the same tokens again, at other places, and the arguments do not depend on places
  obtain ⟨us, hus, hbare⟩ := ofText_of_reads hend
  have htext : join (name :: rest) = c.name ++ c.written := by simp [join, h.name_eq, h.written_eq]
  obtain ⟨ts, name', rest', hts, hcontent, htokens, hjoins⟩ := ha
  obtain rfl := Except.ok.inj ((htext ▸ hus).symm.trans hts)
  rw [hcontent, List.map_cons, List.map_cons] at hbare
  obtain ⟨hname, hrest⟩ := List.cons.inj hbare
  have hreads' := (reads_of_ofText hts).1
  rw [hcontent] at hreads'
  refine ⟨name', rest', ⟨htokens.kind, ⟨[], hreads'⟩, ?_, ?_, ?_⟩, htokens, hjoins⟩
  · exact h.name_eq.trans (congrArg Token.text hname).symm
  · rw [h.written_eq, ← join_map_bare, ← hrest, join_map_bare]
  · rw [h.arguments_eq, ← Argument.ofTokens_map_bare, ← hrest, Argument.ofTokens_map_bare]

theorem readsAsCall_line {ts : List Token} (hname : c.name = name.text) (htokens : Node.CallTokens name ts)
    (hreads : ∀ k, Reads false (name :: ts ++ [Node.semicolonToken]) k)
    (htext : c.render = join (name :: ts)) (harguments : Argument.ofTokens ts = c.arguments) (depth : Nat) :
    Stylesheet.ReadsAsCall ((Node.call c).render depth) c.name c.arguments := by
  have hline : Blank ['\n'] := List.forall_mem_singleton.mpr (by decide)
  have h := htokens.readsAsCall hreads (blank_replicate (2 * depth)) hline
  have heq : (Node.call c).render depth =
      .ofList (List.replicate (2 * depth) ' ' ++ (chars (name :: ts) ++ ';' :: ['\n'])) := by
    apply String.toList_injective
    simp [Node.render, htext, Node.indent, join]
  rw [heq, hname, ← harguments]
  exact h

theorem IsOf.readsAsCall (h : c.IsOf name rest) (htokens : Node.CallTokens name rest)
    (hjoins : Node.Joins name rest) (depth : Nat) :
    Stylesheet.ReadsAsCall ((Node.call c).render depth) c.name c.arguments := by
  obtain ⟨k, hreads⟩ := h.reads
  obtain ⟨a, ts, b, rfl, ha, hb, htrimmed, htrim⟩ := hreads.2.trim
  have htokens := htokens.trimmed ha hb
  cases ts with
  | nil =>
    have := htokens.brackets
    simp [Node.hasBrackets, htokens.kind] at this
  | cons t ts =>
    have hjoined := hjoins.reads h.kind ha hreads
    have hends : Trimmed (name :: t :: ts) := by
      refine ⟨fun s hs => ?_, htrimmed.last⟩
      obtain rfl := Option.some.inj hs
      simp [h.kind]
    obtain ⟨out, hhead⟩ := htokens.head
    have hparens := Segment.parensClosed_of_closed hhead.whole.1.closed
    have hsemicolon : ∀ k, Reads false (name :: t :: ts ++ [Node.semicolonToken]) k := fun k =>
      Reads.append.mpr ⟨hjoined.move hends hparens rfl, Node.readAs_punctuation rfl _ _, trivial⟩
    have hwritten : trimmed c.written = join (t :: ts) := by
      rw [h.written_eq, trimmed, join, String.toList_ofList, htrim, join]
    have hne : join (t :: ts) ≠ "" := by
      intro he
      have := congrArg String.toList he
      simp [join, hjoined.2.1.toList_ne] at this
    refine readsAsCall_line h.name_eq htokens hsemicolon ?_ ?_ depth
    · rw [render, hwritten, if_neg hne, h.name_eq]
      simp [join]
    · rw [h.arguments_eq, Argument.ofTokens_between ha hb]

/-- Parentheses with nothing in them are one token. -/
def parens : Token := ofKind .brackets ['(', ')']

theorem readAs_parens (u : Bool) (k : List Char) : ReadAs u parens k :=
  readAs_groupToken List.not_mem_nil (by cases u <;> rfl) k

/-- A call with nothing written behind its name has no arguments. -/
theorem IsOf.readsAsCall_of_blank (h : c.IsOf name rest) (hblank : Blank c.written.toList) (depth : Nat) :
    Stylesheet.ReadsAsCall ((Node.call c).render depth) c.name c.arguments := by
  obtain ⟨k, hname, hrest⟩ := h.reads
  have hspaces : Spaces rest := hrest.spaces (by simpa [h.written_eq, join] using hblank)
  have harguments : c.arguments = [] := by
    have := @Argument.ofTokens_between rest [] [] hspaces (List.forall_mem_nil _)
    rw [List.append_nil, List.append_nil] at this
    rw [h.arguments_eq, this]
    rfl
  have hwritten : trimmed c.written = "" := by rw [trimmed, trim_eq_nil_iff.mpr hblank]
  have htokens : Node.CallTokens name [parens] := Node.callTokens_brackets h.kind rfl
  refine readsAsCall_line h.name_eq htokens (fun k => ?_) ?_ ?_ depth
  · have hbefore : Delimits (chars [parens, Node.semicolonToken] ++ k) := by simp [parens, Delimits, endsWord]
    exact ⟨hname.change ⟨by simp [h.kind], fun _ => hbefore, by simp [h.kind]⟩, readAs_parens _ _,
      Node.readAs_punctuation rfl _ _, trivial⟩
  · rw [render, if_pos hwritten, harguments, h.name_eq]
    apply String.toList_injective
    simp [join, parens]
  · rw [harguments]
    decide

end MixinCall

/-- The text of a mixin call that was read from a text, at any depth, is read as that call alone if
nothing was written behind its name or it stands alone. -/
theorem Stylesheet.readsAsCall_render {s : String} {sheet : Stylesheet} (h : Stylesheet.parse s = .ok sheet)
    {c : MixinCall} (hc : c ∈ Node.calls sheet.nodes) (hwritten : Blank c.written.toList ∨ c.Alone) (depth : Nat) :
    ReadsAsCall ((Node.call c).render depth) c.name c.arguments := by
  obtain ⟨name, rest, htokens⟩ := Node.exists_tokens_of_parse h hc
  rcases hwritten with hblank | halone
  · exact htokens.readsAsCall_of_blank hblank depth
  · obtain ⟨name, rest, htokens, hcall, hjoins⟩ := htokens.of_alone halone
    exact htokens.readsAsCall hcall hjoins depth

/-- A call in a rule, with white space behind its name. -/
theorem Stylesheet.readsAsCall_render_of_rule : ∃ sheet c, Stylesheet.parse "a \x7b b (c); \x7d" = .ok sheet ∧
    c ∈ Node.calls sheet.nodes ∧ c.Alone ∧ ReadsAsCall ((Node.call c).render 1) c.name c.arguments := by
  let c : MixinCall := ⟨"b", [.text "c"], " ", " (c)", ⟨⟨1, 5⟩, ⟨1, 10⟩⟩⟩
  have h : Stylesheet.parse "a \x7b b (c); \x7d" = .ok ⟨[.rule "a" [.call c] ⟨⟨1, 1⟩, ⟨1, 12⟩⟩]⟩ := by cbv
  have hc : c ∈ Node.calls [.rule "a" [.call c] ⟨⟨1, 1⟩, ⟨1, 12⟩⟩] := by simp
  have halone : c.Alone := by
    refine ⟨[⟨.word, "b", 0, 1, ⟨1, 1⟩⟩, ⟨.space, " ", 1, 2, ⟨1, 2⟩⟩, ⟨.brackets, "(c)", 2, 5, ⟨1, 3⟩⟩,
      ⟨.eof, "", 5, 5, ⟨1, 6⟩⟩], _, _, by decide +kernel, rfl,
      ⟨rfl, ⟨_, .token rfl rfl (.token rfl rfl (.token rfl rfl .nil))⟩, rfl, rfl⟩, ?_⟩
    rintro (_ | ⟨space, _ | ⟨space', spaces⟩⟩) t behind heq hne -
    · exact absurd rfl hne
    · obtain ⟨rfl, -⟩ := List.cons.inj (List.cons.inj heq).2
      simp
    · have := (List.cons.inj (List.cons.inj heq).2).2
      simp at this
  exact ⟨_, c, h, hc, halone, Stylesheet.readsAsCall_render h hc (.inr halone) 1⟩

/-- The text of a call whose name stands in brackets has only the closing one. -/
theorem Stylesheet.readsAsCall_render_fails : ¬ ∀ s sheet, Stylesheet.parse s = .ok sheet →
    ∀ c ∈ Node.calls sheet.nodes, ReadsAsCall ((Node.call c).render 0) c.name c.arguments := by
  intro h
  have hparse : Stylesheet.parse "[foo];" = .ok ⟨[.call ⟨"foo", [], "[", "]", ⟨⟨1, 2⟩, ⟨1, 6⟩⟩⟩]⟩ := by cbv
  obtain ⟨c, hc, -⟩ := h _ _ hparse _ List.mem_cons_self
  have hfault : Stylesheet.parse "foo];\n" = .error ⟨.unknownWord, ⟨1, 1⟩⟩ := by cbv
  have hrender : (Node.call ⟨"foo", [], "[", "]", ⟨⟨1, 2⟩, ⟨1, 6⟩⟩⟩).render 0 = "foo];\n" := by decide
  rw [hrender, hfault] at hc
  cases hc

end Mixsheet
