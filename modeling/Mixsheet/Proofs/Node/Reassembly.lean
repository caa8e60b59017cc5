import Mixsheet.Proofs.Node.Closers
import Mixsheet.Proofs.Node.Edges

/-! # The source text of calls

What a call keeps of its text is all that stands in the source between what it stands behind and its `;`. Only the
semicolons that end nothing are left out. -/

namespace Mixsheet

open Token

namespace Node

/-! ### The tokens up to an edge -/

/-- The tokens end where the edge is: with the `{` of a block, or with the last token of a statement, its `;` or its `}`
included. -/
inductive EndsAt : Edge → List Token → Prop where
  | start : EndsAt .start []
  | rule {done head : List Token} {first brace : Token} (first_ : first ∈ (head ++ [brace]).head?)
    (kind : brace.kind = .leftBrace) :
    EndsAt (.brace (.rule (trimmedText head)) first.position) (done ++ head ++ [brace])
  | atRule {done params : List Token} {word brace : Token} (word_ : word.kind = .atWord)
    (kind : brace.kind = .leftBrace) :
    EndsAt (.brace (.atRule (atName word) (trimmedText params)) word.position) (done ++ word :: params ++ [brace])
  | block {done : List Token} {header : Header} {nodes : List Node} {start : Position} {close : Token}
    (kind : close.kind = .rightBrace) :
    EndsAt (.statement (header.node nodes ⟨start, close.position⟩)) (done ++ [close])
  | comment {done : List Token} {t : Token} (kind : t.kind = .comment) :
    EndsAt (.statement (.comment (commentText t.text) ⟨t.position, t.position⟩)) (done ++ [t])
  | call {done : List Token} {c : MixinCall} {stop : Token} (stop_ : c.source.stop = stop.position)
    (kind : stop.kind = .semicolon) : EndsAt (.statement (.call c)) (done ++ [stop])
  | declaration {done : List Token} {prop value : String} {source : Source} {last stop : Token}
    (last_ : source.stop = last.position) (kind : stop.kind = .semicolon) :
    EndsAt (.statement (.declaration prop value source)) (done ++ [last, stop])
  | atStatement {done : List Token} {name params : String} {source : Source} {last stop : Token}
    (last_ : source.stop = last.position) (kind : stop.kind = .semicolon) :
    EndsAt (.statement (.atStatement name params source)) (done ++ [last, stop])

/-- White space and semicolons that end nothing. -/
def IsGap (gap : List Token) : Prop := ∀ t ∈ gap, t.kind = .space ∨ t.kind = .semicolon

/-- Tokens without the semicolons that end nothing. -/
def gapSpaces (gap : List Token) : List Token := gap.filter (·.kind != .semicolon)

/-- From the end of the edge on, white space and semicolons that end nothing go before the tokens of the call, which end
with its `;`. Without these semicolons they are what the call keeps of its text. -/
inductive Assembled (ts : List Token) (before : Edge) (c : MixinCall) : Prop where
  | intro {done gap head behind : List Token} {name stop : Token} (tokens : ts = done ++ gap ++ head ++ stop :: behind)
    (ends : EndsAt before done) (gap_ : IsGap gap) (starts : Starts head) (name_ : name ∈ head)
    (stop_ : stop.kind = .semicolon) (source : c.source = ⟨name.position, stop.position⟩)
    (text : c.before ++ c.name ++ c.written ++ ";" = join (gapSpaces gap ++ head ++ [stop]))

/-- The tokens that are read end at the edge of what is read but for a gap, and its white space is kept. -/
inductive Since (p : Progress) : List Token → Prop where
  | intro {done gap : List Token} (ends : EndsAt (.next p.nodes p.blocks) done) (gap_ : IsGap gap)
    (spaces : p.spaces = join (gapSpaces gap)) : Since p (done ++ gap)

theorem since_of_endsAt {p : Progress} {done : List Token} (h : EndsAt (.next p.nodes p.blocks) done)
    (hspaces : p.spaces = "") : Since p done := by
  have hnone := @Since.intro p done [] h nofun hspaces
  rwa [List.append_nil] at hnone

theorem since_initial : Since .initial [] := since_of_endsAt .start rfl

theorem Since.gap {p : Progress} {read : List Token} (h : Since p read) {t : Token}
    (hkind : t.kind = .space ∨ t.kind = .semicolon) {spaces : String}
    (hspaces : spaces = p.spaces ++ join (gapSpaces [t])) : Since { p with spaces := spaces } (read ++ [t]) := by
  obtain ⟨hends, hgap, hkept⟩ := h
  rw [List.append_assoc]
  refine .intro hends (List.forall_mem_append.mpr ⟨hgap, List.forall_mem_singleton.mpr hkind⟩) ?_
  show spaces = _
  rw [hspaces, hkept, gapSpaces, gapSpaces, gapSpaces, List.filter_append, join_append]

theorem Since.assembled {p : Progress} {read head behind : List Token} {start : Position} {stop : Token} {c : MixinCall}
    (h : Since p read) (hc : Progress.Calls p.spaces start head (.semicolon stop.position) c) (hstarts : Starts head)
    (hkind : stop.kind = .semicolon) (htext : stop.text = ";") :
    Assembled (read ++ head ++ stop :: behind) (.next p.nodes p.blocks) c := by
  obtain ⟨hends, hgap, hspaces⟩ := h
  obtain ⟨before, name, rest, place, rfl, ⟨⟩, -, -, rfl⟩ := hc.exists_name
  refine .intro rfl hends hgap hstarts (List.mem_append_right before List.mem_cons_self) hkind rfl ?_
  dsimp only
  rw [hspaces, join_append, join_append, join_append, join_cons, join_cons, htext, join_nil]
  simp only [String.append_assoc, String.append_empty]

/-! ### Steps -/

/-- What is read goes on where the tokens that are read end, or the block does. -/
def Continues (p : Progress) (read rest : List Token) : Prop :=
  Since p read ∨ ∀ t ∈ rest.head?, t.kind = .rightBrace

section Steps

variable {p q : Progress} {read rest : List Token} {t : Token}

theorem continues_single (h : Continues p read (t :: rest)) {s : Segment} (hs : Segment.Single t s)
    (hq : p.step s = .ok q) : Since q (read ++ [t]) := by
  have hsince (hkind : t.kind ≠ .rightBrace) : Since p read := h.resolve_right fun hlast => hkind (hlast t rfl)
  cases hs with
  | space kind =>
    obtain rfl := Except.ok.inj hq
    refine (hsince (by simp [kind])).gap (.inl kind) ?_
    simp [gapSpaces, kind, join]
  | semicolon kind =>
    obtain rfl := Except.ok.inj hq
    refine (hsince (by simp [kind])).gap (.inr kind) ?_
    simp [gapSpaces, kind]
  | comment kind =>
    obtain rfl := Except.ok.inj hq
    exact since_of_endsAt (.comment kind) rfl
  | block kind =>
    obtain rfl := Except.ok.inj hq
    have hends := @EndsAt.rule read [] t t rfl kind
    rw [List.append_nil] at hends
    exact since_of_endsAt hends rfl
  | close kind =>
    obtain ⟨b, bs, -, rfl⟩ := Progress.exists_of_close hq
    exact since_of_endsAt (.block kind) rfl

/-- The last token of a statement, before its `;`. -/
theorem exists_last (t : Token) (ts : List Token) : ∃ init last, t :: ts = init ++ [last] ∧
    lastPosition t.position (t :: ts) = last.position ∧ lastPosition t.position ts = last.position := by
  obtain ⟨init, last, hlast⟩ := (t :: ts).eq_nil_or_concat'.resolve_left (List.cons_ne_nil t ts)
  have hall : lastPosition t.position (t :: ts) = last.position := by
    rw [hlast, lastPosition, List.getLast?_concat]
    rfl
  refine ⟨init, last, hlast, hall, ?_⟩
  rw [← hall, lastPosition, lastPosition, List.getLast?_cons]
  cases ts.getLast? <;> rfl

theorem continues_atRule {word : Token} {params us : List Token} (hword : word.kind = .atWord)
    (hstop : ∀ t ∈ us.head?, Segment.isStop t = true) : ∃ e, us = e ++ (Segment.splitEnding us).2 ∧
      Continues (p.atRule word params (Segment.splitEnding us).1) (read ++ word :: params ++ e)
        (Segment.splitEnding us).2 := by
  rcases Segment.splitEnding_cases hstop with ⟨stop, us, rfl, hkind, he⟩ | ⟨brace, us, rfl, hkind, he⟩ | ⟨hlast, he⟩ <;>
    rw [he]
  · obtain ⟨init, last, hsplit, -, hposition⟩ := exists_last word params
    have hread : read ++ word :: params ++ [stop] = read ++ init ++ [last, stop] := by rw [hsplit]; simp
    refine ⟨[stop], rfl, .inl (since_of_endsAt ?_ rfl)⟩
    rw [hread]
    exact .atStatement hposition hkind
  · exact ⟨[brace], rfl, .inl (since_of_endsAt (.atRule hword hkind) rfl)⟩
  · exact ⟨[], rfl, .inr hlast⟩

theorem continues_statement {head us : List Token} (hstop : ∀ t ∈ us.head?, Segment.isStop t = true)
    (hq : p.statement t.position (t :: head) (Segment.splitEnding us).1 = .ok q) :
    ∃ e, us = e ++ (Segment.splitEnding us).2 ∧
      Continues q (read ++ t :: head ++ e) (Segment.splitEnding us).2 := by
  rcases Segment.splitEnding_cases hstop with ⟨stop, us, rfl, hkind, he⟩ | ⟨brace, us, rfl, hkind, he⟩ | ⟨hlast, he⟩ <;>
    rw [he] at hq ⊢
  · refine ⟨[stop], rfl, .inl ?_⟩
    rcases Progress.statement_cases hq with ⟨brace, hbrace, -⟩ | ⟨prop, value, source, hd, rfl⟩ | ⟨c, hc, rfl⟩
    · cases hbrace
    · obtain ⟨init, last, hsplit, hposition, -⟩ := exists_last t head
      have hsource : source = ⟨t.position, lastPosition t.position (t :: head)⟩ := source_of_declarationOf hd.node_eq
      have hread : read ++ t :: head ++ [stop] = read ++ init ++ [last, stop] := by rw [hsplit]; simp
      refine since_of_endsAt ?_ rfl
      rw [hread]
      exact .declaration (by rw [hsource, hposition]) hkind
    · obtain ⟨before, name, rest, place, -, ⟨⟩, -, -, rfl⟩ := hc.exists_name
      exact since_of_endsAt (.call rfl hkind) rfl
  · refine ⟨[brace], rfl, .inl ?_⟩
    rcases Progress.statement_cases hq with ⟨place, hplace, rfl⟩ | ⟨prop, value, source, hd, -⟩ | ⟨c, hc, -⟩
    · exact since_of_endsAt (.rule rfl hkind) rfl
    · exact absurd rfl (hd.not_block brace.position)
    · obtain ⟨place, hplace, -⟩ := hc.node_eq
      cases hplace
  · exact ⟨[], rfl, .inr hlast⟩

theorem assembled_of_calls {head us : List Token} {start : Position} {c : MixinCall} (h : Since p read)
    (hstarts : Starts head) (hstop : ∀ t ∈ us.head?, Segment.isStop t = true)
    (hc : Progress.Calls p.spaces start head (Segment.splitEnding us).1 c)
    (htext : ∀ t ∈ us, t.kind = .semicolon → t.text = ";") :
    Assembled (read ++ head ++ us) (.next p.nodes p.blocks) c := by
  rcases Segment.splitEnding_cases hstop with ⟨stop, us, rfl, hkind, he⟩ | ⟨brace, us, rfl, -, he⟩ | ⟨-, he⟩ <;>
    rw [he] at hc
  · exact h.assembled hc hstarts hkind (htext stop List.mem_cons_self hkind)
  · obtain ⟨place, hplace, -⟩ := hc.node_eq
    cases hplace
  · obtain ⟨place, hplace, -⟩ := hc.node_eq
    cases hplace

end Steps

/-! ### Runs -/

/-- The first of some tokens are read, and the calls among them are assembled of all of these. -/
inductive Reassembled (ts : List Token) (p : Progress) (rest : List Token) : Prop where
  | intro {read : List Token} (tokens : ts = read ++ rest) (continues : Continues p read rest)
    (calls : Holds (Assembled ts) p.nodes p.blocks)

section Reassembled

variable {ts us : List Token} {p q : Progress} {t : Token}

theorem reassembled_initial (ts : List Token) : Reassembled ts .initial ts :=
  @Reassembled.intro ts .initial ts [] rfl (.inl since_initial) holds_initial

theorem Reassembled.single (h : Reassembled ts p (t :: us)) {s : Segment} (hs : Segment.Single t s)
    (hq : p.step s = .ok q) : Reassembled ts q us := by
  obtain ⟨hts, hread, hcalls⟩ := h
  refine .intro (by rw [hts, List.append_cons]) (.inl (continues_single hread hs hq)) (hcalls.step hq fun c hc => ?_)
  obtain ⟨start, head, ending, rfl, hcall⟩ := hc.call c rfl
  obtain ⟨stop, rfl, -⟩ := hcall.node_eq
  cases hs

theorem Reassembled.atRule {params : List Token} (h : Reassembled ts p (t :: (params ++ us))) (hword : t.kind = .atWord)
    (hstop : ∀ t ∈ us.head?, Segment.isStop t = true) :
    Reassembled ts (p.atRule t params (Segment.splitEnding us).1) (Segment.splitEnding us).2 := by
  obtain @⟨read, hts, -, hcalls⟩ := h
  obtain ⟨e, he, hcontinues⟩ := @continues_atRule p read t params us hword hstop
  have hstep : p.step (.atRule t params (Segment.splitEnding us).1) = .ok (p.atRule t params (Segment.splitEnding us).1) :=
    rfl
  refine .intro ?_ hcontinues (hcalls.step hstep fun c hc => ?_)
  · rw [List.append_assoc, ← he, hts, List.append_assoc, List.cons_append]
  · obtain ⟨start, head, ending, heq, -⟩ := hc.call c rfl
    cases heq

theorem Reassembled.statement {head : List Token} (h : Reassembled ts p (t :: (head ++ us)))
    (hstarts : Segment.startsHead t.kind = true) (hstop : ∀ t ∈ us.head?, Segment.isStop t = true)
    (htext : ∀ t ∈ ts, t.kind = .semicolon → t.text = ";")
    (hq : p.statement t.position (t :: head) (Segment.splitEnding us).1 = .ok q) :
    Reassembled ts q (Segment.splitEnding us).2 := by
  obtain @⟨read, hts, hread, hcalls⟩ := h
  have hall : ts = read ++ t :: head ++ us := by rw [hts, List.append_assoc, List.cons_append]
  obtain ⟨e, he, hcontinues⟩ := @continues_statement p q read t head us hstop hq
  have hstep : p.step (.statement t.position (t :: head) (Segment.splitEnding us).1) = .ok q := hq
  refine .intro ?_ hcontinues (hcalls.step hstep fun c hc => ?_)
  · rw [List.append_assoc, ← he, hall]
  · obtain ⟨start, head, ending, heq, hcall⟩ := hc.call c rfl
    cases heq
    have hsince : Since p read := hread.resolve_right fun hlast => by
      rw [hlast t rfl] at hstarts
      cases hstarts
    have hfirst : Starts (t :: head) := by
      rintro _ ⟨⟩
      exact hstarts
    rw [hall] at htext ⊢
    exact assembled_of_calls hsince hfirst hstop hcall fun u hu => htext u (List.mem_append_right _ hu)

/-- All calls that are read of a run of tokens are assembled of it. -/
theorem holds_run (htext : ∀ t ∈ ts, t.kind = .semicolon → t.text = ";")
    (hq : Progress.initial.run (Segment.ofTokens ts) = .ok q) : Holds (Assembled ts) q.nodes q.blocks := by
  have hrun : Reassembled ts q [] := Progress.run_ofTokens_induction (fun h hs hr => h.single hs hr)
    (fun h hword hstop => h.atRule hword hstop) (fun h hstarts hstop hr => h.statement hstarts hstop htext hr)
    (reassembled_initial ts) hq
  obtain ⟨-, -, hcalls⟩ := hrun
  exact hcalls

end Reassembled

end Node

open Node

theorem text_of_semicolon {s : String} {ts : List Token} (h : Token.ofText s = .ok ts) {t : Token}
    (ht : t ∈ content ts) (hkind : t.kind = .semicolon) : t.text = ";" := by
  obtain ⟨hreads, -⟩ := reads_of_ofText h
  obtain ⟨u, k, hread⟩ := hreads.readAs ht
  have hchars : t.text.toList = [';'] := hread.punctuation (by rw [hkind]; rfl)
  exact String.toList_inj.mp hchars

/-- Every call of the stylesheet of a text stands right behind the start of the text, the `{` of its block or another
statement. The text before its name, the name, its arguments as written and a `;` are together what stands in the text
from there up to the `;` of the call, but for semicolons between statements that end none. -/
theorem Stylesheet.calls_reassemble {s : String} {sheet : Stylesheet} (h : Stylesheet.parse s = .ok sheet) :
    ∃ ts, Token.ofText s = .ok ts ∧ join (content ts) = s ∧
      (∀ c ∈ calls sheet.nodes, ∃ before, Follows .start sheet.nodes before c) ∧
      ∀ before c, Follows .start sheet.nodes before c → Assembled (content ts) before c := by
  obtain ⟨ts, hts⟩ := exists_ofText_of_parse h
  obtain ⟨p, hp, hfinish⟩ := bind_eq_ok_iff.mp (ofTokens_of_parse h hts)
  obtain ⟨-, hchars⟩ := reads_of_ofText hts
  refine ⟨ts, hts, by rw [join, hchars, String.ofList_toList], fun c hc => exists_follows _ _ hc, ?_⟩
  have hholds : Holds (Assembled (content ts)) p.nodes p.blocks :=
    holds_run (fun t ht => text_of_semicolon hts ht) hp
  obtain ⟨hblocks, hnodes⟩ := Progress.of_finish hfinish
  rw [hblocks] at hholds
  rw [hnodes]
  exact hholds

/-- A call behind a declaration and a semicolon that ends nothing, and one in a block that starts with another. -/
theorem Stylesheet.calls_reassemble_of_block : ∃ sheet ts declaration m n,
    Stylesheet.parse "a: b;; m(c);d \x7b ; n();\x7d" = .ok sheet ∧
    Token.ofText "a: b;; m(c);d \x7b ; n();\x7d" = .ok ts ∧
    calls sheet.nodes = [m, n] ∧ m.before = " " ∧ n.before = "  " ∧
    Assembled (content ts) (.statement declaration) m ∧ Assembled (content ts) (.brace (.rule "d") ⟨1, 13⟩) n := by
  let declaration : Node := .declaration "a" "b" ⟨⟨1, 1⟩, ⟨1, 4⟩⟩
  let m : MixinCall := ⟨"m", [.text "c"], " ", "(c)", ⟨⟨1, 8⟩, ⟨1, 12⟩⟩⟩
  let n : MixinCall := ⟨"n", [], "  ", "()", ⟨⟨1, 19⟩, ⟨1, 22⟩⟩⟩
  have hparse : Stylesheet.parse "a: b;; m(c);d \x7b ; n();\x7d" =
      .ok ⟨[declaration, .call m, .rule "d" [.call n] ⟨⟨1, 13⟩, ⟨1, 23⟩⟩]⟩ := by cbv
  obtain ⟨ts, hts, -, -, hassembled⟩ := Stylesheet.calls_reassemble hparse
  exact ⟨_, ts, declaration, m, n, hparse, hts, rfl, rfl, rfl, hassembled _ m (.later (.here _ m _)),
    hassembled _ n (.later (.later (.rule (.here _ n _))))⟩

end Mixsheet
