import Mixsheet.Proofs.Node.CallPlaces
import Mixsheet.Proofs.Token.SubRun

/-! # Where statements start and end

A statement is read of tokens that stand one after the other, and it starts and ends at two of them. So what a block
holds lies between the start and the end of its rule or at-rule, and of two statements next to one another the one has
ended before the other starts. -/

namespace Mixsheet

open Token

namespace Position

/-- The position is the other one, or stands before it. -/
def Upto (p q : Position) : Prop := p = q ∨ p.Precedes q

theorem Upto.precedes {p q r : Position} (h : p.Upto q) (h' : q.Precedes r) : p.Precedes r := by
  rcases h with rfl | h
  · exact h'
  · exact h.trans h'

end Position

namespace Node

/-- The statements in the block of a statement. -/
def children : Node → List Node
  | .rule _ nodes _ | .atBlock _ _ nodes _ => nodes
  | .atStatement .. | .declaration .. | .comment .. | .call _ => []

/-- The one statement ends before the other one starts. -/
def EndsBefore (m n : Node) : Prop := m.source.stop.Precedes n.source.start

/-- The statement starts before what is in its block and ends behind it, and what is in its block stands one after
the other. -/
structure Encloses (n : Node) : Prop where
  ordered : n.source.start.Upto n.source.stop
  inside : ∀ child ∈ n.children,
    n.source.start.Precedes child.source.start ∧ child.source.stop.Precedes n.source.stop
  apart : n.children.Pairwise EndsBefore

theorem mem_statements (n : Node) : n ∈ n.statements := by
  cases n <;> exact List.mem_cons_self

theorem children_of_statements {n : Node} (h : n.statements = [n]) : n.children = [] := by
  cases n with
  | rule selector nodes source | atBlock name params nodes source =>
    obtain ⟨-, hnil⟩ := List.cons.inj h
    cases nodes with
    | nil => rfl
    | cons m rest =>
      have hmem : m ∈ statementsAll (m :: rest) := List.mem_append_left _ m.mem_statements
      rw [hnil] at hmem
      cases hmem
  | _ => rfl

/-! ### What is read before a place -/

/-- Statements, last first, that stand one after the other before a place. -/
structure Settled (nodes : List Node) (q : Position) : Prop where
  encloses : ∀ n ∈ statementsAll nodes, n.Encloses
  apart : nodes.Pairwise fun later earlier => earlier.EndsBefore later
  before : ∀ n ∈ nodes, n.source.stop.Precedes q

/-- All that is read stands before a place: the statements of the innermost block behind its start, and those before
the block before its start. -/
def Behind (nodes : List Node) : List OpenBlock → Position → Prop
  | [], q => Settled nodes q
  | b :: bs, q =>
    Settled nodes q ∧ (∀ n ∈ nodes, b.start.Precedes n.source.start) ∧ b.start.Precedes q ∧ Behind b.before bs b.start

section Behind

variable {nodes : List Node} {blocks : List OpenBlock} {q r : Position}

theorem settled_nil (q : Position) : Settled [] q := ⟨nofun, .nil, nofun⟩

theorem Behind.settled (h : Behind nodes blocks q) : Settled nodes q := by
  cases blocks with
  | nil => exact h
  | cons b bs => exact h.1

theorem Settled.mono (h : Settled nodes q) (hqr : q.Precedes r) : Settled nodes r :=
  ⟨h.encloses, h.apart, fun n hn => (h.before n hn).trans hqr⟩

theorem Behind.mono (h : Behind nodes blocks q) (hqr : q.Precedes r) : Behind nodes blocks r := by
  cases blocks with
  | nil => exact Settled.mono h hqr
  | cons b bs => exact ⟨h.1.mono hqr, h.2.1, h.2.2.1.trans hqr, h.2.2.2⟩

/-- A statement that starts at the place or behind it stands behind what was read before. -/
theorem Behind.cons (h : Behind nodes blocks q) {node : Node} (hnode : ∀ n ∈ node.statements, n.Encloses)
    (hstart : q.Upto node.source.start) (hstop : node.source.stop.Precedes r) :
    Behind (node :: nodes) blocks r := by
  have hqr : q.Precedes r := hstart.precedes ((hnode node node.mem_statements).ordered.precedes hstop)
  have hsettled : Settled (node :: nodes) r := by
    refine ⟨List.forall_mem_append.mpr ⟨hnode, h.settled.encloses⟩, List.pairwise_cons.mpr ⟨fun n hn => ?_, ?_⟩,
      List.forall_mem_cons.mpr ⟨hstop, (h.settled.mono hqr).before⟩⟩
    · rcases hstart with hstart | hstart
      · show n.source.stop.Precedes node.source.start
        rw [← hstart]
        exact h.settled.before n hn
      · exact (h.settled.before n hn).trans hstart
    · exact h.settled.apart
  cases blocks with
  | nil => exact hsettled
  | cons b bs =>
    obtain ⟨-, hinside, hb, hbefore⟩ := h
    refine ⟨hsettled, List.forall_mem_cons.mpr ⟨?_, hinside⟩, hb.trans hqr, hbefore⟩
    rcases hstart with hstart | hstart
    · exact hstart ▸ hb
    · exact hb.trans hstart

theorem encloses_of_leaf {node : Node} (h : node.statements = [node])
    (hordered : node.source.start.Upto node.source.stop) : ∀ n ∈ node.statements, n.Encloses := by
  rw [h]
  refine List.forall_mem_singleton.mpr ⟨hordered, ?_, ?_⟩ <;> rw [children_of_statements h]
  · exact nofun
  · exact .nil

/-- A block that starts at the place. -/
theorem Behind.opened {p : Progress} (h : Behind p.nodes p.blocks q) (header : Header) (brace : Position)
    (hqr : q.Precedes r) : Behind (p.opened header q brace).nodes (p.opened header q brace).blocks r :=
  ⟨settled_nil r, nofun, hqr, h⟩

theorem children_header (header : Header) (nodes : List Node) (source : Source) :
    (header.node nodes source).children = nodes ∧ (header.node nodes source).source = source := by
  cases header <;> exact ⟨rfl, rfl⟩

/-- A block whose `}` stands at the place. -/
theorem Behind.close {p p' : Progress} (h : Behind p.nodes p.blocks q) (hp : p.close q = .ok p')
    (hqr : q.Precedes r) : Behind p'.nodes p'.blocks r := by
  obtain ⟨b, bs, hblocks, rfl⟩ := Progress.exists_of_close hp
  rw [hblocks] at h
  obtain ⟨hsettled, hinside, hb, hbefore⟩ := h
  obtain ⟨hchildren, hsource⟩ := children_header b.header p.nodes.reverse ⟨b.start, q⟩
  refine hbefore.cons ?_ (by rw [hsource]; exact .inl rfl) (by rw [hsource]; exact hqr)
  rw [Progress.statements_header]
  refine List.forall_mem_cons.mpr ⟨⟨?_, ?_, ?_⟩, forall_statementsAll_reverse hsettled.encloses⟩
  · rw [hsource]
    exact .inr hb
  · rw [hchildren, hsource]
    intro child hchild
    have hmem := List.mem_reverse.mp hchild
    exact ⟨hinside child hmem, hsettled.before child hmem⟩
  · rw [hchildren]
    exact List.pairwise_reverse.mpr hsettled.apart

end Behind

/-! ### The places of tokens -/

/-- The tokens stand one after the other before a place. -/
def Ascends (ts : List Token) (stop : Position) : Prop := (ts.map Token.position ++ [stop]).Pairwise Position.Precedes

/-- Where the first token stands, or the place behind if there is none. -/
def front (ts : List Token) (stop : Position) : Position := (ts.head?.map Token.position).getD stop

section Ascends

variable {ts us : List Token} {stop : Position}

theorem Ascends.of_append (ts : List Token) (h : Ascends (ts ++ us) stop) : Ascends us stop := by
  unfold Ascends at h ⊢
  rw [List.map_append, List.append_assoc] at h
  exact (List.pairwise_append.mp h).2.1

theorem Ascends.front (ts : List Token) (h : Ascends (ts ++ us) stop) {t : Token} (ht : t ∈ ts) :
    t.position.Precedes (front us stop) := by
  unfold Ascends at h
  rw [List.map_append, List.append_assoc] at h
  refine (List.pairwise_append.mp h).2.2 _ (List.mem_map_of_mem ht) _ ?_
  cases us <;> exact List.mem_cons_self

theorem Ascends.upto {t : Token} (h : Ascends (t :: ts) stop) {u : Token} (hu : u ∈ t :: ts) :
    t.position.Upto u.position := by
  rcases List.mem_cons.mp hu with rfl | hu
  · exact .inl rfl
  · exact .inr ((List.pairwise_cons.mp h).1 _ (List.mem_append_left _ (List.mem_map_of_mem hu)))

end Ascends

theorem exists_lastPosition (t : Token) (ts : List Token) :
    ∃ u ∈ t :: ts, lastPosition t.position ts = u.position :=
  place_lastPosition (P := fun q => ∃ u ∈ t :: ts, q = u.position) ⟨t, List.mem_cons_self, rfl⟩
    fun u hu => ⟨u, List.mem_cons_of_mem t hu, rfl⟩

/-! ### Steps -/

section Steps

variable {p q : Progress} {t : Token} {stop : Position}

/-- A statement without a block, read of the tokens `ts` from the first one on. -/
theorem Behind.leaf (h : Behind p.nodes p.blocks t.position) {ts us : List Token} {node : Node}
    (hts : Ascends (t :: (ts ++ us)) stop) (hleaf : node.statements = [node])
    (hsource : ∃ first ∈ t :: ts, ∃ last ∈ t :: ts, node.source = ⟨first.position, last.position⟩ ∧
      first.position.Upto last.position) :
    Behind (p.add node).nodes (p.add node).blocks (front us stop) := by
  obtain ⟨first, hfirst, last, hlast, heq, hordered⟩ := hsource
  refine Behind.cons h (encloses_of_leaf hleaf (by rwa [heq])) ?_ ?_
  · rw [heq]
    exact hts.upto (List.mem_append_left us hfirst : first ∈ t :: ts ++ us)
  · rw [heq]
    exact Ascends.front (t :: ts) hts hlast

theorem Behind.single (h : Behind p.nodes p.blocks t.position) {us : List Token} (hts : Ascends (t :: us) stop)
    {s : Segment} (hs : Segment.Single t s) (hq : p.step s = .ok q) : Behind q.nodes q.blocks (front us stop) := by
  have hnext : t.position.Precedes (front us stop) := Ascends.front [t] hts List.mem_cons_self
  cases hs with
  | space | semicolon =>
    obtain rfl := Except.ok.inj hq
    exact h.mono hnext
  | comment =>
    obtain rfl := Except.ok.inj hq
    have hleaf : Ascends (t :: ([] ++ us)) stop := hts
    exact Behind.leaf h hleaf rfl ⟨t, List.mem_cons_self, t, List.mem_cons_self, rfl, .inl rfl⟩
  | block =>
    obtain rfl := Except.ok.inj hq
    exact h.opened _ _ hnext
  | close => exact h.close hq hnext

theorem Behind.atRule (h : Behind p.nodes p.blocks t.position) {params us : List Token} {ending : Ending}
    {e : List Token} (hts : Ascends (t :: (params ++ e ++ us)) stop) :
    Behind (p.atRule t params ending).nodes (p.atRule t params ending).blocks (front us stop) := by
  have hstatement : Behind (p.add (.atStatement (atName t) (trimmedText params)
      ⟨t.position, lastPosition t.position params⟩)).nodes p.blocks (front us stop) := by
    obtain ⟨u, hu, hlast⟩ := exists_lastPosition t params
    have hmem : u ∈ t :: (params ++ e) := List.mem_append_left e hu
    refine Behind.leaf h hts rfl ⟨t, List.mem_cons_self, u, hmem, by rw [hlast]; rfl, ?_⟩
    exact hts.upto (List.mem_append_left us hmem : u ∈ t :: (params ++ e) ++ us)
  cases ending with
  | block brace => exact h.opened _ _ (Ascends.front (t :: (params ++ e)) hts List.mem_cons_self)
  | semicolon | last => exact hstatement

theorem Behind.statement (h : Behind p.nodes p.blocks t.position) {head us e : List Token} {ending : Ending}
    (hts : Ascends (t :: (head ++ e ++ us)) stop)
    (he : ∀ place, ending = .semicolon place → ∃ s, e = [s] ∧ s.position = place)
    (hq : p.statement t.position (t :: head) ending = .ok q) : Behind q.nodes q.blocks (front us stop) := by
  rcases Progress.statement_cases hq with ⟨brace, -, rfl⟩ | ⟨prop, value, source, hd, rfl⟩ | ⟨c, hc, rfl⟩
  · exact h.opened _ _ (Ascends.front (t :: (head ++ e)) hts List.mem_cons_self)
  · obtain ⟨u, hu, hlast⟩ := exists_lastPosition t (Progress.declared (t :: head) ending)
    have hmem : u ∈ t :: (head ++ e) := by
      refine List.mem_append_left e (List.mem_cons.mpr ?_)
      rcases List.mem_cons.mp hu with rfl | hu
      · exact .inl rfl
      · exact List.mem_cons.mp (Progress.mem_of_mem_declared hu)
    refine Behind.leaf h hts rfl ⟨t, List.mem_cons_self, u, hmem, ?_, ?_⟩
    · rw [source_of_declarationOf hd.node_eq, hlast]
    · exact hts.upto (List.mem_append_left us hmem : u ∈ t :: (head ++ e) ++ us)
  · -- a call goes from its name to its `;`
    obtain ⟨before, name, rest, place, hhead, rfl, -, -, rfl⟩ := hc.exists_name
    obtain ⟨s, rfl, rfl⟩ := he _ rfl
    have hname : name ∈ t :: head := by rw [hhead]; simp
    refine Behind.leaf h hts rfl ⟨name, List.mem_append_left [s] hname, s, by simp, rfl, .inr ?_⟩
    have hprefix : Ascends (t :: head ++ s :: us) stop := by simpa using hts
    exact hprefix.front (t :: head) hname

theorem Behind.run {ts : List Token} (hts : Ascends ts stop) (h : Behind p.nodes p.blocks (front ts stop))
    (hq : p.run (Segment.ofTokens ts) = .ok q) : Behind q.nodes q.blocks stop := by
  refine (Progress.run_ofTokens_induction
    (motive := fun p us => Ascends us stop ∧ Behind p.nodes p.blocks (front us stop)) ?_ ?_ ?_ ⟨hts, h⟩ hq).2
  · rintro p q t us s ⟨hts, h⟩ hsingle hq
    exact ⟨Ascends.of_append [t] hts, h.single hts hsingle hq⟩
  · rintro p word params us ⟨hts, h⟩ - -
    obtain ⟨e, he, -⟩ := Segment.exists_splitEnding us
    rw [he, ← List.append_assoc] at hts
    exact ⟨Ascends.of_append (word :: (params ++ e)) hts, Behind.atRule h hts⟩
  · rintro p q t head us ⟨hts, h⟩ - - hq
    obtain ⟨e, he, hplace⟩ := Segment.exists_splitEnding us
    rw [he, ← List.append_assoc] at hts
    exact ⟨Ascends.of_append (t :: (head ++ e)) hts, h.statement hts (fun place h => hplace place (.inl h)) hq⟩

end Steps

end Node

open Node

/-- In the stylesheet of a text every statement starts before it ends, or where it ends, what is in a block starts
behind the start of its rule or at-rule and ends before the end of it, and of two statements in the same place the
earlier one ends before the later one starts. -/
theorem Stylesheet.spans_nest {s : String} {sheet : Stylesheet} (h : Stylesheet.parse s = .ok sheet) :
    (∀ n ∈ statementsAll sheet.nodes, n.source.start.Upto n.source.stop ∧
      (∀ child ∈ n.children,
        n.source.start.Precedes child.source.start ∧ child.source.stop.Precedes n.source.stop) ∧
      n.children.Pairwise fun m n => m.source.stop.Precedes n.source.start) ∧
    sheet.nodes.Pairwise fun m n => m.source.stop.Precedes n.source.start := by
  obtain ⟨ts, hts⟩ := exists_ofText_of_parse h
  obtain ⟨p, hp, hfinish⟩ := bind_eq_ok_iff.mp (ofTokens_of_parse h hts)
  obtain ⟨last, hlast, -⟩ := (@run_of_ofCharsFrom none [] _ _ hts).1.exists_eof
  have hascends : Ascends (content ts) last.position := by
    have hpairwise := List.pairwise_map.mpr (@run_of_ofCharsFrom none [] _ _ hts).1.pairwise_precedes
    rwa [hlast, List.map_append, List.map_singleton] at hpairwise
  have hinitial : Behind Progress.initial.nodes Progress.initial.blocks (front (content ts) last.position) :=
    settled_nil _
  have hbehind := Behind.run hascends hinitial hp
  obtain ⟨hblocks, hnodes⟩ := Progress.of_finish hfinish
  have hsettled := hbehind.settled
  rw [hnodes]
  refine ⟨fun n hn => ?_, List.pairwise_reverse.mpr hsettled.apart⟩
  have hencloses := forall_statementsAll_reverse hsettled.encloses n hn
  exact ⟨hencloses.ordered, hencloses.inside, hencloses.apart⟩

/-- An at-rule over two lines that holds a declaration, a comment and a call, with a rule behind it. -/
theorem Stylesheet.spans_nest_of_lines : ∃ declaration comment call rule,
    Stylesheet.parse "@a \x7b\nb: c; /* d */ e(f);\x7d\ng \x7b h: i \x7d" =
      .ok ⟨[.atBlock "a" "" [declaration, comment, call] ⟨⟨1, 1⟩, ⟨2, 20⟩⟩, rule]⟩ ∧
    Position.Precedes ⟨1, 1⟩ declaration.source.start ∧ declaration.source.stop.Precedes comment.source.start ∧
    comment.source.stop.Precedes call.source.start ∧ call.source.stop.Precedes ⟨2, 20⟩ ∧
    Position.Precedes ⟨2, 20⟩ rule.source.start := by
  refine ⟨.declaration "b" "c" ⟨⟨2, 1⟩, ⟨2, 4⟩⟩, .comment "d" ⟨⟨2, 7⟩, ⟨2, 7⟩⟩,
    .call ⟨"e", [.text "f"], " ", "(f)", ⟨⟨2, 15⟩, ⟨2, 19⟩⟩⟩,
    .rule "g" [.declaration "h" "i" ⟨⟨3, 5⟩, ⟨3, 8⟩⟩] ⟨⟨3, 1⟩, ⟨3, 10⟩⟩, ?_⟩
  have hparse : Stylesheet.parse "@a \x7b\nb: c; /* d */ e(f);\x7d\ng \x7b h: i \x7d" =
      .ok ⟨[.atBlock "a" "" [.declaration "b" "c" ⟨⟨2, 1⟩, ⟨2, 4⟩⟩, .comment "d" ⟨⟨2, 7⟩, ⟨2, 7⟩⟩,
        .call ⟨"e", [.text "f"], " ", "(f)", ⟨⟨2, 15⟩, ⟨2, 19⟩⟩⟩] ⟨⟨1, 1⟩, ⟨2, 20⟩⟩,
        .rule "g" [.declaration "h" "i" ⟨⟨3, 5⟩, ⟨3, 8⟩⟩] ⟨⟨3, 1⟩, ⟨3, 10⟩⟩]⟩ := by cbv
  obtain ⟨hnodes, hapart⟩ := Stylesheet.spans_nest hparse
  obtain ⟨-, hinside, hchildren⟩ := hnodes _ List.mem_cons_self
  obtain ⟨hdeclaration, hcall⟩ := List.pairwise_cons.mp hchildren
  exact ⟨hparse, (hinside _ List.mem_cons_self).1, hdeclaration _ List.mem_cons_self,
    (List.pairwise_cons.mp hcall).1 _ List.mem_cons_self, (hinside _ (by simp [children])).2,
    (List.pairwise_cons.mp hapart).1 _ List.mem_cons_self⟩

end Mixsheet
