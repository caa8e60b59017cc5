import Mixsheet.Proofs.Node.Head
import Mixsheet.Proofs.Node.RoundTrip

/-! # The grammar of stylesheets

A stylesheet is a body: white space, semicolons, comments, at-rules and statements one after the other.
`Body` says which tokens are a body and of which statements, with no account of how they are found. A
text is read as a stylesheet exactly if its tokens are a body, and the statements are those of the body
(`parse_iff_body`). -/

namespace Mixsheet

open Token

namespace Node

mutual

/-- A statement without its places and without the text before the names of its calls. -/
def plain : Node → Node
  | .rule selector nodes _ => .rule selector (plainAll nodes) .none
  | .atBlock name params nodes _ => .atBlock name params (plainAll nodes) .none
  | .atStatement name params _ => .atStatement name params .none
  | .declaration prop value _ => .declaration prop value .none
  | .comment text _ => .comment text .none
  | .call c => .call { c with before := "", source := .none }

/-- The statements of a block without their places and the text before the names of their calls. -/
def plainAll : List Node → List Node
  | [] => []
  | node :: rest => node.plain :: plainAll rest

end

theorem plainAll_eq_map (nodes : List Node) : plainAll nodes = nodes.map plain := by
  induction nodes with
  | nil => rfl
  | cons node rest ih => rw [plainAll, ih, List.map_cons]

/-! ### The grammar -/

/-- A head with a colon outside its brackets and a property before its first colon is a declaration. -/
inductive IsDeclaration : List Token → Node → Prop where
  | mk {before after out : List Token} {c : Token} (head : Segment.Head (before ++ c :: after) out)
    (colon : ∃ t ∈ out, t.kind = .colon) (first : ∀ t ∈ before, t.kind ≠ .colon) (kind : c.kind = .colon)
    (property : ¬ Text.Blank (chars before)) :
    IsDeclaration (before ++ c :: after) (.declaration (trimmedText before) (trimmedText after) .none)

/-- A head with a bracket and a word, and with no colon outside its brackets, is a mixin call. The first
word is the name. -/
inductive IsCall : List Token → Node → Prop where
  | mk {before rest out : List Token} {name : Token} (head : Segment.Head (before ++ name :: rest) out)
    (colon : ∀ t ∈ out, t.kind ≠ .colon)
    (bracket : ∃ t ∈ before ++ name :: rest, t.kind = .leftParen ∨ t.kind = .leftBracket ∨ t.kind = .brackets)
    (first : ∀ t ∈ before, t.kind ≠ .word) (kind : name.kind = .word) :
    IsCall (before ++ name :: rest) (.call ⟨name.text, Argument.ofTokens rest, "", join rest, .none⟩)

/-- A statement starts with these tokens, if there are any. -/
def Starts (head : List Token) : Prop := ∀ t ∈ head.head?, Segment.startsHead t.kind = true

/-- How many brackets are open behind tokens of an at-rule: every `(` or `[` opens one and every `)` or
`]` closes one, if one is open. -/
def depth (ts : List Token) : Nat := ts.foldl Segment.depthAfter 0

/-- No `;`, `{` or `}` stands in the parameters of an at-rule where no bracket is open. -/
def IsParams (params : List Token) : Prop :=
  ∀ before t, before ++ [t] <+: params → depth before = 0 → Segment.isStop t = false

/-- Tokens are a body of statements. A nested body is one with a `}` behind it; behind any other body
nothing follows. -/
inductive Body : Bool → List Token → List Node → Prop where
  | nil (nested : Bool) : Body nested [] []
  | skip {nested : Bool} {t : Token} {ts : List Token} {nodes : List Node}
    (kind : t.kind = .space ∨ t.kind = .semicolon) (rest : Body nested ts nodes) : Body nested (t :: ts) nodes
  | comment {nested : Bool} {t : Token} {ts : List Token} {nodes : List Node} (kind : t.kind = .comment)
    (rest : Body nested ts nodes) : Body nested (t :: ts) (.comment (commentText t.text) .none :: nodes)
  | atStatement {nested : Bool} {word stop : Token} {params ts : List Token} {nodes : List Node}
    (kind : word.kind = .atWord) (params_ : IsParams params) (closed : depth params = 0)
    (stop_ : stop.kind = .semicolon) (rest : Body nested ts nodes) :
    Body nested (word :: (params ++ stop :: ts))
      (.atStatement (atName word) (trimmedText params) .none :: nodes)
  | atLast {nested : Bool} {word : Token} {params : List Token} (kind : word.kind = .atWord)
    (params_ : IsParams params) (closed : nested = true → depth params = 0) :
    Body nested (word :: params) [.atStatement (atName word) (trimmedText params) .none]
  | atBlock {nested : Bool} {word brace close : Token} {params inner ts : List Token} {block nodes : List Node}
    (kind : word.kind = .atWord) (params_ : IsParams params) (closed : depth params = 0)
    (opens : brace.kind = .leftBrace) (body : Body true inner block) (closes : close.kind = .rightBrace)
    (rest : Body nested ts nodes) :
    Body nested (word :: (params ++ brace :: (inner ++ close :: ts)))
      (.atBlock (atName word) (trimmedText params) block .none :: nodes)
  | rule {nested : Bool} {brace close : Token} {head out inner ts : List Token} {block nodes : List Node}
    (starts : Starts head) (head_ : Segment.Head head out) (opens : brace.kind = .leftBrace)
    (body : Body true inner block) (closes : close.kind = .rightBrace) (rest : Body nested ts nodes) :
    Body nested (head ++ brace :: (inner ++ close :: ts)) (.rule (trimmedText head) block .none :: nodes)
  | statement {nested : Bool} {stop : Token} {head ts : List Token} {node : Node} {nodes : List Node}
    (starts : Starts head) (node_ : IsDeclaration head node ∨ IsCall head node) (stop_ : stop.kind = .semicolon)
    (rest : Body nested ts nodes) : Body nested (head ++ stop :: ts) (node :: nodes)
  /-- The last declaration needs no semicolon; white space and comments behind it are not its own. -/
  | last {nested : Bool} {head : List Token} {node : Node} (starts : Starts head)
    (node_ : IsDeclaration (dropTriviaEnd head) node) : Body nested head [node]

/-! ### One statement -/

theorem trimmedText_eq_empty_iff {ts : List Token} : trimmedText ts = "" ↔ Text.Blank (chars ts) := by
  rw [trimmedText_eq, ← Text.trim_eq_nil_iff]
  constructor
  · intro h
    rw [← String.toList_ofList (l := Text.trim (chars ts)), h]
    rfl
  · intro h
    rw [h]

theorem hasColon_iff {ts out : List Token} (h : Segment.Head ts out) :
    hasColon ts = true ↔ ∃ t ∈ out, t.kind = .colon := by
  rw [hasColon, h.whole.2]
  simp

theorem hasColon_eq_false {ts out : List Token} (h : Segment.Head ts out) (hout : ∀ t ∈ out, t.kind ≠ .colon) :
    hasColon ts = false := by
  rw [Bool.eq_false_iff, Ne, hasColon_iff h]
  rintro ⟨t, ht, hk⟩
  exact hout t ht hk

theorem hasBrackets_iff {ts : List Token} : hasBrackets ts = true ↔
    ∃ t ∈ ts, t.kind = .leftParen ∨ t.kind = .leftBracket ∨ t.kind = .brackets := by
  simp [hasBrackets, or_assoc]

theorem IsDeclaration.head {ts : List Token} {node : Node} (h : IsDeclaration ts node) :
    ∃ out, Segment.Head ts out ∧ hasColon ts = true := by
  obtain ⟨head, colon, -, -, -⟩ := h
  exact ⟨_, head, (hasColon_iff head).mpr colon⟩

theorem IsDeclaration.declarationOf_eq {ts : List Token} {node : Node} (h : IsDeclaration ts node)
    (start : Position) : ∃ node', declarationOf start ts = .ok node' ∧ node'.plain = node := by
  obtain ⟨head, colon, first, kind, property⟩ := h
  refine ⟨_, declarationOf_append (fun t ht => by simpa using first t ht) kind ?_ start, rfl⟩
  exact fun he => property (trimmedText_eq_empty_iff.mp he)

theorem isDeclaration_of_declarationOf {ts out : List Token} {start : Position} {node : Node}
    (head : Segment.Head ts out) (hcolon : hasColon ts = true) (h : declarationOf start ts = .ok node) :
    IsDeclaration ts node.plain := by
  obtain ⟨prop, value, source, rfl⟩ := exists_of_declarationOf h
  obtain ⟨before, c, after, rfl, hfirst, hc, hne, hprop, hvalue⟩ := exists_parts hcolon h
  rw [plain, ← hprop, ← hvalue]
  refine .mk head ((hasColon_iff head).mp hcolon) (fun t ht => by simpa using hfirst t ht) hc fun hblank => ?_
  rw [← trimmedText_eq_empty_iff, hprop] at hblank
  exact hne hblank

theorem IsCall.head {ts : List Token} {node : Node} (h : IsCall ts node) :
    ∃ out, Segment.Head ts out ∧ hasColon ts = false ∧ hasBrackets ts = true := by
  obtain ⟨head, colon, bracket, -, -⟩ := h
  exact ⟨_, head, hasColon_eq_false head colon, hasBrackets_iff.mpr bracket⟩

theorem IsCall.callOf_eq {ts : List Token} {node : Node} (h : IsCall ts node) (spaces : String)
    (start stop : Position) : ∃ node', callOf spaces start ts stop = .ok node' ∧ node'.plain = node := by
  obtain ⟨head, colon, bracket, first, kind⟩ := h
  rename_i before rest out name
  have hdrop : (before ++ name :: rest).dropWhile (·.kind != .word) = name :: rest := by
    rw [List.dropWhile_append_of_pos (fun t ht => by simpa using first t ht),
      List.dropWhile_cons_of_neg (by simp [kind])]
  rw [callOf, hdrop]
  exact ⟨_, rfl, rfl⟩

theorem isCall_of_callOf {ts out : List Token} {spaces : String} {start stop : Position} {node : Node}
    (head : Segment.Head ts out) (hcolon : hasColon ts = false) (hbracket : hasBrackets ts = true)
    (h : callOf spaces start ts stop = .ok node) : IsCall ts node.plain := by
  obtain ⟨before, name, rest, rfl, hfirst, hname, rfl⟩ := exists_name h
  refine .mk head (fun t ht hk => ?_) (hasBrackets_iff.mp hbracket) hfirst hname
  have := (hasColon_iff head).mpr ⟨t, ht, hk⟩
  rw [hcolon] at this
  cases this

end Node
end Mixsheet
