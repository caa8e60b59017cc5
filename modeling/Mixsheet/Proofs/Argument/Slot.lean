import Mixsheet.Proofs.Argument.Keyed
import Mixsheet.Proofs.Argument.Places
import Mixsheet.Proofs.Token.Trim

/-! # The grammar of scanned calls

A scanned call is well formed if its inside is made of slots with commas between. A slot is a stack of
items, or a list of slots in square brackets. The scan goes through the tokens once, from left to right,
and what it has of the arguments behind each slot is what the slot stands for. -/

namespace Mixsheet

open Token

namespace Scan

/-! ### The grammar -/

/-- Every opener of a kind has its closer, and every closer its opener; other tokens do not count. -/
inductive Balanced (opener closer : TokenKind) : List Token → Prop where
  | nil : Balanced opener closer []
  | token {t : Token} {ts : List Token} (opens : t.kind ≠ opener) (closes : t.kind ≠ closer)
    (rest : Balanced opener closer ts) : Balanced opener closer (t :: ts)
  | pair {first last : Token} {inner ts : List Token} (opens : first.kind = opener) (closes : last.kind = closer)
    (inside : Balanced opener closer inner) (rest : Balanced opener closer ts) :
    Balanced opener closer (first :: (inner ++ last :: ts))

/-- Tokens that are an argument, or a part of one, by themselves. -/
def IsValue (t : Token) : Prop := t.kind = .word ∨ t.kind = .string ∨ t.kind = .atWord

/-- A value, or a word with a group in parentheses right behind it. -/
inductive Item : List Token → Prop where
  | value {t : Token} (value : IsValue t) : Item [t]
  | brackets {word group : Token} (kind : word.kind = .word) (group_ : group.kind = .brackets) : Item [word, group]
  | group {word first last : Token} {inner : List Token} (kind : word.kind = .word) (opens : first.kind = .leftParen)
    (inside : Balanced .leftParen .rightParen inner) (closes : last.kind = .rightParen) :
    Item (word :: first :: (inner ++ [last]))

/-- Items with white space between each two, and their texts. White space is one token. -/
inductive Stack : List Token → List String → Prop where
  | one {item : List Token} (item_ : Item item) : Stack item [join item]
  | more {item ts : List Token} {space : Token} {texts : List String} (item_ : Item item) (kind : space.kind = .space)
    (rest : Stack ts texts) : Stack (item ++ space :: ts) (join item :: texts)

/-- White space or nothing. -/
def Gap (ts : List Token) : Prop := ts = [] ∨ ∃ t, ts = [t] ∧ t.kind = .space

/-- At least one part, with a comma between each two and white space around them. -/
inductive Separated : List (List Token) → List Token → Prop where
  | one {part before after : List Token} (before_ : Gap before) (after_ : Gap after) :
    Separated [part] (before ++ (part ++ after))
  | more {part before after ts : List Token} {parts : List (List Token)} {comma : Token} (before_ : Gap before)
    (after_ : Gap after) (kind : comma.kind = .comma) (rest : Separated parts ts) :
    Separated (part :: parts) (before ++ (part ++ (after ++ comma :: ts)))

/-- Tokens stand for an argument: a stack for one text, and a list in square brackets for the list of
what its slots stand for. -/
inductive Slot : List Token → Argument → Prop where
  | stack {ts : List Token} {texts : List String} (stack_ : Stack ts texts) : Slot ts (.text (", ".intercalate texts))
  | empty {first last : Token} {gap : List Token} (opens : first.kind = .leftBracket) (gap_ : Gap gap)
    (closes : last.kind = .rightBracket) : Slot (first :: (gap ++ [last])) (.list [])
  | list {first last : Token} {inner : List Token} {parts : List (List Token × Argument)}
    (opens : first.kind = .leftBracket) (slots : ∀ p ∈ parts, Slot p.1 p.2)
    (separated : Separated (parts.map (·.1)) inner) (balanced : Balanced .leftBracket .rightBracket inner)
    (closes : last.kind = .rightBracket) : Slot (first :: (inner ++ [last])) (.list (parts.map (·.2)))

/-- A key with its slot: `key: slot`. -/
inductive Keyed : List Token → String × Argument → Prop where
  | mk {key colon : Token} {before after ts : List Token} {argument : Argument} (key_ : IsValue key)
    (before_ : Gap before) (kind : colon.kind = .colon) (after_ : Gap after) (slot : Slot ts argument) :
    Keyed (key :: (before ++ colon :: (after ++ ts))) (key.text, argument)

/-- The parts of a run between its commas stand for some things, one each. -/
def Parts {α : Type} (R : List Token → α → Prop) (ts : List Token) (values : List α) : Prop :=
  ∃ parts : List (List Token × α), (∀ p ∈ parts, R p.1 p.2) ∧ Separated (parts.map (·.1)) ts ∧
    parts.map (·.2) = values

theorem balanced_append {opener closer : TokenKind} {ts us : List Token} (h : Balanced opener closer ts)
    (hu : Balanced opener closer us) : Balanced opener closer (ts ++ us) := by
  induction h with
  | nil => exact hu
  | token opens closes _ ih => exact .token opens closes ih
  | pair opens closes inside _ _ ih =>
    rw [List.cons_append, List.append_assoc, List.cons_append]
    exact .pair opens closes inside ih

/-! ### Steps of the scan -/

theorem append_append (arguments : List Argument) (s s' : String) :
    append (append arguments s) s' = append arguments (s ++ s') := by
  cases arguments with
  | nil => rfl
  | cons a rest => cases a <;> simp [append, String.append_assoc]

/-- The arguments when a text comes that continues the last one or starts a new one. -/
def put (before : List Token) (arguments : List Argument) (s : String) : List Argument :=
  if continuesStack before arguments then append arguments (", " ++ s) else .text s :: arguments

theorem append_put (before : List Token) (arguments : List Argument) (s s' : String) :
    append (put before arguments s) s' = put before arguments (s ++ s') := by
  unfold put
  split
  · rw [append_append, String.append_assoc]
  · rfl

theorem exists_put (before : List Token) (arguments : List Argument) (s : String) :
    ∃ last rest, put before arguments s = .text last :: rest := by
  unfold put
  split
  · cases arguments with
    | nil => exact ⟨_, _, rfl⟩
    | cons a rest => cases a <;> exact ⟨_, _, rfl⟩
  · exact ⟨_, _, rfl⟩

section Steps

variable {t : Token} {before rest : List Token} {arguments : List Argument} {keyed : Bool}

theorem argumentsFrom_value (h : IsValue t) : argumentsFrom before 0 arguments keyed (t :: rest) =
    argumentsFrom (t :: before) 0 (put before arguments t.text) keyed rest := by
  rw [argumentsFrom, if_neg (Nat.lt_irrefl 0), put]
  rcases h with h | h | h <;> (simp only [h]; split <;> rfl)

theorem argumentsFrom_pass (h : t.kind = .space ∨ t.kind = .comma) :
    argumentsFrom before 0 arguments keyed (t :: rest) = argumentsFrom (t :: before) 0 arguments keyed rest := by
  rw [argumentsFrom, if_neg (Nat.lt_irrefl 0)]
  rcases h with h | h <;> simp only [h]

theorem argumentsFrom_colon (h : t.kind = .colon) : argumentsFrom before 0 arguments keyed (t :: rest) =
    argumentsFrom (t :: before) 0 arguments true rest := by
  rw [argumentsFrom, if_neg (Nat.lt_irrefl 0)]
  simp only [h]

theorem argumentsFrom_brackets {word : Token} (hword : word.kind = .word) (h : t.kind = .brackets) :
    argumentsFrom (word :: before) 0 arguments keyed (t :: rest) =
      argumentsFrom (t :: word :: before) 0 (append arguments t.text) keyed rest := by
  rw [argumentsFrom, if_neg (Nat.lt_irrefl 0)]
  simp [h, hword]

theorem argumentsFrom_leftParen (h : t.kind = .leftParen) : argumentsFrom before 0 arguments keyed (t :: rest) =
    argumentsFrom (t :: before) 1 (append arguments t.text) keyed rest := by
  rw [argumentsFrom, if_neg (Nat.lt_irrefl 0)]
  simp only [h]

theorem argumentsFrom_inside (depth : Nat) : argumentsFrom before (depth + 1) arguments keyed (t :: rest) =
    argumentsFrom (t :: before) (depthAfter (depth + 1) t) (append arguments t.text) keyed rest := by
  rw [argumentsFrom, if_pos (Nat.succ_pos depth)]

end Steps

theorem depthAfter_leftParen {t : Token} (h : t.kind = .leftParen) (depth : Nat) : depthAfter depth t = depth + 1 := by
  simp [depthAfter, h]

theorem depthAfter_rightParen {t : Token} (h : t.kind = .rightParen) (depth : Nat) :
    depthAfter (depth + 1) t = depth := by
  simp [depthAfter, h]

theorem depthAfter_of_ne {t : Token} (hopens : t.kind ≠ .leftParen) (hcloses : t.kind ≠ .rightParen) (depth : Nat) :
    depthAfter depth t = depth := by
  unfold depthAfter
  split <;> first | contradiction | rfl

/-- The arguments behind a token that opens neither a function nor a list. -/
def taken (before : List Token) (arguments : List Argument) (t : Token) : List Argument :=
  match t.kind with
  | .word | .string | .atWord => put before arguments t.text
  | .rightParen => append arguments t.text
  | .brackets =>
    if before.head?.any (·.kind == .word) then append arguments t.text else .text t.text :: arguments
  | _ => arguments

theorem argumentsFrom_taken {t : Token} (hparen : t.kind ≠ .leftParen) (hbracket : t.kind ≠ .leftBracket)
    (before : List Token) (arguments : List Argument) (keyed : Bool) (rest : List Token) :
    argumentsFrom before 0 arguments keyed (t :: rest) =
      argumentsFrom (t :: before) 0 (taken before arguments t) (keyed || decide (t.kind = .colon)) rest := by
  rw [argumentsFrom, if_neg (Nat.lt_irrefl 0), taken]
  cases hkind : t.kind with
  | leftParen => exact absurd hkind hparen
  | leftBracket => exact absurd hkind hbracket
  | word | string | atWord => simp only [put]; split <;> simp
  | brackets => simp only; split <;> simp
  | _ => simp

/-! ### Items and stacks -/

/-- Inside a function the scan puts the text of all tokens to the last argument. -/
theorem Balanced.argumentsFrom {inner : List Token} (h : Balanced .leftParen .rightParen inner) (depth : Nat)
    (before : List Token) (arguments : List Argument) (s : String) (keyed : Bool) (rest : List Token) :
    argumentsFrom before (depth + 1) (append arguments s) keyed (inner ++ rest) =
      argumentsFrom (inner.reverse ++ before) (depth + 1) (append arguments (s ++ join inner)) keyed rest := by
  induction h generalizing depth before s rest with
  | nil => simp
  | @token t ts opens closes _ ih =>
    rw [List.cons_append, argumentsFrom_inside, depthAfter_of_ne opens closes, append_append, ih, join_cons,
      List.reverse_cons, List.append_assoc, List.singleton_append, String.append_assoc]
  | @pair first last inner ts opens closes _ _ ihi ih =>
    rw [List.cons_append, List.append_assoc, List.cons_append, argumentsFrom_inside, depthAfter_leftParen opens,
      append_append, ihi, argumentsFrom_inside, depthAfter_rightParen closes, append_append, ih]
    simp [join_cons, join_append, String.append_assoc]

/-- The scan puts a whole group in parentheses to the last argument. -/
theorem argumentsFrom_group {first last : Token} {inner : List Token} (opens : first.kind = .leftParen)
    (inside : Balanced .leftParen .rightParen inner) (closes : last.kind = .rightParen) (before : List Token)
    (arguments : List Argument) (keyed : Bool) (rest : List Token) :
    argumentsFrom before 0 arguments keyed (first :: (inner ++ last :: rest)) =
      argumentsFrom (last :: (inner.reverse ++ first :: before)) 0
        (append arguments (join (first :: (inner ++ [last])))) keyed rest := by
  rw [argumentsFrom_leftParen opens, inside.argumentsFrom 0, argumentsFrom_inside, depthAfter_rightParen closes,
    append_append]
  simp [join_cons, join_append, String.append_assoc]

theorem Item.argumentsFrom {item : List Token} (h : Item item) (before : List Token) (arguments : List Argument)
    (keyed : Bool) (rest : List Token) :
    argumentsFrom before 0 arguments keyed (item ++ rest) =
      argumentsFrom (item.reverse ++ before) 0 (put before arguments (join item)) keyed rest := by
  cases h with
  | @value t value =>
    rw [List.singleton_append, argumentsFrom_value value]
    simp [join]
  | @brackets word group kind group_ =>
    rw [List.cons_append, List.singleton_append, argumentsFrom_value (.inl kind), argumentsFrom_brackets kind group_,
      append_put]
    simp [join]
  | @group word first last inner kind opens inside closes =>
    rw [List.cons_append, List.cons_append, List.append_assoc, argumentsFrom_value (.inl kind), List.singleton_append,
      argumentsFrom_group opens inside closes, append_put]
    simp [join_cons, join_append]

/-- No token but a comma ends with one. -/
def CommaFree (ts : List Token) : Prop := ∀ t ∈ ts, t.kind ≠ .comma → t.text.toList.getLast? ≠ some ','

theorem Item.exists_last {item : List Token} (h : Item item) :
    ∃ t us, item.reverse = t :: us ∧ t ∈ item ∧ t.kind ≠ .colon ∧ t.kind ≠ .comma := by
  cases h with
  | @value t value =>
    refine ⟨t, [], rfl, List.mem_singleton_self t, ?_, ?_⟩ <;>
      (intro hk; rcases value with h | h | h <;> simp [h] at hk)
  | @brackets word group kind group_ =>
    exact ⟨group, [word], rfl, by simp, by simp [group_], by simp [group_]⟩
  | @group word first last inner kind opens inside closes =>
    exact ⟨last, inner.reverse ++ [first, word], by simp, by simp, by simp [closes], by simp [closes]⟩

theorem Item.continuesStack {item : List Token} (h : Item item) (hfree : CommaFree item) {space : Token}
    (hspace : space.kind = .space) (before : List Token) (last : String) (rest : List Argument) :
    continuesStack (space :: (item.reverse ++ before)) (.text last :: rest) = true := by
  obtain ⟨t, us, hreverse, hmem, hcolon, hcomma⟩ := h.exists_last
  rw [hreverse, List.cons_append, Scan.continuesStack]
  simp [hspace, hcolon, hcomma, hfree t hmem hcomma]

theorem Stack.argumentsFrom {ts : List Token} {texts : List String} (h : Stack ts texts) (hfree : CommaFree ts)
    (before : List Token) (arguments : List Argument) (keyed : Bool) (rest : List Token) :
    argumentsFrom before 0 arguments keyed (ts ++ rest) =
      argumentsFrom (ts.reverse ++ before) 0 (put before arguments (", ".intercalate texts)) keyed rest := by
  induction h generalizing before arguments with
  | one item_ => rw [item_.argumentsFrom, String.intercalate_singleton]
  | @more item ts space texts item_ kind stack ih =>
    obtain ⟨hitem, hts⟩ := List.forall_mem_append.mp hfree
    obtain ⟨last, rest', hput⟩ := exists_put before arguments (join item)
    have hcontinues := item_.continuesStack hitem kind before last rest'
    obtain ⟨text, texts', rfl⟩ : ∃ text texts', texts = text :: texts' := by
      cases stack <;> exact ⟨_, _, rfl⟩
    rw [List.append_assoc, List.cons_append, item_.argumentsFrom, argumentsFrom_pass (.inl kind),
      ih (List.forall_mem_cons.mp hts).2, hput, put, hcontinues, if_pos rfl, ← hput, append_put,
      String.intercalate_cons_cons]
    simp [String.append_assoc]

/-! ### Slots -/

/-- The next text starts an argument of its own. -/
def Fresh (before : List Token) : Prop := ∀ arguments, continuesStack before arguments = false

/-- The tokens before are none, or end with a separator. -/
def AtStart (before : List Token) : Prop := ∀ t ∈ before.head?, t.kind = .comma ∨ t.kind = .colon

theorem AtStart.fresh {before : List Token} (h : AtStart before) : Fresh before := by
  intro arguments
  match before, arguments with
  | [], _ => rfl
  | [_], _ => rfl
  | _ :: _ :: _, [] => rfl
  | t :: _ :: _, .text _ :: _ =>
    rw [continuesStack]
    rcases h t rfl with hk | hk <;> simp [hk]
  | _ :: _ :: _, .list _ :: _ => rfl
  | _ :: _ :: _, .map _ :: _ => rfl

theorem AtStart.fresh_cons {before : List Token} (h : AtStart before) (space : Token) : Fresh (space :: before) := by
  intro arguments
  match before, arguments with
  | [], _ => rfl
  | _ :: _, [] => rfl
  | t :: _, .text _ :: _ =>
    rw [continuesStack]
    rcases h t rfl with hk | hk <;> simp [hk]
  | _ :: _, .list _ :: _ => rfl
  | _ :: _, .map _ :: _ => rfl

/-- Behind a separator the scan takes tokens as these arguments; `colon` says that a colon is among
them. -/
def Scans (ts : List Token) (found : List Argument) (colon : Bool) : Prop :=
  ∀ before arguments keyed rest, Fresh before → argumentsFrom before 0 arguments keyed (ts ++ rest) =
    argumentsFrom (ts.reverse ++ before) 0 (found.reverse ++ arguments) (keyed || colon) rest

theorem Gap.argumentsFrom {gap : List Token} (h : Gap gap) (before : List Token) (arguments : List Argument)
    (keyed : Bool) (rest : List Token) :
    argumentsFrom before 0 arguments keyed (gap ++ rest) =
      argumentsFrom (gap.reverse ++ before) 0 arguments keyed rest := by
  rcases h with rfl | ⟨t, rfl, ht⟩
  · rfl
  · exact argumentsFrom_pass (.inl ht)

theorem Gap.argumentsFrom_nil {gap : List Token} (h : Gap gap) :
    Scan.argumentsFrom [] 0 [] false gap = ([], false) := by
  have := h.argumentsFrom [] [] false []
  rw [List.append_nil] at this
  rw [this, Scan.argumentsFrom]
  rfl

theorem Gap.fresh {gap : List Token} (h : Gap gap) {before : List Token} (hstart : AtStart before) :
    Fresh (gap.reverse ++ before) := by
  rcases h with rfl | ⟨t, rfl, -⟩
  · exact hstart.fresh
  · exact hstart.fresh_cons t

theorem put_of_fresh {before : List Token} (h : Fresh before) (arguments : List Argument) (s : String) :
    put before arguments s = .text s :: arguments := by
  rw [put, h, if_neg Bool.false_ne_true]

/-- A list runs to the bracket that closes its own. -/
theorem Balanced.splitList {inner : List Token} (h : Balanced .leftBracket .rightBracket inner) (depth : Nat)
    (rest : List Token) : splitList depth (inner ++ rest) =
      (inner ++ (splitList depth rest).1, (splitList depth rest).2) := by
  induction h generalizing depth rest with
  | nil => rfl
  | @token t ts opens closes _ ih =>
    have hdepth : listsAfter depth t.kind = depth := by
      unfold listsAfter
      split <;> first | contradiction | rfl
    rw [List.cons_append, Scan.splitList, if_neg (by simp [closes]), hdepth, ih]
    rfl
  | @pair first last inner ts opens closes _ _ ihi ih =>
    have hopen : listsAfter depth first.kind = depth + 1 := by rw [opens]; rfl
    have hclose : listsAfter (depth + 1) last.kind = depth := by rw [closes]; rfl
    rw [List.cons_append, List.append_assoc, List.cons_append, Scan.splitList, if_neg (by simp [opens]), hopen, ihi,
      Scan.splitList, if_neg (by simp), hclose, ih]
    simp

theorem Balanced.splitList_cons {inner : List Token} (h : Balanced .leftBracket .rightBracket inner) {last : Token}
    (closes : last.kind = .rightBracket) (rest : List Token) :
    Scan.splitList 0 (inner ++ last :: rest) = (inner, last :: rest) := by
  rw [h.splitList, Scan.splitList, if_pos ⟨closes, rfl⟩, List.append_nil]

/-- The scan goes on behind a whole list with the list of what it finds inside. -/
theorem argumentsFrom_list {first last : Token} {inner : List Token} (opens : first.kind = .leftBracket)
    (inside : Balanced .leftBracket .rightBracket inner) (closes : last.kind = .rightBracket) (before : List Token)
    (arguments : List Argument) (keyed : Bool) (rest : List Token) :
    argumentsFrom before 0 arguments keyed (first :: (inner ++ last :: rest)) =
      argumentsFrom (last :: (inner.reverse ++ first :: before)) 0
        (.list (argumentsFrom [] 0 [] false inner).1 :: arguments) keyed rest := by
  rw [argumentsFrom_leftBracket opens, inside.splitList_cons closes]

theorem scans_list {first last : Token} {inner : List Token} (opens : first.kind = .leftBracket)
    (balanced : Balanced .leftBracket .rightBracket inner) (closes : last.kind = .rightBracket) :
    Scans (first :: (inner ++ [last])) [.list (Scan.argumentsFrom [] 0 [] false inner).1] false := by
  intro before arguments keyed rest _
  rw [List.cons_append, List.append_assoc, List.singleton_append, argumentsFrom_list opens balanced closes]
  simp

theorem atStart_cons {t : Token} (h : t.kind = .comma ∨ t.kind = .colon) (before : List Token) :
    AtStart (t :: before) := by
  intro t' ht'
  obtain rfl := Option.some.inj ht'
  exact h

theorem Scans.argumentsFrom_gaps {part front back : List Token} {found : List Argument} {colon : Bool}
    (h : Scans part found colon) (front_ : Gap front) (back_ : Gap back) {before : List Token}
    (hbefore : AtStart before) (arguments : List Argument) (keyed : Bool) (rest : List Token) :
    argumentsFrom before 0 arguments keyed (front ++ (part ++ (back ++ rest))) =
      argumentsFrom (back.reverse ++ (part.reverse ++ (front.reverse ++ before))) 0 (found.reverse ++ arguments)
        (keyed || colon) rest := by
  rw [front_.argumentsFrom, h _ _ _ _ (front_.fresh hbefore), back_.argumentsFrom]

/-- The arguments of separated parts are those of the parts, in order. -/
theorem Separated.argumentsFrom {parts : List (List Token × List Argument × Bool)} {ts : List Token}
    (h : Separated (parts.map (·.1)) ts) (hparts : ∀ p ∈ parts, Scans p.1 p.2.1 p.2.2) {before : List Token}
    (hbefore : AtStart before) (arguments : List Argument) (keyed : Bool) (rest : List Token) :
    argumentsFrom before 0 arguments keyed (ts ++ rest) = argumentsFrom (ts.reverse ++ before) 0
      ((parts.flatMap (·.2.1)).reverse ++ arguments) (keyed || parts.any (·.2.2)) rest := by
  generalize hlists : parts.map (·.1) = lists at h
  induction h generalizing parts before arguments keyed with
  | @one part front back front_ back_ =>
    obtain ⟨⟨_, found, colon⟩, tail, rfl, rfl, htail⟩ := List.map_eq_cons_iff.mp hlists
    obtain rfl := List.map_eq_nil_iff.mp htail
    have hpart : Scans _ found colon := hparts _ List.mem_cons_self
    rw [List.append_assoc, List.append_assoc, hpart.argumentsFrom_gaps front_ back_ hbefore]
    simp
  | @more part front back ts lists comma front_ back_ kind _ ih =>
    obtain ⟨⟨_, found, colon⟩, tail, rfl, rfl, htail⟩ := List.map_eq_cons_iff.mp hlists
    obtain ⟨hpart, htails⟩ := List.forall_mem_cons.mp hparts
    have hpart : Scans _ found colon := hpart
    rw [List.append_assoc, List.append_assoc, List.append_assoc, hpart.argumentsFrom_gaps front_ back_ hbefore,
      List.cons_append, argumentsFrom_pass (.inr kind), ih htails (atStart_cons (.inl kind) _) _ _ htail]
    simp [Bool.or_assoc]

theorem Separated.mem {lists : List (List Token)} {ts : List Token} (h : Separated lists ts) {part : List Token}
    (hpart : part ∈ lists) {t : Token} (ht : t ∈ part) : t ∈ ts := by
  induction h with
  | one before_ after_ =>
    obtain rfl := List.mem_singleton.mp hpart
    simp [ht]
  | more before_ after_ kind _ ih =>
    rcases List.mem_cons.mp hpart with rfl | hpart
    · simp [ht]
    · simp [ih hpart]

theorem Separated.argumentsFrom_nil {α : Type} {parts : List (List Token × α)} {ts : List Token}
    (h : Separated (parts.map (·.1)) ts) (found : α → List Argument) (colon : α → Bool)
    (hparts : ∀ p ∈ parts, Scans p.1 (found p.2) (colon p.2)) :
    Scan.argumentsFrom [] 0 [] false ts = ((parts.map (·.2)).flatMap found, (parts.map (·.2)).any colon) := by
  have hmap : (parts.map fun p => (p.1, found p.2, colon p.2)).map (·.1) = parts.map (·.1) := by simp
  have hscans : ∀ p ∈ parts.map fun p => (p.1, found p.2, colon p.2), Scans p.1 p.2.1 p.2.2 := by
    intro p hp
    obtain ⟨q, hq, rfl⟩ := List.mem_map.mp hp
    exact hparts q hq
  have hstart : AtStart [] := fun _ ht => by cases ht
  have := Separated.argumentsFrom (hmap ▸ h) hscans hstart [] false []
  rw [List.append_nil] at this
  rw [this, Scan.argumentsFrom]
  simp [List.flatMap_map, List.any_map, Function.comp_def]

theorem Slot.scans {ts : List Token} {argument : Argument} (h : Slot ts argument) (hfree : CommaFree ts) :
    Scans ts [argument] false := by
  induction h with
  | @stack ts texts stack_ =>
    intro before arguments keyed rest hfresh
    rw [stack_.argumentsFrom hfree, put_of_fresh hfresh]
    simp
  | @empty first last gap opens gap_ closes =>
    have hbalanced : Balanced .leftBracket .rightBracket gap := by
      rcases gap_ with rfl | ⟨t, rfl, ht⟩
      · exact .nil
      · exact .token (by simp [ht]) (by simp [ht]) .nil
    have := scans_list opens hbalanced closes
    rwa [gap_.argumentsFrom_nil] at this
  | @list first last inner parts opens slots separated balanced closes ih =>
    have hscans : ∀ p ∈ parts, Scans p.1 [p.2] false := by
      intro p hp
      refine ih p hp fun t ht => hfree t ?_
      have := separated.mem (List.mem_map_of_mem hp) ht
      simp [this]
    have := separated.argumentsFrom_nil (fun a => [a]) (fun _ => false) hscans
    have hlist := scans_list opens balanced closes
    rw [this] at hlist
    simpa using hlist

theorem Keyed.scans {ts : List Token} {entry : String × Argument} (h : Keyed ts entry) (hfree : CommaFree ts) :
    Scans ts [.text entry.1, entry.2] true := by
  obtain ⟨key_, before_, kind, after_, slot⟩ := h
  rename_i key colon front back ts argument
  intro before arguments keyed rest hfresh
  have hslot := slot.scans fun t ht => hfree t (by simp [ht])
  have hstart := atStart_cons (.inr kind) (front.reverse ++ key :: before)
  rw [List.cons_append, argumentsFrom_value key_, put_of_fresh hfresh, List.append_assoc, before_.argumentsFrom,
    List.cons_append, argumentsFrom_colon kind, List.append_assoc, after_.argumentsFrom,
    hslot _ _ _ _ (after_.fresh hstart)]
  simp

/-- Tokens between commas are a piece: a slot, or a key with its slot. -/
inductive IsPiece : List Token → Piece → Prop where
  | slot {ts : List Token} {argument : Argument} (slot_ : Slot ts argument) : IsPiece ts (.single argument)
  | entry {ts : List Token} {entry : String × Argument} (entry_ : Keyed ts entry) : IsPiece ts (.pair entry.1 entry.2)

theorem arguments_of_pieces {ts : List Token} {pieces : List Piece} (h : Parts IsPiece ts pieces)
    (hfree : CommaFree ts) :
    arguments ts = Piece.arguments (pieces.any Piece.isPair) ((pieces.flatMap Piece.scanned).map .single) := by
  obtain ⟨parts, hparts, hseparated, rfl⟩ := h
  have hscans : ∀ p ∈ parts, Scans p.1 p.2.scanned p.2.isPair := by
    intro p hp
    have hmem : CommaFree p.1 := fun t ht => hfree t (hseparated.mem (List.mem_map_of_mem hp) ht)
    obtain ⟨ts, piece⟩ := p
    cases hparts _ hp with
    | slot slot_ => exact slot_.scans hmem
    | entry entry_ => exact entry_.scans hmem
  rw [arguments, hseparated.argumentsFrom_nil Piece.scanned Piece.isPair hscans]

theorem Parts.map {α β : Type} {R : List Token → α → Prop} {S : List Token → β → Prop} {ts : List Token}
    {values : List α} (h : Parts R ts values) (f : α → β) (hf : ∀ {part value}, R part value → S part (f value)) :
    Parts S ts (values.map f) := by
  obtain ⟨parts, hparts, hseparated, rfl⟩ := h
  refine ⟨parts.map fun p => (p.1, f p.2), ?_, by simpa [Function.comp_def] using hseparated, by simp⟩
  intro p hp
  obtain ⟨q, hq, rfl⟩ := List.mem_map.mp hp
  exact hf (hparts q hq)

theorem Parts.ne_nil {α : Type} {R : List Token → α → Prop} {ts : List Token} {values : List α}
    (h : Parts R ts values) : values ≠ [] := by
  obtain ⟨parts, -, hseparated, rfl⟩ := h
  generalize hlists : parts.map (·.1) = lists at hseparated
  rintro hnil
  obtain rfl := List.map_eq_nil_iff.mp hnil
  subst hlists
  cases hseparated

end Scan

/-! ### The tokens of a text -/

theorem Token.Reads.commaFree {u : Bool} {ts : List Token} {k : List Char} (h : Reads u ts k) :
    Scan.CommaFree ts := by
  intro t ht hkind
  obtain ⟨v, r, hr⟩ := h.readAs ht
  obtain ⟨c, cs, l, hreading, hk, htext, -⟩ := hr
  rw [htext]
  exact hreading.getLast?_ne (hk ▸ hkind)

namespace Argument

open Scan

/-- A call in its own parentheses is scanned between them. -/
theorem ofTokens_parens {first last : Token} (opens : first.kind = .leftParen) (closes : last.kind = .rightParen)
    (inside : List Token) : ofTokens (first :: (inside ++ [last])) = Scan.arguments inside := by
  have htrim : trimTrivia (first :: (inside ++ [last])) = first :: (inside ++ [last]) := by
    have hfirst : first.isTrivia = false := by simp [isTrivia, TokenKind.isTrivia, opens]
    have hlast : last.isTrivia = false := by simp [isTrivia, TokenKind.isTrivia, closes]
    simp [trimTrivia, dropTrivia, dropTriviaEnd, hfirst, hlast]
  rw [ofTokens, htrim]
  simp [opens, dropClosing, closes]

/-- A scanned call is what its parts stand for. Slots are an argument each, in order; keys with their
slots are one map, which has each key where it first comes, with the slot it comes with last. -/
theorem ofTokens_slots {s : String} {ts inside : List Token} {first last : Token} (h : Token.ofText s = .ok ts)
    (hrun : first :: (inside ++ [last]) <:+: content ts) (opens : first.kind = .leftParen)
    (closes : last.kind = .rightParen) :
    (∀ arguments, Parts Slot inside arguments → ofTokens (first :: (inside ++ [last])) = arguments) ∧
    (∀ entries, Parts Keyed inside entries → ∃ table, ofTokens (first :: (inside ++ [last])) = [.map table] ∧
      Table.keys table = (entries.map (·.1)).eraseDups ∧
      ∀ key, Table.get? key table = entries.reverse.lookup key) := by
  have hfree : CommaFree inside := by
    intro t ht
    refine (reads_of_ofText h).1.commaFree t (hrun.subset ?_)
    simp [ht]
  have hscan : ∀ {pieces}, Parts IsPiece inside pieces → (pieces.any Piece.isPair = true → Piece.Aligned pieces) →
      ofTokens (first :: (inside ++ [last])) = Piece.arguments (pieces.any Piece.isPair) pieces := by
    intro pieces hpieces haligned
    rw [ofTokens_parens opens closes, arguments_of_pieces hpieces hfree, Piece.arguments_scanned haligned]
  constructor
  · intro arguments hslots
    have hpieces := hslots.map (S := IsPiece) Piece.single fun h => .slot h
    have hany : (arguments.map Piece.single).any Piece.isPair = false := by simp [Piece.isPair]
    rw [hscan hpieces (by simp [hany]), hany]
    simp [Piece.arguments, Piece.argument, Function.comp_def]
  · intro entries hentries
    have hpieces := hentries.map (S := IsPiece) (fun e => Piece.pair e.1 e.2) fun h => .entry h
    have hpairs : ∀ p ∈ entries.map fun e => Piece.pair e.1 e.2, p.isPair = true := by
      intro p hp
      obtain ⟨e, -, rfl⟩ := List.mem_map.mp hp
      rfl
    have hany : (entries.map fun e => Piece.pair e.1 e.2).any Piece.isPair = true := by
      obtain ⟨e, rest, rfl⟩ := List.exists_cons_of_ne_nil hentries.ne_nil
      rfl
    refine ⟨Table.ofList entries, ?_, Table.keys_ofList entries, fun key => Table.get?_ofList key entries⟩
    rw [hscan hpieces fun _ => Piece.aligned_of_isPair hpairs, hany, Piece.arguments, if_pos rfl,
      Piece.entriesFrom_pairs]
    rfl

/-- A stack and a list; and a key that comes twice. -/
theorem ofTokens_slots_of_stack :
    (∃ ts first inside last, Token.ofText "('b' c,[d])" = .ok ts ∧ content ts = first :: (inside ++ [last]) ∧
      ofTokens (first :: (inside ++ [last])) = [.text "'b', c", .list [.text "d"]]) ∧
    ∃ ts first inside last, Token.ofText "(a:'b',a:c)" = .ok ts ∧ content ts = first :: (inside ++ [last]) ∧
      ∃ table, ofTokens (first :: (inside ++ [last])) = [.map table] ∧ Table.keys table = ["a"] ∧
        Table.get? "a" table = some (.text "c") := by
  have hgap : Gap [] := .inl rfl
  constructor
  · have hts : Token.ofText "('b' c,[d])" = .ok [⟨.leftParen, "(", 0, 1, ⟨1, 1⟩⟩, ⟨.string, "'b'", 1, 4, ⟨1, 2⟩⟩,
        ⟨.space, " ", 4, 5, ⟨1, 5⟩⟩, ⟨.word, "c", 5, 6, ⟨1, 6⟩⟩, ⟨.comma, ",", 6, 7, ⟨1, 7⟩⟩,
        ⟨.leftBracket, "[", 7, 8, ⟨1, 8⟩⟩, ⟨.word, "d", 8, 9, ⟨1, 9⟩⟩, ⟨.rightBracket, "]", 9, 10, ⟨1, 10⟩⟩,
        ⟨.rightParen, ")", 10, 11, ⟨1, 11⟩⟩, ⟨.eof, "", 11, 11, ⟨1, 12⟩⟩] := by decide +kernel
    have hstack : Slot [⟨.string, "'b'", 1, 4, ⟨1, 2⟩⟩, ⟨.space, " ", 4, 5, ⟨1, 5⟩⟩, ⟨.word, "c", 5, 6, ⟨1, 6⟩⟩]
        (.text "'b', c") := .stack (.more (.value (.inr (.inl rfl))) rfl (.one (.value (.inl rfl))))
    have hlist : Slot [⟨.leftBracket, "[", 7, 8, ⟨1, 8⟩⟩, ⟨.word, "d", 8, 9, ⟨1, 9⟩⟩,
        ⟨.rightBracket, "]", 9, 10, ⟨1, 10⟩⟩] (.list [.text "d"]) :=
      @Slot.list _ _ _ [([⟨.word, "d", 8, 9, ⟨1, 9⟩⟩], .text "d")] rfl
        (List.forall_mem_singleton.mpr (.stack (.one (.value (.inl rfl))))) (.one hgap hgap)
        (.token nofun nofun .nil) rfl
    have hparts : Parts Slot _ _ := ⟨[(_, _), (_, _)],
      List.forall_mem_cons.mpr ⟨hstack, List.forall_mem_singleton.mpr hlist⟩,
      @Separated.more _ _ _ _ _ ⟨.comma, ",", 6, 7, ⟨1, 7⟩⟩ hgap hgap rfl (.one hgap hgap), rfl⟩
    exact ⟨_, _, _, _, hts, rfl, (ofTokens_slots hts List.infix_rfl rfl rfl).1 _ hparts⟩
  · have hts : Token.ofText "(a:'b',a:c)" = .ok [⟨.leftParen, "(", 0, 1, ⟨1, 1⟩⟩, ⟨.word, "a", 1, 2, ⟨1, 2⟩⟩,
        ⟨.colon, ":", 2, 3, ⟨1, 3⟩⟩, ⟨.string, "'b'", 3, 6, ⟨1, 4⟩⟩, ⟨.comma, ",", 6, 7, ⟨1, 7⟩⟩,
        ⟨.word, "a", 7, 8, ⟨1, 8⟩⟩, ⟨.colon, ":", 8, 9, ⟨1, 9⟩⟩, ⟨.word, "c", 9, 10, ⟨1, 10⟩⟩,
        ⟨.rightParen, ")", 10, 11, ⟨1, 11⟩⟩, ⟨.eof, "", 11, 11, ⟨1, 12⟩⟩] := by decide +kernel
    have hfirst : Keyed [⟨.word, "a", 1, 2, ⟨1, 2⟩⟩, ⟨.colon, ":", 2, 3, ⟨1, 3⟩⟩, ⟨.string, "'b'", 3, 6, ⟨1, 4⟩⟩]
        ("a", .text "'b'") := .mk (.inl rfl) hgap rfl hgap (.stack (.one (.value (.inr (.inl rfl)))))
    have hsecond : Keyed [⟨.word, "a", 7, 8, ⟨1, 8⟩⟩, ⟨.colon, ":", 8, 9, ⟨1, 9⟩⟩, ⟨.word, "c", 9, 10, ⟨1, 10⟩⟩]
        ("a", .text "c") := .mk (.inl rfl) hgap rfl hgap (.stack (.one (.value (.inl rfl))))
    have hparts : Parts Keyed _ _ := ⟨[(_, _), (_, _)],
      List.forall_mem_cons.mpr ⟨hfirst, List.forall_mem_singleton.mpr hsecond⟩,
      @Separated.more _ _ _ _ _ ⟨.comma, ",", 6, 7, ⟨1, 7⟩⟩ hgap hgap rfl (.one hgap hgap), rfl⟩
    obtain ⟨table, htable, hkeys, hget⟩ := (ofTokens_slots hts List.infix_rfl rfl rfl).2 _ hparts
    exact ⟨_, _, _, _, hts, rfl, table, htable, hkeys, (hget "a").trans rfl⟩

end Argument
end Mixsheet
