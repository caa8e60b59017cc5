import Mixsheet.Proofs.Argument.Maps

/-! # Comments in calls

Without a comment that stands next to white space, outside functions, the arguments of a call are the same,
with two exceptions. The scan tells a stack from two arguments by the two tokens before a value, whatever
they are: a comment with white space behind it cuts the value off from the comma or colon before the comment,
and a comment right before the value sets it off from the stack. -/

namespace Mixsheet

open Token

/-! ### Places -/

namespace Scan

/-- Whole functions, whole lists and other tokens: behind them the scan stands where it began. -/
inductive Outside : List Token → Prop where
  | nil : Outside []
  | token {t : Token} {ts : List Token} (paren : t.kind ≠ .leftParen) (bracket : t.kind ≠ .leftBracket)
    (rest : Outside ts) : Outside (t :: ts)
  | function {first last : Token} {inner ts : List Token} (opens : first.kind = .leftParen)
    (inside : Balanced .leftParen .rightParen inner) (closes : last.kind = .rightParen) (rest : Outside ts) :
    Outside (first :: (inner ++ last :: ts))
  | list {first last : Token} {inner ts : List Token} (opens : first.kind = .leftBracket)
    (inside : Balanced .leftBracket .rightBracket inner) (closes : last.kind = .rightBracket) (rest : Outside ts) :
    Outside (first :: (inner ++ last :: ts))

/-- Behind these tokens the scan is outside functions; `level` are those of the list that it is in. -/
inductive Place : List Token → List Token → Prop where
  | here {ts : List Token} (outside : Outside ts) : Place ts ts
  | list {first : Token} {ts inner level : List Token} (outside : Outside ts) (opens : first.kind = .leftBracket)
    (open_ : (splitList 0 inner).2 = []) (place : Place inner level) : Place (ts ++ first :: inner) level

theorem Place.exists_outside {ts level : List Token} (h : Place ts level) :
    Outside level ∧ ∃ us, ts = us ++ level := by
  induction h with
  | here outside => exact ⟨outside, [], rfl⟩
  | @list first ts inner level _ _ _ _ ih =>
    obtain ⟨houtside, us, rfl⟩ := ih
    exact ⟨houtside, ts ++ first :: us, by simp⟩

theorem outside_append {ts us : List Token} (h : Outside ts) (hu : Outside us) : Outside (ts ++ us) := by
  induction h with
  | nil => exact hu
  | token paren bracket _ ih => exact .token paren bracket ih
  | function opens inside closes _ ih =>
    rw [List.cons_append, List.append_assoc, List.cons_append]
    exact .function opens inside closes ih
  | list opens inside closes _ ih =>
    rw [List.cons_append, List.append_assoc, List.cons_append]
    exact .list opens inside closes ih

theorem Place.behind {ts us level : List Token} (h : Place ts level) (houtside : Outside us) :
    ∃ level', Place (us ++ ts) level' := by
  cases h with
  | here outside => exact ⟨_, .here (outside_append houtside outside)⟩
  | list outside opens open_ place =>
    rw [← List.append_assoc]
    exact ⟨level, .list (outside_append houtside outside) opens open_ place⟩

/-- Behind these tokens the scan is in a function: its parenthesis is open at a place and closed nowhere. -/
def InFunction (ts : List Token) : Prop :=
  ∃ us level first inner, ts = us ++ first :: inner ∧ Place us level ∧ first.kind = .leftParen ∧
    ∀ inside last rest, inner = inside ++ last :: rest → Balanced .leftParen .rightParen inside →
      last.kind ≠ .rightParen

theorem InFunction.behind {ts us : List Token} (h : InFunction ts) (houtside : Outside us) : InFunction (us ++ ts) := by
  obtain ⟨vs, level, first, inner, rfl, hplace, hopens, hnever⟩ := h
  obtain ⟨level', hplace'⟩ := hplace.behind houtside
  exact ⟨us ++ vs, level', first, inner, (List.append_assoc ..).symm, hplace', hopens, hnever⟩

theorem splitList_open_of_append {depth : Nat} {ts us : List Token} (h : (splitList depth (ts ++ us)).2 = []) :
    (splitList depth ts).2 = [] := by
  induction ts generalizing depth with
  | nil => rfl
  | cons t ts ih =>
    rw [List.cons_append, splitList] at h
    rw [splitList]
    split at h
    · cases h
    · rename_i hclose
      rw [if_neg hclose]
      exact ih h

/-- The scan is at a place behind any tokens, unless it is in a function. -/
theorem exists_place_or_inFunction (ts : List Token) : (∃ level, Place ts level) ∨ InFunction ts := by
  induction hn : ts.length using Nat.strongRecOn generalizing ts with
  | ind n ih =>
    cases ts with
    | nil => exact .inl ⟨[], .here .nil⟩
    | cons t ts =>
      -- Behind the first token, function or list, the scan starts again.
      have hnext : ∀ {us rest : List Token}, t :: ts = us ++ rest → Outside us → us ≠ [] →
          (∃ level, Place (t :: ts) level) ∨ InFunction (t :: ts) := by
        intro us rest heq houtside hne
        have hlength := congrArg List.length heq
        have hpos := List.length_pos_iff.mpr hne
        rw [List.length_append] at hlength
        rw [heq]
        exact (ih rest.length (by omega) rest rfl).imp (fun ⟨_, h⟩ => h.behind houtside) (·.behind houtside)
      by_cases hparen : t.kind = .leftParen
      · by_cases hclosed : ∃ inside last rest, ts = inside ++ last :: rest ∧
            Balanced .leftParen .rightParen inside ∧ last.kind = .rightParen
        · obtain ⟨inside, last, rest, rfl, hinside, hlast⟩ := hclosed
          exact @hnext (t :: (inside ++ [last])) rest (by simp) (.function hparen hinside hlast .nil)
            (List.cons_ne_nil _ _)
        · refine .inr ⟨[], [], t, ts, rfl, .here .nil, hparen, fun inside last rest heq hinside hlast => ?_⟩
          exact hclosed ⟨inside, last, rest, heq, hinside, hlast⟩
      by_cases hbracket : t.kind = .leftBracket
      · by_cases hopen : (splitList 0 ts).2 = []
        · rw [List.length_cons] at hn
          rcases ih ts.length (by omega) ts rfl with ⟨level, hplace⟩ | ⟨us, level, first, inner, rfl, hplace, hrest⟩
          · exact .inl ⟨level, @Place.list t [] ts level .nil hbracket hopen hplace⟩
          · refine .inr ⟨t :: us, level, first, inner, rfl, ?_, hrest⟩
            exact @Place.list t [] us level .nil hbracket (splitList_open_of_append hopen) hplace
        · obtain ⟨inside, last, rest, rfl, hinside, hlast, -⟩ := closesTo_of_splitList hopen
          exact @hnext (t :: (inside ++ [last])) rest (by simp) (.list hbracket hinside hlast .nil)
            (List.cons_ne_nil _ _)
      · exact @hnext [t] ts rfl (.token hparen hbracket .nil) (List.cons_ne_nil _ _)

/-! ### Comments that go -/

/-- A comment goes, and the white space around it becomes one token. -/
inductive Uncommented : List Token → List Token → Prop where
  | behind {space comment : Token} (space_ : space.kind = .space) (comment_ : comment.kind = .comment) :
    Uncommented [space, comment] [space]
  | before {comment space : Token} (comment_ : comment.kind = .comment) (space_ : space.kind = .space) :
    Uncommented [comment, space] [space]
  | between {first comment last space : Token} (first_ : first.kind = .space) (comment_ : comment.kind = .comment)
    (last_ : last.kind = .space) (space_ : space.kind = .space) (text : space.text = first.text ++ last.text) :
    Uncommented [first, comment, last] [space]

/-- The arguments of a run of tokens, before a keyed call makes a map of them. -/
def items (ts : List Token) : List Argument := (argumentsFrom [] 0 [] false ts).1

/-- The token is a comma or a colon. -/
def IsSeparator (t : Token) : Prop := t.kind = .comma ∨ t.kind = .colon

/-- A value stands behind a place, and the argument before the place is a text, which it can continue. -/
def CanContinue (level post : List Token) : Prop :=
  (∃ t ∈ post.head?, IsValue t) ∧ ∃ s, (items level).getLast? = some (.text s)

/-- White space behind the comment cuts the value off from the separator before. -/
def CutsOff (level gap post : List Token) : Prop :=
  CanContinue level post ∧ (∃ t ∈ level.getLast?, IsSeparator t) ∧ ∃ t ∈ gap.getLast?, t.kind = .space

/-- The comment, right before the value, sets it off from the stack that it is in. -/
def SetsOff (level gap post : List Token) : Prop :=
  CanContinue level post ∧ (∃ t ∈ level.getLast?, ¬ IsSeparator t) ∧ ∃ t ∈ gap.getLast?, t.kind = .comment

/-! ### White space and comments -/

section Trivia

variable {gap : List Token}

theorem argumentsFrom_trivia (h : ∀ t ∈ gap, t.isTrivia = true) (before : List Token) (arguments : List Argument)
    (keyed : Bool) (rest : List Token) :
    argumentsFrom before 0 arguments keyed (gap ++ rest) =
      argumentsFrom (gap.reverse ++ before) 0 arguments keyed rest := by
  induction gap generalizing before with
  | nil => rfl
  | cons t gap ih =>
    obtain ⟨ht, hgap⟩ := List.forall_mem_cons.mp h
    have hstep : argumentsFrom before 0 arguments keyed (t :: (gap ++ rest)) =
        argumentsFrom (t :: before) 0 arguments keyed (gap ++ rest) := by
      rw [argumentsFrom, if_neg (Nat.lt_irrefl 0)]
      rcases isTrivia_iff.mp ht with hkind | hkind <;> simp only [hkind]
    rw [List.cons_append, hstep, ih hgap]
    simp

theorem splitList_trivia (h : ∀ t ∈ gap, t.isTrivia = true) (depth : Nat) (rest : List Token) :
    splitList depth (gap ++ rest) = (gap ++ (splitList depth rest).1, (splitList depth rest).2) := by
  induction gap with
  | nil => rfl
  | cons t gap ih =>
    obtain ⟨ht, hgap⟩ := List.forall_mem_cons.mp h
    have hafter : listsAfter depth t.kind = depth ∧ t.kind ≠ .rightBracket := by
      rcases isTrivia_iff.mp ht with hkind | hkind <;> simp [hkind, listsAfter]
    rw [List.cons_append, splitList, if_neg fun hclose => hafter.2 hclose.1, hafter.1, ih hgap]
    rfl

end Trivia

/-- A list that is open goes on with what follows. -/
theorem splitList_of_open {depth : Nat} {inner : List Token} (h : (splitList depth inner).2 = []) :
    ∃ depth', ∀ rest, splitList depth (inner ++ rest) =
      (inner ++ (splitList depth' rest).1, (splitList depth' rest).2) := by
  induction inner generalizing depth with
  | nil => exact ⟨depth, fun rest => rfl⟩
  | cons t inner ih =>
    rw [splitList] at h
    split at h
    · cases h
    · rename_i hclose
      obtain ⟨depth', hinner⟩ := ih h
      refine ⟨depth', fun rest => ?_⟩
      rw [List.cons_append, splitList, if_neg hclose, hinner]
      rfl

theorem kind_of_splitList {depth : Nat} {ts rest : List Token} {close : Token}
    (h : (splitList depth ts).2 = close :: rest) : close.kind = .rightBracket := by
  induction ts generalizing depth with
  | nil => cases h
  | cons t ts ih =>
    rw [splitList] at h
    split at h
    · rename_i hclose
      obtain ⟨rfl, -⟩ := List.cons.inj h
      exact hclose.1
    · exact ih h

namespace Uncommented

variable {gap gap' : List Token}

theorem isTrivia (h : Uncommented gap gap') : (∀ t ∈ gap, t.isTrivia = true) ∧ ∀ t ∈ gap', t.isTrivia = true := by
  cases h <;> simp [isTrivia_iff, *]

theorem commaFree (h : Uncommented gap gap') (hfree : CommaFree gap) : CommaFree gap' := by
  cases h with
  | behind space_ comment_ => exact fun t ht => hfree t (List.mem_cons.mpr (.inl (List.mem_singleton.mp ht)))
  | before comment_ space_ => exact fun t ht => hfree t (List.mem_cons_of_mem _ ht)
  | @between first comment last space first_ comment_ last_ space_ text =>
    intro t ht _ hlast
    obtain rfl := List.mem_singleton.mp ht
    rw [text, String.toList_append, List.getLast?_append] at hlast
    rcases Option.or_eq_some_iff.mp hlast with hlast | ⟨-, hlast⟩
    · exact hfree last (by simp) (by simp [last_]) hlast
    · exact hfree first (by simp) (by simp [first_]) hlast

end Uncommented

/-! ### The two tokens before a value -/

theorem continuesStack_iff {t u : Token} (hfree : t.kind ≠ .comma → t.text.toList.getLast? ≠ some ',')
    {before : List Token} {arguments : List Argument} : continuesStack (u :: t :: before) arguments = true ↔
      u.kind = .space ∧ ¬ IsSeparator t ∧ ∃ s, arguments.head? = some (.text s) := by
  cases arguments with
  | nil => simp [continuesStack]
  | cons a rest =>
    cases a with
    | text s =>
      simp only [continuesStack, IsSeparator]
      by_cases hcomma : t.kind = .comma
      · simp [hcomma]
      · simp [hcomma, hfree hcomma]
    | list items => simp [continuesStack]
    | map entries => simp [continuesStack]

/-- What the scan does next does not tell the runs before it apart. -/
structure Alike (before before' : List Token) : Prop where
  stack : ∀ arguments, continuesStack before arguments = continuesStack before' arguments
  word : before.head?.any (·.kind == .word) = before'.head?.any (·.kind == .word)
  next : ∀ t arguments, continuesStack (t :: before) arguments = continuesStack (t :: before') arguments

namespace Alike

variable {before before' : List Token}

theorem cons (h : Alike before before') (t : Token) : Alike (t :: before) (t :: before') :=
  ⟨h.next t, rfl, fun _ arguments => by rcases arguments with _ | ⟨_ | _ | _, _⟩ <;> rfl⟩

theorem symm (h : Alike before before') : Alike before' before :=
  ⟨fun arguments => (h.stack arguments).symm, h.word.symm, fun t arguments => (h.next t arguments).symm⟩

theorem append (h : Alike before before') (us : List Token) : Alike (us ++ before) (us ++ before') := by
  induction us with
  | nil => exact h
  | cons t us ih => exact ih.cons t

/-- A token other than white space hides what stands before it from the next one. -/
theorem of_ne_space {t : Token} (ht : t.kind ≠ .space) (before before' : List Token) :
    Alike (t :: before) (t :: before') := by
  have hstack : ∀ before arguments, continuesStack (t :: before) arguments = false := by
    intro before arguments
    cases before with
    | nil => rfl
    | cons u before => rcases arguments with _ | ⟨_ | _ | _, _⟩ <;> simp [continuesStack, ht]
  refine ⟨fun arguments => by rw [hstack, hstack], rfl, fun u arguments => ?_⟩
  rcases arguments with _ | ⟨_ | _ | _, _⟩ <;> rfl

theorem of_trivia {t t' : Token} (ht : t.isTrivia = true) (ht' : t'.isTrivia = true) (hfree : CommaFree [t, t'])
    (u : Token) (before before' : List Token) : Alike (u :: t :: before) (u :: t' :: before') := by
  have hstack : ∀ {t : Token} {before : List Token} {arguments : List Argument}, t.isTrivia = true →
      CommaFree [t] → (continuesStack (u :: t :: before) arguments = true ↔
        u.kind = .space ∧ ∃ s, arguments.head? = some (.text s)) := by
    intro t before arguments ht hfree
    have hseparator : ¬ IsSeparator t := by
      rcases isTrivia_iff.mp ht with hkind | hkind <;> simp [IsSeparator, hkind]
    simp [continuesStack_iff (hfree t List.mem_cons_self), hseparator]
  obtain ⟨hfree, hfree'⟩ := List.forall_mem_cons.mp hfree
  refine ⟨fun arguments => ?_, rfl, fun v arguments => ?_⟩
  · rw [Bool.eq_iff_iff, hstack ht (List.forall_mem_singleton.mpr hfree), hstack ht' hfree']
  · rcases arguments with _ | ⟨_ | _ | _, _⟩ <;> rfl

end Alike

theorem taken_congr {before before' : List Token} {arguments : List Argument} {t : Token}
    (hstack : IsValue t → continuesStack before arguments = continuesStack before' arguments)
    (hword : before.head?.any (·.kind == .word) = before'.head?.any (·.kind == .word)) :
    taken before arguments t = taken before' arguments t := by
  by_cases hvalue : IsValue t
  · simp only [taken, put, hstack hvalue, hword]
  · simp only [IsValue, not_or] at hvalue
    rw [taken, taken, hword]
    split <;> simp_all

/-- The runs before need to agree on the next token only if it is a value. -/
theorem argumentsFrom_congr {before before' : List Token} {depth : Nat} {arguments : List Argument} {ts : List Token}
    (hstack : ∀ t ∈ ts.head?, IsValue t → continuesStack before arguments = continuesStack before' arguments)
    (hword : before.head?.any (·.kind == .word) = before'.head?.any (·.kind == .word))
    (hnext : ∀ t, Alike (t :: before) (t :: before')) (keyed : Bool) :
    argumentsFrom before depth arguments keyed ts = argumentsFrom before' depth arguments keyed ts := by
  induction depth, ts using scan_induction generalizing before before' arguments keyed with
  | nil depth => rw [argumentsFrom, argumentsFrom]
  | inside depth t ts ih =>
    rw [argumentsFrom_inside, argumentsFrom_inside, ih (fun _ _ _ => (hnext t).stack _) rfl (hnext t).cons]
  | token t ts hparen hbracket ih =>
    rw [argumentsFrom_taken hparen hbracket, argumentsFrom_taken hparen hbracket, taken_congr (hstack t rfl) hword,
      ih (fun _ _ _ => (hnext t).stack _) rfl (hnext t).cons]
  | function t ts hkind ih =>
    rw [argumentsFrom_leftParen hkind, argumentsFrom_leftParen hkind,
      ih (fun _ _ _ => (hnext t).stack _) rfl (hnext t).cons]
  | list t ts hkind _ ih =>
    rw [argumentsFrom_leftBracket hkind, argumentsFrom_leftBracket hkind]
    split
    · rfl
    · rename_i close rest hrest
      have hclose := ((hnext t).append (splitList 0 ts).1.reverse).cons close
      exact ih close rest hrest (fun _ _ _ => hclose.stack _) rfl hclose.cons _

/-! ### Behind a comment -/

/-- Outside functions the scan goes over a run of tokens whatever follows. -/
theorem Outside.argumentsFrom {ts : List Token} (h : Outside ts) (before : List Token) (arguments : List Argument)
    (keyed : Bool) : ∃ arguments' keyed', ∀ rest,
      argumentsFrom before 0 arguments keyed (ts ++ rest) =
        argumentsFrom (ts.reverse ++ before) 0 arguments' keyed' rest := by
  induction h generalizing before arguments keyed with
  | nil => exact ⟨arguments, keyed, fun rest => rfl⟩
  | @token t ts paren bracket _ ih =>
    obtain ⟨arguments', keyed', hrest⟩ :=
      ih (t :: before) (taken before arguments t) (keyed || decide (t.kind = .colon))
    refine ⟨arguments', keyed', fun rest => ?_⟩
    rw [List.cons_append, argumentsFrom_taken paren bracket, hrest]
    simp
  | @function first last inner ts opens inside closes _ ih =>
    obtain ⟨arguments', keyed', hrest⟩ := ih (last :: (inner.reverse ++ first :: before))
      (append arguments (join (first :: (inner ++ [last])))) keyed
    refine ⟨arguments', keyed', fun rest => ?_⟩
    rw [List.cons_append, List.append_assoc, List.cons_append, argumentsFrom_group opens inside closes, hrest]
    simp
  | @list first last inner ts opens inside closes _ ih =>
    obtain ⟨arguments', keyed', hrest⟩ := ih (last :: (inner.reverse ++ first :: before))
      (.list (items inner) :: arguments) keyed
    refine ⟨arguments', keyed', fun rest => ?_⟩
    rw [List.cons_append, List.append_assoc, List.cons_append, argumentsFrom_list opens inside closes, ← items, hrest]
    simp

theorem Outside.exists_items {level : List Token} (h : Outside level) : ∃ arguments keyed,
    items level = arguments.reverse ∧ ∀ rest, Scan.argumentsFrom [] 0 [] false (level ++ rest) =
      Scan.argumentsFrom level.reverse 0 arguments keyed rest := by
  obtain ⟨arguments, keyed, hrest⟩ := h.argumentsFrom [] [] false
  rw [List.append_nil] at hrest
  refine ⟨arguments, keyed, ?_, hrest⟩
  have := hrest []
  rw [List.append_nil] at this
  rw [items, this, Scan.argumentsFrom]

/-! ### Texts that change -/

/-- Whatever comes, the scan leaves the beginning of a text and the arguments before it as they are. -/
theorem append_behind (found : List Argument) (s s' : String) : ∃ found' s'', ∀ start earlier,
    append (found ++ .text (start ++ s) :: earlier) s' = found' ++ .text (start ++ s'') :: earlier := by
  match found with
  | [] => exact ⟨[], s ++ s', fun start earlier => by simp [append, String.append_assoc]⟩
  | .text last :: found => exact ⟨.text (last ++ s') :: found, s, fun start earlier => rfl⟩
  | .list items :: found => exact ⟨.text s' :: .list items :: found, s, fun start earlier => rfl⟩
  | .map entries :: found => exact ⟨.text s' :: .map entries :: found, s, fun start earlier => rfl⟩

theorem taken_behind (before : List Token) (found : List Argument) (s : String) (t : Token) :
    ∃ found' s', ∀ start earlier, taken before (found ++ .text (start ++ s) :: earlier) t =
      found' ++ .text (start ++ s') :: earlier := by
  have hcons : ∃ found' s', ∀ start earlier, .text t.text :: (found ++ .text (start ++ s) :: earlier) =
      found' ++ .text (start ++ s') :: earlier := ⟨.text t.text :: found, s, fun _ _ => rfl⟩
  have hput : ∃ found' s', ∀ start earlier, put before (found ++ .text (start ++ s) :: earlier) t.text =
      found' ++ .text (start ++ s') :: earlier := by
    have hstack : ∃ b, ∀ start earlier, continuesStack before (found ++ .text (start ++ s) :: earlier) = b := by
      rcases before with _ | ⟨u, _ | ⟨v, before⟩⟩ <;> rcases found with _ | ⟨_ | _ | _, found⟩ <;>
        exact ⟨_, fun _ _ => rfl⟩
    obtain ⟨b, hstack⟩ := hstack
    simp only [put, hstack]
    cases b with
    | false => exact hcons
    | true => exact append_behind found s _
  simp only [taken]
  split
  · exact hput
  · exact hput
  · exact hput
  · exact append_behind found s t.text
  · split
    · exact append_behind found s t.text
    · exact hcons
  · exact ⟨found, s, fun _ _ => rfl⟩

theorem argumentsFrom_behind (before : List Token) (depth : Nat) (found : List Argument) (s : String) (keyed : Bool)
    (ts : List Token) : ∃ found' s', ∀ start earlier,
      (argumentsFrom before depth (found ++ .text (start ++ s) :: earlier) keyed ts).1 =
        earlier.reverse ++ .text (start ++ s') :: found' := by
  induction depth, ts using scan_induction generalizing before found s keyed with
  | nil depth => exact ⟨found.reverse, s, fun start earlier => by simp [argumentsFrom]⟩
  | inside depth t ts ih =>
    obtain ⟨found', s', happend⟩ := append_behind found s t.text
    simpa only [argumentsFrom_inside, happend] using ih (t :: before) found' s' keyed
  | token t ts hparen hbracket ih =>
    obtain ⟨found', s', htaken⟩ := taken_behind before found s t
    simpa only [argumentsFrom_taken hparen hbracket, htaken] using ih (t :: before) found' s' _
  | function t ts hkind ih =>
    obtain ⟨found', s', happend⟩ := append_behind found s t.text
    simpa only [argumentsFrom_leftParen hkind, happend] using ih (t :: before) found' s' keyed
  | list t ts hkind _ ih =>
    simp only [argumentsFrom_leftBracket hkind]
    cases hrest : (splitList 0 ts).2 with
    | nil => exact ⟨found.reverse ++ [.list (items (splitList 0 ts).1)], s, fun start earlier => by simp [items]⟩
    | cons close rest => exact ih close rest hrest _ (.list (items (splitList 0 ts).1) :: found) s keyed

/-- The arguments are the same but for two neighbouring texts, which are one text in the first of the lists. -/
def Joined (stacked apart : List Argument) : Prop :=
  ∃ earlier s s' later, stacked = earlier ++ .text (s ++ ", " ++ s') :: later ∧
    apart = earlier ++ .text s :: .text s' :: later

theorem joined_of_value {x : Token} (hx : IsValue x) {before before' : List Token}
    (hnext : Alike (x :: before) (x :: before')) {s : String} {arguments : List Argument}
    (hstack : continuesStack before (.text s :: arguments) = true)
    (hstack' : continuesStack before' (.text s :: arguments) = false) (keyed : Bool) (ts : List Token) :
    Joined (argumentsFrom before 0 (.text s :: arguments) keyed (x :: ts)).1
      (argumentsFrom before' 0 (.text s :: arguments) keyed (x :: ts)).1 := by
  obtain ⟨found, s', hbehind⟩ := argumentsFrom_behind (x :: before') 0 [] x.text keyed ts
  have hstacked := hbehind (s ++ ", ") arguments
  have hapart := hbehind "" (.text s :: arguments)
  refine ⟨arguments.reverse, s, s', found, ?_, ?_⟩
  · rw [argumentsFrom_value hx, put, if_pos hstack, ← hstacked,
      argumentsFrom_congr (fun _ _ _ => hnext.stack _) hnext.word hnext.cons]
    simp [append, String.append_assoc]
  · rw [argumentsFrom_value hx, put, hstack', if_neg Bool.false_ne_true]
    simpa using hapart

/-! ### Without the comment -/

section Comment

variable {level gap gap' post : List Token}

namespace Uncommented

/-- With the comment the scan takes a value for a continuation exactly if white space is behind the comment and
a text before it. -/
theorem continuesStack_left (h : Uncommented gap gap') (hfree : CommaFree gap) (before : List Token)
    (arguments : List Argument) : continuesStack (gap.reverse ++ before) arguments = true ↔
      (∃ t ∈ gap.getLast?, t.kind = .space) ∧ ∃ s, arguments.head? = some (.text s) := by
  cases h with
  | @behind space comment space_ comment_ =>
    refine iff_of_false ?_ (by simp [comment_])
    simp [continuesStack_iff (hfree space (by simp)), comment_]
  | @before comment space comment_ space_ =>
    simp [continuesStack_iff (hfree comment (by simp)), space_, comment_, IsSeparator]
  | @between first comment last space first_ comment_ last_ space_ text =>
    simp [continuesStack_iff (hfree comment (by simp)), last_, comment_, IsSeparator]

/-- Without it the scan does so exactly if what stands before is no separator. -/
theorem continuesStack_right (h : Uncommented gap gap') (hfree : CommaFree level) (arguments : List Argument) :
    continuesStack (gap'.reverse ++ level.reverse) arguments = true ↔
      (∃ t ∈ level.getLast?, ¬ IsSeparator t) ∧ ∃ s, arguments.head? = some (.text s) := by
  obtain ⟨space, rfl, hspace⟩ : ∃ space, gap' = [space] ∧ space.kind = .space := by
    cases h <;> exact ⟨_, rfl, ‹_›⟩
  rcases List.eq_nil_or_concat level with rfl | ⟨us, t, rfl⟩
  · simp [continuesStack]
  · simp [continuesStack_iff (hfree t (by simp)), hspace]

theorem alike (h : Uncommented gap gap') (hfree : CommaFree gap) (t : Token) (before : List Token) :
    Alike (t :: (gap.reverse ++ before)) (t :: (gap'.reverse ++ before)) := by
  have hfree' := h.commaFree hfree
  obtain ⟨htrivia, htrivia'⟩ := h.isTrivia
  obtain ⟨us, u, us', u', rfl, rfl⟩ : ∃ us u us' u', gap = us ++ [u] ∧ gap' = us' ++ [u'] := by
    cases h with
    | behind space_ comment_ => exact ⟨[_], _, [], _, rfl, rfl⟩
    | before comment_ space_ => exact ⟨[_], _, [], _, rfl, rfl⟩
    | between first_ comment_ last_ space_ text => exact ⟨[_, _], _, [], _, rfl, rfl⟩
  have hlast : CommaFree [u, u'] :=
    List.forall_mem_cons.mpr ⟨hfree u (by simp), List.forall_mem_singleton.mpr (hfree' u' (by simp))⟩
  simpa using Alike.of_trivia (htrivia u (by simp)) (htrivia' u' (by simp)) hlast t (us.reverse ++ before)
    (us'.reverse ++ before)

theorem word (h : Uncommented gap gap') (before : List Token) :
    (gap.reverse ++ before).head?.any (·.kind == .word) = (gap'.reverse ++ before).head?.any (·.kind == .word) := by
  cases h <;> simp [*]

theorem getLast?_kind (h : Uncommented gap gap') :
    (∃ t ∈ gap.getLast?, t.kind = .comment) ↔ ¬ ∃ t ∈ gap.getLast?, t.kind = .space := by
  cases h <;> simp [*]

end Uncommented

theorem exists_separator_or {arguments : List Argument} (hitems : items level = arguments.reverse)
    (htext : ∃ s, arguments.head? = some (.text s)) :
    (∃ t ∈ level.getLast?, IsSeparator t) ↔ ¬ ∃ t ∈ level.getLast?, ¬ IsSeparator t := by
  cases hlast : level.getLast? with
  | none =>
    obtain rfl := List.getLast?_eq_none_iff.mp hlast
    obtain ⟨s, hs⟩ := htext
    rw [items, argumentsFrom] at hitems
    rw [List.reverse_eq_nil_iff.mp hitems.symm] at hs
    cases hs
  | some t => simp

/-- The two tokens before a value answer alike, unless the comment cuts the value off or sets it off. -/
theorem Uncommented.continuesStack_eq (h : Uncommented gap gap') (hgap : CommaFree gap) (hlevel : CommaFree level)
    {arguments : List Argument} (hitems : items level = arguments.reverse) (hcut : ¬ CutsOff level gap post)
    (hset : ¬ SetsOff level gap post) {t : Token} (ht : t ∈ post.head?) (hvalue : IsValue t) :
    continuesStack (gap.reverse ++ level.reverse) arguments =
      continuesStack (gap'.reverse ++ level.reverse) arguments := by
  rw [Bool.eq_iff_iff, h.continuesStack_left hgap, h.continuesStack_right hlevel]
  refine and_congr_left fun htext => ?_
  have hcan : CanContinue level post := ⟨⟨t, ht, hvalue⟩, by rwa [hitems, List.getLast?_reverse]⟩
  have hseparator := exists_separator_or hitems htext
  constructor
  · intro hspace
    by_contra hnone
    exact hcut ⟨hcan, hseparator.mpr hnone, hspace⟩
  · intro hbefore
    by_contra hnone
    exact hset ⟨hcan, hbefore, h.getLast?_kind.mpr hnone⟩

/-- The scan of the list that the comment is in. -/
theorem Outside.argumentsFrom_uncommented (houtside : Outside level) (h : Uncommented gap gap')
    (hgap : CommaFree gap) (hlevel : CommaFree level) (hcut : ¬ CutsOff level gap post)
    (hset : ¬ SetsOff level gap post) :
    Scan.argumentsFrom [] 0 [] false (level ++ (gap ++ post)) =
      Scan.argumentsFrom [] 0 [] false (level ++ (gap' ++ post)) := by
  obtain ⟨arguments, keyed, hitems, hrest⟩ := houtside.exists_items
  rw [hrest, hrest, argumentsFrom_trivia h.isTrivia.1, argumentsFrom_trivia h.isTrivia.2]
  exact argumentsFrom_congr (fun t ht hvalue => h.continuesStack_eq hgap hlevel hitems hcut hset ht hvalue)
    (h.word _) (fun t => h.alike hgap t _) keyed

/-- The scan comes to a value with a text as its last argument, whatever white space and comments are between. -/
theorem CanContinue.exists_text (hcan : CanContinue level post) (houtside : Outside level) :
    ∃ t ts s arguments keyed, post = t :: ts ∧ IsValue t ∧ items level = (.text s :: arguments).reverse ∧
      ∀ gap : List Token, (∀ u ∈ gap, u.isTrivia = true) → items (level ++ (gap ++ post)) =
        (argumentsFrom (gap.reverse ++ level.reverse) 0 (.text s :: arguments) keyed (t :: ts)).1 := by
  obtain ⟨⟨t, ht, hvalue⟩, s, htext⟩ := hcan
  obtain ⟨ts, rfl⟩ := List.head?_eq_some_iff.mp ht
  obtain ⟨arguments, keyed, hitems, hrest⟩ := houtside.exists_items
  rw [hitems, List.getLast?_reverse] at htext
  obtain ⟨arguments, rfl⟩ := List.head?_eq_some_iff.mp htext
  refine ⟨t, ts, s, arguments, keyed, rfl, hvalue, hitems, fun gap hgap => ?_⟩
  rw [items, hrest, argumentsFrom_trivia hgap]

theorem Outside.joined_of_cutsOff (houtside : Outside level) (h : Uncommented gap gap') (hgap : CommaFree gap)
    (hlevel : CommaFree level) (hcut : CutsOff level gap post) :
    Joined (items (level ++ (gap ++ post))) (items (level ++ (gap' ++ post))) := by
  obtain ⟨hcan, hseparator, hspace⟩ := hcut
  obtain ⟨t, ts, s, arguments, keyed, rfl, hvalue, hitems, hscan⟩ := hcan.exists_text houtside
  have hnone := (exists_separator_or hitems ⟨s, rfl⟩).mp hseparator
  rw [hscan gap h.isTrivia.1, hscan gap' h.isTrivia.2]
  refine joined_of_value hvalue (h.alike hgap t _) ((h.continuesStack_left hgap _ _).mpr ⟨hspace, s, rfl⟩) ?_ keyed ts
  exact Bool.eq_false_iff.mpr fun hright => hnone ((h.continuesStack_right hlevel _).mp hright).1

theorem Outside.joined_of_setsOff (houtside : Outside level) (h : Uncommented gap gap') (hgap : CommaFree gap)
    (hlevel : CommaFree level) (hset : SetsOff level gap post) :
    Joined (items (level ++ (gap' ++ post))) (items (level ++ (gap ++ post))) := by
  obtain ⟨hcan, hbefore, hcomment⟩ := hset
  obtain ⟨t, ts, s, arguments, keyed, rfl, hvalue, -, hscan⟩ := hcan.exists_text houtside
  have hnone := h.getLast?_kind.mp hcomment
  rw [hscan gap h.isTrivia.1, hscan gap' h.isTrivia.2]
  refine joined_of_value hvalue (h.alike hgap t _).symm ((h.continuesStack_right hlevel _).mpr ⟨hbefore, s, rfl⟩) ?_
    keyed ts
  exact Bool.eq_false_iff.mpr fun hleft => hnone ((h.continuesStack_left hgap _ _).mp hleft).1

end Comment

/-- What comes behind counts only up to the end of the list. -/
theorem CanContinue.mono {level post ts : List Token} (h : CanContinue level ts) (hpre : ts <+: post) :
    CanContinue level post := by
  obtain ⟨⟨t, ht, hvalue⟩, htext⟩ := h
  obtain ⟨ts, rfl⟩ := List.head?_eq_some_iff.mp ht
  obtain ⟨us, rfl⟩ := hpre
  exact ⟨⟨t, rfl, hvalue⟩, htext⟩

theorem Place.argumentsFrom_uncommented {ts level gap gap' : List Token} (h : Place ts level)
    (hgap : Uncommented gap gap') (hfree : CommaFree gap) (hlevel : CommaFree level) {post : List Token}
    (hcut : ¬ CutsOff level gap post) (hset : ¬ SetsOff level gap post) :
    argumentsFrom [] 0 [] false (ts ++ (gap ++ post)) = argumentsFrom [] 0 [] false (ts ++ (gap' ++ post)) := by
  induction h generalizing post with
  | here outside => exact outside.argumentsFrom_uncommented hgap hfree hlevel hcut hset
  | @list first ts inner level outside opens open_ place ih =>
    obtain ⟨arguments, keyed, -, hrest⟩ := outside.exists_items
    obtain ⟨depth, hsplit⟩ := splitList_of_open open_
    have hsplit_ : ∀ us : List Token, (∀ t ∈ us, t.isTrivia = true) → splitList 0 (inner ++ (us ++ post)) =
        (inner ++ (us ++ (splitList depth post).1), (splitList depth post).2) := by
      intro us hus
      rw [hsplit, splitList_trivia hus]
    have hpre : (splitList depth post).1 <+: post := ⟨_, splitList_append depth post⟩
    have hinner := @ih hlevel (splitList depth post).1 (fun h => hcut ⟨h.1.mono hpre, h.2⟩)
      (fun h => hset ⟨h.1.mono hpre, h.2⟩)
    rw [List.append_assoc, List.append_assoc, List.cons_append, List.cons_append, hrest, hrest,
      argumentsFrom_leftBracket opens, argumentsFrom_leftBracket opens, hsplit_ gap hgap.isTrivia.1,
      hsplit_ gap' hgap.isTrivia.2, hinner]
    cases hclose : (splitList depth post).2 with
    | nil => rfl
    | cons close rest =>
      have hkind : close.kind ≠ .space := by simp [kind_of_splitList hclose]
      have halike := Alike.of_ne_space hkind
        ((inner ++ (gap ++ (splitList depth post).1)).reverse ++ first :: ts.reverse)
        ((inner ++ (gap' ++ (splitList depth post).1)).reverse ++ first :: ts.reverse)
      exact argumentsFrom_congr (fun _ _ _ => halike.stack _) halike.word halike.cons keyed

end Scan

/-! ### Calls -/

namespace Token

theorem dropTrivia_append (ts us : List Token) :
    dropTrivia (ts ++ us) = if dropTrivia ts = [] then dropTrivia us else dropTrivia ts ++ us := by
  simp [dropTrivia, List.dropWhile_append]

theorem dropTriviaEnd_append (ts us : List Token) :
    dropTriviaEnd (ts ++ us) = if dropTriviaEnd us = [] then dropTriviaEnd ts else ts ++ dropTriviaEnd us := by
  simp only [dropTriviaEnd, List.reverse_append, List.dropWhile_append]
  split <;> simp_all

theorem dropTrivia_eq_nil {ts : List Token} (h : ∀ t ∈ ts, t.isTrivia = true) : dropTrivia ts = [] :=
  List.dropWhile_eq_nil_iff.mpr h

theorem dropTriviaEnd_isPrefix (ts : List Token) : dropTriviaEnd ts <+: ts := by
  have hsuffix : ts.reverse.dropWhile isTrivia <:+ ts.reverse := List.dropWhile_suffix isTrivia
  rw [dropTriviaEnd]
  exact List.reverse_suffix.mp (by rwa [List.reverse_reverse])

end Token

namespace Argument

open Scan

/-- The tokens that the scan of a call has read when it is behind `ts`. -/
def scanned (ts : List Token) : List Token :=
  match dropTrivia ts with
  | [] => []
  | t :: rest => if t.kind = .leftParen then rest else t :: rest

theorem scanned_suffix (ts : List Token) : scanned ts <:+ ts := by
  have hsuffix : dropTrivia ts <:+ ts := List.dropWhile_suffix _
  rw [scanned]
  split
  · exact List.nil_suffix
  · rename_i t rest hdrop
    rw [hdrop] at hsuffix
    split
    · exact (List.suffix_cons t rest).trans hsuffix
    · exact hsuffix

theorem dropClosing_isPrefix (ts : List Token) : dropClosing ts <+: ts := by
  rw [dropClosing]
  split
  · exact List.dropLast_prefix ts
  · exact List.prefix_rfl

theorem dropClosing_append (ts : List Token) {us : List Token} (h : us ≠ []) :
    dropClosing (ts ++ us) = ts ++ dropClosing us := by
  rw [dropClosing, dropClosing, List.getLast?_append_of_ne_nil ts h]
  split
  · rw [List.dropLast_append_of_ne_nil h]
  · rfl

/-- At a place in a call white space and comments are at its ends, or between tokens that are scanned. -/
theorem ofTokens_at (ts post : List Token) :
    (∃ arguments, ∀ gap : List Token, (∀ t ∈ gap, t.isTrivia = true) → ofTokens (ts ++ (gap ++ post)) = arguments) ∨
    ∃ post', post' <+: post ∧ ∀ gap : List Token, (∀ t ∈ gap, t.isTrivia = true) →
      ofTokens (ts ++ (gap ++ post)) = Scan.arguments (scanned ts ++ (gap ++ post')) := by
  have hgap : ∀ {gap : List Token}, (∀ t ∈ gap, t.isTrivia = true) →
      dropTrivia gap = [] ∧ dropTriviaEnd gap = [] := by
    intro gap htrivia
    refine ⟨dropTrivia_eq_nil htrivia, ?_⟩
    have hreverse : dropTrivia gap.reverse = [] :=
      dropTrivia_eq_nil fun t ht => htrivia t (List.mem_reverse.mp ht)
    rw [dropTriviaEnd, ← dropTrivia, hreverse, List.reverse_nil]
  cases hts : dropTrivia ts with
  | nil =>
    refine .inl ⟨ofTokens post, fun gap htrivia => ?_⟩
    have htrim : trimTrivia (ts ++ (gap ++ post)) = trimTrivia post := by
      rw [trimTrivia, dropTrivia_append, if_pos hts, dropTrivia_append, if_pos (hgap htrivia).1, ← trimTrivia]
    rw [ofTokens, htrim, ← ofTokens]
  | cons t rest =>
    by_cases hpost : dropTriviaEnd post = []
    · refine .inl ⟨ofTokens ts, fun gap htrivia => ?_⟩
      have htrim : trimTrivia (ts ++ (gap ++ post)) = trimTrivia ts := by
        rw [trimTrivia, dropTrivia_append, if_neg (by simp [hts]), dropTriviaEnd_append, dropTriviaEnd_append,
          if_pos hpost, if_pos (hgap htrivia).2, ← trimTrivia]
      rw [ofTokens, htrim, ← ofTokens]
    · have htrim : ∀ gap : List Token, (∀ t ∈ gap, t.isTrivia = true) →
          trimTrivia (ts ++ (gap ++ post)) = t :: (rest ++ (gap ++ dropTriviaEnd post)) := by
        intro gap htrivia
        rw [trimTrivia, dropTrivia_append, if_neg (by simp [hts]), dropTriviaEnd_append, dropTriviaEnd_append,
          if_neg hpost, if_neg (by simp [hpost]), hts, List.cons_append]
      have hmany : ∀ gap : List Token, rest ++ (gap ++ dropTriviaEnd post) ≠ [] := by simp [hpost]
      right
      by_cases hparen : t.kind = .leftParen
      · refine ⟨dropClosing (dropTriviaEnd post), (dropClosing_isPrefix _).trans (dropTriviaEnd_isPrefix post),
          fun gap htrivia => ?_⟩
        rw [ofTokens, htrim gap htrivia, scanned, hts]
        simp only [hparen, if_true, hmany, and_false, if_false]
        rw [← List.append_assoc, dropClosing_append _ hpost, List.append_assoc]
      · refine ⟨dropTriviaEnd post, dropTriviaEnd_isPrefix post, fun gap htrivia => ?_⟩
        rw [ofTokens, htrim gap htrivia, scanned, hts]
        simp only [hparen, if_false, hmany, and_false, List.cons_append]

/-- At any place outside functions (`Scan.exists_place_or_inFunction`) a comment next to white space can go, with
the white space around it in one token: the arguments stay the same, unless the comment cuts a value off from a
separator or sets it off from its stack. In the list that it is in, a comment that cuts off makes one text of two
arguments, and a comment that sets off makes two arguments of one text. -/
theorem ofTokens_uncommented {s : String} {all ts level gap gap' post : List Token} (h : Token.ofText s = .ok all)
    (hrun : ts ++ (gap ++ post) <:+: content all) (hplace : Place (scanned ts) level)
    (hgap : Uncommented gap gap') :
    (¬ CutsOff level gap post → ¬ SetsOff level gap post →
      ofTokens (ts ++ (gap ++ post)) = ofTokens (ts ++ (gap' ++ post))) ∧
    ∀ rest, rest <+: post →
      (CutsOff level gap rest → Joined (items (level ++ (gap ++ rest))) (items (level ++ (gap' ++ rest)))) ∧
      (SetsOff level gap rest → Joined (items (level ++ (gap' ++ rest))) (items (level ++ (gap ++ rest)))) := by
  have hfree : CommaFree (ts ++ (gap ++ post)) := fun t ht =>
    (reads_of_ofText h).1.commaFree t (hrun.subset ht)
  obtain ⟨hts, hbehind⟩ := List.forall_mem_append.mp hfree
  have hfreeGap : CommaFree gap := (List.forall_mem_append.mp hbehind).1
  obtain ⟨houtside, us, hlevel⟩ := hplace.exists_outside
  have hfreeLevel : CommaFree level := fun t ht =>
    hts t ((scanned_suffix ts).subset (by rw [hlevel]; exact List.mem_append_right us ht))
  refine ⟨fun hcut hset => ?_, fun rest _ => ⟨houtside.joined_of_cutsOff hgap hfreeGap hfreeLevel,
    houtside.joined_of_setsOff hgap hfreeGap hfreeLevel⟩⟩
  rcases ofTokens_at ts post with ⟨arguments, hends⟩ | ⟨post', hpre, hscan⟩
  · rw [hends gap hgap.isTrivia.1, hends gap' hgap.isTrivia.2]
  · have heq := hplace.argumentsFrom_uncommented hgap hfreeGap hfreeLevel
      (fun h => hcut ⟨h.1.mono hpre, h.2⟩) (fun h => hset ⟨h.1.mono hpre, h.2⟩)
    rw [hscan gap hgap.isTrivia.1, hscan gap' hgap.isTrivia.2, Scan.arguments, heq, ← Scan.arguments]

/-- A comment in a stack, in a list. -/
theorem ofTokens_uncommented_of_list : ∃ all ts gap gap' post, Token.ofText "([a /**/ b])" = .ok all ∧
    ts ++ (gap ++ post) = content all ∧ Place (scanned ts) [⟨.word, "a", 2, 3, ⟨1, 3⟩⟩] ∧ Uncommented gap gap' ∧
    ofTokens (ts ++ (gap ++ post)) = ofTokens (ts ++ (gap' ++ post)) := by
  have hall : Token.ofText "([a /**/ b])" = .ok [⟨.leftParen, "(", 0, 1, ⟨1, 1⟩⟩, ⟨.leftBracket, "[", 1, 2, ⟨1, 2⟩⟩,
      ⟨.word, "a", 2, 3, ⟨1, 3⟩⟩, ⟨.space, " ", 3, 4, ⟨1, 4⟩⟩, ⟨.comment, "/**/", 4, 8, ⟨1, 5⟩⟩,
      ⟨.space, " ", 8, 9, ⟨1, 9⟩⟩, ⟨.word, "b", 9, 10, ⟨1, 10⟩⟩, ⟨.rightBracket, "]", 10, 11, ⟨1, 11⟩⟩,
      ⟨.rightParen, ")", 11, 12, ⟨1, 12⟩⟩, ⟨.eof, "", 12, 12, ⟨1, 13⟩⟩] := by decide +kernel
  let ts : List Token :=
    [⟨.leftParen, "(", 0, 1, ⟨1, 1⟩⟩, ⟨.leftBracket, "[", 1, 2, ⟨1, 2⟩⟩, ⟨.word, "a", 2, 3, ⟨1, 3⟩⟩]
  let gap : List Token := [⟨.space, " ", 3, 4, ⟨1, 4⟩⟩, ⟨.comment, "/**/", 4, 8, ⟨1, 5⟩⟩, ⟨.space, " ", 8, 9, ⟨1, 9⟩⟩]
  let gap' : List Token := [⟨.space, "  ", 3, 9, ⟨1, 4⟩⟩]
  let post : List Token := [⟨.word, "b", 9, 10, ⟨1, 10⟩⟩, ⟨.rightBracket, "]", 10, 11, ⟨1, 11⟩⟩,
    ⟨.rightParen, ")", 11, 12, ⟨1, 12⟩⟩]
  have hplace : Place (scanned ts) [⟨.word, "a", 2, 3, ⟨1, 3⟩⟩] :=
    @Place.list _ [] _ _ .nil rfl rfl (.here (.token nofun nofun .nil))
  have hgap : Uncommented gap gap' := .between rfl rfl rfl rfl rfl
  have hcut : ¬ CutsOff [⟨.word, "a", 2, 3, ⟨1, 3⟩⟩] gap post := by
    rintro ⟨-, ⟨t, ht, hkind⟩, -⟩
    obtain rfl := Option.some.inj ht
    rcases hkind with hkind | hkind <;> cases hkind
  have hset : ¬ SetsOff [⟨.word, "a", 2, 3, ⟨1, 3⟩⟩] gap post := by
    rintro ⟨-, -, t, ht, hkind⟩
    obtain rfl := Option.some.inj ht
    cases hkind
  exact ⟨_, ts, gap, gap', post, hall, rfl, hplace, hgap,
    (ofTokens_uncommented hall List.infix_rfl hplace hgap).1 hcut hset⟩

/-- Between a comma and a value a comment with white space behind it makes one text of two. -/
theorem ofTokens_uncommented_fails : ¬ ∀ s all ts level gap gap' post, Token.ofText s = .ok all →
    ts ++ (gap ++ post) <:+: content all → Place (scanned ts) level → Uncommented gap gap' →
    ofTokens (ts ++ (gap ++ post)) = ofTokens (ts ++ (gap' ++ post)) := by
  intro h
  have hall : Token.ofText "(a, /**/ b)" = .ok [⟨.leftParen, "(", 0, 1, ⟨1, 1⟩⟩, ⟨.word, "a", 1, 2, ⟨1, 2⟩⟩,
      ⟨.comma, ",", 2, 3, ⟨1, 3⟩⟩, ⟨.space, " ", 3, 4, ⟨1, 4⟩⟩, ⟨.comment, "/**/", 4, 8, ⟨1, 5⟩⟩,
      ⟨.space, " ", 8, 9, ⟨1, 9⟩⟩, ⟨.word, "b", 9, 10, ⟨1, 10⟩⟩, ⟨.rightParen, ")", 10, 11, ⟨1, 11⟩⟩,
      ⟨.eof, "", 11, 11, ⟨1, 12⟩⟩] := by decide +kernel
  let ts : List Token := [⟨.leftParen, "(", 0, 1, ⟨1, 1⟩⟩, ⟨.word, "a", 1, 2, ⟨1, 2⟩⟩, ⟨.comma, ",", 2, 3, ⟨1, 3⟩⟩]
  let gap : List Token := [⟨.space, " ", 3, 4, ⟨1, 4⟩⟩, ⟨.comment, "/**/", 4, 8, ⟨1, 5⟩⟩, ⟨.space, " ", 8, 9, ⟨1, 9⟩⟩]
  let gap' : List Token := [⟨.space, "  ", 3, 9, ⟨1, 4⟩⟩]
  let post : List Token := [⟨.word, "b", 9, 10, ⟨1, 10⟩⟩, ⟨.rightParen, ")", 10, 11, ⟨1, 11⟩⟩]
  have hplace : Place (scanned ts) (scanned ts) := .here (.token nofun nofun (.token nofun nofun .nil))
  have heq := h _ _ ts _ gap gap' post hall List.infix_rfl hplace (.between rfl rfl rfl rfl rfl)
  have hwith : ofTokens (ts ++ (gap ++ post)) = [.text "a, b"] := by cbv
  have hwithout : ofTokens (ts ++ (gap' ++ post)) = [.text "a", .text "b"] := by cbv
  rw [hwith, hwithout] at heq
  simp at heq

end Argument
end Mixsheet
