import Mixsheet.Proofs.Argument.Plain
import Mixsheet.Proofs.Node.CallText

/-! # Maps among arguments

A keyed call has one map, whose values hold no map, and every other call has no map at any depth. A call in
one `( … )` token is keyed if one of its parts has a key; any other call is keyed if the scan meets a colon
outside functions and lists. -/

namespace Mixsheet

open Token Text

/-! ### Arguments without maps -/

namespace Argument

/-- The argument is no map and holds none. -/
inductive MapFree : Argument → Prop where
  | text (s : String) : MapFree (.text s)
  | list {items : List Argument} (items_ : ∀ item ∈ items, MapFree item) : MapFree (.list items)

/-- One map, whose values hold no map. -/
def OneMap (arguments : List Argument) : Prop :=
  ∃ entries, arguments = [.map entries] ∧ ∀ e ∈ entries, e.2.MapFree

/-- No map at any depth. -/
def Positional (arguments : List Argument) : Prop := ∀ a ∈ arguments, a.MapFree

theorem Positional.ne_map {arguments : List Argument} (h : Positional arguments)
    (entries : List (String × Argument)) : arguments ≠ [.map entries] := by
  rintro rfl
  cases h _ List.mem_cons_self

end Argument

open Argument

theorem Table.mem_insert {α : Type} {key : String} {value : α} {table : List (String × α)} {e : String × α}
    (h : e ∈ insert key value table) : e = (key, value) ∨ e ∈ table := by
  induction table with
  | nil => exact .inl (List.mem_singleton.mp h)
  | cons entry rest ih =>
    obtain ⟨k, v⟩ := entry
    rw [insert] at h
    split at h
    · rename_i hk
      rcases List.mem_cons.mp h with rfl | h
      · exact .inl (by rw [hk])
      · exact .inr (List.mem_cons_of_mem _ h)
    · rcases List.mem_cons.mp h with rfl | h
      · exact .inr List.mem_cons_self
      · exact (ih h).imp_right (List.mem_cons_of_mem _)

namespace Piece

/-- The piece has no map in it. -/
def MapFree : Piece → Prop
  | .single argument => argument.MapFree
  | .pair _ value => value.MapFree

theorem entriesFrom_mapFree {pieces : List Piece} (h : ∀ p ∈ pieces, p.MapFree) (odd : Bool) (previous : String)
    {table : List (String × Argument)} (ht : ∀ e ∈ table, e.2.MapFree) :
    ∀ e ∈ entriesFrom odd previous table pieces, e.2.MapFree := by
  induction pieces generalizing odd previous table with
  | nil => exact ht
  | cons piece rest ih =>
    obtain ⟨hpiece, hrest⟩ := List.forall_mem_cons.mp h
    have hinsert : ∀ key {value : Argument}, value.MapFree → ∀ e ∈ Table.insert key value table, e.2.MapFree := by
      intro key value hvalue e he
      rcases Table.mem_insert he with rfl | he
      · exact hvalue
      · exact ht e he
    cases piece with
    | pair key value => exact ih hrest _ _ (hinsert key hpiece)
    | single argument =>
      cases odd with
      | true => exact ih hrest _ _ (hinsert previous hpiece)
      | false => exact ih hrest _ _ (hinsert argument.render (.text ""))

/-- A keyed call has one map, and a call without pairs that is not keyed has none. -/
theorem arguments_mapFree {pieces : List Piece} (h : ∀ p ∈ pieces, p.MapFree) {keyed : Bool}
    (hpairs : keyed = false → ∀ p ∈ pieces, p.isPair = false) :
    if keyed then OneMap (arguments keyed pieces) else Positional (arguments keyed pieces) := by
  cases keyed with
  | true => exact ⟨_, rfl, entriesFrom_mapFree h false "" nofun⟩
  | false =>
    intro a ha
    obtain ⟨piece, hmem, rfl⟩ := List.mem_map.mp ha
    cases piece with
    | single argument => exact h _ hmem
    | pair key value => cases hpairs rfl _ hmem

end Piece

/-! ### Calls in one token -/

namespace Grouped

/-- A `: ` stands in the text outside brackets and quotes. -/
def HasKey (cs : List Char) : Prop :=
  ∃ key value, cs = key ++ ':' :: ' ' :: value ∧ key.foldl Nesting.after .outside = .outside

theorem isSome_splitPair? {n : Nesting} {cs : List Char} : (splitPair? n cs).isSome = true ↔
    ∃ key value, cs = key ++ ':' :: ' ' :: value ∧ key.foldl Nesting.after n = .outside := by
  induction cs generalizing n with
  | nil => simp [splitPair?]
  | cons c cs ih =>
    rw [splitPair?]
    split
    · rename_i h
      obtain ⟨rfl, hout, hblank⟩ := h
      obtain ⟨ds, rfl⟩ := List.head?_eq_some_iff.mp hblank
      exact iff_of_true rfl ⟨[], ds, rfl, beq_iff_eq.mp hout⟩
    · rename_i h
      rw [Option.isSome_map, ih]
      constructor
      · rintro ⟨key, value, rfl, hkey⟩
        exact ⟨c :: key, value, rfl, hkey⟩
      · rintro ⟨key, value, heq, hkey⟩
        cases key with
        | nil =>
          obtain ⟨rfl, rfl⟩ := List.cons.inj heq
          exact absurd ⟨rfl, beq_iff_eq.mpr hkey, rfl⟩ h
        | cons d key =>
          obtain ⟨rfl, rfl⟩ := List.cons.inj heq
          exact ⟨key, value, rfl, hkey⟩

theorem literal_mapFree (cs : List Char) : (literal cs).MapFree := by
  fun_induction literal cs with
  | case1 cs _ => exact .text _
  | case2 cs body _ _ => exact .list nofun
  | case3 cs body _ _ ih =>
    refine .list fun item hitem => ?_
    obtain ⟨⟨part, hpart⟩, -, rfl⟩ := List.mem_map.mp hitem
    exact ih part hpart

theorem piece_mapFree (part : List Char) : (piece part).MapFree := by
  rw [piece]
  split
  · exact literal_mapFree _
  · exact literal_mapFree _

theorem isPair_piece {part : List Char} : (piece part).isPair = true ↔ HasKey (trim part) := by
  rw [HasKey, ← isSome_splitPair?, piece]
  split <;> (rename_i h; simp [h, Piece.isPair])

theorem any_isPair_pieces {inner : List Char} :
    (pieces inner).any Piece.isPair = true ↔ ∃ part ∈ splitCommas inner, HasKey (trim part) := by
  rw [pieces]
  split
  · rename_i hblank
    refine iff_of_false (by simp) ?_
    rintro ⟨part, hpart, key, value, htrim, -⟩
    rw [(passes_of_blank (trim_eq_nil_iff.mp (List.isEmpty_iff.mp hblank))).splitCommas] at hpart
    obtain rfl := List.mem_singleton.mp hpart
    rw [List.isEmpty_iff.mp hblank] at htrim
    simp at htrim
  · simp [List.any_map, isPair_piece]

end Grouped

/-! ### Scanned calls -/

namespace Scan

/-- The scan meets a colon outside functions and lists. -/
inductive MeetsColon : List Token → Prop where
  | here {t : Token} {ts : List Token} (kind : t.kind = .colon) : MeetsColon (t :: ts)
  | token {t : Token} {ts : List Token} (paren : t.kind ≠ .leftParen) (bracket : t.kind ≠ .leftBracket)
    (rest : MeetsColon ts) : MeetsColon (t :: ts)
  | function {first last : Token} {inner ts : List Token} (opens : first.kind = .leftParen)
    (inside : Balanced .leftParen .rightParen inner) (closes : last.kind = .rightParen) (rest : MeetsColon ts) :
    MeetsColon (first :: (inner ++ last :: ts))
  | list {first last : Token} {inner ts : List Token} (opens : first.kind = .leftBracket)
    (inside : Balanced .leftBracket .rightBracket inner) (closes : last.kind = .rightBracket) (rest : MeetsColon ts) :
    MeetsColon (first :: (inner ++ last :: ts))

theorem append_mapFree {arguments : List Argument} (h : Positional arguments) (s : String) :
    Positional (append arguments s) := by
  cases arguments with
  | nil => exact List.forall_mem_singleton.mpr (.text s)
  | cons a rest =>
    obtain ⟨ha, hrest⟩ := List.forall_mem_cons.mp h
    cases a with
    | text last => exact List.forall_mem_cons.mpr ⟨.text _, hrest⟩
    | list items => exact List.forall_mem_cons.mpr ⟨.text s, h⟩
    | map entries => exact List.forall_mem_cons.mpr ⟨.text s, h⟩

/-- What the scan does with a token that opens neither a function nor a list. -/
theorem argumentsFrom_token {t : Token} (hparen : t.kind ≠ .leftParen) (hbracket : t.kind ≠ .leftBracket)
    (before : List Token) (arguments : List Argument) (keyed : Bool) (rest : List Token) : ∃ arguments',
    argumentsFrom before 0 arguments keyed (t :: rest) =
      argumentsFrom (t :: before) 0 arguments' (keyed || decide (t.kind = .colon)) rest ∧
    (arguments' = arguments ∨ ∃ s, arguments' = append arguments s ∨ arguments' = .text s :: arguments) := by
  refine ⟨_, argumentsFrom_taken hparen hbracket before arguments keyed rest, ?_⟩
  unfold taken put
  repeat' split
  all_goals first | exact .inl rfl | exact .inr ⟨_, .inl rfl⟩ | exact .inr ⟨_, .inr rfl⟩

/-- Induction along the scan: inside functions token by token, outside of them also list by list. -/
theorem scan_induction {motive : Nat → List Token → Prop} (nil : ∀ depth, motive depth [])
    (inside : ∀ depth t ts, motive (depthAfter (depth + 1) t) ts → motive (depth + 1) (t :: ts))
    (token : ∀ t ts, t.kind ≠ .leftParen → t.kind ≠ .leftBracket → motive 0 ts → motive 0 (t :: ts))
    (function : ∀ t ts, t.kind = .leftParen → motive 1 ts → motive 0 (t :: ts))
    (list : ∀ t ts, t.kind = .leftBracket → motive 0 (splitList 0 ts).1 →
      (∀ close rest, (splitList 0 ts).2 = close :: rest → motive 0 rest) → motive 0 (t :: ts))
    (depth : Nat) (ts : List Token) : motive depth ts := by
  induction hn : ts.length using Nat.strongRecOn generalizing depth ts with
  | ind n ih =>
    cases ts with
    | nil => exact nil depth
    | cons t ts =>
      rw [List.length_cons] at hn
      have hnext : ∀ depth, motive depth ts := fun depth => ih ts.length (by omega) depth ts rfl
      cases depth with
      | succ depth => exact inside depth t ts (hnext _)
      | zero =>
        have hlength := splitList_length 0 ts
        by_cases hparen : t.kind = .leftParen
        · exact function t ts hparen (hnext 1)
        by_cases hbracket : t.kind = .leftBracket
        · refine list t ts hbracket (ih _ (by omega) 0 _ rfl) fun close rest hrest => ih rest.length ?_ 0 rest rfl
          rw [hrest, List.length_cons] at hlength
          omega
        · exact token t ts hparen hbracket (hnext 0)

theorem argumentsFrom_mapFree (before : List Token) (depth : Nat) {arguments : List Argument} (keyed : Bool)
    (ts : List Token) (h : Positional arguments) : Positional (argumentsFrom before depth arguments keyed ts).1 := by
  induction depth, ts using scan_induction generalizing before arguments keyed with
  | nil depth =>
    rw [argumentsFrom]
    exact fun a ha => h a (List.mem_reverse.mp ha)
  | inside depth t ts ih =>
    rw [argumentsFrom_inside]
    exact ih _ _ (append_mapFree h _)
  | token t ts hparen hbracket ih =>
    obtain ⟨arguments', heq, harguments⟩ := argumentsFrom_token hparen hbracket before arguments keyed ts
    rw [heq]
    refine ih _ _ ?_
    rcases harguments with rfl | ⟨s, rfl | rfl⟩
    · exact h
    · exact append_mapFree h s
    · exact List.forall_mem_cons.mpr ⟨.text s, h⟩
  | function t ts hkind ih =>
    rw [argumentsFrom_leftParen hkind]
    exact ih _ _ (append_mapFree h _)
  | list t ts hkind ihi ihr =>
    have harguments := List.forall_mem_cons.mpr ⟨MapFree.list (ihi [] false (List.forall_mem_nil _)), h⟩
    rw [argumentsFrom_leftBracket hkind]
    split
    · exact fun a ha => harguments a (List.mem_reverse.mp ha)
    · rename_i close rest hrest
      exact ihr close rest hrest _ _ harguments

/-! ### Colons -/

theorem argumentsFrom_keyed (before : List Token) (depth : Nat) (arguments : List Argument) (ts : List Token) :
    (argumentsFrom before depth arguments true ts).2 = true := by
  induction depth, ts using scan_induction generalizing before arguments with
  | nil depth => rw [argumentsFrom]
  | inside depth t ts ih => rw [argumentsFrom_inside, ih]
  | token t ts hparen hbracket ih =>
    obtain ⟨arguments', heq, -⟩ := argumentsFrom_token hparen hbracket before arguments true ts
    rw [heq, Bool.true_or, ih]
  | function t ts hkind ih => rw [argumentsFrom_leftParen hkind, ih]
  | list t ts hkind _ ih =>
    rw [argumentsFrom_leftBracket hkind]
    split
    · rfl
    · rename_i close rest hrest
      exact ih close rest hrest _ _

theorem MeetsColon.keyed {ts : List Token} (h : MeetsColon ts) (before : List Token) (arguments : List Argument)
    (keyed : Bool) : (argumentsFrom before 0 arguments keyed ts).2 = true := by
  induction h generalizing before arguments keyed with
  | here kind =>
    rw [argumentsFrom_colon kind]
    exact argumentsFrom_keyed _ _ _ _
  | token paren bracket _ ih =>
    obtain ⟨arguments', heq, -⟩ := argumentsFrom_token paren bracket before arguments keyed _
    rw [heq, ih]
  | @function first last inner ts opens inside closes _ ih => rw [argumentsFrom_group opens inside closes, ih]
  | @list first last inner ts opens inside closes _ ih => rw [argumentsFrom_list opens inside closes, ih]

/-- The brackets of a kind that are open are closed one after the other, and `P` holds of what follows the
last of them. -/
def ClosesTo (opener closer : TokenKind) (P : List Token → Prop) : Nat → List Token → Prop
  | 0, ts => P ts
  | n + 1, ts => ∃ inner last rest, ts = inner ++ last :: rest ∧ Balanced opener closer inner ∧
      last.kind = closer ∧ ClosesTo opener closer P n rest

theorem ClosesTo.cons {opener closer : TokenKind} {P : List Token → Prop} {n : Nat} {t : Token} {ts : List Token}
    (h : ClosesTo opener closer P (openAfter opener closer (n + 1) t) ts) :
    ClosesTo opener closer P (n + 1) (t :: ts) := by
  unfold openAfter at h
  split at h
  · rename_i opens
    obtain ⟨inner, last, rest, rfl, hinner, hlast, inner', last', rest', rfl, hinner', hlast', hrest'⟩ := h
    exact ⟨t :: (inner ++ last :: inner'), last', rest', by simp, .pair opens hlast hinner hinner', hlast', hrest'⟩
  split at h
  · rename_i closes
    exact ⟨[], t, ts, rfl, .nil, closes, h⟩
  · rename_i opens closes
    obtain ⟨inner, last, rest, rfl, hinner, hlast, hrest⟩ := h
    exact ⟨t :: inner, last, rest, rfl, .token opens closes hinner, hlast, hrest⟩

theorem closesTo_of_splitList {depth : Nat} {ts : List Token} (h : (splitList depth ts).2 ≠ []) :
    ClosesTo .leftBracket .rightBracket (fun _ => True) (depth + 1) ts := by
  induction ts generalizing depth with
  | nil => exact absurd rfl h
  | cons t ts ih =>
    refine ClosesTo.cons ?_
    rw [splitList] at h
    split at h
    · rename_i hclose
      obtain ⟨hkind, rfl⟩ := hclose
      simp [openAfter, hkind, ClosesTo]
    · rename_i hclose
      have hafter : openAfter .leftBracket .rightBracket (depth + 1) t = listsAfter depth t.kind + 1 := by
        unfold openAfter listsAfter
        split
        · simp [*]
        split
        · rename_i hkind
          have hdepth : depth ≠ 0 := fun hd => hclose ⟨hkind, hd⟩
          simp only [hkind]
          omega
        · split <;> first | contradiction | rfl
      rw [hafter]
      exact ih h

theorem closesTo_of_keyed {before : List Token} {depth : Nat} {arguments : List Argument} {ts : List Token}
    (h : (argumentsFrom before depth arguments false ts).2 = true) :
    ClosesTo .leftParen .rightParen MeetsColon depth ts := by
  induction depth, ts using scan_induction generalizing before arguments with
  | nil depth =>
    rw [argumentsFrom] at h
    cases h
  | inside depth t ts ih =>
    rw [argumentsFrom_inside] at h
    have hafter : openAfter .leftParen .rightParen (depth + 1) t = depthAfter (depth + 1) t := by
      unfold openAfter depthAfter
      cases t.kind <;> rfl
    exact .cons (hafter ▸ ih h)
  | token t ts hparen hbracket ih =>
    obtain ⟨arguments', heq, -⟩ := argumentsFrom_token hparen hbracket before arguments false ts
    by_cases hkind : t.kind = .colon
    · exact .here hkind
    · rw [heq, Bool.false_or, decide_eq_false hkind] at h
      exact .token hparen hbracket (ih h)
  | function t ts hkind ih =>
    rw [argumentsFrom_leftParen hkind] at h
    obtain ⟨inner, last, rest, rfl, hinner, hlast, hrest⟩ := ih h
    exact .function hkind hinner hlast hrest
  | list t ts hkind _ ih =>
    rw [argumentsFrom_leftBracket hkind] at h
    split at h
    · cases h
    · rename_i close rest hsplit
      obtain ⟨inner, last, rest', rfl, hinner, hlast, -⟩ :=
        @closesTo_of_splitList 0 ts (by rw [hsplit]; exact List.cons_ne_nil _ _)
      have hrest := hinner.splitList_cons hlast rest'
      rw [hrest] at hsplit
      obtain ⟨rfl, rfl⟩ := List.cons.inj hsplit
      exact .list hkind hinner hlast (ih last rest' (congrArg Prod.snd hrest) h)

theorem keyed_iff_meetsColon {ts : List Token} : (argumentsFrom [] 0 [] false ts).2 = true ↔ MeetsColon ts :=
  ⟨closesTo_of_keyed, fun h => h.keyed [] [] false⟩

end Scan

/-! ### Calls -/

namespace Argument

/-- A call of these tokens is keyed: a part of its one `( … )` token has a key, or the scan of its tokens, in
parentheses or not, meets a colon outside functions and lists. -/
inductive Keyed (ts : List Token) : Prop where
  | part {group : Token} {cs : List Char} (run : trimTrivia ts = [group]) (kind : group.kind = .brackets)
    (part_ : cs ∈ Grouped.splitCommas (Grouped.inside group.text)) (key : Grouped.HasKey (trim cs)) : Keyed ts
  | parens {first : Token} {rest : List Token} (run : trimTrivia ts = first :: rest) (kind : first.kind = .leftParen)
    (colon : Scan.MeetsColon (dropClosing rest)) : Keyed ts
  | bare {first : Token} {rest : List Token} (run : trimTrivia ts = first :: rest) (kind : first.kind ≠ .leftParen)
    (many : first.kind = .brackets → rest ≠ []) (colon : Scan.MeetsColon (first :: rest)) : Keyed ts

/-- The tokens are a call of one kind or the other, by whether they are keyed. -/
def Sorted (ts : List Token) (arguments : List Argument) : Prop :=
  (OneMap arguments ∧ Keyed ts) ∨ (Positional arguments ∧ ¬ Keyed ts)

theorem sorted_of {ts : List Token} {keyed : Bool} {arguments : List Argument} (hkeyed : keyed = true ↔ Keyed ts)
    (h : if keyed then OneMap arguments else Positional arguments) : Sorted ts arguments := by
  cases keyed with
  | true => exact .inl ⟨h, hkeyed.mp rfl⟩
  | false => exact .inr ⟨h, fun hk => by cases hkeyed.mpr hk⟩

theorem sorted_grouped {ts : List Token} {group : Token} (hrun : trimTrivia ts = [group])
    (hkind : group.kind = .brackets) : Sorted ts (Grouped.arguments group.text) := by
  refine sorted_of (Grouped.any_isPair_pieces.trans ?_) (Piece.arguments_mapFree ?_ fun hpairs p hp => ?_)
  · constructor
    · rintro ⟨cs, hcs, hkey⟩
      exact .part hrun hkind hcs hkey
    · rintro (⟨hrun', -, hcs, hkey⟩ | ⟨hrun', hparen, -⟩ | ⟨hrun', -, hmany, -⟩)
      · obtain ⟨rfl, -⟩ := List.cons.inj (hrun.symm.trans hrun')
        exact ⟨_, hcs, hkey⟩
      · obtain ⟨rfl, -⟩ := List.cons.inj (hrun.symm.trans hrun')
        rw [hkind] at hparen
        cases hparen
      · obtain ⟨rfl, rfl⟩ := List.cons.inj (hrun.symm.trans hrun')
        exact absurd rfl (hmany hkind)
  · intro p hp
    unfold Grouped.pieces at hp
    split at hp
    · cases hp
    · obtain ⟨part, -, rfl⟩ := List.mem_map.mp hp
      exact Grouped.piece_mapFree part
  · exact Bool.eq_false_iff.mpr fun h => List.any_eq_false.mp hpairs p hp h

theorem sorted_scanned {ts us : List Token} (h : Scan.MeetsColon us ↔ Keyed ts) : Sorted ts (Scan.arguments us) := by
  refine sorted_of (Scan.keyed_iff_meetsColon.trans h) (Piece.arguments_mapFree ?_ fun _ p hp => ?_)
  · intro p hp
    obtain ⟨a, ha, rfl⟩ := List.mem_map.mp hp
    exact Scan.argumentsFrom_mapFree [] 0 false us (List.forall_mem_nil _) a ha
  · obtain ⟨a, -, rfl⟩ := List.mem_map.mp hp
    rfl

theorem sorted_ofTokens (ts : List Token) : Sorted ts (ofTokens ts) := by
  rw [ofTokens]
  split
  · rename_i hrun
    refine .inr ⟨List.forall_mem_nil _, ?_⟩
    rintro (⟨hrun', -⟩ | ⟨hrun', -⟩ | ⟨hrun', -⟩) <;> cases hrun.symm.trans hrun'
  · rename_i first rest hrun
    have hinj : ∀ {first' rest'}, trimTrivia ts = first' :: rest' → first = first' ∧ rest = rest' := fun hrun' =>
      List.cons.inj (hrun.symm.trans hrun')
    split
    · rename_i hgroup
      obtain ⟨hkind, rfl⟩ := hgroup
      exact sorted_grouped hrun hkind
    split
    · rename_i hparen
      refine sorted_scanned ⟨.parens hrun hparen, ?_⟩
      rintro (⟨hrun', hkind, -⟩ | ⟨hrun', -, hcolon⟩ | ⟨hrun', hkind, -⟩) <;> obtain ⟨rfl, rfl⟩ := hinj hrun'
      · rw [hkind] at hparen
        cases hparen
      · exact hcolon
      · exact absurd hparen hkind
    · rename_i hgroup hparen
      refine sorted_scanned ⟨.bare hrun hparen fun hkind hrest => hgroup ⟨hkind, hrest⟩, ?_⟩
      rintro (⟨hrun', hkind, -⟩ | ⟨hrun', hkind, -⟩ | ⟨hrun', -, -, hcolon⟩) <;> obtain ⟨rfl, rfl⟩ := hinj hrun'
      · exact absurd ⟨hkind, rfl⟩ hgroup
      · exact absurd hkind hparen
      · exact hcolon

end Argument

/-- A run of tokens has one map as its arguments, with no map in its values, or no map at any depth, and a map
exactly if it is keyed. So have the mixin calls of every stylesheet one or the other. -/
theorem Argument.oneMap_or_positional :
    (∀ ts, (OneMap (ofTokens ts) ∨ Positional (ofTokens ts)) ∧
      ((∃ entries, ofTokens ts = [.map entries]) ↔ Keyed ts)) ∧
    ∀ s sheet, Stylesheet.parse s = .ok sheet → ∀ c ∈ Node.calls sheet.nodes,
      OneMap c.arguments ∨ Positional c.arguments := by
  have hsorted : ∀ ts, OneMap (ofTokens ts) ∨ Positional (ofTokens ts) := fun ts =>
    (sorted_ofTokens ts).imp And.left And.left
  refine ⟨fun ts => ⟨hsorted ts, ?_⟩, fun s sheet h c hc => ?_⟩
  · rcases sorted_ofTokens ts with ⟨⟨entries, heq, -⟩, hkeyed⟩ | ⟨hpositional, hkeyed⟩
    · exact iff_of_true ⟨entries, heq⟩ hkeyed
    · exact iff_of_false (fun ⟨entries, heq⟩ => hpositional.ne_map entries heq) hkeyed
  · obtain ⟨name, rest, hof⟩ := Node.exists_tokens_of_parse h hc
    rw [hof.arguments_eq]
    exact hsorted rest

/-- A keyed call in one token, and the call of a stylesheet. -/
theorem Argument.oneMap_or_positional_of_call : ∃ ts sheet c, Token.ofText "(a: b)" = .ok ts ∧
    Stylesheet.parse "m([a], b);" = .ok sheet ∧ c ∈ Node.calls sheet.nodes ∧
    ((∃ entries, ofTokens (content ts) = [.map entries]) ↔ Keyed (content ts)) ∧
    (OneMap c.arguments ∨ Positional c.arguments) := by
  have hts : Token.ofText "(a: b)" = .ok [⟨.brackets, "(a: b)", 0, 6, ⟨1, 1⟩⟩, ⟨.eof, "", 6, 6, ⟨1, 7⟩⟩] := by
    decide +kernel
  let c : MixinCall := ⟨"m", [.list [.text "a"], .text "b"], "", "([a], b)", ⟨⟨1, 1⟩, ⟨1, 10⟩⟩⟩
  have hparse : Stylesheet.parse "m([a], b);" = .ok ⟨[.call c]⟩ := by cbv
  have hcall := List.mem_singleton_self c
  exact ⟨_, _, _, hts, hparse, hcall, (oneMap_or_positional.1 _).2, oneMap_or_positional.2 _ _ hparse _ hcall⟩

/-- A `: ` at the end of a part is no key: the white space around a part does not count. -/
theorem Argument.keyed_fails : ¬ ∀ s ts group cs, Token.ofText s = .ok ts → trimTrivia (content ts) = [group] →
    group.kind = .brackets → cs ∈ Grouped.splitCommas (Grouped.inside group.text) → Grouped.HasKey cs →
    ∃ entries, ofTokens (content ts) = [.map entries] := by
  intro h
  have hts : Token.ofText "(a: )" = .ok [⟨.brackets, "(a: )", 0, 5, ⟨1, 1⟩⟩, ⟨.eof, "", 5, 5, ⟨1, 6⟩⟩] := by
    decide +kernel
  have hpart : ['a', ':', ' '] ∈ Grouped.splitCommas (Grouped.inside "(a: )") := by decide +kernel
  have hkey : Grouped.HasKey ['a', ':', ' '] := ⟨['a'], [], rfl, rfl⟩
  obtain ⟨entries, heq⟩ := h _ _ _ _ hts rfl rfl hpart hkey
  have harguments : ofTokens [⟨.brackets, "(a: )", 0, 5, ⟨1, 1⟩⟩] = [.text "a:"] := by cbv
  cases harguments.symm.trans heq

end Mixsheet
