import Mixsheet.Proofs.Argument.Keyed

/-! # Entries with and without values

A keyed call may have keys without a value. A piece with its key and value takes one place among the pieces
of a call that is cut, and two among the arguments of one that is scanned, and places are counted in twos. So
a key without a value is an entry of its own only where the count is even. -/

namespace Mixsheet

/-- An entry of a keyed call as it is written: `key: value`, or a key alone. -/
structure CallEntry where
  key : String
  value? : Option String

namespace CallEntry

/-- The entry as it is written in a call. -/
def render (e : CallEntry) : String :=
  match e.value? with
  | some value => e.key ++ ": " ++ value
  | none => e.key

/-- The entry of the map that is meant: a key alone has the empty text. -/
def meant (e : CallEntry) : String × Argument := (e.key, .text (e.value?.getD ""))

/-- The piece that the entry is read as. -/
def piece (e : CallEntry) : Piece :=
  match e.value? with
  | some value => .pair e.key (.text value)
  | none => .single (.text e.key)

theorem keys_meant (entries : List CallEntry) : Table.keys (entries.map meant) = entries.map CallEntry.key := by
  simp [Table.keys, meant, Function.comp_def]

/-- Keys alone stand at even places only; `odd` says that the first place is odd. -/
def BareAtEven (odd : Bool) (entries : List CallEntry) : Prop :=
  ∀ i e, entries[i]? = some e → e.value? = none → (i + odd.toNat) % 2 = 0

/-- No key but the last stands alone. -/
def BareAtEnd (entries : List CallEntry) : Prop := ∀ e ∈ entries.dropLast, e.value? ≠ none

theorem bareAtEven_cons {odd : Bool} {e : CallEntry} {rest : List CallEntry} :
    BareAtEven odd (e :: rest) ↔ (e.value? = none → odd = false) ∧ BareAtEven (!odd) rest := by
  have hparity : ∀ i, (i + (!odd).toNat) % 2 = 0 ↔ (i + 1 + odd.toNat) % 2 = 0 := by
    intro i
    cases odd with
    | false => exact Iff.rfl
    | true =>
      simp only [Bool.not_true, Bool.toNat_false, Bool.toNat_true]
      omega
  constructor
  · intro h
    refine ⟨fun hnone => ?_, fun i e' he' hnone => (hparity i).mpr (h (i + 1) e' he' hnone)⟩
    have := h 0 e rfl hnone
    cases odd with
    | false => rfl
    | true => cases this
  · rintro ⟨hhead, htail⟩ i e' he' hnone
    cases i with
    | zero =>
      obtain rfl := Option.some.inj he'
      rw [hhead hnone]
      rfl
    | succ i => exact (hparity i).mp (htail i e' he' hnone)

end CallEntry

open CallEntry

namespace Piece

/-! ### Pieces of a call that is cut -/

/-- What pieces write, one entry each. -/
def writes (odd : Bool) (previous : String) : List Piece → List (String × Argument)
  | [] => []
  | .pair key value :: rest => (key, value) :: writes (!odd) key rest
  | .single argument :: rest =>
    (if odd then (previous, argument) else (argument.render, .text "")) :: writes (!odd) argument.render rest

theorem entriesFrom_eq (odd : Bool) (previous : String) (table : List (String × Argument)) (pieces : List Piece) :
    entriesFrom odd previous table pieces = Table.insertAll table (writes odd previous pieces) := by
  induction pieces generalizing odd previous table with
  | nil => rfl
  | cons piece rest ih =>
    cases piece with
    | pair key value => exact ih _ _ _
    | single argument => cases odd <;> exact ih _ _ _

theorem length_writes (odd : Bool) (previous : String) (pieces : List Piece) :
    (writes odd previous pieces).length = pieces.length := by
  induction pieces generalizing odd previous with
  | nil => rfl
  | cons piece rest ih => cases piece <;> simp [writes, ih]

theorem writes_eq_iff {entries : List CallEntry} (hkeys : ∀ e ∈ entries, e.key ≠ "") (odd : Bool) (previous : String) :
    writes odd previous (entries.map CallEntry.piece) = entries.map CallEntry.meant ↔ BareAtEven odd entries := by
  induction entries generalizing odd previous with
  | nil => simp [writes, BareAtEven]
  | cons e rest ih =>
    obtain ⟨hkey, hrest⟩ := List.forall_mem_cons.mp hkeys
    have htail := ih hrest
    rw [bareAtEven_cons, List.map_cons, List.map_cons]
    cases hvalue : e.value? with
    | some value => simp [CallEntry.piece, CallEntry.meant, hvalue, writes, htail]
    | none =>
      -- at an odd place the key is written as the value of the key before it
      cases odd with
      | false => simp [CallEntry.piece, CallEntry.meant, hvalue, writes, htail]
      | true => simp [CallEntry.piece, CallEntry.meant, hvalue, writes, hkey]

/-! ### Arguments of a call that is scanned -/

/-- Arguments two by two: a key with its value. The last key may have none. -/
def couples : List Argument → List (String × Argument)
  | [] => []
  | [key] => [(key.render, .text "")]
  | key :: value :: rest => (key.render, value) :: couples rest

theorem entriesFrom_singles (table : List (String × Argument)) (arguments : List Argument) :
    entriesFrom false "" table (arguments.map .single) = Table.insertAll table (couples arguments) := by
  induction arguments using couples.induct generalizing table with
  | case1 => rfl
  | case2 key => rfl
  | case3 key value rest ih =>
    rw [List.map_cons, List.map_cons, entriesFrom_two_singles, ih]
    rfl

theorem length_couples (arguments : List Argument) : (couples arguments).length = (arguments.length + 1) / 2 := by
  induction arguments using couples.induct with
  | case1 => rfl
  | case2 key => simp [couples]
  | case3 key value rest ih =>
    simp only [couples, List.length_cons, ih]
    omega

/-- The arguments that entries are scanned as. -/
def scannedAll (entries : List CallEntry) : List Argument := (entries.map CallEntry.piece).flatMap scanned

theorem exists_scanned (e : CallEntry) : ∃ tail, e.piece.scanned = .text e.key :: tail := by
  unfold CallEntry.piece
  split <;> exact ⟨_, rfl⟩

theorem length_scannedAll_le (entries : List CallEntry) : (scannedAll entries).length ≤ 2 * entries.length := by
  induction entries with
  | nil => exact Nat.le_refl 0
  | cons e rest ih =>
    have hpiece : e.piece.scanned.length ≤ 2 := by
      cases e.piece <;> simp [scanned]
    rw [scannedAll, List.map_cons, List.flatMap_cons, List.length_append, List.length_cons]
    rw [scannedAll] at ih
    omega

/-- Coupled arguments are what is meant if only the last key may be without a value. -/
theorem couples_eq_iff {entries : List CallEntry} (hkeys : ∀ e ∈ entries, e.key ≠ "") :
    couples (scannedAll entries) = entries.map CallEntry.meant ↔ BareAtEnd entries := by
  induction entries with
  | nil => simp [scannedAll, couples, BareAtEnd]
  | cons e rest ih =>
    obtain ⟨-, hrest⟩ := List.forall_mem_cons.mp hkeys
    cases hvalue : e.value? with
    | some value =>
      have hpiece : scannedAll (e :: rest) = .text e.key :: .text value :: scannedAll rest := by
        simp [scannedAll, CallEntry.piece, hvalue, scanned]
      have hlast : BareAtEnd (e :: rest) ↔ BareAtEnd rest := by
        cases rest with
        | nil => simp [BareAtEnd]
        | cons e' rest => simp [BareAtEnd, hvalue]
      rw [hpiece, couples, hlast, ← ih hrest]
      simp [CallEntry.meant, hvalue]
    | none =>
      cases rest with
      | nil => simp [scannedAll, CallEntry.piece, hvalue, scanned, couples, CallEntry.meant, BareAtEnd]
      | cons e' rest =>
        -- the next key becomes the value
        obtain ⟨tail, htail⟩ := exists_scanned e'
        have hscanned : scannedAll (e :: e' :: rest) = .text e.key :: .text e'.key :: (tail ++ scannedAll rest) := by
          have hhead : e.piece.scanned = [.text e.key] := by simp [CallEntry.piece, hvalue, scanned]
          simp [scannedAll, hhead, htail]
        rw [hscanned, couples]
        simp [CallEntry.meant, hvalue, (List.forall_mem_cons.mp hrest).1, BareAtEnd]

/-! ### Maps -/

section Maps

variable {entries : List CallEntry} (hkeys : (entries.map CallEntry.key).Nodup) (hne : ∀ e ∈ entries, e.key ≠ "")
include hkeys hne

/-- A call that is cut has the map that is meant if its keys alone stand at even places. -/
theorem entriesFrom_pieces_iff :
    entriesFrom false "" [] (entries.map CallEntry.piece) = entries.map CallEntry.meant ↔ BareAtEven false entries := by
  have hlength : (writes false "" (entries.map CallEntry.piece)).length ≤ (entries.map CallEntry.meant).length := by
    simp [length_writes]
  rw [entriesFrom_eq]
  exact (Table.ofList_eq_iff (keys_meant entries ▸ hkeys) hlength).trans (writes_eq_iff hne false "")

/-- A call that is scanned has the map that is meant if only its last key stands alone. -/
theorem entriesFrom_scannedAll_iff :
    entriesFrom false "" [] ((scannedAll entries).map .single) = entries.map CallEntry.meant ↔ BareAtEnd entries := by
  have hlength : (couples (scannedAll entries)).length ≤ (entries.map CallEntry.meant).length := by
    have := length_scannedAll_le entries
    rw [length_couples, List.length_map]
    omega
  rw [entriesFrom_singles]
  exact (Table.ofList_eq_iff (keys_meant entries ▸ hkeys) hlength).trans (couples_eq_iff hne)

end Maps

end Piece
end Mixsheet
