import Mathlib.Data.List.Induction
import Mixsheet.Argument.Piece

/-! # Keyed calls

The map of a keyed call has its keys in the order in which they first come, each with the value it comes
with last. A key and its value may be one piece, or two pieces one behind the other: the map is the same
as long as no lone piece comes between. -/

namespace Mixsheet

namespace Table

variable {α : Type}

theorem insert_insert (key : String) (value value' : α) (table : List (String × α)) :
    insert key value (insert key value' table) = insert key value table := by
  induction table with
  | nil => simp [insert]
  | cons e rest ih =>
    obtain ⟨k, v⟩ := e
    by_cases h : k = key
    · simp [insert, h]
    · simp [insert, h, ih]

theorem ofList_append (entries : List (String × α)) (e : String × α) :
    ofList (entries ++ [e]) = insert e.1 e.2 (ofList entries) := by
  simp [ofList, insertAll]

theorem insert_of_notMem {key : String} {table : List (String × α)} (h : key ∉ keys table) (value : α) :
    insert key value table = table ++ [(key, value)] := by
  induction table with
  | nil => rfl
  | cons e rest ih =>
    obtain ⟨hne, hrest⟩ := not_or.mp (List.mem_cons.not.mp h)
    rw [insert, if_neg (Ne.symm hne), ih hrest, List.cons_append]

/-- Entries with distinct keys are a table. -/
theorem ofList_of_nodup {entries : List (String × α)} (h : (keys entries).Nodup) : ofList entries = entries := by
  induction entries using List.reverseRecOn with
  | nil => rfl
  | append_singleton entries e ih =>
    rw [keys, List.map_append] at h
    obtain ⟨hentries, -, hdisjoint⟩ := List.nodup_append.mp h
    have hkey : e.1 ∉ keys entries := fun hmem => hdisjoint _ hmem _ List.mem_cons_self rfl
    rw [ofList_append, ih hentries, insert_of_notMem hkey]

theorem length_insert_of_mem {key : String} {table : List (String × α)} (h : key ∈ keys table) (value : α) :
    (insert key value table).length = table.length := by
  have := congrArg List.length (keys_insert key value table)
  rw [if_pos h] at this
  simpa [keys] using this

theorem length_ofList_le (entries : List (String × α)) : (ofList entries).length ≤ entries.length := by
  induction entries using List.reverseRecOn with
  | nil => exact Nat.le_refl 0
  | append_singleton entries e ih =>
    rw [ofList_append, List.length_append, List.length_singleton]
    by_cases h : e.1 ∈ keys (ofList entries)
    · rw [length_insert_of_mem h]
      omega
    · rw [insert_of_notMem h, List.length_append, List.length_singleton]
      omega

/-- If no write replaces another, the table is what was written. -/
theorem ofList_of_length {entries : List (String × α)} (h : entries.length ≤ (ofList entries).length) :
    ofList entries = entries := by
  induction entries using List.reverseRecOn with
  | nil => rfl
  | append_singleton entries e ih =>
    have hle := length_ofList_le entries
    rw [ofList_append, List.length_append, List.length_singleton] at h
    by_cases hmem : e.1 ∈ keys (ofList entries)
    · rw [length_insert_of_mem hmem] at h
      omega
    · rw [insert_of_notMem hmem, List.length_append, List.length_singleton] at h
      rw [ofList_append, insert_of_notMem hmem, ih (by omega)]

/-- As many writes as there are keys make a table only if they are its entries. -/
theorem ofList_eq_iff {written entries : List (String × α)} (hkeys : (keys entries).Nodup)
    (hlength : written.length ≤ entries.length) : ofList written = entries ↔ written = entries := by
  constructor
  · intro h
    rw [← h]
    exact (ofList_of_length (h ▸ hlength)).symm
  · rintro rfl
    exact ofList_of_nodup hkeys

/-- The keys of a table stand where they first came. -/
theorem keys_ofList (entries : List (String × α)) :
    keys (ofList entries) = (entries.map (·.1)).eraseDups := by
  induction entries using List.reverseRecOn with
  | nil => rfl
  | append_singleton entries e ih =>
    rw [ofList_append, keys_insert, ih, List.map_append, List.eraseDups_append]
    by_cases h : e.1 ∈ entries.map (·.1) <;> simp_all [List.removeAll, List.eraseDups_cons]

/-- A key has the value that it came with last. -/
theorem get?_ofList (key : String) (entries : List (String × α)) :
    get? key (ofList entries) = entries.reverse.lookup key := by
  induction entries using List.reverseRecOn with
  | nil => rfl
  | append_singleton entries e ih =>
    rw [ofList_append, get?_insert, ih, List.reverse_append]
    obtain ⟨k, v⟩ := e
    by_cases h : k = key
    · simp [h]
    · have h' : (key == k) = false := beq_eq_false_iff_ne.mpr (Ne.symm h)
      simp [h, List.lookup_cons, h']

end Table

namespace Piece

/-- The arguments that a piece is scanned as: a key is one of its own. -/
def scanned : Piece → List Argument
  | .single argument => [argument]
  | .pair key value => [.text key, value]

/-- Of the pieces, two by two from the first on, both are keys with their values or neither is. -/
inductive Aligned : List Piece → Prop where
  | nil : Aligned []
  | one (piece : Piece) : Aligned [piece]
  | two {first second : Piece} {rest : List Piece} (same : first.isPair = second.isPair) (rest_ : Aligned rest) :
    Aligned (first :: second :: rest)

theorem aligned_of_isPair {pieces : List Piece} (h : ∀ p ∈ pieces, p.isPair = true) : Aligned pieces := by
  induction hn : pieces.length using Nat.strongRecOn generalizing pieces with
  | ind n ih =>
    match pieces with
    | [] => exact .nil
    | [piece] => exact .one piece
    | first :: second :: rest =>
      obtain ⟨hfirst, hrest⟩ := List.forall_mem_cons.mp h
      obtain ⟨hsecond, hrest⟩ := List.forall_mem_cons.mp hrest
      exact .two (hfirst.trans hsecond.symm) (ih rest.length (by simp at hn; omega) hrest rfl)

section Entries

variable (previous key : String) (value argument : Argument) (table : List (String × Argument)) (rest : List Piece)

/-- At an even place the piece before does not count. -/
theorem entriesFrom_false (previous' : String) :
    entriesFrom false previous table rest = entriesFrom false previous' table rest := by
  cases rest with
  | nil => rfl
  | cons piece rest => cases piece <;> rfl

theorem entriesFrom_two_singles : entriesFrom false previous table (.single argument :: .single value :: rest) =
    entriesFrom false "" (Table.insert argument.render value table) rest := by
  have htwo : entriesFrom false previous table (.single argument :: .single value :: rest) = entriesFrom false
      value.render (Table.insert argument.render value (Table.insert argument.render (.text "") table)) rest := rfl
  rw [htwo, Table.insert_insert]
  exact entriesFrom_false _ _ _ _

theorem entriesFrom_scanned_pair :
    entriesFrom false previous table (.single (.text key) :: .single value :: rest) =
      entriesFrom false "" (Table.insert key value table) rest := by
  rw [entriesFrom_two_singles, Argument.render_text]

end Entries

/-- Aligned pieces have the same entries when their keys are pieces of their own. -/
theorem Aligned.entriesFrom_scanned {pieces : List Piece} (h : Aligned pieces) (table : List (String × Argument)) :
    entriesFrom false "" table ((pieces.flatMap scanned).map .single) = entriesFrom false "" table pieces := by
  induction h generalizing table with
  | nil => rfl
  | one piece =>
    cases piece with
    | single argument => rfl
    | pair key value => exact entriesFrom_scanned_pair _ key value table []
  | @two first second rest same _ ih =>
    cases first with
    | single argument =>
      cases second with
      | single argument' =>
        rw [entriesFrom_two_singles, ← ih]
        exact entriesFrom_two_singles _ _ _ _ _
      | pair key value => cases same
    | pair key value =>
      cases second with
      | single argument => cases same
      | pair key' value' =>
        have hscanned : (((.pair key value :: .pair key' value' :: rest).flatMap scanned).map .single : List Piece) =
            .single (.text key) :: .single value :: .single (.text key') :: .single value' ::
              (rest.flatMap scanned).map .single := by simp [scanned]
        rw [hscanned, entriesFrom_scanned_pair, entriesFrom_scanned_pair, ih]
        exact entriesFrom_false _ _ _ _

theorem entriesFrom_pairs (odd : Bool) (previous : String) (table entries : List (String × Argument)) :
    entriesFrom odd previous table (entries.map fun e => .pair e.1 e.2) = Table.insertAll table entries := by
  induction entries generalizing odd previous table with
  | nil => rfl
  | cons e rest ih => exact ih _ _ _

/-- Pieces scanned one after the other make the same arguments if they are aligned or none has a key. -/
theorem arguments_scanned {pieces : List Piece} (h : pieces.any isPair = true → Aligned pieces) :
    arguments (pieces.any isPair) ((pieces.flatMap scanned).map .single) = arguments (pieces.any isPair) pieces := by
  cases hany : pieces.any isPair with
  | true =>
    rw [arguments, arguments, if_pos rfl, if_pos rfl, (h hany).entriesFrom_scanned]
  | false =>
    have hsingle : (pieces.flatMap scanned).map .single = pieces := by
      clear h
      induction pieces with
      | nil => rfl
      | cons piece rest ih =>
        rw [List.any_cons, Bool.or_eq_false_iff] at hany
        cases piece with
        | single argument => exact congrArg (.single argument :: ·) (ih hany.2)
        | pair key value => cases hany.1
    rw [hsingle]

end Piece
end Mixsheet
