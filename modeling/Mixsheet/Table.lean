/-! # Ordered tables

A table is a list of entries with distinct keys, in the order in which the keys were first written. A
key that is written again keeps its place and takes the new value. -/

namespace Mixsheet.Table

variable {α β : Type}

/-- Writes a value under a key: in the place of the one that is there, or behind all. -/
def insert (key : String) (value : α) : List (String × α) → List (String × α)
  | [] => [(key, value)]
  | (k, v) :: rest => if k = key then (k, value) :: rest else (k, v) :: insert key value rest

/-- The value last written under a key. -/
def get? (key : String) : List (String × α) → Option α
  | [] => none
  | (k, v) :: rest => if k = key then some v else get? key rest

/-- The keys in their order. -/
def keys (entries : List (String × α)) : List String := entries.map (·.1)

/-- Writes the entries of a list one after the other. -/
def insertAll (table : List (String × α)) (entries : List (String × α)) : List (String × α) :=
  entries.foldl (fun t e => insert e.1 e.2 t) table

/-- The table of a list of entries. -/
def ofList (entries : List (String × α)) : List (String × α) := insertAll [] entries

theorem get?_insert (key : String) (value : α) (table : List (String × α)) (k : String) :
    get? k (insert key value table) = if key = k then some value else get? k table := by
  induction table with
  | nil => simp [insert, get?]
  | cons e rest ih =>
    obtain ⟨k', v⟩ := e
    rw [insert]
    split <;> rename_i h
    · subst h
      simp only [get?]
      split <;> rfl
    · simp only [get?, ih]
      split <;> split <;> simp_all

theorem keys_insert (key : String) (value : α) (table : List (String × α)) :
    keys (insert key value table) = if key ∈ keys table then keys table else keys table ++ [key] := by
  induction table with
  | nil => simp [insert, keys]
  | cons e rest ih =>
    obtain ⟨k, v⟩ := e
    rw [insert]
    split <;> rename_i h
    · subst h
      simp [keys]
    · have hk : key ≠ k := fun e => h e.symm
      simp only [keys, List.map_cons, List.mem_cons, hk, false_or] at ih ⊢
      rw [ih]
      by_cases hm : key ∈ rest.map (·.1) <;> simp [hm]

end Mixsheet.Table
