import Mixsheet.Proofs.Argument.Keyed
import Mixsheet.Proofs.Registry

/-! # A registry after changes

A registry that was changed again and again is the table of all that was written in it: each name stands where it was
first written, with the entry that was written under it last. A dotted name leads from the entry under its first
segment through registries to a mixin, so what is written under a name with a dot in it is never found. -/

namespace Mixsheet

namespace Table

variable {α : Type}

/-- The entry is the last one of its name. -/
def LastUnder (entries : List (String × α)) (name : String) (value : α) : Prop :=
  ∃ before behind, entries = before ++ (name, value) :: behind ∧ name ∉ keys behind

theorem lastUnder_append_singleton {entries : List (String × α)} {e : String × α} {name : String} {value : α} :
    LastUnder (entries ++ [e]) name value ↔ if e.1 = name then e.2 = value else LastUnder entries name value := by
  obtain ⟨k, v⟩ := e
  constructor
  · rintro ⟨before, behind, heq, hbehind⟩
    rcases List.eq_nil_or_concat behind with rfl | ⟨front, last, rfl⟩
    · obtain ⟨-, hlast⟩ := List.append_inj' heq rfl
      cases hlast
      rw [if_pos rfl]
    · rw [List.concat_eq_append, ← List.cons_append, ← List.append_assoc] at heq
      obtain ⟨rfl, hlast⟩ := List.append_inj' heq rfl
      obtain rfl := List.singleton_inj.mp hlast
      rw [keys, List.concat_eq_append, List.map_append, List.mem_append, not_or] at hbehind
      have hne : k ≠ name := fun hk => hbehind.2 (by simp [hk])
      rw [if_neg hne]
      exact ⟨before, front, rfl, hbehind.1⟩
  · intro h
    split at h
    · rename_i hname
      cases hname
      cases h
      exact ⟨entries, [], rfl, List.not_mem_nil⟩
    · rename_i hname
      obtain ⟨before, behind, rfl, hbehind⟩ := h
      refine ⟨before, behind ++ [(k, v)], by simp, ?_⟩
      rw [keys, List.map_append, List.mem_append, not_or]
      exact ⟨hbehind, by simpa using Ne.symm hname⟩

theorem get?_ofList_eq_some {entries : List (String × α)} {name : String} {value : α} :
    get? name (ofList entries) = some value ↔ LastUnder entries name value := by
  induction entries using List.reverseRecOn with
  | nil => exact iff_of_false nofun fun ⟨before, behind, heq, _⟩ => by simp at heq
  | append_singleton entries e ih =>
    rw [ofList_append, get?_insert, lastUnder_append_singleton]
    split
    · exact Option.some_inj
    · exact ih

theorem nodup_keys_ofList (entries : List (String × α)) : (keys (ofList entries)).Nodup := by
  induction entries using List.reverseRecOn with
  | nil => exact List.nodup_nil
  | append_singleton entries e ih =>
    rw [ofList_append, keys_insert]
    split
    · exact ih
    · rename_i hnew
      refine List.nodup_append.mpr ⟨ih, by simp, fun k hk k' hk' => ?_⟩
      obtain rfl := List.mem_singleton.mp hk'
      exact ne_of_mem_of_not_mem hk hnew

end Table

namespace Registry

variable {μ : Type}

/-! ### Changes -/

/-- A change of a registry. -/
inductive Change (μ : Type) where
  | register (name : String) (mixin : μ)
  | registerRegistry (name : String) (inner : Registry μ)
  | extend (other : Registry μ)

namespace Change

/-- The registry behind a change. -/
def apply (r : Registry μ) : Change μ → Registry μ
  | .register name mixin => r.register name mixin
  | .registerRegistry name inner => r.registerRegistry name inner
  | .extend other => r.extend other

/-- The entries that a change writes, one after the other. -/
def writes : Change μ → List (String × Entry μ)
  | .register name mixin => [(name, .mixin mixin)]
  | .registerRegistry name inner => [(name, .registry inner.entries)]
  | .extend other => other.entries

end Change

/-- The registry that changes of the empty one leave. -/
def afterAll (changes : List (Change μ)) : Registry μ := changes.foldl Change.apply .empty

/-- All that changes write, one after the other. -/
def written (changes : List (Change μ)) : List (String × Entry μ) := changes.flatMap Change.writes

theorem apply_eq_writeAll (r : Registry μ) (change : Change μ) : change.apply r = r.writeAll change.writes := by
  cases change <;> rfl

/-- The registry after changes is the table of what they wrote. -/
theorem entries_afterAll (changes : List (Change μ)) : (afterAll changes).entries = Table.ofList (written changes) := by
  induction changes using List.reverseRecOn with
  | nil => rfl
  | append_singleton changes change ih =>
    have hstep : afterAll (changes ++ [change]) = change.apply (afterAll changes) := by simp [afterAll]
    rw [hstep, apply_eq_writeAll, writeAll, ih]
    simp [written, Table.ofList, Table.insertAll]

/-! ### Names with dots -/

/-- What segments lead to is fixed by the entry under the first one; only the registry that holds it may be another. -/
theorem follow?_congr {r r' : Registry μ} {first : String} (h : r'.get? first = r.get? first) (rest : List String) :
    r'.follow? (first :: rest) =
      (r.follow? (first :: rest)).map fun found => if rest = [] then { found with home := r' } else found := by
  cases rest with
  | nil =>
    rw [follow?, follow?, h]
    split <;> simp
  | cons next rest => simp [follow?, h]

theorem SplitsAtDots.dot_mem_iff {name first : String} {rest : List String} (h : SplitsAtDots name (first :: rest)) :
    '.' ∈ name.toList ↔ rest ≠ [] := by
  cases rest with
  | nil =>
    obtain rfl : first = name := by simpa using h.joined
    exact iff_of_false (h.dotless _ List.mem_cons_self) (not_not_intro rfl)
  | cons next rest =>
    refine iff_of_true ?_ (List.cons_ne_nil _ _)
    rw [← h.joined, String.toList_intercalate, List.map_cons, List.map_cons, List.intercalate_cons_cons]
    simp

/-- The entries whose names have no dot. -/
def undotted (entries : List (String × Entry μ)) : List (String × Entry μ) :=
  entries.filter fun e => '.' ∉ e.1.toList

theorem lastUnder_undotted {name : String} (h : '.' ∉ name.toList) {entries : List (String × Entry μ)}
    {entry : Entry μ} :
    Table.LastUnder (undotted entries) name entry ↔ Table.LastUnder entries name entry := by
  induction entries using List.reverseRecOn with
  | nil => exact Iff.rfl
  | append_singleton entries e ih =>
    rw [undotted, List.filter_append, Table.lastUnder_append_singleton]
    by_cases hdot : '.' ∈ e.1.toList
    · have hne : e.1 ≠ name := fun heq => h (heq ▸ hdot)
      rw [if_neg hne, ← ih]
      simp [undotted, hdot]
    · rw [← ih]
      simp only [hdot, not_false_eq_true, decide_true, List.filter_cons_of_pos, List.filter_nil]
      exact Table.lastUnder_append_singleton

/-! ### The registry and what was written -/

/-- The registry is the table of what was written: it has each name once, where it first came, and under each the last
entry; a name with dots leads from the last entry under its first segment to a mixin. -/
structure Tabulates (r : Registry μ) (entries : List (String × Entry μ)) : Prop where
  names : r.names = (Table.keys entries).eraseDups
  distinct : r.names.Nodup
  size : r.size = r.names.length
  get : ∀ name entry, r.get? name = some entry ↔ Table.LastUnder entries name entry
  resolve : ∀ name found, r.resolve? name = some found ↔ ∃ first rest entry,
    SplitsAtDots name (first :: rest) ∧ Table.LastUnder entries first entry ∧ LeadsTo r entry rest found

theorem get?_afterAll (changes : List (Change μ)) (name : String) (entry : Entry μ) :
    (afterAll changes).get? name = some entry ↔ Table.LastUnder (written changes) name entry := by
  rw [get?, entries_afterAll]
  exact Table.get?_ofList_eq_some

theorem tabulates_written (changes : List (Change μ)) : (afterAll changes).Tabulates (written changes) := by
  constructor
  · rw [names, entries_afterAll, Table.keys_ofList, Table.keys]
  · rw [names, entries_afterAll]
    exact Table.nodup_keys_ofList _
  · exact (List.length_map _).symm
  · exact get?_afterAll changes
  · intro name found
    obtain ⟨first, rest, hsegments, hsplits⟩ := exists_segments name
    rw [resolve?, hsegments, follow?_eq_some]
    constructor
    · rintro ⟨entry, hget, hleads⟩
      exact ⟨first, rest, entry, hsplits, (get?_afterAll ..).mp hget, hleads⟩
    · rintro ⟨first', rest', entry, hsplits', hlast, hleads⟩
      obtain ⟨rfl, rfl⟩ := List.cons.inj (hsegments.symm.trans (segments_eq_iff.mpr hsplits'))
      exact ⟨entry, (get?_afterAll ..).mpr hlast, hleads⟩

/-- After any changes a registry is the table of what they wrote. What they wrote under names with a dot counts for no
name: without it every name leads to the same mixin, in the same registry or, by a name without a dot, in the changed
one itself. -/
theorem afterAll_tabulates (changes : List (Change μ)) :
    (afterAll changes).Tabulates (written changes) ∧
    ∀ changes', undotted (written changes') = undotted (written changes) → ∀ name,
      (afterAll changes').resolve? name = ((afterAll changes).resolve? name).map fun found =>
        if '.' ∈ name.toList then found else { found with home := afterAll changes' } := by
  refine ⟨tabulates_written changes, fun changes' hundotted name => ?_⟩
  obtain ⟨first, rest, hsegments, hsplits⟩ := exists_segments name
  have hdotless := hsplits.dotless first List.mem_cons_self
  have hget : (afterAll changes').get? first = (afterAll changes).get? first := by
    refine Option.ext fun entry => ?_
    rw [get?_afterAll, get?_afterAll, ← lastUnder_undotted hdotless, hundotted, lastUnder_undotted hdotless]
  rw [resolve?, resolve?, hsegments, follow?_congr hget]
  simp only [hsplits.dot_mem_iff, ne_eq, ite_not]

/-- What is written under `g.b` is not found by that name, which leads into the registry `g`. -/
theorem afterAll_tabulates_of_dotted : ∃ changes changes' : List (Change Nat),
    changes' = changes ++ [.register "g.b" 7] ∧ (afterAll changes').names = ["g", "a", "g.b"] ∧
    undotted (written changes') = undotted (written changes) ∧
    (afterAll changes').resolve? "g.b" = some ⟨1, ⟨[("b", .mixin 1)]⟩⟩ := by
  let inner : Registry Nat := ⟨[("b", .mixin 1)]⟩
  let changes : List (Change Nat) := [.register "g" 5, .register "a" 6, .extend ⟨[("g", .registry inner.entries)]⟩]
  have hsame : undotted (written (changes ++ [.register "g.b" 7])) = undotted (written changes) := rfl
  have hfound := (afterAll_tabulates changes).2 _ hsame "g.b"
  refine ⟨changes, _, rfl, rfl, hsame, hfound.trans rfl⟩

end Registry
end Mixsheet
