import Mixsheet.Registry

/-! # The mixins of a registry

A property of every mixin that was written in a registry, in the registries in it too, is one of every
mixin that a name leads to. The segments of a name are the texts without a dot that the dots of the name
join, and they lead from registry to registry. -/

namespace Mixsheet

variable {μ : Type} {P : μ → Prop}

mutual

/-- Every mixin in an entry has a property. -/
def Entry.Every (P : μ → Prop) : Entry μ → Prop
  | .mixin m => P m
  | .registry entries => everyEntry P entries

/-- The property holds of every mixin in the entries. -/
def everyEntry (P : μ → Prop) : List (String × Entry μ) → Prop
  | [] => True
  | (_, entry) :: rest => entry.Every P ∧ everyEntry P rest

end

theorem everyEntry_insert {entries : List (String × Entry μ)} (h : everyEntry P entries) (name : String)
    {entry : Entry μ} (he : entry.Every P) : everyEntry P (Table.insert name entry entries) := by
  induction entries with
  | nil => exact ⟨he, trivial⟩
  | cons e rest ih =>
    rw [Table.insert]
    split
    · exact ⟨he, h.2⟩
    · exact ⟨h.1, ih h.2⟩

theorem every_of_get? {entries : List (String × Entry μ)} (h : everyEntry P entries) {name : String}
    {entry : Entry μ} (he : Table.get? name entries = some entry) : entry.Every P := by
  induction entries with
  | nil => cases he
  | cons e rest ih =>
    rw [Table.get?] at he
    split at he
    · obtain rfl := Option.some.inj he
      exact h.1
    · exact ih h.2 he

namespace Registry

/-- The property holds of every mixin of the registry, at any depth. -/
def Every (P : μ → Prop) (r : Registry μ) : Prop := everyEntry P r.entries

theorem every_empty : Every P empty := trivial

theorem Every.register {r : Registry μ} (h : r.Every P) (name : String) {mixin : μ} (hm : P mixin) :
    (r.register name mixin).Every P :=
  everyEntry_insert h name hm

/-- Segments lead to a mixin with the property, held by a registry of such mixins. -/
theorem Every.of_follow? {r : Registry μ} (h : r.Every P) {segments : List String} {found : Resolved μ}
    (hf : r.follow? segments = some found) : P found.mixin ∧ found.home.Every P := by
  fun_induction follow? r segments with
  | case1 => cases hf
  | case2 r last mixin hg =>
    obtain rfl := Option.some.inj hf
    exact ⟨every_of_get? h hg, h⟩
  | case3 => cases hf
  | case4 r segment rest _ entries hg ih => exact ih (every_of_get? h hg) hf
  | case5 => cases hf

theorem Every.of_resolve? {r : Registry μ} (h : r.Every P) {name : String} {found : Resolved μ}
    (hf : r.resolve? name = some found) : P found.mixin ∧ found.home.Every P :=
  h.of_follow? hf

/-! ### Registries in a registry -/

/-- The registry is `root`, or one of the registries in it, at any depth. -/
inductive Within (root : Registry μ) : Registry μ → Prop where
  | root : Within root root
  | inside {r : Registry μ} {name : String} {entries : List (String × Entry μ)} (outer : Within root r)
    (get : r.get? name = some (.registry entries)) : Within root ⟨entries⟩

theorem Within.trans {root r inner : Registry μ} (h : Within root r) (h' : Within r inner) : Within root inner := by
  induction h' with
  | root => exact h
  | inside _ get ih => exact ih.inside get

/-- Segments lead to a mixin that a registry within holds itself. -/
theorem within_of_follow? {r : Registry μ} {segments : List String} {found : Resolved μ}
    (h : r.follow? segments = some found) :
    Within r found.home ∧ ∃ name, found.home.get? name = some (.mixin found.mixin) := by
  fun_induction follow? r segments with
  | case1 => cases h
  | case2 r last mixin hg =>
    obtain rfl := Option.some.inj h
    exact ⟨.root, last, hg⟩
  | case3 => cases h
  | case4 r segment rest _ entries hg ih =>
    obtain ⟨hwithin, hholds⟩ := ih h
    exact ⟨(Within.root.inside hg).trans hwithin, hholds⟩
  | case5 => cases h

theorem within_of_resolve? {r : Registry μ} {name : String} {found : Resolved μ} (h : r.resolve? name = some found) :
    Within r found.home ∧ ∃ last, found.home.get? last = some (.mixin found.mixin) :=
  within_of_follow? h

/-! ### Segments -/

theorem splitDots_ne_nil (cs : List Char) : splitDots cs ≠ [] := by
  cases cs with
  | nil => exact List.cons_ne_nil _ _
  | cons c cs =>
    rw [splitDots]
    split
    · exact List.cons_ne_nil _ _
    · split <;> exact List.cons_ne_nil _ _

theorem splitDots_of_ne {c : Char} (h : c ≠ '.') (cs : List Char) :
    ∃ part parts, splitDots cs = part :: parts ∧ splitDots (c :: cs) = (c :: part) :: parts := by
  obtain ⟨part, parts, hparts⟩ := List.exists_cons_of_ne_nil (splitDots_ne_nil cs)
  exact ⟨part, parts, hparts, by rw [splitDots, if_neg h, hparts]⟩

/-- The parts of a text between its dots are the text with the dots between them. -/
theorem intercalate_splitDots (cs : List Char) : ['.'].intercalate (splitDots cs) = cs := by
  induction cs with
  | nil => rfl
  | cons c cs ih =>
    by_cases hc : c = '.'
    · obtain ⟨part, parts, hparts⟩ := List.exists_cons_of_ne_nil (splitDots_ne_nil cs)
      rw [splitDots, if_pos hc, hparts, List.intercalate_cons_cons, ← hparts, ih, hc]
      rfl
    · obtain ⟨part, parts, hparts, hcons⟩ := splitDots_of_ne hc cs
      rw [hparts] at ih
      rw [hcons]
      cases parts with
      | nil => simpa using ih
      | cons next parts => simpa [List.intercalate_cons_cons] using ih

theorem dot_notMem_splitDots {cs part : List Char} (h : part ∈ splitDots cs) : '.' ∉ part := by
  induction cs generalizing part with
  | nil =>
    obtain rfl := List.mem_singleton.mp h
    exact List.not_mem_nil
  | cons c cs ih =>
    by_cases hc : c = '.'
    · rw [splitDots, if_pos hc] at h
      rcases List.mem_cons.mp h with rfl | h
      · exact List.not_mem_nil
      · exact ih h
    · obtain ⟨first, parts, hparts, hcons⟩ := splitDots_of_ne hc cs
      rw [hcons] at h
      rw [hparts] at ih
      rcases List.mem_cons.mp h with rfl | h
      · exact List.not_mem_cons_of_ne_of_not_mem (Ne.symm hc) (ih List.mem_cons_self)
      · exact ih (List.mem_cons_of_mem _ h)

/-- The texts are what stands between the dots of the name. -/
structure SplitsAtDots (name : String) (segments : List String) : Prop where
  some_ : segments ≠ []
  dotless : ∀ segment ∈ segments, '.' ∉ segment.toList
  joined : ".".intercalate segments = name

theorem segments_splitsAtDots (name : String) : SplitsAtDots name (segments name) := by
  constructor
  · simp [segments, splitDots_ne_nil]
  · intro segment hsegment
    obtain ⟨part, hpart, rfl⟩ := List.mem_map.mp hsegment
    rw [String.toList_ofList]
    exact dot_notMem_splitDots hpart
  · refine String.toList_inj.mp ?_
    rw [String.toList_intercalate, segments, List.map_map]
    simpa [Function.comp_def] using intercalate_splitDots name.toList

/-- A name has only one list of segments. -/
theorem segments_eq_iff {name : String} {ss : List String} : segments name = ss ↔ SplitsAtDots name ss := by
  have hcut : ∀ {ss}, SplitsAtDots name ss → ss.map String.toList = name.toList.splitOn '.' := by
    intro ss h
    have hjoined : ['.'].intercalate (ss.map String.toList) = name.toList := by
      rw [← h.joined, String.toList_intercalate]
      rfl
    rw [← hjoined]
    refine (List.splitOn_intercalate '.' (List.forall_mem_map.mpr h.dotless) ?_).symm
    simpa using h.some_
  constructor
  · rintro rfl
    exact segments_splitsAtDots name
  · intro h
    refine (List.map_inj_right fun _ _ => String.toList_inj.mp).mp ?_
    rw [hcut h, hcut (segments_splitsAtDots name)]

theorem exists_segments (name : String) :
    ∃ first rest, segments name = first :: rest ∧ SplitsAtDots name (first :: rest) := by
  have hsplits := segments_splitsAtDots name
  obtain ⟨first, rest, hsegments⟩ := List.exists_cons_of_ne_nil hsplits.some_
  exact ⟨first, rest, hsegments, hsegments ▸ hsplits⟩

/-- A name of one segment is that segment. -/
theorem eq_of_segments {name last : String} (h : segments name = [last]) : last = name := by
  rw [← (segments_eq_iff.mp h).joined]
  simp

/-! ### Dotted names -/

/-- From the entry of the registry `home` the segments lead through registries to a mixin, and nothing is left. -/
inductive LeadsTo : Registry μ → Entry μ → List String → Resolved μ → Prop where
  | here (home : Registry μ) (mixin : μ) : LeadsTo home (.mixin mixin) [] ⟨mixin, home⟩
  | inside {home : Registry μ} {entries : List (String × Entry μ)} {segment : String} {rest : List String}
    {entry : Entry μ} {found : Resolved μ} (get : get? ⟨entries⟩ segment = some entry)
    (leads : LeadsTo ⟨entries⟩ entry rest found) : LeadsTo home (.registry entries) (segment :: rest) found

theorem LeadsTo.of_mixin {home : Registry μ} {mixin : μ} {rest : List String} {found : Resolved μ}
    (h : LeadsTo home (.mixin mixin) rest found) : rest = [] ∧ found = ⟨mixin, home⟩ := by
  cases h
  exact ⟨rfl, rfl⟩

theorem follow?_eq_some {r : Registry μ} {first : String} {rest : List String} {found : Resolved μ} :
    r.follow? (first :: rest) = some found ↔ ∃ entry, r.get? first = some entry ∧ LeadsTo r entry rest found := by
  induction rest generalizing r first with
  | nil =>
    rw [follow?]
    constructor
    · intro h
      split at h
      · rename_i mixin hget
        obtain rfl := Option.some.inj h
        exact ⟨_, hget, .here r mixin⟩
      · cases h
    · rintro ⟨entry, hget, hleads⟩
      cases hleads
      rw [hget]
  | cons next rest ih =>
    rw [follow?]
    · constructor
      · intro h
        split at h
        · rename_i entries hget
          obtain ⟨entry, hentry, hleads⟩ := ih.mp h
          exact ⟨_, hget, .inside hentry hleads⟩
        · cases h
      · rintro ⟨entry, hget, hleads⟩
        cases hleads with
        | inside hentry hleads =>
          rw [hget]
          exact ih.mpr ⟨_, hentry, hleads⟩
    · simp

end Registry
end Mixsheet
