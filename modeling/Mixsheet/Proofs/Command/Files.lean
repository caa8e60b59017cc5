import Mixsheet.Command.Files
import Mixsheet.Proofs.Except

/-! # Writing files

A path is followed to a place where a file stands or where one can be made. A file that is written there changes
no folder on the way, so the path leads to it afterwards, and every other file keeps its text. -/

namespace Mixsheet.Command

/-- Where a file is written that is to stand at a place. -/
def Place.target? : Place → Option (List String)
  | .file path _ | .vacant path => some path
  | _ => none

namespace Files

variable {t after : Files} {folder inner : Folder} {path name : String} {names target other : List String}
  {place : Place}

/-! ### One file put into the tree -/

@[simp] theorem text?_put_self (t : Files) (target : List String) (text : String) :
    (t.put target text).text? target = some text := by
  simp [text?, put]

theorem text?_put_of_ne (text : String) (h : other ≠ target) : (t.put target text).text? other = t.text? other := by
  have hother : (other == target) = false := beq_eq_false_iff_ne.mpr h
  simp only [text?, put, List.lookup_cons, hother]
  induction t.files with
  | nil => rfl
  | cons file files ih =>
    rw [List.filter_cons]
    split
    · rw [List.lookup_cons, List.lookup_cons, ih]
    · rename_i hfile
      -- the file that is taken out is not the other one
      have hfile : file.1 = target := by simpa using hfile
      rw [ih, List.lookup_cons, hfile, hother]

/-- A folder stays one, as each file that is taken out is put back. -/
theorem isFolder_put (text : String) (h : t.isFolder other = true) : (t.put target text).isFolder other = true := by
  simp only [isFolder, List.any_eq_true] at h ⊢
  obtain ⟨file, hmem, hfile⟩ := h
  by_cases htarget : file.1 = target
  · exact ⟨(target, text), List.mem_cons_self, by rwa [← htarget]⟩
  · exact ⟨file, List.mem_cons_of_mem _ (List.mem_filter.mpr ⟨hmem, by simpa using htarget⟩), hfile⟩

/-! ### What stands under a path -/

/-- What is under a path: a file, a folder that a file is in, or nothing. -/
def standing (t : Files) (path : List String) : Place :=
  match t.text? path with
  | some text => .file path text
  | none => if t.isFolder path then .folder (.inside path) else .vacant path

theorem enter_inside (t : Files) (path : List String) (name : String) :
    t.enter (.inside path) name =
      if name.utf8ByteSize > 255 then .error .tooLong else .ok (t.standing (path ++ [name])) := by
  simp only [enter, standing]
  split
  · rfl
  · cases t.text? (path ++ [name]) with
    | some text => rfl
    | none => exact (apply_ite Except.ok ..).symm

theorem standing_eq_folder_iff :
    t.standing other = .folder folder ↔ t.text? other = none ∧ t.isFolder other = true ∧ folder = .inside other := by
  unfold standing
  cases t.text? other with
  | some text => simp
  | none =>
    by_cases h : t.isFolder other = true
    · simpa [h] using eq_comm
    · simp [h]

theorem standing_put_self (text : String) : (t.put target text).standing target = .file target text := by
  rw [standing, text?_put_self]

/-- A file is not put where a folder stands, so the folders stay where they are. -/
theorem standing_put_of_folder (text : String) (htarget : (t.standing target).target? = some target)
    (h : t.standing other = .folder folder) : (t.put target text).standing other = .folder folder := by
  have hne : other ≠ target := by
    rintro rfl
    rw [h] at htarget
    cases htarget
  obtain ⟨htext, hfolder, rfl⟩ := standing_eq_folder_iff.mp h
  exact standing_eq_folder_iff.mpr ⟨(text?_put_of_ne text hne).trans htext, isFolder_put text hfolder, rfl⟩

/-! ### Following a path -/

theorem enter_eq_ok (h : t.enter folder name = .ok place) : folder = .outside ∧ place = .beyond ∨
    ∃ path, folder = .inside path ∧ ¬ name.utf8ByteSize > 255 ∧ place = t.standing (path ++ [name]) := by
  cases folder with
  | outside =>
    refine .inl ⟨rfl, ?_⟩
    rw [enter] at h
    split at h
    · cases h
    · exact (Except.ok.inj h).symm
  | inside path =>
    rw [enter_inside] at h
    split at h
    · cases h
    · rename_i hname
      exact .inr ⟨path, rfl, hname, (Except.ok.inj h).symm⟩

theorem enter_put_of_folder (text : String) (htarget : (t.standing target).target? = some target)
    (h : t.enter folder name = .ok (.folder inner)) :
    (t.put target text).enter folder name = .ok (.folder inner) := by
  obtain ⟨-, hplace⟩ | ⟨path, rfl, hname, hplace⟩ := enter_eq_ok h
  · cases hplace
  · rw [enter_inside, if_neg hname, standing_put_of_folder text htarget hplace.symm]

theorem standing_of_target? (h : (t.standing other).target? = some target) : other = target := by
  unfold standing at h
  split at h
  · exact Option.some.inj h
  · split at h
    · cases h
    · exact Option.some.inj h

/-- A file is put where its path leads. -/
theorem standing_of_follow (h : t.follow folder names = .ok place) (htarget : place.target? = some target) :
    t.standing target = place := by
  fun_induction follow t folder names with
  | case1 folder =>
    obtain rfl := Except.ok.inj h
    cases htarget
  | case2 folder name rest hname ih => exact ih h
  | case3 folder rest _ ih => exact ih h
  | case4 folder name rest hdot hdots inner henter ih => exact ih h
  | case5 folder name rest hdot hdots hfolder hrest =>
    obtain ⟨-, rfl⟩ | ⟨path, rfl, -, rfl⟩ := enter_eq_ok h
    · cases htarget
    · rw [← standing_of_target? htarget]
  | case6 => cases h
  | case7 folder name rest hdot hdots hfolder hrest hall =>
    obtain ⟨_, -, h⟩ := bind_eq_ok_iff.mp h
    cases h

/-- A path that leads to a place for a file leads to the file that is put there. -/
theorem follow_put (text : String) (h : t.follow folder names = .ok place) (htarget : place.target? = some target) :
    (t.put target text).follow folder names = .ok (.file target text) := by
  have hstanding : (t.standing target).target? = some target := by rw [standing_of_follow h htarget, htarget]
  fun_induction follow t folder names with
  | case1 folder =>
    obtain rfl := Except.ok.inj h
    cases htarget
  | case2 folder name rest hname ih => rw [follow, if_pos hname, ih h]
  | case3 folder rest hdot ih => rw [follow, if_neg hdot, if_pos rfl, ih h]
  | case4 folder name rest hdot hdots inner henter ih =>
    rw [follow, if_neg hdot, if_neg hdots, enter_put_of_folder text hstanding henter]
    exact ih h
  | case5 folder name rest hdot hdots hrest _ =>
    obtain ⟨-, rfl⟩ | ⟨path, rfl, hname, rfl⟩ := enter_eq_ok h
    · cases htarget
    · obtain rfl := standing_of_target? htarget
      rw [follow, if_neg hdot, if_neg hdots, enter_inside, if_neg hname, standing_put_self]
      exact if_pos hrest
  | case6 => cases h
  | case7 folder name rest hdot hdots hfolder hrest hall =>
    obtain ⟨_, -, h⟩ := bind_eq_ok_iff.mp h
    cases h

theorem locate_put (text : String) (h : t.locate path = .ok place) (htarget : place.target? = some target) :
    (t.put target text).locate path = .ok (.file target text) := by
  unfold locate at h
  split at h
  · cases h
  · rename_i hempty
    split at h
    · cases h
    · rename_i hlong
      split at h
      · obtain rfl := Except.ok.inj h
        cases htarget
      · rename_i hnull
        rw [locate, if_neg hempty, if_neg hlong, if_neg hnull]
        exact follow_put text h htarget

/-! ### What a write leaves -/

/-- The files after a text was written under a path: the path reads as the text, and no other file has changed. A
path that leads out of the tree leaves it as it is. -/
inductive Stores (before : Files) (path text : String) : Files → Prop where
  | inside {after : Files} {target : List String} (reads : after.read path = .text text)
    (stored : after.text? target = some text) (others : ∀ other ≠ target, after.text? other = before.text? other) :
    Stores before path text after
  | outside (leads : before.locate path = .ok .beyond ∨ before.locate path = .ok .null) :
    Stores before path text before

theorem stores_put (text : String) (h : t.locate path = .ok place) (htarget : place.target? = some target) :
    t.Stores path text (t.put target text) :=
  .inside (by rw [read, locate_put text h htarget]) (text?_put_self ..) fun _ hother => text?_put_of_ne text hother

theorem stores_of_write {text : String} (h : t.write path text = .ok after) : t.Stores path text after := by
  unfold write at h
  split at h
  · rename_i hlocate
    exact Except.ok.inj h ▸ stores_put text hlocate rfl
  · rename_i hlocate
    exact Except.ok.inj h ▸ stores_put text hlocate rfl
  · cases h
  · rename_i hlocate
    exact Except.ok.inj h ▸ .outside (.inl hlocate)
  · rename_i hlocate
    exact Except.ok.inj h ▸ .outside (.inr hlocate)
  · cases h

end Files
end Mixsheet.Command
