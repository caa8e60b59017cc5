import Mixsheet.Proofs.Token.Trim

/-! # A semicolon between two tokens

A `;` behind a token that is neither white space nor a comment, and before white space, a comment or a `}`, is one more
token and leaves the others as they are. -/

namespace Mixsheet

open Text

namespace Lexeme

/-- A `(` that makes no token with what it holds makes none either with a `;` in it, behind a character that is not
blank: a `;` does not keep it from that, but behind the word `url` the first such character may be a quote. -/
theorem splitBrackets?_insert {u : Bool} {cs k : List Char} (h : splitBrackets? u (cs ++ k) = none)
    (hcs : ∃ c ∈ cs, isBlank c = false) : splitBrackets? u (cs ++ ';' :: k) = none := by
  by_cases hmem : ')' ∈ cs
  · exact splitBrackets?_eq_none h (.inl hmem)
  by_cases hk : ')' ∈ k
  · obtain ⟨as, bs, rfl, has⟩ := List.eq_append_cons_of_mem hk
    have hall : ')' ∉ cs ++ as := by simp [hmem, has]
    have hall' : ')' ∉ cs ++ ';' :: as := by simp [hmem, has]
    rw [← List.append_assoc, splitBrackets?_append_cons hall] at h
    have happ : cs ++ ';' :: (as ++ ')' :: bs) = cs ++ ';' :: as ++ ')' :: bs := by simp
    rw [happ, splitBrackets?_append_cons hall']
    split at h
    · cases h
    rename_i hgroups
    refine if_neg fun hgroups' => hgroups ?_
    cases u with
    | false =>
      have hinner := List.all_eq_true.mp hgroups'
      refine List.all_eq_true.mpr fun c hc => hinner c ?_
      rcases List.mem_append.mp hc with hc | hc
      · exact List.mem_append_left _ hc
      · exact List.mem_append_right _ (List.mem_cons_of_mem _ hc)
    | true =>
      obtain ⟨c, hc, hblank⟩ := hcs
      have hfound : cs.find? (fun c => !isBlank c) ≠ none := fun hnone => by
        have := List.find?_eq_none.mp hnone c hc
        simp [hblank] at this
      obtain ⟨d, hd⟩ := Option.ne_none_iff_exists'.mp hfound
      simpa [groups, List.find?_append, hd] using hgroups'
  · refine splitBrackets?_of_notMem fun hmem' => ?_
    simp [hmem, hk] at hmem'

end Lexeme

namespace Token

open Lexeme

theorem Reads.semicolon_behind {u : Bool} {ts : List Token} {k : List Char} (h : Reads u ts k)
    (hlast : ∀ t ∈ ts.getLast?, t.kind ≠ .space ∧ t.kind ≠ .leftParen) : Reads u ts (';' :: k) := by
  refine h.change_of (fun t ht hk => absurd hk (hlast t ht).1) (fun _ _ _ => rfl) fun v t us hus ht hnone => ?_
  refine splitBrackets?_insert hnone ?_
  -- the last token behind the `(` starts with a character that is not blank
  obtain ⟨front, rfl⟩ := hus
  obtain ⟨w, hw⟩ := h.of_suffix ⟨front, rfl⟩
  rcases List.eq_nil_or_concat' us with rfl | ⟨us, last, rfl⟩
  · exact absurd ht (hlast t (by simp)).2
  · have hend : front ++ t :: (us ++ [last]) = front ++ t :: us ++ [last] := by simp
    obtain ⟨hread, -⟩ := (Reads.append.mp hw.2).2
    obtain ⟨c, cs, hc⟩ := List.exists_cons_of_ne_nil hread.toList_ne
    have hspace := (hlast last (by rw [hend, List.getLast?_concat]; rfl)).1
    refine ⟨c, ?_, (hread.tight hspace).head c (by rw [hc]; rfl)⟩
    simp [hc]

/-- A `;` between two tokens leaves the others as they are. -/
theorem Reads.insert_semicolon {ts us : List Token} (h : Reads false (ts ++ us) [])
    (hts : ∀ t ∈ ts.getLast?, t.kind ≠ .space ∧ t.kind ≠ .leftParen)
    (hus : ∀ t ∈ us.head?, t.kind ≠ .brackets ∧ t.kind ≠ .leftParen) :
    Reads false (ts ++ ofKind .semicolon [';'] :: us) [] := by
  obtain ⟨hreads, hbehind⟩ := Reads.append.mp h
  refine Reads.append.mpr ⟨hreads.semicolon_behind hts, ⟨';', _, _, .punctuation rfl, rfl, String.toList_ofList, rfl⟩, ?_⟩
  cases us with
  | nil => trivial
  | cons t us =>
    obtain ⟨hb, hp⟩ := hus t rfl
    exact ⟨hbehind.1.of_kind hb hp _, hbehind.2⟩

end Token

end Mixsheet
