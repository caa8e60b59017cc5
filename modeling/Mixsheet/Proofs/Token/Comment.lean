import Mixsheet.Node.OfTokens
import Mixsheet.Proofs.Text.Blank
import Mixsheet.Proofs.Token.Reads

/-! # Comments around another text

A comment ends at the first `*/` behind its `/*`. So its text holds none, and stands in a comment again
when it is trimmed and put between blanks. -/

namespace Mixsheet

open Text

namespace Lexeme

/-- No `*/` stands in the text. -/
def Plain : List Char → Prop
  | [] => True
  | c :: cs => (c = '*' → cs.head? ≠ some '/') ∧ Plain cs

theorem plain_append {cs ds : List Char} :
    Plain (cs ++ ds) ↔ Plain cs ∧ Plain ds ∧ (cs.getLast? = some '*' → ds.head? ≠ some '/') := by
  induction cs with
  | nil => simp [Plain]
  | cons c cs ih =>
    rw [List.cons_append, Plain, Plain, ih]
    cases cs with
    | nil =>
      simp [Plain]
      tauto
    | cons d cs =>
      simp [List.getLast?_cons]
      tauto

theorem splitComment?_of_plain {cs : List Char} (h : Plain (cs ++ ['*'])) (k : List Char) :
    splitComment? (cs ++ '*' :: '/' :: k) = some (cs ++ ['*', '/'], k) := by
  induction cs with
  | nil => rfl
  | cons c cs ih =>
    rw [List.cons_append, splitComment?, ih h.2]
    · rfl
    · rintro ds rfl hd
      refine h.1 rfl ?_
      cases cs with
      | nil => cases hd
      | cons d cs =>
        obtain ⟨rfl, -⟩ := List.cons.inj hd
        rfl

theorem plain_of_splitComment? {cs body rest : List Char} (h : splitComment? cs = some (body, rest)) :
    ∃ ds, body = ds ++ ['*', '/'] ∧ Plain (ds ++ ['*']) := by
  fun_induction splitComment? cs generalizing body with
  | case1 =>
    obtain ⟨rfl, -⟩ := Prod.mk.inj (Option.some.inj h)
    exact ⟨[], rfl, by simp [Plain]⟩
  | case2 c cs hn ih =>
    obtain ⟨⟨b, r⟩, hb, he⟩ := Option.map_eq_some_iff.mp h
    obtain ⟨rfl, rfl⟩ := Prod.mk.inj he
    obtain ⟨ds, rfl, hplain⟩ := ih hb
    refine ⟨c :: ds, rfl, fun hc hd => ?_, hplain⟩
    have happ := append_of_splitComment? hb
    cases ds with
    | nil => cases hd
    | cons d ds =>
      obtain rfl := Option.some.inj hd
      exact hn _ hc happ.symm
  | case3 => cases h

end Lexeme

open Lexeme

/-- The text of a comment read from a text has no white space at its ends and no `*/` in it. -/
theorem Token.ReadAs.commentText {u : Bool} {t : Token} {k : List Char} (h : t.ReadAs u k)
    (ht : t.kind = .comment) : ∃ cs, Node.commentText t.text = .ofList cs ∧ Tight cs ∧ Plain cs := by
  obtain ⟨c, cs, l, hr, hkind, htext, -⟩ := h
  obtain ⟨_, body, -, -, hbody, split⟩ := hr.comment_inv (hkind.trans ht)
  obtain ⟨ds, rfl, hplain⟩ := plain_of_splitComment? split
  refine ⟨trim ds, ?_, trim_tight ds, ?_⟩
  · rw [Node.commentText, htext, hbody]
    simp
  · obtain ⟨a, b, hds, -⟩ := exists_eq_trim ds
    rw [hds] at hplain
    exact (plain_append.mp (plain_append.mp (plain_append.mp hplain).1).1).2.1

/-- A text with the delimiters of a comment around it, and a blank on each side. -/
def commented (text : List Char) : List Char := '/' :: '*' :: ' ' :: (text ++ [' ', '*', '/'])

theorem readAs_commented {text : List Char} (h : Plain text) (u : Bool) (k : List Char) :
    Token.ReadAs u (.ofKind .comment (commented text)) k := by
  have hplain : Plain (' ' :: (text ++ [' ']) ++ ['*']) := by
    refine ⟨nofun, plain_append.mpr ⟨plain_append.mpr ⟨h, ⟨nofun, trivial⟩, nofun⟩, ⟨nofun, trivial⟩, nofun⟩⟩
  have hs := splitComment?_of_plain hplain k
  refine ⟨'/', _, _, .comment hs, rfl, ?_, rfl⟩
  simp [commented, String.toList_ofList]

theorem commentText_commented {text : List Char} (h : Tight text) :
    Node.commentText (.ofList (commented text)) = .ofList text := by
  have hends : ' ' :: (text ++ [' ', '*', '/']) = [' '] ++ text ++ [' '] ++ ['*'] ++ ['/'] := by simp
  rw [Node.commentText, String.toList_ofList, commented, List.drop_succ_cons, List.drop_succ_cons, List.drop_zero, hends,
    List.dropLast_concat, List.dropLast_concat, trim_between blank_space blank_space, h.trim_eq]

end Mixsheet
