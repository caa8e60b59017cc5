import Mathlib.Data.List.Chain
import Mathlib.Data.List.Induction
import Mathlib.Data.String.Basic
import Mixsheet.Proofs.Except
import Mixsheet.Proofs.Token.Lexeme
import Mixsheet.Token.OfText

/-! # Where the tokens of a text stand

The tokens of a text cut it without a gap and without an overlap. Each of them stands behind the text
of those before it, and its bytes, its line and its column are the ones of that place. The invariant
is `Run`: a list of tokens that goes on behind a given text. -/

namespace Mixsheet

/-! ### Lines and columns -/

namespace Position

theorem after_singleton (p : Position) (c : Char) : p.after [c] = p.next c := rfl

/-- Every line feed opens a line. -/
theorem line_after_first (cs : List Char) : (first.after cs).line = 1 + cs.count '\n' := by
  induction cs using List.reverseRecOn with
  | nil => rfl
  | append_singleton cs c ih =>
    rw [after_append, after_singleton, next, List.count_append]
    by_cases hc : c = '\n'
    · subst hc
      simp [ih, Nat.add_assoc]
    · simp [hc, ih]

/-- The column counts the characters since the last line feed. -/
theorem column_after_first (cs : List Char) :
    (first.after cs).column = 1 + (cs.reverse.takeWhile (· != '\n')).length := by
  induction cs using List.reverseRecOn with
  | nil => rfl
  | append_singleton cs c ih =>
    rw [after_append, after_singleton, next, List.reverse_append, List.reverse_singleton,
      List.singleton_append]
    by_cases hc : c = '\n'
    · simp [hc]
    · simp [hc, ih]
      omega

end Position

namespace Token

/-! ### Texts -/

@[simp] theorem join_nil : join [] = "" := rfl

theorem join_cons (t : Token) (ts : List Token) : join (t :: ts) = t.text ++ join ts := by
  simp [join]

theorem join_append (ts us : List Token) : join (ts ++ us) = join ts ++ join us := by
  simp [join]

/-! ### Bytes -/

theorem byteSize_eq_utf8Len (cs : List Char) : byteSize cs = String.utf8Len cs := by
  induction cs with
  | nil => rfl
  | cons c cs ih =>
    rw [String.utf8Len_cons, ← ih]
    exact Nat.add_comm _ _

theorem byteSize_append (cs ds : List Char) : byteSize (cs ++ ds) = byteSize cs + byteSize ds := by
  rw [byteSize_eq_utf8Len, byteSize_eq_utf8Len, byteSize_eq_utf8Len, String.utf8Len_append]

theorem byteSize_toList (s : String) : byteSize s.toList = s.utf8ByteSize := by
  rw [byteSize_eq_utf8Len, String.utf8Len_toList]

/-- The bytes behind a text that another one takes hold that one. -/
theorem extract_append (l m r : List Char) :
    String.Pos.Raw.extract (.ofList (l ++ m ++ r)) ⟨byteSize l⟩ ⟨byteSize (l ++ m)⟩ = .ofList m := by
  rw [byteSize_append, byteSize_eq_utf8Len, byteSize_eq_utf8Len]
  exact String.extract_of_valid l m r

/-! ### Runs of tokens -/

theorem kind_of_read {u : Bool} {c : Char} {cs : List Char} {l : Lexeme}
    (h : Lexeme.read u c cs = .ok l) : l.kind ≠ .eof := by
  cases Lexeme.reading_of_read h with
  | punctuation punctuation =>
    rintro rfl
    cases Lexeme.punctuation?_eq_some.mp punctuation
  | _ => simp [Lexeme.ofSplit]

/-- Tokens that stand one after the other behind the text `before`, the empty one at the end of the
text last. -/
inductive Run : List Char → List Token → Prop where
  | eof (before : List Char) :
    Run before [⟨.eof, "", byteSize before, byteSize before, .after .first before⟩]
  | cons {before : List Char} {t : Token} {ts : List Token} (kind : t.kind ≠ .eof) (text : t.text ≠ "")
    (start : t.start = byteSize before) (stop : t.stop = byteSize (before ++ t.text.toList))
    (position : t.position = .after .first before) (rest : Run (before ++ t.text.toList) ts) :
    Run before (t :: ts)

/-- The first token of the text `c :: rest`, as it is cut off at a place. -/
def ofLexeme (lexeme : Lexeme) (c : Char) (start : Nat) (position : Position) : Token :=
  ⟨lexeme.kind, .ofList (c :: lexeme.body), start, start + byteSize (c :: lexeme.body), position⟩

theorem toList_text_ofLexeme (lexeme : Lexeme) (c : Char) (start : Nat) (position : Position) :
    (ofLexeme lexeme c start position).text.toList = c :: lexeme.body :=
  String.toList_ofList

theorem text_ofLexeme_ne (lexeme : Lexeme) (c : Char) (start : Nat) (position : Position) :
    (ofLexeme lexeme c start position).text ≠ "" := by
  intro h
  have := toList_text_ofLexeme lexeme c start position
  rw [h] at this
  cases this

theorem ofCharsFrom_nil (before? : Option Token) (start : Nat) (position : Position) :
    ofCharsFrom before? start position [] = .ok [⟨.eof, "", start, start, position⟩] := by
  rw [ofCharsFrom]

theorem ofCharsFrom_error {before? : Option Token} {c : Char} {cs : List Char} {fault : LexicalFault}
    (h : Lexeme.read (before?.any isUrl) c cs = .error fault) (start : Nat) (position : Position) :
    ofCharsFrom before? start position (c :: cs) = .error ⟨fault, position⟩ := by
  rw [ofCharsFrom]
  split <;> simp_all

theorem ofCharsFrom_ok {before? : Option Token} {c : Char} {cs : List Char} {lexeme : Lexeme}
    (h : Lexeme.read (before?.any isUrl) c cs = .ok lexeme) (start : Nat) (position : Position) :
    ofCharsFrom before? start position (c :: cs) =
      (ofCharsFrom (some (ofLexeme lexeme c start position)) (start + byteSize (c :: lexeme.body))
        (position.after (c :: lexeme.body)) lexeme.rest).map (ofLexeme lexeme c start position :: ·) := by
  rw [ofCharsFrom]
  split <;> simp_all [ofLexeme]

/-- The tokens of a text behind another one run on from there, and they are the text. -/
theorem run_of_ofCharsFrom {before? : Option Token} {before cs : List Char} {ts : List Token}
    (h : ofCharsFrom before? (byteSize before) (.after .first before) cs = .ok ts) :
    Run before ts ∧ chars ts = cs := by
  induction hn : cs.length using Nat.strongRecOn generalizing before? before cs ts with
  | ind n ih =>
    cases cs with
    | nil =>
      rw [ofCharsFrom_nil] at h
      cases h
      exact ⟨.eof before, rfl⟩
    | cons c cs =>
      cases hl : Lexeme.read (before?.any isUrl) c cs with
      | error fault =>
        rw [ofCharsFrom_error hl] at h
        cases h
      | ok lexeme =>
        rw [ofCharsFrom_ok hl, ← byteSize_append, ← Position.after_append] at h
        obtain ⟨us, hu, rfl⟩ := map_eq_ok_iff.mp h
        have hlt : lexeme.rest.length < n := by
          have := Lexeme.rest_length_le hl
          simp only [List.length_cons] at hn
          omega
        obtain ⟨hrun, hchars⟩ := ih _ hlt hu rfl
        refine ⟨.cons (kind_of_read hl) (text_ofLexeme_ne _ _ _ _) rfl ?_ rfl ?_, ?_⟩
        · rw [toList_text_ofLexeme, byteSize_append]
          rfl
        · rwa [toList_text_ofLexeme]
        · rw [chars_cons, toList_text_ofLexeme, hchars, List.cons_append, Lexeme.append_of_read hl]

namespace Run

variable {before : List Char} {ts : List Token}

/-- The last token of a run is the empty one behind the others, and it is the only one of its kind. -/
theorem eof_last (h : Run before ts) : ∃ ts' last, ts = ts' ++ [last] ∧ last.kind = .eof ∧
    last.start = byteSize (before ++ chars ts) ∧ last.stop = byteSize (before ++ chars ts) ∧
    ∀ t ∈ ts', t.kind ≠ .eof ∧ t.text ≠ "" := by
  induction h with
  | eof before => exact ⟨[], _, rfl, rfl, by simp, by simp, by simp⟩
  | @cons before t ts kind text start stop position rest ih =>
    obtain ⟨ts', last, rfl, hk, hs, hp, hall⟩ := ih
    refine ⟨t :: ts', last, rfl, hk, ?_, ?_, ?_⟩
    · rw [hs, chars_cons, List.append_assoc]
    · rw [hp, chars_cons, List.append_assoc]
    · intro x hx
      rcases List.mem_cons.mp hx with rfl | hx
      · exact ⟨kind, text⟩
      · exact hall x hx

/-- Only the last token of a run has no text. -/
theorem text_ne (h : Run before ts) {t : Token} (ht : t ∈ ts) (hkind : t.kind ≠ .eof) : t.text ≠ "" := by
  obtain ⟨ts', last, rfl, hlast, -, -, hall⟩ := h.eof_last
  rcases List.mem_append.mp ht with ht | ht
  · exact (hall t ht).2
  · obtain rfl := List.mem_singleton.mp ht
    exact absurd hlast hkind

theorem head_start (h : Run before ts) : ∀ t ∈ ts.head?, t.start = byteSize before := by
  cases h with
  | eof => simp
  | cons kind text start => simpa using start

/-- Each token of a run starts where the one before it ends. -/
theorem isChain (h : Run before ts) : ts.IsChain fun t u => u.start = t.stop := by
  induction h with
  | eof => exact .singleton _
  | cons kind text start stop position rest ih =>
    refine List.isChain_cons.mpr ⟨fun u hu => ?_, ih⟩
    rw [rest.head_start u hu, stop]

/-- A token of a run stands behind the text of the tokens before it. -/
theorem place (h : Run before ts) : ∀ {t : Token}, t ∈ ts → ∃ l r, before ++ chars ts = l ++ t.text.toList ++ r ∧
    t.start = byteSize l ∧ t.stop = byteSize (l ++ t.text.toList) ∧ t.position = .after .first l := by
  induction h with
  | eof before =>
    intro t ht
    obtain rfl := List.mem_singleton.mp ht
    exact ⟨before, [], by simp, rfl, by simp, rfl⟩
  | @cons before u ts kind text start stop position rest ih =>
    intro t ht
    rcases List.mem_cons.mp ht with rfl | ht
    · exact ⟨before, chars ts, by simp, start, stop, position⟩
    · obtain ⟨l, r, he, hrest⟩ := ih ht
      exact ⟨l, r, by rw [← he, chars_cons, List.append_assoc], hrest⟩

end Run

/-! ### The tokens of a whole text -/

/-- The text before a token. -/
def textBefore (s : String) (t : Token) : List Char := (String.Pos.Raw.extract s ⟨0⟩ ⟨t.start⟩).toList

/-- A token stands in a text where it says: its bytes are its text, and its line and its column are
counted from the text before it. -/
structure StandsIn (t : Token) (s : String) : Prop where
  text : String.Pos.Raw.extract s ⟨t.start⟩ ⟨t.stop⟩ = t.text
  line : t.position.line = 1 + (textBefore s t).count '\n'
  column : t.position.column = 1 + ((textBefore s t).reverse.takeWhile (· != '\n')).length

theorem Run.standsIn {s : String} {ts : List Token} (h : Run [] ts) (hs : chars ts = s.toList) {t : Token}
    (ht : t ∈ ts) : t.StandsIn s := by
  obtain ⟨l, r, he, hstart, hstop, hposition⟩ := h.place ht
  obtain rfl : s = .ofList (l ++ t.text.toList ++ r) := by
    rw [← he, List.nil_append, hs, String.ofList_toList]
  have hbefore : textBefore (.ofList (l ++ t.text.toList ++ r)) t = l := by
    have := extract_append [] l (t.text.toList ++ r)
    rw [List.nil_append, ← List.append_assoc] at this
    rw [textBefore, hstart]
    exact (congrArg String.toList this).trans String.toList_ofList
  constructor
  · rw [hstart, hstop, extract_append, String.ofList_toList]
  · rw [hbefore, hposition, Position.line_after_first]
  · rw [hbefore, hposition, Position.column_after_first]

/-- Tokens cut a text into pieces: they join to the text, only the last of them is empty and stands at
the end, the first one starts at the first byte and every other one where the one before it ends, and
each stands in the text where it says. -/
structure Partition (ts : List Token) (s : String) : Prop where
  joined : join ts = s
  eof : ∃ ts' last, ts = ts' ++ [last] ∧ last.kind = .eof ∧ last.start = s.utf8ByteSize ∧
    last.stop = s.utf8ByteSize ∧ ∀ t ∈ ts', t.kind ≠ .eof ∧ t.text ≠ ""
  first : ∀ t ∈ ts.head?, t.start = 0
  contiguous : ts.IsChain fun t u => u.start = t.stop
  places : ∀ t ∈ ts, t.StandsIn s

/-- The tokens of a text cut it into pieces. -/
theorem ofText_partition {s : String} {ts : List Token} (h : ofText s = .ok ts) : Partition ts s := by
  obtain ⟨hrun, hchars⟩ := @run_of_ofCharsFrom none [] _ _ h
  constructor
  · rw [join, hchars, String.ofList_toList]
  · obtain ⟨ts', last, he, hk, hstart, hstop, hall⟩ := hrun.eof_last
    rw [hchars, List.nil_append, byteSize_toList] at hstart hstop
    exact ⟨ts', last, he, hk, hstart, hstop, hall⟩
  · exact hrun.head_start
  · exact hrun.isChain
  · exact fun t ht => hrun.standsIn hchars ht

/-- A character of two bytes, a line feed and a `( … )`. -/
theorem ofText_partition_of_two_lines : ∃ ts, ofText "é\n(a b)" = .ok ts ∧ ts.length = 4 ∧
    Partition ts "é\n(a b)" := by
  have h : ofText "é\n(a b)" = .ok [⟨.word, "é", 0, 2, ⟨1, 1⟩⟩, ⟨.space, "\n", 2, 3, ⟨1, 2⟩⟩,
      ⟨.brackets, "(a b)", 3, 8, ⟨2, 1⟩⟩, ⟨.eof, "", 8, 8, ⟨2, 6⟩⟩] := by
    decide +kernel
  exact ⟨_, h, rfl, ofText_partition h⟩

end Token
end Mixsheet
