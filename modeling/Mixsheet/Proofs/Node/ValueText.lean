import Mixsheet.Proofs.Node.Parens
import Mixsheet.Proofs.Node.Value

/-! # Texts that are values

Words are values, and so are two values with a blank between, and a word with plain text in parentheses behind it. What
a value or a property starts with may be exchanged for another word that goes on with the same text. -/

namespace Mixsheet

open Token Text Lexeme Segment

/-- The character belongs to a word wherever it stands, and makes no other token of the word. -/
def isWordChar (c : Char) : Bool := !endsWord c [] && c != '/' && c != '@'

theorem isWordChar_iff {c : Char} : isWordChar c = true ↔ Inert c ∧ c ≠ '/' ∧ c ≠ '@' := by
  have hinert : endsWord c [] = false ↔ Inert c := by
    refine ⟨inert_of_endsWord, fun h => ?_⟩
    simp [endsWord, opensComment, h.blank, h.quote, h.paren, h.punctuation]
  simp [isWordChar, hinert, and_assoc]

namespace Node

/-! ### Words -/

/-- The text is the beginning of a word, and not of the word `url`. -/
structure IsFront (cs : List Char) : Prop where
  head : ∃ c ∈ cs.head?, c.toLower ≠ 'u'
  chars : ∀ c ∈ cs, isWordChar c = true

theorem isUrl_ofKind {cs : List Char} (h : IsFront cs) (ds : List Char) : (ofKind .word (cs ++ ds)).isUrl = false := by
  obtain ⟨c, hc, hlower⟩ := h.head
  obtain ⟨rest, rfl⟩ := List.head?_eq_some_iff.mp hc
  simp [isUrl, hlower]

theorem splitWord_of_front {cs : List Char} (h : ∀ c ∈ cs, isWordChar c = true) (k : List Char) :
    splitWord (cs ++ k) = (cs ++ (splitWord k).1, (splitWord k).2) :=
  Grouped.splitWord_append_of_inert (fun c hc => (isWordChar_iff.mp (h c hc)).imp_right And.left) k

/-- A word is read as far as it goes on in the text behind its beginning. -/
theorem reading_front {cs : List Char} (h : ∀ c ∈ cs, isWordChar c = true) (u : Bool) {c : Char}
    (hc : isWordChar c = true) (k : List Char) :
    Reading u c (cs ++ k) ⟨.word, cs ++ (splitWord k).1, (splitWord k).2⟩ := by
  obtain ⟨hinert, hslash, hat⟩ := isWordChar_iff.mp hc
  have hends : endsWord c (cs ++ k) = false := by
    simp [endsWord, opensComment, hinert.blank, hinert.quote, hinert.paren, hinert.punctuation, hslash]
  have := @Reading.word u c (cs ++ k) hends hat
  rwa [splitWord_of_front h] at this

/-- The first token of a text that starts with a part of a word is a word, and so it is with another such part. -/
theorem exists_front {p s : List Char} {ts : List Token} {k : List Char} (hp : IsFront p) (h : Reads false ts k)
    (hts : chars ts = p ++ s) : ∃ b t us, ts = t :: us ∧ t.kind = .word ∧ s = b ++ chars us ∧
      ∀ q, IsFront q → Reads false (ofKind .word (q ++ b) :: us) k := by
  obtain ⟨c, hc, -⟩ := hp.head
  obtain ⟨p, rfl⟩ := List.head?_eq_some_iff.mp hc
  obtain ⟨hc, hchars⟩ := List.forall_mem_cons.mp hp.chars
  cases ts with
  | nil => cases hts
  | cons t us =>
    obtain ⟨⟨d, cs, l, hreading, hkind, htext, hrest⟩, hus⟩ := h
    have hcs : d :: cs = c :: (p ++ (s ++ k)) := by
      have happ := hreading.append
      rw [chars_cons, htext] at hts
      rw [← happ, hrest, ← List.append_assoc, ← List.cons_append, ← List.cons_append, hts]
      simp
    obtain ⟨rfl, rfl⟩ := List.cons.inj hcs
    -- the word goes on behind `p` as far as the text behind it lets it
    have hword := reading_front hchars false hc (s ++ k)
    obtain rfl := Except.ok.inj (hreading.read_eq.symm.trans hword.read_eq)
    dsimp only at hkind htext hrest
    have hs : s = (splitWord (s ++ k)).1 ++ chars us := by
      have happ := splitWord_append (s ++ k)
      rw [hrest, ← List.append_assoc] at happ
      exact (List.append_cancel_right happ).symm
    -- neither word is `url`, so what follows it is read alike
    have hurl : t.isUrl = false := by
      have := isUrl_ofKind hp (splitWord (s ++ k)).1
      rw [isUrl, text_ofKind, kind_ofKind, String.toList_ofList, List.cons_append, ← htext] at this
      rwa [isUrl, ← hkind]
    refine ⟨_, t, us, rfl, hkind.symm, hs, fun q hq => ⟨?_, ?_⟩⟩
    · obtain ⟨e, he, -⟩ := hq.head
      obtain ⟨q, rfl⟩ := List.head?_eq_some_iff.mp he
      obtain ⟨he, hqs⟩ := List.forall_mem_cons.mp hq.chars
      exact ⟨e, q ++ (s ++ k), _, reading_front hqs false he (s ++ k), rfl, by simp, hrest⟩
    · rw [isUrl_ofKind hq]
      rwa [hurl] at hus

theorem whole_cons_of_word {t : Token} {ts : List Token} (h : t.kind = .word) :
    headAccount.Whole (t :: ts) ↔ headAccount.Whole ts :=
  whole_cons (by rw [h]; rfl) (by simp [isStop, h])

theorem trimmed_cons_of_word {t : Token} {ts : List Token} (h : t.kind = .word) :
    Trimmed (t :: ts) ↔ ∀ u ∈ ts.getLast?, u.kind ≠ .space := by
  have ht : t.kind ≠ .space := by simp [h]
  refine ⟨fun htrim u hu => htrim.last u ?_, fun hlast => ⟨?_, fun u hu => ?_⟩⟩
  · rw [List.getLast?_cons, hu]
    rfl
  · rintro u ⟨⟩
    exact ht
  · rw [List.getLast?_cons] at hu
    obtain rfl := Option.some.inj hu
    cases hts : ts.getLast? with
    | none => exact ht
    | some v => exact hlast v hts

section Exchange

variable {p q s : List Char} {t w : Token} {ts us : List Token}

theorem IsValueRun.of_word (h : IsValueRun (t :: us)) (ht : t.kind = .word) (hw : w.kind = .word)
    (hreads : ∃ k, Reads false (w :: us) k) : IsValueRun (w :: us) :=
  ⟨hreads, (trimmed_cons_of_word hw).mpr ((trimmed_cons_of_word ht).mp h.trimmed),
    (whole_cons_of_word hw).mpr ((whole_cons_of_word ht).mp h.whole)⟩

/-- What a value starts with may be exchanged for another part of a word. -/
theorem IsValueRun.exchange (h : IsValueRun ts) (hts : chars ts = p ++ s) (hp : IsFront p) (hq : IsFront q) :
    ∃ us, IsValueRun us ∧ chars us = q ++ s := by
  obtain ⟨k, hr⟩ := h.reads
  obtain ⟨b, t, us, rfl, hkind, rfl, hread⟩ := exists_front hp hr hts
  exact ⟨ofKind .word (q ++ b) :: us, h.of_word hkind rfl ⟨k, hread q hq⟩, by simp⟩

theorem IsPropertyRun.exchange (h : IsPropertyRun ts) (hts : chars ts = p ++ s) (hp : IsFront p) (hq : IsFront q) :
    ∃ us, IsPropertyRun us ∧ chars us = q ++ s := by
  obtain ⟨k, hr⟩ := h.reads
  obtain ⟨b, t, us, rfl, hkind, rfl, hread⟩ := exists_front hp hr hts
  refine ⟨ofKind .word (q ++ b) :: us, ⟨h.toIsValueRun.of_word hkind rfl ⟨k, hread q hq⟩, ⟨_, rfl, rfl⟩, ?_⟩, by simp⟩
  exact List.forall_mem_cons.mpr ⟨nofun, fun u hu => h.colon u (List.mem_cons_of_mem _ hu)⟩

end Exchange

/-! ### Runs of words -/

theorem readAs_word {cs k : List Char} (hne : cs ≠ []) (h : ∀ c ∈ cs, isWordChar c = true) (hk : Delimits k) :
    ReadAs false (ofKind .word cs) k := by
  obtain ⟨c, cs, rfl⟩ := List.exists_cons_of_ne_nil hne
  obtain ⟨hc, hcs⟩ := List.forall_mem_cons.mp h
  have hreading := reading_front hcs false hc k
  have hend : splitWord k = ([], k) := splitWord_append_of_delimits [] hk
  rw [hend, List.append_nil] at hreading
  exact ⟨c, _, _, hreading, rfl, String.toList_ofList, rfl⟩

theorem isPropertyRun_word {cs : List Char} (hne : cs ≠ []) (h : ∀ c ∈ cs, isWordChar c = true) :
    IsPropertyRun [ofKind .word cs] := by
  have hwhole : headAccount.Whole [ofKind .word cs] := (whole_cons_of_word rfl).mpr whole_nil
  refine ⟨⟨⟨[], .singleton (readAs_word hne h trivial)⟩, ?_, hwhole⟩, ⟨_, rfl, rfl⟩, ?_⟩
  · exact (trimmed_cons_of_word rfl).mpr nofun
  · exact List.forall_mem_singleton.mpr nofun

/-! ### Runs of values -/

theorem isValueRun_nil : IsValueRun [] := ⟨⟨[], trivial⟩, ⟨nofun, nofun⟩, whole_nil⟩

/-- Two values with a blank between them are a value. -/
theorem IsValueRun.blank {xs ys : List Token} (hx : IsValueRun xs) (hy : IsValueRun ys) (hxne : xs ≠ [])
    (hyne : ys ≠ []) : IsValueRun (xs ++ blankToken :: ys) := by
  obtain ⟨k, hxr⟩ := hx.reads
  obtain ⟨k', hyr⟩ := hy.reads
  obtain ⟨y, ys, rfl⟩ := List.exists_cons_of_ne_nil hyne
  have hyne : chars (y :: ys) ≠ [] := List.append_ne_nil_of_left_ne_nil hyr.1.toList_ne _
  refine ⟨⟨k', Reads.append.mpr ⟨hxr.move hx.trimmed hx.parensClosed ?_, readAs_blank (fun c hc => ?_) _, hyr⟩⟩, ?_, ?_⟩
  · rw [chars_cons, text_blankToken]
    rfl
  · rw [List.head?_append_of_ne_nil _ hyne] at hc
    exact (hyr.tight hy.trimmed).head c hc
  · refine ⟨fun t ht => hx.trimmed.head t ?_, fun t ht => hy.trimmed.last t ?_⟩
    · rwa [List.head?_append_of_ne_nil _ hxne] at ht
    · rwa [List.getLast?_append_of_ne_nil _ (List.cons_ne_nil _ _), List.getLast?_cons_cons] at ht
  · exact (whole_append hx.whole).mpr ((whole_cons rfl rfl).mpr hy.whole)

/-- A word is a value with a text in parentheses behind it, if nothing in it keeps these from being one token. -/
theorem isValueRun_group {name inner : List Char} (hname : IsFront name) (hparen : ')' ∉ inner)
    (hinner : groups false inner = true) : IsValueRun [ofKind .word name, groupToken inner] := by
  obtain ⟨c, hc, -⟩ := hname.head
  have hne : name ≠ [] := List.ne_nil_of_mem (List.mem_of_mem_head? hc)
  have hurl : (ofKind .word name).isUrl = false := by
    have := isUrl_ofKind hname []
    rwa [List.append_nil] at this
  refine ⟨⟨[], readAs_word hne hname.chars ?_, ?_, trivial⟩, (trimmed_cons_of_word rfl).mpr ?_, ?_⟩
  · rw [chars_cons, groupToken, text_ofKind, String.toList_ofList]
    rfl
  · rw [hurl]
    exact readAs_groupToken hparen hinner _
  · intro t ht
    obtain rfl := Option.some.inj ht
    exact ne_of_beq_false rfl
  · exact (whole_cons_of_word rfl).mpr ((whole_cons rfl rfl).mpr whole_nil)

end Node

/-! ### Texts -/

open Node

theorem isValue_iff {s : String} : IsValue s ↔ ∃ ts, IsValueRun ts ∧ chars ts = s.toList := by
  refine ⟨exists_valueRun, ?_⟩
  rintro ⟨ts, hts, hs⟩
  have := readsBack_of_runs (isPropertyRun_word (List.cons_ne_nil 'x' []) (List.forall_mem_singleton.mpr rfl)) hts
  rwa [join, join, hs, String.ofList_toList, chars_cons, text_ofKind, String.toList_ofList] at this

theorem isProperty_iff {s : String} : IsProperty s ↔ ∃ ts, IsPropertyRun ts ∧ chars ts = s.toList := by
  refine ⟨exists_propertyRun, ?_⟩
  rintro ⟨ts, hts, hs⟩
  have := readsBack_of_runs hts (isPropertyRun_word (List.cons_ne_nil 'x' []) (List.forall_mem_singleton.mpr rfl)).toIsValueRun
  rwa [join, join, hs, String.ofList_toList, chars_cons, text_ofKind, String.toList_ofList] at this

theorem isValue_empty : IsValue "" := isValue_iff.mpr ⟨[], isValueRun_nil, rfl⟩

theorem toList_ne_nil {s : String} (h : s ≠ "") : s.toList ≠ [] := by simpa using h

/-- The text is one word, with no character that could make it more or less. -/
def isPlainWord (s : String) : Bool := s != "" && s.toList.all isWordChar

theorem isPlainWord_iff {s : String} : isPlainWord s = true ↔ s ≠ "" ∧ ∀ c ∈ s.toList, isWordChar c = true := by
  simp [isPlainWord]

/-- A word may stand for the beginning of one, if it does not begin as the word `url` does. -/
theorem isFront_of_word {s : String} (h : isPlainWord s = true)
    (hu : (s.toList.head?.any fun c => c.toLower != 'u') = true) : IsFront s.toList := by
  obtain ⟨c, hc, hlower⟩ := (Option.any_eq_true _ _).mp hu
  exact ⟨⟨c, hc, bne_iff_ne.mp hlower⟩, (isPlainWord_iff.mp h).2⟩

theorem isProperty_of_word {s : String} (h : isPlainWord s = true) : IsProperty s := by
  obtain ⟨hne, hs⟩ := isPlainWord_iff.mp h
  exact isProperty_iff.mpr ⟨_, isPropertyRun_word (toList_ne_nil hne) hs, by simp⟩

theorem isValue_of_word {s : String} (h : isPlainWord s = true) : IsValue s := by
  obtain ⟨hne, hs⟩ := isPlainWord_iff.mp h
  exact isValue_iff.mpr ⟨_, (isPropertyRun_word (toList_ne_nil hne) hs).toIsValueRun, by simp⟩

/-- Two values that are not empty are a value with a blank between them. -/
theorem IsValue.blank {s t : String} (hs : IsValue s) (ht : IsValue t) (hsne : s ≠ "") (htne : t ≠ "") :
    IsValue (s ++ " " ++ t) := by
  obtain ⟨xs, hx, hxs⟩ := exists_valueRun hs
  obtain ⟨ys, hy, hys⟩ := exists_valueRun ht
  have hne : ∀ {ts : List Token} {s : String}, s ≠ "" → chars ts = s.toList → ts ≠ [] := by
    rintro ts s hsne hts rfl
    exact toList_ne_nil hsne hts.symm
  refine isValue_iff.mpr ⟨_, hx.blank hy (hne hsne hxs) (hne htne hys), ?_⟩
  simp [hxs, hys]

theorem IsValue.exchange {p q s : String} (h : IsValue (p ++ s)) (hp : IsFront p.toList) (hq : IsFront q.toList) :
    IsValue (q ++ s) := by
  obtain ⟨ts, hts, hs⟩ := exists_valueRun h
  rw [String.toList_append] at hs
  obtain ⟨us, hus, hchars⟩ := hts.exchange hs hp hq
  exact isValue_iff.mpr ⟨us, hus, by rw [hchars, String.toList_append]⟩

theorem IsProperty.exchange {p q s : String} (h : IsProperty (p ++ s)) (hp : IsFront p.toList)
    (hq : IsFront q.toList) : IsProperty (q ++ s) := by
  obtain ⟨ts, hts, hs⟩ := exists_propertyRun h
  rw [String.toList_append] at hs
  obtain ⟨us, hus, hchars⟩ := hts.exchange hs hp hq
  exact isProperty_iff.mpr ⟨us, hus, by rw [hchars, String.toList_append]⟩

theorem isValue_group {name inner : String} (hname : IsFront name.toList) (hparen : ')' ∉ inner.toList)
    (hinner : groups false inner.toList = true) : IsValue (name ++ "(" ++ inner ++ ")") :=
  isValue_iff.mpr ⟨_, isValueRun_group hname hparen hinner, by simp [groupToken]⟩

end Mixsheet
