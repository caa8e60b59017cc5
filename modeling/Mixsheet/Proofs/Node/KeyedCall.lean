import Mixsheet.Proofs.Argument.Entries
import Mixsheet.Proofs.Node.Parens

/-! # Keyed calls of words

The call that a text of entries `key: value` and keys alone is read as, where every key and every value is a
word. Whether its map is the one that is meant depends on where the keys without a value stand, and on
whether the parentheses are one token. -/

namespace Mixsheet

open Token Text Lexeme

namespace CallEntry

/-- The key, and the value if there is one, are words. -/
def OfWords (e : CallEntry) : Prop := IsOneWord e.key ∧ ∀ value ∈ e.value?, IsOneWord value

instance : DecidablePred OfWords := fun _ => inferInstanceAs (Decidable (_ ∧ _))

/-- The text of entries with commas between, and the white space `w` behind each comma. -/
def renderAll (w : String) (entries : List CallEntry) : String := ("," ++ w).intercalate (entries.map render)

section

variable {e : CallEntry} (h : e.OfWords)
include h

theorem OfWords.isPart : Grouped.IsPart e.render.toList e.piece := by
  obtain ⟨key, hkey⟩ := h.1.exists_word
  have hflat := Grouped.flat_of_inert hkey.ne hkey.inert
  cases hvalue : e.value? with
  | none =>
    have := (Grouped.Shaped.text hflat).isPart
    simpa [render, piece, hvalue] using this
  | some value =>
    obtain ⟨word, hword⟩ := (h.2 value hvalue).exists_word
    have hcolon := Grouped.no_colon_of_inert hkey.inert blank_nil
    have := Grouped.isPart_pair hflat blank_nil hcolon blank_nil (.text (Grouped.flat_of_inert hword.ne hword.inert))
    simpa [render, piece, hvalue] using this

theorem OfWords.exists_piece : ∃ ts, Grouped.Spells Delimits ts e.render.toList ∧ Scan.IsPiece ts e.piece := by
  have hslot : ∀ {s : String} {word : Token}, WordOf s word → Scan.Slot [word] (.text s) := by
    intro s word hword
    have := Scan.Slot.stack (.one (.value (.inl hword.kind)))
    rw [String.intercalate_singleton] at this
    simpa [join, hword.text] using this
  obtain ⟨key, hkey⟩ := h.1.exists_word
  cases hvalue : e.value? with
  | none =>
    refine ⟨[key], ?_, ?_⟩
    · simpa [render, hvalue] using hkey.spells
    · simpa [piece, hvalue] using Scan.IsPiece.slot (hslot hkey)
  | some value =>
    obtain ⟨word, hword⟩ := (h.2 value hvalue).exists_word
    have hsolid := (Grouped.flat_of_inert hword.ne hword.inert).solid
    have := Grouped.exists_entry (.inl hkey.kind) hkey.spells blank_nil blank_nil hsolid hword.spells (hslot hword)
    simpa [render, piece, hvalue, hkey.text] using this

theorem OfWords.key_ne : e.key ≠ "" := by
  obtain ⟨key, hkey⟩ := h.1.exists_word
  exact fun hnil => hkey.ne (by rw [hnil]; rfl)

theorem OfWords.paren_notMem : ∀ c ∈ e.render.toList, c ≠ ')' := by
  have hword : ∀ {s : String}, IsOneWord s → ∀ c ∈ s.toList, c ≠ ')' := by
    rintro s hs c hc rfl
    obtain ⟨word, hword⟩ := hs.exists_word
    cases (hword.inert _ hc).punctuation
  cases hvalue : e.value? with
  | none => simpa [render, hvalue] using hword h.1
  | some value =>
    have htext : e.render.toList = e.key.toList ++ ([':', ' '] ++ value.toList) := by simp [render, hvalue]
    rw [htext]
    exact List.forall_mem_append.mpr ⟨hword h.1, List.forall_mem_append.mpr ⟨by simp, hword (h.2 value hvalue)⟩⟩

end

section

variable {entries : List CallEntry} {w : String}

theorem toList_renderAll (w : String) (entries : List CallEntry) :
    (renderAll w entries).toList = (',' :: w.toList).intercalate (entries.map fun e => e.render.toList) := by
  simp [renderAll, String.toList_intercalate, Function.comp_def]

theorem between_renderAll (hentries : entries ≠ []) (hw : Blank w.toList) :
    Grouped.Between ((entries.map fun e => (e.render.toList, e.piece)).map (·.1)) (renderAll w entries).toList := by
  rw [List.map_map, toList_renderAll]
  exact Grouped.between_intercalate hw (by simpa using hentries)

theorem paren_notMem_renderAll (hwords : ∀ e ∈ entries, e.OfWords) (hw : Blank w.toList) :
    ')' ∉ (renderAll w entries).toList := by
  have hseparator : ∀ c ∈ ',' :: w.toList, c ≠ ')' := by
    refine List.forall_mem_cons.mpr ⟨by simp, ?_⟩
    rintro c hc rfl
    exact absurd (hw _ hc) (by decide)
  intro hmem
  rw [toList_renderAll] at hmem
  have hparts : ∀ part ∈ entries.map fun e => e.render.toList, ∀ c ∈ part, c ≠ ')' :=
    List.forall_mem_map.mpr fun e he => (hwords e he).paren_notMem
  exact Grouped.forall_mem_intercalate hseparator hparts _ hmem rfl

theorem any_isPair_map_piece (hvalue : ∃ e ∈ entries, e.value? ≠ none) :
    (entries.map piece).any Piece.isPair = true := by
  obtain ⟨e, he, hsome⟩ := hvalue
  refine List.any_eq_true.mpr ⟨e.piece, List.mem_map_of_mem he, ?_⟩
  cases hv : e.value? with
  | none => exact absurd hv hsome
  | some value => simp [piece, hv, Piece.isPair]

end

end CallEntry

open CallEntry

/-- A keyed call of words has one map. If its parentheses are one token, that map is the one that is meant
exactly if the keys alone stand at even places; if not, exactly if none but the last key stands alone. -/
theorem Stylesheet.readsAsCall_entries {name w : String} {entries : List CallEntry} (hname : IsOneWord name)
    (hwords : ∀ e ∈ entries, e.OfWords) (hkeys : (entries.map CallEntry.key).Nodup)
    (hvalue : ∃ e ∈ entries, e.value? ≠ none) (hw : Blank w.toList) :
    ∃ table, ReadsAsCall (name ++ "(" ++ renderAll w entries ++ ");") name [.map table] ∧
      if groups (ofKind .word name.toList).isUrl (renderAll w entries).toList then
        table = entries.map meant ↔ BareAtEven false entries
      else
        table = entries.map meant ↔ BareAtEnd entries := by
  obtain ⟨word, hword⟩ := hname.exists_word
  have hurl : (ofKind .word name.toList).isUrl = word.isUrl := by simp [isUrl, hword.kind, hword.text]
  have hentries : entries ≠ [] := by
    obtain ⟨e, he, -⟩ := hvalue
    exact List.ne_nil_of_mem he
  have hbetween := between_renderAll hentries hw
  have hparen := paren_notMem_renderAll hwords hw
  have hkeyed := any_isPair_map_piece hvalue
  have hne : ∀ e ∈ entries, e.key ≠ "" := fun e he => (hwords e he).key_ne
  rw [hurl]
  cases hgroups : groups word.isUrl (renderAll w entries).toList with
  | true =>
    have hpieces := hbetween.pieces_eq (List.forall_mem_map.mpr fun e he => (hwords e he).isPart)
    have hcall := readsAsCall_group hword hparen hgroups
    simp only [List.map_map, Function.comp_def] at hpieces
    rw [hpieces, hkeyed, String.ofList_toList] at hcall
    exact ⟨_, hcall, Piece.entriesFrom_pieces_iff hkeys hne⟩
  | false =>
    obtain ⟨ts, hspells, hts⟩ := hbetween.exists_parts
      (List.forall_mem_map.mpr fun e he => ⟨(hwords e he).isPart.solid, (hwords e he).exists_piece⟩)
    have hfree : Scan.CommaFree ts := (hspells.reads false [] ⟨trivial, by simp⟩).commaFree
    have hcall := readsAsCall_tokens hword hparen hgroups hspells
    simp only [List.map_map, Function.comp_def] at hts
    rw [Scan.arguments_of_pieces hts hfree, hkeyed, String.ofList_toList] at hcall
    exact ⟨_, hcall, Piece.entriesFrom_scannedAll_iff hkeys hne⟩

/-- A key alone before one with a value. -/
theorem Stylesheet.readsAsCall_entries_of_bare :
    ReadsAsCall "m(a, b: 1);" "m" [.map [("a", .text ""), ("b", .text "1")]] := by
  have hname : IsOneWord "m" := by decide +kernel
  have hwords : ∀ e ∈ [CallEntry.mk "a" none, CallEntry.mk "b" (some "1")], e.OfWords := by decide +kernel
  obtain ⟨table, hcall, hmap⟩ := Stylesheet.readsAsCall_entries (w := " ") hname hwords (by decide)
    ⟨⟨"b", some "1"⟩, by simp, by simp⟩ blank_space
  have hgroups : groups (ofKind .word "m".toList).isUrl
      (renderAll " " [⟨"a", none⟩, ⟨"b", some "1"⟩]).toList = true := by decide +kernel
  have heven : BareAtEven false [⟨"a", none⟩, ⟨"b", some "1"⟩] := by
    intro i e he hnone
    match i with
    | 0 => rfl
    | 1 =>
      obtain rfl := Option.some.inj he
      cases hnone
    | i + 2 => cases he
  rw [if_pos hgroups] at hmap
  obtain rfl := hmap.mpr heven
  exact hcall

/-- A key alone behind one with a value takes the place of that value. -/
theorem Stylesheet.readsAsCall_entries_fails : ¬ ∀ (name w : String) (entries : List CallEntry), IsOneWord name →
    (∀ e ∈ entries, e.OfWords) → (entries.map CallEntry.key).Nodup → (∃ e ∈ entries, e.value? ≠ none) → Blank w.toList →
    ReadsAsCall (name ++ "(" ++ renderAll w entries ++ ");") name [.map (entries.map meant)] := by
  intro h
  have hwords : ∀ e ∈ [CallEntry.mk "b" (some "1"), CallEntry.mk "a" none], e.OfWords := by decide +kernel
  obtain ⟨c, hc, -, harguments⟩ := h "m" " " _ (by decide +kernel) hwords (by decide)
    ⟨⟨"b", some "1"⟩, by simp, by simp⟩ blank_space
  have hparse : Stylesheet.parse "m(b: 1, a);" =
      .ok ⟨[.call ⟨"m", [.map [("b", .text "a")]], "", "(b: 1, a)", ⟨⟨1, 1⟩, ⟨1, 11⟩⟩⟩]⟩ := by cbv
  have htext : "m" ++ "(" ++ renderAll " " [⟨"b", some "1"⟩, ⟨"a", none⟩] ++ ");" = "m(b: 1, a);" := by decide
  rw [htext] at hc
  obtain rfl := Node.call.inj (List.cons.inj (congrArg Stylesheet.nodes (Except.ok.inj (hparse.symm.trans hc)))).1
  simp [meant] at harguments

end Mixsheet
