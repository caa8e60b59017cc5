import Mixsheet.Proofs.Argument.Maps

/-! # Cutting at commas

A text is cut at its commas outside brackets and quotes, and the parts with commas between are the text again. At each
cut the reading stands as at the start, so no part is cut any further, however its brackets and quotes are closed. A list
in square brackets is cut in the same way at every level, and only the white space around a part is lost. -/

namespace Mixsheet

open Token Text

namespace Grouped

/-! ### Parts -/

/-- No comma of the text stands outside brackets and quotes, if the text stands at `n`. -/
def Uncut (n : Nesting) (cs : List Char) : Prop :=
  ∀ front behind, cs = front ++ ',' :: behind → front.foldl Nesting.after n ≠ .outside

/-- The parts of a text between its commas outside brackets and quotes. -/
inductive Cuts : List Char → List (List Char) → Prop where
  | last {cs : List Char} (uncut : Uncut .outside cs) : Cuts cs [cs]
  | comma {part cs : List Char} {parts : List (List Char)} (uncut : Uncut .outside part)
    (outside : part.foldl Nesting.after .outside = .outside) (rest : Cuts cs parts) :
    Cuts (part ++ ',' :: cs) (part :: parts)

variable {n : Nesting} {cs part : List Char} {parts : List (List Char)}

theorem uncut_nil (n : Nesting) : Uncut n [] := by
  intro front behind h
  simp at h

theorem uncut_cons {c : Char} : Uncut n (c :: cs) ↔ ¬ (c = ',' ∧ n = .outside) ∧ Uncut (n.after c) cs := by
  constructor
  · intro h
    refine ⟨?_, fun front behind hcs => h (c :: front) behind (congrArg (c :: ·) hcs)⟩
    rintro ⟨rfl, hout⟩
    exact h [] cs rfl hout
  · rintro ⟨hhead, htail⟩ front behind hcs
    cases front with
    | nil => exact fun hout => hhead ⟨(List.cons.inj hcs).1, hout⟩
    | cons d front =>
      obtain ⟨rfl, rfl⟩ := List.cons.inj hcs
      exact htail front behind rfl

theorem isOutside_iff : n.isOutside = true ↔ n = .outside := beq_iff_eq

theorem splitComma_of_uncut (h : Uncut n cs) : splitComma n cs = (cs, none) := by
  induction cs generalizing n with
  | nil => rfl
  | cons c cs ih =>
    obtain ⟨hhead, htail⟩ := uncut_cons.mp h
    rw [splitComma, if_neg (by rwa [isOutside_iff]), ih htail]

theorem splitComma_of_outside (h : Uncut n part) (hout : part.foldl Nesting.after n = .outside) (rest : List Char) :
    splitComma n (part ++ ',' :: rest) = (part, some rest) := by
  induction part generalizing n with
  | nil => rw [List.nil_append, splitComma, if_pos ⟨rfl, isOutside_iff.mpr hout⟩]
  | cons c part ih =>
    obtain ⟨hhead, htail⟩ := uncut_cons.mp h
    rw [List.cons_append, splitComma, if_neg (by rwa [isOutside_iff]), ih htail hout]

/-- A text is cut at its first comma outside brackets and quotes, or it has none. -/
theorem cut_cases (n : Nesting) (cs : List Char) : Uncut n cs ∨
    ∃ part rest, cs = part ++ ',' :: rest ∧ Uncut n part ∧ part.foldl Nesting.after n = .outside := by
  induction cs generalizing n with
  | nil => exact .inl (uncut_nil n)
  | cons c cs ih =>
    by_cases hcut : c = ',' ∧ n = .outside
    · obtain ⟨rfl, hout⟩ := hcut
      exact .inr ⟨[], cs, rfl, uncut_nil n, hout⟩
    · rcases ih (n.after c) with huncut | ⟨part, rest, rfl, huncut, hout⟩
      · exact .inl (uncut_cons.mpr ⟨hcut, huncut⟩)
      · exact .inr ⟨c :: part, rest, rfl, uncut_cons.mpr ⟨hcut, huncut⟩, hout⟩

theorem splitCommas_of_uncut (h : Uncut .outside cs) : splitCommas cs = [cs] :=
  splitCommas_of_none (splitComma_of_uncut h)

theorem cuts_splitCommas (cs : List Char) : Cuts cs (splitCommas cs) := by
  induction hn : cs.length using Nat.strongRecOn generalizing cs with
  | ind n ih =>
    rcases cut_cases .outside cs with huncut | ⟨part, rest, rfl, huncut, hout⟩
    · rw [splitCommas_of_uncut huncut]
      exact .last huncut
    · rw [splitCommas_of_some (splitComma_of_outside huncut hout rest)]
      simp only [List.length_append, List.length_cons] at hn
      exact .comma huncut hout (ih rest.length (by omega) rest rfl)

/-- The parts of a text are those that it is cut into. -/
theorem splitCommas_eq_iff : splitCommas cs = parts ↔ Cuts cs parts := by
  constructor
  · rintro rfl
    exact cuts_splitCommas cs
  · intro h
    induction h with
    | last uncut => exact splitCommas_of_uncut uncut
    | comma uncut outside _ ih => rw [splitCommas_of_some (splitComma_of_outside uncut outside _), ih]

theorem Cuts.ne_nil (h : Cuts cs parts) : parts ≠ [] := by
  cases h <;> exact List.cons_ne_nil _ _

theorem Cuts.intercalate (h : Cuts cs parts) : [','].intercalate parts = cs := by
  induction h with
  | last => simp
  | comma _ _ rest ih =>
    obtain ⟨part', parts, rfl⟩ := List.exists_cons_of_ne_nil rest.ne_nil
    rw [List.intercalate_cons_cons, ih, List.append_assoc, List.singleton_append]

theorem Cuts.uncut (h : Cuts cs parts) : ∀ part ∈ parts, Uncut .outside part := by
  induction h with
  | last uncut => exact List.forall_mem_singleton.mpr uncut
  | comma uncut _ _ ih => exact List.forall_mem_cons.mpr ⟨uncut, ih⟩

/-! ### Lists at every level -/

/-- A text between white space. -/
structure Padded where
  before : List Char
  text : List Char
  after : List Char
  blank_before : Blank before
  blank_after : Blank after
  tight : Tight text

/-- The text of a part with the white space around it. -/
def Padded.chars (p : Padded) : List Char := p.before ++ p.text ++ p.after

theorem Padded.trim_chars (p : Padded) : trim p.chars = p.text := by
  rw [chars, trim_between p.blank_before p.blank_after, p.tight.trim_eq]

theorem exists_padded (cs : List Char) : ∃ p : Padded, p.chars = cs := by
  obtain ⟨before, after, hcs, hbefore, hafter⟩ := exists_eq_trim cs
  exact ⟨⟨before, trim cs, after, hbefore, hafter, trim_tight cs⟩, hcs.symm⟩

/-- How an argument is written: a list in square brackets, its items between the commas with white space around them, and
a text as it is. -/
inductive StandsFor : List Char → Argument → Prop where
  | text {cs : List Char} (bare : ∀ body, cs ≠ '[' :: (body ++ [']'])) : StandsFor cs (.text (.ofList cs))
  | blank {body : List Char} (blank_ : Blank body) : StandsFor ('[' :: (body ++ [']'])) (.list [])
  | list {body : List Char} {parts : List (Padded × Argument)} (some_ : ¬ Blank body)
    (cuts : Cuts body (parts.map (·.1.chars))) (items : ∀ p ∈ parts, StandsFor p.1.text p.2) :
    StandsFor ('[' :: (body ++ [']'])) (.list (parts.map (·.2)))

theorem listBody?_eq_none (bare : ∀ body, cs ≠ '[' :: (body ++ [']'])) : listBody? cs = none := by
  unfold listBody?
  split
  · rename_i rest
    refine if_neg fun hlast => bare rest.dropLast ?_
    rw [List.dropLast_append_getLast? _ hlast]
  · rfl

theorem StandsFor.literal_eq {argument : Argument} (h : StandsFor cs argument) : literal cs = argument := by
  induction h with
  | text bare => exact literal_of_none (listBody?_eq_none bare)
  | blank blank_ =>
    rw [literal_brackets, trim_eq_nil_iff.mpr blank_]
    rfl
  | @list body parts some_ cuts items ih =>
    have hsome : (trim body).isEmpty = false := by simpa [trim_eq_nil_iff] using some_
    rw [literal_brackets, hsome, if_neg Bool.false_ne_true, splitCommas_eq_iff.mpr cuts, List.map_map]
    refine congrArg Argument.list (List.map_congr_left fun p hp => ?_)
    rw [Function.comp_apply, p.1.trim_chars, ih p hp]

/-- The parts of a text, each with the argument that it is read as. -/
theorem exists_pairs (cs : List Char) : ∃ pairs : List (Padded × Argument), splitCommas cs = pairs.map (·.1.chars) ∧
    (splitCommas cs).map (fun part => literal (trim part)) = pairs.map (·.2) ∧ ∀ p ∈ pairs, p.2 = literal p.1.text := by
  obtain ⟨padded, hpadded⟩ := List.map_surjective_iff.mpr exists_padded (splitCommas cs)
  refine ⟨padded.map fun p => (p, literal p.text), ?_, ?_, ?_⟩
  · rw [← hpadded, List.map_map]
    rfl
  · rw [← hpadded, List.map_map, List.map_map]
    exact List.map_congr_left fun p _ => congrArg literal p.trim_chars
  · intro pair hpair
    obtain ⟨p, -, rfl⟩ := List.mem_map.mp hpair
    rfl

theorem Padded.length_text_le (p : Padded) : p.text.length ≤ p.chars.length := by
  rw [chars, List.length_append, List.length_append]
  omega

theorem standsFor_literal (cs : List Char) : StandsFor cs (literal cs) := by
  induction hn : cs.length using Nat.strongRecOn generalizing cs with
  | ind n ih =>
    by_cases hbare : ∀ body, cs ≠ '[' :: (body ++ [']'])
    · rw [literal_of_none (listBody?_eq_none hbare)]
      exact .text hbare
    · simp only [ne_eq, not_forall, not_not] at hbare
      obtain ⟨body, rfl⟩ := hbare
      rw [literal_brackets]
      split
      · rename_i hempty
        exact .blank (trim_eq_nil_iff.mp (List.isEmpty_iff.mp hempty))
      · rename_i hsome
        obtain ⟨pairs, hparts, harguments, hreads⟩ := exists_pairs body
        rw [harguments]
        refine .list (fun hblank => hsome (by rw [trim_eq_nil_iff.mpr hblank]; rfl)) (splitCommas_eq_iff.mp hparts) ?_
        intro p hp
        have hpart : p.1.chars ∈ splitCommas body := hparts ▸ List.mem_map_of_mem hp
        have hlength := length_le_of_mem_splitCommas hpart
        have htext := p.1.length_text_le
        simp only [List.length_cons, List.length_append] at hn
        rw [hreads p hp]
        exact ih p.1.text.length (by omega) _ rfl

/-- A text is read as the one argument that it stands for. -/
theorem literal_eq_iff {argument : Argument} : literal cs = argument ↔ StandsFor cs argument := by
  constructor
  · rintro rfl
    exact standsFor_literal cs
  · exact StandsFor.literal_eq

/-! ### Calls -/

/-- The pieces of a text without keys are the arguments that its parts stand for. -/
theorem pieces_of_positional {inner : List Char} (hsome : ¬ Blank inner)
    (hkeys : ∀ part ∈ splitCommas inner, ¬ HasKey (trim part)) :
    pieces inner = (splitCommas inner).map fun part => .single (literal (trim part)) := by
  have hnonempty : (trim inner).isEmpty = false := by simpa [trim_eq_nil_iff] using hsome
  rw [pieces, hnonempty, if_neg Bool.false_ne_true]
  refine List.map_congr_left fun part hpart => ?_
  have hnone : splitPair? .outside (trim part) = none := by
    rw [← Option.not_isSome_iff_eq_none, isSome_splitPair?]
    exact hkeys part hpart
  rw [piece, hnone]

theorem arguments_of_positional {inner : List Char} (hsome : ¬ Blank inner)
    (hkeys : ∀ part ∈ splitCommas inner, ¬ HasKey (trim part)) :
    arguments (.ofList ('(' :: (inner ++ [')']))) = (splitCommas inner).map fun part => literal (trim part) := by
  have hinside : inside (.ofList ('(' :: (inner ++ [')']))) = inner := by simp [inside]
  rw [arguments, hinside, pieces_of_positional hsome hkeys]
  simp [Piece.arguments, Piece.isPair, Piece.argument, Function.comp_def]

end Grouped

namespace Argument

open Grouped

/-- The parts of a text with commas between are the text, and no part is cut any further. A text in square brackets is
read as the list of its parts, at every level, and any other text as itself; and a call in one `( … )` token that is not
blank and has no key is read as one argument for each part, an empty one too. -/
theorem ofTokens_parts :
    (∀ cs, [','].intercalate (splitCommas cs) = cs ∧ ∀ part ∈ splitCommas cs, splitCommas part = [part]) ∧
    (∀ cs argument, literal cs = argument ↔ StandsFor cs argument) ∧
    ∀ ts group inner, trimTrivia ts = [group] → group.kind = .brackets →
      group.text = .ofList ('(' :: (inner ++ [')'])) → ¬ Blank inner →
      (∀ part ∈ splitCommas inner, ¬ HasKey (trim part)) →
      ∃ parts : List (Padded × Argument), splitCommas inner = parts.map (·.1.chars) ∧
        ofTokens ts = parts.map (·.2) ∧ ∀ p ∈ parts, StandsFor p.1.text p.2 := by
  refine ⟨fun cs => ?_, fun cs argument => literal_eq_iff, fun ts group inner hrun hkind htext hsome hkeys => ?_⟩
  · have hcuts := cuts_splitCommas cs
    exact ⟨hcuts.intercalate, fun part hpart => splitCommas_of_uncut (hcuts.uncut part hpart)⟩
  · obtain ⟨parts, hparts, harguments, hreads⟩ := exists_pairs inner
    refine ⟨parts, hparts, ?_, fun p hp => literal_eq_iff.mp (hreads p hp).symm⟩
    rw [ofTokens, hrun]
    dsimp only
    rw [if_pos ⟨hkind, rfl⟩, htext, arguments_of_positional hsome hkeys, harguments]

/-- An empty slot and a list in a list. -/
theorem ofTokens_parts_of_lists : ∃ ts, Token.ofText "(,[a,[b , c]])" = .ok ts ∧
    ofTokens (content ts) = [.text "", .list [.text "a", .list [.text "b", .text "c"]]] ∧
    ∃ parts : List (Padded × Argument), parts.map (·.1.chars) = ["".toList, "[a,[b , c]]".toList] ∧
      ofTokens (content ts) = parts.map (·.2) ∧ ∀ p ∈ parts, StandsFor p.1.text p.2 := by
  let group : Token := ⟨.brackets, "(,[a,[b , c]])", 0, 14, ⟨1, 1⟩⟩
  have hts : Token.ofText "(,[a,[b , c]])" = .ok [group, ⟨.eof, "", 14, 14, ⟨1, 15⟩⟩] := by decide +kernel
  have hparts : splitCommas ",[a,[b , c]]".toList = ["".toList, "[a,[b , c]]".toList] := by cbv
  have hsome : ¬ Blank ",[a,[b , c]]".toList := fun hblank => absurd (hblank ',' (by decide)) (by decide)
  have hkeys : ∀ part ∈ splitCommas ",[a,[b , c]]".toList, ¬ HasKey (trim part) := by
    simp only [hparts, HasKey, ← isSome_splitPair?]
    decide
  obtain ⟨parts, hcut, hcall, hreads⟩ :=
    ofTokens_parts.2.2 [group] group ",[a,[b , c]]".toList rfl rfl (by decide) hsome hkeys
  exact ⟨_, hts, by cbv, parts, hcut.symm.trans hparts, hcall, hreads⟩

end Argument
end Mixsheet
