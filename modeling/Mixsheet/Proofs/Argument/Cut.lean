import Mixsheet.Proofs.Argument.Slot

/-! # Texts that are cut at their commas

A text put together of parts with commas between is cut into these parts again, if no part has a comma
outside brackets and quotes. A part that is a value, or a key with its value, is then one piece. -/

namespace Mixsheet.Grouped

open Token Text Lexeme

/-! ### Parts with commas between -/

/-- At least one part, with a comma between each two and white space around them. -/
inductive Between : List (List Char) → List Char → Prop where
  | one {part before after : List Char} (before_ : Blank before) (after_ : Blank after) :
    Between [part] (before ++ (part ++ after))
  | more {part before after cs : List Char} {parts : List (List Char)} (before_ : Blank before)
    (after_ : Blank after) (rest : Between parts cs) :
    Between (part :: parts) (before ++ (part ++ (after ++ ',' :: cs)))

theorem Between.spaced {parts : List (List Char)} {cs w : List Char} (h : Between parts cs) (hw : Blank w) :
    Between parts (w ++ cs) := by
  cases h with
  | one before_ after_ =>
    rw [← List.append_assoc]
    exact .one (blank_append.mpr ⟨hw, before_⟩) after_
  | more before_ after_ rest =>
    rw [← List.append_assoc]
    exact .more (blank_append.mpr ⟨hw, before_⟩) after_ rest

theorem between_intercalate {w : List Char} (hw : Blank w) {parts : List (List Char)} (hne : parts ≠ []) :
    Between parts ((',' :: w).intercalate parts) := by
  induction parts with
  | nil => exact absurd rfl hne
  | cons part parts ih =>
    cases parts with
    | nil =>
      have := @Between.one part [] [] blank_nil blank_nil
      simpa using this
    | cons part' parts =>
      have := @Between.more part [] [] _ _ blank_nil blank_nil ((ih (List.cons_ne_nil _ _)).spaced hw)
      simpa [List.intercalate_cons_cons] using this

theorem forall_mem_intercalate {P : Char → Prop} {separator : List Char} {parts : List (List Char)}
    (hseparator : ∀ c ∈ separator, P c) (hparts : ∀ part ∈ parts, ∀ c ∈ part, P c) :
    ∀ c ∈ separator.intercalate parts, P c := by
  induction parts with
  | nil => nofun
  | cons part parts ih =>
    obtain ⟨hpart, hrest⟩ := List.forall_mem_cons.mp hparts
    cases parts with
    | nil => simpa using hpart
    | cons part' parts =>
      rw [List.intercalate_cons_cons]
      exact List.forall_mem_append.mpr ⟨List.forall_mem_append.mpr ⟨hpart, hseparator⟩, ih hrest⟩

/-! ### Texts that are not cut -/

/-- The text has no comma to cut at where at least `m` brackets are open, and no colon of a key where at
least `n` are; and behind it as many brackets are open as before. -/
structure Passes (m n : Nat) (cs : List Char) : Prop where
  comma : ∀ d, m ≤ d → ∀ rest, splitComma ⟨d, none⟩ (cs ++ rest) =
    (cs ++ (splitComma ⟨d, none⟩ rest).1, (splitComma ⟨d, none⟩ rest).2)
  colon : ∀ d, n ≤ d → ∀ rest, splitPair? ⟨d, none⟩ (cs ++ rest) =
    (splitPair? ⟨d, none⟩ rest).map fun p => (cs ++ p.1, p.2)

/-- The character neither opens nor closes brackets or quotes. -/
def Level (c : Char) : Prop := isQuote c = false ∧ c ≠ '(' ∧ c ≠ '[' ∧ c ≠ ')' ∧ c ≠ ']'

theorem Level.after {c : Char} (h : Level c) (d : Nat) : Nesting.after ⟨d, none⟩ c = ⟨d, none⟩ := by
  obtain ⟨hquote, hbrackets⟩ := h
  have hq : ¬ (c = '"' ∨ c = '\'') := fun hq => by rw [isQuote_iff.mpr hq] at hquote; cases hquote
  simp [Nesting.after, hq, hbrackets]

theorem level_of_inert {c : Char} (h : Inert c) : Level c := by
  refine ⟨h.quote, h.paren, ?_, ?_, ?_⟩ <;> (rintro rfl; cases h.punctuation)

theorem level_of_isBlank {c : Char} (h : isBlank c = true) : Level c := by
  have hne : ∀ d, isBlank d = false → c ≠ d := by
    rintro d hd rfl
    rw [h] at hd
    cases hd
  refine ⟨?_, hne _ (by decide), hne _ (by decide), hne _ (by decide), hne _ (by decide)⟩
  simp [isQuote, hne '"' (by decide), hne '\'' (by decide)]

section Passes

variable {m n : Nat} {c : Char} {cs ds : List Char}

theorem passes_nil (m n : Nat) : Passes m n [] := ⟨fun _ _ _ => rfl, fun _ _ _ => by simp⟩

theorem Passes.append (h : Passes m n cs) (hd : Passes m n ds) : Passes m n (cs ++ ds) := by
  constructor
  · intro d hm rest
    rw [List.append_assoc, h.comma d hm, hd.comma d hm]
    simp
  · intro d hm rest
    rw [List.append_assoc, h.colon d hm, hd.colon d hm]
    simp [Function.comp_def]

theorem Passes.mono (h : Passes m n cs) {m' n' : Nat} (hm : m ≤ m') (hn : n ≤ n') : Passes m' n' cs :=
  ⟨fun d hd => h.comma d (hm.trans hd), fun d hd => h.colon d (hn.trans hd)⟩

theorem passes_cons (hc : Level c) (hcomma : m = 0 → c ≠ ',') (hcolon : n = 0 → c ≠ ':') (h : Passes m n cs) :
    Passes m n (c :: cs) := by
  have hout : ∀ {k d}, k ≤ d → (⟨d, none⟩ : Nesting).isOutside = true → k = 0 := by
    intro k d hd ho
    have : d = 0 := by simpa [Nesting.isOutside, Nesting.outside] using ho
    omega
  constructor
  · intro d hd rest
    rw [List.cons_append, splitComma, if_neg fun hsplit => hcomma (hout hd hsplit.2) hsplit.1, hc.after, h.comma d hd]
    rfl
  · intro d hd rest
    rw [List.cons_append, splitPair?, if_neg fun hsplit => hcolon (hout hd hsplit.2.1) hsplit.1, hc.after,
      h.colon d hd]
    simp [Function.comp_def]

theorem passes_of_level (hlevel : ∀ c ∈ cs, Level c) (hcomma : ',' ∉ cs) : Passes 0 1 cs := by
  induction cs with
  | nil => exact passes_nil 0 1
  | cons c cs ih =>
    obtain ⟨hc, hcs⟩ := List.forall_mem_cons.mp hlevel
    obtain ⟨hne, hmem⟩ := not_or.mp (List.mem_cons.not.mp hcomma)
    exact passes_cons hc (fun _ => Ne.symm hne) (absurd · Nat.one_ne_zero) (ih hcs hmem)

theorem passes_of_blank (h : Blank cs) : Passes 0 1 cs :=
  passes_of_level (fun c hc => level_of_isBlank (h c hc)) fun hmem => absurd (h _ hmem) (by decide)

/-- What is in brackets passes outside of them. -/
theorem Passes.brackets (h : Passes 1 1 cs) : Passes 0 0 ('[' :: (cs ++ [']'])) := by
  have hopen : ∀ d, Nesting.after ⟨d, none⟩ '[' = ⟨d + 1, none⟩ := fun d => rfl
  have hclose : ∀ d, Nesting.after ⟨d + 1, none⟩ ']' = ⟨d, none⟩ := fun d => rfl
  constructor
  · intro d _ rest
    rw [List.cons_append, List.append_assoc, splitComma, if_neg (by simp), hopen, h.comma _ (Nat.le_add_left 1 d),
      List.singleton_append, splitComma, if_neg (by simp), hclose]
    simp
  · intro d _ rest
    rw [List.cons_append, List.append_assoc, splitPair?, if_neg (by simp), hopen, h.colon _ (Nat.le_add_left 1 d),
      List.singleton_append, splitPair?, if_neg (by simp), hclose]
    simp [Function.comp_def]

theorem Passes.around (h : Passes 0 1 cs) {before after : List Char} (hbefore : Blank before) (hafter : Blank after) :
    Passes 0 1 (before ++ (cs ++ after)) :=
  (passes_of_blank hbefore).append (h.append (passes_of_blank hafter))

theorem Between.passes {parts : List (List Char)} (h : Between parts cs) (hparts : ∀ p ∈ parts, Passes 0 1 p) :
    Passes 1 1 cs := by
  have hmono : ∀ {p}, Passes 0 1 p → Passes 1 1 p := fun h => h.mono (Nat.zero_le 1) (Nat.le_refl 1)
  induction h with
  | one before_ after_ => exact hmono ((hparts _ List.mem_cons_self).around before_ after_)
  | @more part before after cs parts before_ after_ _ ih =>
    obtain ⟨hpart, hrest⟩ := List.forall_mem_cons.mp hparts
    have hlevel : Level ',' := ⟨rfl, by decide⟩
    have hcomma := passes_cons hlevel (absurd · Nat.one_ne_zero) (absurd · Nat.one_ne_zero) (ih hrest)
    have := (hmono (hpart.around before_ after_)).append hcomma
    simpa using this

end Passes

/-! ### Texts that are cut -/

/-- The text is not empty and has no white space at its ends. -/
structure Solid (cs : List Char) : Prop where
  ne : cs ≠ []
  tight : Tight cs

theorem solid_brackets (cs : List Char) : Solid ('[' :: (cs ++ [']'])) := by
  refine ⟨List.cons_ne_nil _ _, .cons (by decide) fun c hc => ?_⟩
  rw [List.getLast?_concat] at hc
  obtain rfl := Option.some.inj hc
  decide

theorem Solid.append {cs ds : List Char} (h : Solid cs) (hd : Solid ds) (mid : List Char) :
    Solid (cs ++ (mid ++ ds)) := by
  refine ⟨by simp [h.ne], fun c hc => h.tight.head c ?_, fun c hc => hd.tight.last c ?_⟩
  · rwa [List.head?_append_of_ne_nil _ h.ne] at hc
  · rwa [← List.append_assoc, List.getLast?_append_of_ne_nil _ hd.ne] at hc

theorem Solid.trim_eq {cs before after : List Char} (h : Solid cs) (hbefore : Blank before) (hafter : Blank after) :
    trim (before ++ (cs ++ after)) = cs := by
  rw [← List.append_assoc, trim_between hbefore hafter, h.tight.trim_eq]

theorem splitCommas_of_none {cs part : List Char} (h : splitComma .outside cs = (part, none)) :
    splitCommas cs = [part] := by
  rw [splitCommas]
  split
  · rw [h]
  · rename_i hsome
    rw [h] at hsome
    cases hsome

theorem splitCommas_of_some {cs part rest : List Char} (h : splitComma .outside cs = (part, some rest)) :
    splitCommas cs = part :: splitCommas rest := by
  rw [splitCommas]
  split
  · rename_i hnone
    rw [h] at hnone
    cases hnone
  · rename_i hsome
    have hrest := congrArg Prod.snd h
    obtain rfl := Option.some.inj (hsome.symm.trans hrest)
    exact congrArg (· :: splitCommas _) (congrArg Prod.fst h)

theorem Passes.splitCommas {n : Nat} {cs : List Char} (h : Passes 0 n cs) : splitCommas cs = [cs] := by
  have hcomma := h.comma 0 (Nat.le_refl 0) []
  rw [List.append_nil, splitComma, List.append_nil] at hcomma
  exact splitCommas_of_none hcomma

/-- A text is cut into the parts that it was put together from. -/
theorem Between.splitCommas {parts : List (List Char)} {cs : List Char} (h : Between parts cs)
    (hparts : ∀ p ∈ parts, Passes 0 1 p ∧ Solid p) : (splitCommas cs).map trim = parts := by
  induction h with
  | @one part before after before_ after_ =>
    obtain ⟨hpasses, hsolid⟩ := hparts _ List.mem_cons_self
    rw [(hpasses.around before_ after_).splitCommas, List.map_singleton, hsolid.trim_eq before_ after_]
  | @more part before after cs parts before_ after_ _ ih =>
    obtain ⟨⟨hpasses, hsolid⟩, hrest⟩ := List.forall_mem_cons.mp hparts
    have hcomma := (hpasses.around before_ after_).comma 0 (Nat.le_refl 0) (',' :: cs)
    have hsplit : splitComma .outside (before ++ (part ++ (after ++ ',' :: cs))) =
        (before ++ (part ++ after), some cs) := by
      have hhead : splitComma ⟨0, none⟩ (',' :: cs) = ([], some cs) := by
        rw [splitComma, if_pos ⟨rfl, rfl⟩]
      rw [hhead] at hcomma
      refine Eq.trans ?_ (hcomma.trans ?_)
      · simp [Nesting.outside]
      · simp
    rw [splitCommas_of_some hsplit, List.map_cons, hsolid.trim_eq before_ after_, ih hrest]

theorem Between.trim_ne {parts : List (List Char)} {cs : List Char} (h : Between parts cs)
    (hparts : ∀ p ∈ parts, Solid p) : (trim cs).isEmpty = false := by
  obtain ⟨part, hpart, hsub⟩ : ∃ part ∈ parts, part ⊆ cs := by
    cases h with
    | one before_ after_ => exact ⟨_, List.mem_cons_self, fun c hc => by simp [hc]⟩
    | more before_ after_ rest => exact ⟨_, List.mem_cons_self, fun c hc => by simp [hc]⟩
  obtain ⟨hne, htight⟩ := hparts part hpart
  obtain ⟨c, ds, rfl⟩ := List.exists_cons_of_ne_nil hne
  refine Bool.eq_false_iff.mpr fun hempty => ?_
  have hblank : Blank cs := trim_eq_nil_iff.mp (List.isEmpty_iff.mp hempty)
  have := hblank c (hsub List.mem_cons_self)
  rw [htight.head c rfl] at this
  cases this

/-! ### Values -/

/-- A value that is no list: no quotes, brackets or commas, and no `: `. -/
structure Flat (cs : List Char) : Prop where
  solid : Solid cs
  level : ∀ c ∈ cs, Level c
  comma : ',' ∉ cs
  colon : ¬ [':', ' '] <:+: cs

/-- The text of an argument: a flat text, or a list in square brackets that is blank or holds such texts. -/
inductive Shaped : List Char → Argument → Prop where
  | text {cs : List Char} (flat : Flat cs) : Shaped cs (.text (.ofList cs))
  | empty {cs : List Char} (blank : Blank cs) : Shaped ('[' :: (cs ++ [']'])) (.list [])
  | list {cs : List Char} {parts : List (List Char × Argument)} (values : ∀ p ∈ parts, Shaped p.1 p.2)
    (between : Between (parts.map (·.1)) cs) : Shaped ('[' :: (cs ++ [']'])) (.list (parts.map (·.2)))

theorem Flat.passes {cs : List Char} (h : Flat cs) : Passes 0 1 cs := passes_of_level h.level h.comma

theorem Shaped.passes {cs : List Char} {argument : Argument} (h : Shaped cs argument) : Passes 0 1 cs := by
  have hmono : ∀ {cs}, Passes 0 0 cs → Passes 0 1 cs := fun h => h.mono (Nat.le_refl 0) (Nat.zero_le 1)
  induction h with
  | text flat => exact flat.passes
  | empty blank => exact hmono ((passes_of_blank blank).mono (Nat.zero_le 1) (Nat.le_refl 1)).brackets
  | list _ between ih =>
    refine hmono (between.passes fun part hpart => ?_).brackets
    obtain ⟨p, hp, rfl⟩ := List.mem_map.mp hpart
    exact ih p hp

theorem Shaped.solid {cs : List Char} {argument : Argument} (h : Shaped cs argument) : Solid cs := by
  cases h with
  | text flat => exact flat.solid
  | empty blank => exact solid_brackets _
  | list values between => exact solid_brackets _

theorem literal_of_none {cs : List Char} (h : listBody? cs = none) : literal cs = .text (.ofList cs) := by
  rw [literal]
  split
  · rfl
  · rename_i hsome
    rw [h] at hsome
    cases hsome

theorem literal_of_some {cs body : List Char} (h : listBody? cs = some body) : literal cs =
    if (trim body).isEmpty then .list [] else .list ((splitCommas body).map fun part => literal (trim part)) := by
  rw [literal]
  split
  · rename_i hnone
    rw [h] at hnone
    cases hnone
  · rename_i body' hsome
    obtain rfl := Option.some.inj (h.symm.trans hsome)
    split
    · rfl
    · simp

theorem literal_brackets (body : List Char) : literal ('[' :: (body ++ [']'])) =
    if (trim body).isEmpty then .list [] else .list ((splitCommas body).map fun part => literal (trim part)) :=
  literal_of_some (by simp [listBody?])

theorem Flat.literal_eq {cs : List Char} (h : Flat cs) : literal cs = .text (.ofList cs) := by
  refine literal_of_none ?_
  obtain ⟨c, ds, rfl⟩ := List.exists_cons_of_ne_nil h.solid.ne
  obtain ⟨-, -, hbracket, -⟩ := h.level c List.mem_cons_self
  unfold listBody?
  split
  · rename_i heq
    exact absurd (List.cons.inj heq).1 hbracket
  · rfl

theorem Shaped.literal_eq {cs : List Char} {argument : Argument} (h : Shaped cs argument) :
    literal cs = argument := by
  induction h with
  | text flat => exact flat.literal_eq
  | @empty cs blank =>
    rw [literal_brackets, trim_eq_nil_iff.mpr blank]
    rfl
  | @list cs parts values between ih =>
    have hparts : ∀ part ∈ parts.map (·.1), Passes 0 1 part ∧ Solid part := by
      intro part hpart
      obtain ⟨p, hp, rfl⟩ := List.mem_map.mp hpart
      exact ⟨(values p hp).passes, (values p hp).solid⟩
    have hmap : (splitCommas cs).map (fun part => literal (trim part)) = parts.map (·.2) := by
      have := congrArg (List.map literal) (between.splitCommas hparts)
      rw [List.map_map, List.map_map] at this
      refine this.trans (List.map_congr_left fun p hp => ih p hp)
    rw [literal_brackets, between.trim_ne fun p hp => (hparts p hp).2, if_neg Bool.false_ne_true, hmap]

/-! ### Pieces -/

/-- The first `: ` outside brackets and quotes stands behind a text that has neither brackets nor quotes
nor `: `. -/
theorem splitPair?_append {ks rest : List Char} (hlevel : ∀ c ∈ ks, Level c) (hcolon : ¬ [':', ' '] <:+: ks)
    (hrest : rest.head? ≠ some ' ') :
    splitPair? .outside (ks ++ rest) = (splitPair? .outside rest).map fun p => (ks ++ p.1, p.2) := by
  induction ks with
  | nil => simp
  | cons c ks ih =>
    obtain ⟨hc, hks⟩ := List.forall_mem_cons.mp hlevel
    have hhead : ¬ (c = ':' ∧ Nesting.isOutside .outside ∧ (ks ++ rest).head? = some ' ') := by
      rintro ⟨rfl, -, hblank⟩
      -- the space would stand behind the text, or make a key inside it
      cases ks with
      | nil => exact hrest hblank
      | cons d ks =>
        obtain rfl := Option.some.inj hblank
        exact hcolon ⟨[], ks, rfl⟩
    have htail : ¬ [':', ' '] <:+: ks := fun h => hcolon (h.trans (List.suffix_cons c ks).isInfix)
    have hafter : Nesting.outside.after c = .outside := hc.after 0
    rw [List.cons_append, splitPair?, if_neg hhead, hafter, ih hks htail]
    simp [Function.comp_def]

theorem Shaped.splitPair? {cs : List Char} {argument : Argument} (h : Shaped cs argument) :
    splitPair? .outside cs = none := by
  have hbrackets : ∀ {cs}, Passes 0 0 cs → Grouped.splitPair? .outside cs = none := by
    intro cs h
    have := h.colon 0 (Nat.le_refl 0) []
    rwa [List.append_nil] at this
  cases h with
  | text flat =>
    have := @splitPair?_append cs [] flat.level flat.colon (by simp)
    rwa [List.append_nil] at this
  | empty blank => exact hbrackets ((passes_of_blank blank).mono (Nat.zero_le 1) (Nat.le_refl 1)).brackets
  | list values between =>
    refine hbrackets (between.passes fun part hpart => ?_).brackets
    obtain ⟨p, hp, rfl⟩ := List.mem_map.mp hpart
    exact (values p hp).passes

theorem piece_trim (part : List Char) : piece (trim part) = piece part := by
  rw [piece, (trim_tight part).trim_eq, piece]

/-- The text is a piece, and no comma cuts it. -/
structure IsPart (cs : List Char) (p : Piece) : Prop where
  passes : Passes 0 1 cs
  solid : Solid cs
  piece_eq : piece cs = p

theorem Shaped.isPart {cs : List Char} {argument : Argument} (h : Shaped cs argument) :
    IsPart cs (.single argument) := by
  refine ⟨h.passes, h.solid, ?_⟩
  rw [piece, h.solid.tight.trim_eq, h.splitPair?]
  exact congrArg Piece.single h.literal_eq

theorem isPart_pair {key before after cs : List Char} {argument : Argument} (hkey : Flat key) (hbefore : Blank before)
    (hcolon : ¬ [':', ' '] <:+: key ++ before) (hafter : Blank after) (h : Shaped cs argument) :
    IsPart (key ++ (before ++ ':' :: ' ' :: (after ++ cs))) (.pair (.ofList key) argument) := by
  have hblank : Blank (' ' :: after) := List.forall_mem_cons.mpr ⟨by decide, hafter⟩
  have hsolid : Solid (key ++ (before ++ ':' :: ' ' :: (after ++ cs))) := by
    have := hkey.solid.append h.solid (before ++ ':' :: ' ' :: after)
    simpa using this
  have hlevel : Level ':' := ⟨rfl, by decide⟩
  refine ⟨?_, hsolid, ?_⟩
  · have hvalue := (passes_of_blank hblank).append h.passes
    have hcolon := passes_cons hlevel (fun _ => by decide) (absurd · Nat.one_ne_zero) hvalue
    exact hkey.passes.append ((passes_of_blank hbefore).append hcolon)
  · have hks : ∀ c ∈ key ++ before, Level c :=
      List.forall_mem_append.mpr ⟨hkey.level, fun c hc => level_of_isBlank (hbefore c hc)⟩
    have hpair : splitPair? .outside (key ++ (before ++ ':' :: ' ' :: (after ++ cs))) =
        some (key ++ before, after ++ cs) := by
      have := @splitPair?_append _ (':' :: ' ' :: (after ++ cs)) hks hcolon (by simp)
      have hhead : splitPair? .outside (':' :: ' ' :: (after ++ cs)) = some ([], after ++ cs) := by
        rw [splitPair?, if_pos ⟨rfl, rfl, rfl⟩]
        rfl
      rw [hhead, List.append_assoc] at this
      simpa using this
    have htrimkey : trim (key ++ before) = key := hkey.solid.trim_eq blank_nil hbefore
    have htrimvalue : trim (after ++ cs) = cs := by
      have := h.solid.trim_eq hafter blank_nil
      rwa [List.append_nil] at this
    rw [piece, hsolid.tight.trim_eq, hpair]
    simp only [htrimkey, htrimvalue, h.literal_eq]

theorem Between.pieces_eq {parts : List (List Char × Piece)} {cs : List Char} (h : Between (parts.map (·.1)) cs)
    (hparts : ∀ p ∈ parts, IsPart p.1 p.2) : pieces cs = parts.map (·.2) := by
  have hcuts : ∀ part ∈ parts.map (·.1), Passes 0 1 part ∧ Solid part := by
    intro part hpart
    obtain ⟨p, hp, rfl⟩ := List.mem_map.mp hpart
    exact ⟨(hparts p hp).passes, (hparts p hp).solid⟩
  have hcut := congrArg (List.map piece) (h.splitCommas hcuts)
  simp only [List.map_map, Function.comp_def, piece_trim] at hcut
  rw [pieces, h.trim_ne fun p hp => (hcuts p hp).2, if_neg Bool.false_ne_true, hcut]
  exact List.map_congr_left fun p hp => (hparts p hp).piece_eq

theorem pieces_of_blank {cs : List Char} (h : Blank cs) : pieces cs = [] := by
  rw [pieces, trim_eq_nil_iff.mpr h]
  rfl

end Mixsheet.Grouped
