import Mixsheet.Proofs.Argument.Keyed
import Mixsheet.Proofs.Node.CallText

/-! # Calls without a text of their own

A call with nothing written behind its name is printed with its arguments in parentheses. If the texts in
them are plain, the printed call is one token of parentheses behind a word, and is read as the same call. -/

namespace Mixsheet

open Token Text Lexeme

/-- The characters that may end, enclose or hide an argument. -/
def marks : List Char := ['\\', '/', '(', ')', '[', ']', ',', '"', '\'', '\n']

/-- A text that stands for itself among the arguments of a call: it is not empty, and has no white space at
its ends, no mark and no `: `. -/
structure IsPlain (s : String) : Prop where
  ne : s ≠ ""
  tight : Tight s.toList
  colon : ¬ [':', ' '] <:+: s.toList
  unmarked : ∀ c ∈ s.toList, c ∉ marks

instance : DecidablePred IsPlain := fun s =>
  decidable_of_iff (s ≠ "" ∧ (s.toList.head?.all (!isBlank ·) ∧ s.toList.getLast?.all (!isBlank ·)) ∧
      ¬ [':', ' '] <:+: s.toList ∧ s.toList.all (!marks.contains ·)) <| by
    simp only [Option.all_eq_true, List.all_eq_true, Bool.not_eq_true', List.contains_eq_mem, decide_eq_false_iff_not]
    constructor
    · rintro ⟨ne, ⟨head, last⟩, colon, unmarked⟩
      exact ⟨ne, ⟨head, last⟩, colon, unmarked⟩
    · rintro ⟨ne, ⟨head, last⟩, colon, unmarked⟩
      exact ⟨ne, ⟨head, last⟩, colon, unmarked⟩

namespace Argument

/-- A plain text, or a list of plain arguments. -/
inductive Plain : Argument → Prop where
  | text {s : String} (plain : IsPlain s) : Plain (.text s)
  | list {items : List Argument} (items_ : ∀ item ∈ items, Plain item) : Plain (.list items)

/-- Plain arguments, or one map from plain keys to such. -/
inductive PlainAll : List Argument → Prop where
  | positional {arguments : List Argument} (plain : ∀ a ∈ arguments, a.Plain) : PlainAll arguments
  | keyed {entries : List (String × Argument)} (ne : entries ≠ []) (keys : (Table.keys entries).Nodup)
    (plain : ∀ e ∈ entries, IsPlain e.1 ∧ e.2.Plain) : PlainAll [.map entries]

/-- An entry as it is written in a call. -/
def renderEntry (e : String × Argument) : String := e.1 ++ ": " ++ e.2.render

theorem renderEntries_eq_map (entries : List (String × Argument)) :
    renderEntries entries = entries.map renderEntry := by
  induction entries with
  | nil => simp [renderEntries]
  | cons e rest ih => simp [renderEntries, renderEntry, ih]

/-- The text between the parentheses of a call. -/
def inner (arguments : List Argument) : List Char := [',', ' '].intercalate (arguments.map fun a => a.render.toList)

theorem toList_render_list (items : List Argument) :
    (Argument.list items).render.toList = '[' :: (inner items ++ [']']) := by
  simp [render, renderItems_eq_map, String.toList_intercalate, inner, Function.comp_def]

theorem inner_map (entries : List (String × Argument)) :
    inner [.map entries] = [',', ' '].intercalate (entries.map fun e => (renderEntry e).toList) := by
  simp [inner, render, renderEntries_eq_map, String.toList_intercalate, Function.comp_def]

theorem between_inner {arguments : List Argument} (h : arguments ≠ []) :
    Grouped.Between (arguments.map fun a => a.render.toList) (inner arguments) :=
  Grouped.between_intercalate blank_space (by simpa using h)

/-! ### Characters -/

/-- The character may stand between parentheses that are one token. -/
def Groupable (c : Char) : Prop := c ∉ ungroupable ∧ c ≠ ')'

theorem groupable_intercalate {parts : List (List Char)} (h : ∀ part ∈ parts, ∀ c ∈ part, Groupable c) :
    ∀ c ∈ [',', ' '].intercalate parts, Groupable c :=
  Grouped.forall_mem_intercalate (by simp [Groupable, ungroupable]) h

theorem groups_of_groupable {cs : List Char} (h : ∀ c ∈ cs, Groupable c) (u : Bool) : groups u cs = true := by
  have hgroups : groups false cs = true := List.all_eq_true.mpr fun c hc => by simpa using (h c hc).1
  cases u with
  | false => exact hgroups
  | true => exact groups_afterUrl hgroups

end Argument

namespace IsPlain

variable {s : String}

theorem flat (h : IsPlain s) : Grouped.Flat s.toList := by
  have hne : s.toList ≠ [] := fun hnil => h.ne (String.toList_injective hnil)
  refine ⟨⟨hne, h.tight⟩, fun c hc => ?_, fun hmem => h.unmarked _ hmem (by simp [marks]), h.colon⟩
  have := h.unmarked c hc
  simp only [marks, List.mem_cons, not_or] at this
  simp [Grouped.Level, isQuote, this]

theorem groupable (h : IsPlain s) : ∀ c ∈ s.toList, Argument.Groupable c := by
  intro c hc
  have := h.unmarked c hc
  simp only [marks, List.mem_cons, not_or] at this
  simp [Argument.Groupable, ungroupable, this]

end IsPlain

namespace Argument

open Grouped

/-! ### Arguments -/

theorem Plain.shaped {a : Argument} (h : a.Plain) : Shaped a.render.toList a := by
  induction h with
  | @text s plain =>
    have := Shaped.text plain.flat
    rw [String.ofList_toList] at this
    simpa [render] using this
  | @list items _ ih =>
    rw [toList_render_list]
    by_cases hitems : items = []
    · subst hitems
      exact .empty blank_nil
    · have hparts : ∀ p ∈ items.map fun a => (a.render.toList, a), Shaped p.1 p.2 := List.forall_mem_map.mpr ih
      have hbetween : Between ((items.map fun a => (a.render.toList, a)).map (·.1)) (inner items) := by
        rw [List.map_map]
        exact between_inner hitems
      have := Shaped.list hparts hbetween
      simpa [Function.comp_def] using this

theorem Plain.groupable {a : Argument} (h : a.Plain) : ∀ c ∈ a.render.toList, Groupable c := by
  induction h with
  | text plain => simpa [render] using plain.groupable
  | list _ ih =>
    rw [toList_render_list]
    have hparts := groupable_intercalate (List.forall_mem_map.mpr ih)
    have hbrackets : Groupable '[' ∧ Groupable ']' := by simp [Groupable, ungroupable]
    exact List.forall_mem_cons.mpr ⟨hbrackets.1, List.forall_mem_append.mpr
      ⟨hparts, List.forall_mem_singleton.mpr hbrackets.2⟩⟩

theorem isPart_renderEntry {e : String × Argument} (hkey : IsPlain e.1) (hvalue : e.2.Plain) :
    IsPart (renderEntry e).toList (.pair e.1 e.2) := by
  have hcolon : ¬ [':', ' '] <:+: e.1.toList ++ [] := by
    rw [List.append_nil]
    exact hkey.colon
  have := isPart_pair hkey.flat blank_nil hcolon blank_nil hvalue.shaped
  rw [String.ofList_toList] at this
  simpa [renderEntry] using this

theorem groupable_renderEntry {e : String × Argument} (hkey : IsPlain e.1) (hvalue : e.2.Plain) :
    ∀ c ∈ (renderEntry e).toList, Groupable c := by
  have htext : (renderEntry e).toList = e.1.toList ++ ([':', ' '] ++ e.2.render.toList) := by simp [renderEntry]
  have hcolon : ∀ c ∈ [':', ' '], Groupable c := by simp [Groupable, ungroupable]
  rw [htext]
  exact List.forall_mem_append.mpr ⟨hkey.groupable, List.forall_mem_append.mpr ⟨hcolon, hvalue.groupable⟩⟩

theorem PlainAll.groupable {arguments : List Argument} (h : PlainAll arguments) :
    ∀ c ∈ inner arguments, Groupable c := by
  cases h with
  | positional plain => exact groupable_intercalate (List.forall_mem_map.mpr fun a ha => (plain a ha).groupable)
  | keyed ne keys plain =>
    rw [inner_map]
    refine groupable_intercalate (List.forall_mem_map.mpr fun e he => ?_)
    exact groupable_renderEntry (plain e he).1 (plain e he).2

theorem PlainAll.arguments_eq {arguments : List Argument} (h : PlainAll arguments) :
    Piece.arguments ((pieces (inner arguments)).any Piece.isPair) (pieces (inner arguments)) = arguments := by
  cases h with
  | positional plain =>
    have hpieces : pieces (inner arguments) = arguments.map .single := by
      by_cases hnil : arguments = []
      · subst hnil
        exact pieces_of_blank blank_nil
      · have hbetween : Between ((arguments.map fun a => (a.render.toList, Piece.single a)).map (·.1))
            (inner arguments) := by
          rw [List.map_map]
          exact between_inner hnil
        have := hbetween.pieces_eq (List.forall_mem_map.mpr fun a ha => (plain a ha).shaped.isPart)
        simpa [Function.comp_def] using this
    have hany : (arguments.map Piece.single).any Piece.isPair = false := by simp [Piece.isPair]
    rw [hpieces, hany]
    simp [Piece.arguments, Piece.argument, Function.comp_def]
  | @keyed entries ne keys plain =>
    have hne : (entries.map fun e => (renderEntry e).toList) ≠ [] := by simpa using ne
    have hbetween : Between ((entries.map fun e => ((renderEntry e).toList, Piece.pair e.1 e.2)).map (·.1))
        (inner [.map entries]) := by
      rw [List.map_map, inner_map]
      exact between_intercalate blank_space hne
    have hpieces := hbetween.pieces_eq
      (List.forall_mem_map.mpr fun e he => isPart_renderEntry (plain e he).1 (plain e he).2)
    rw [List.map_map] at hpieces
    have hany : (entries.map fun e => Piece.pair e.1 e.2).any Piece.isPair = true := by
      obtain ⟨e, rest, rfl⟩ := List.exists_cons_of_ne_nil ne
      rfl
    have hentries : Piece.entriesFrom false "" [] (entries.map fun e => .pair e.1 e.2) = entries :=
      (Piece.entriesFrom_pairs false "" [] entries).trans (Table.ofList_of_nodup keys)
    simp only [Function.comp_def] at hpieces
    rw [hpieces, hany, Piece.arguments, if_pos rfl, hentries]

end Argument

/-- A call with a word as its name, plain arguments and nothing written behind its name is read again as it
is printed. -/
theorem Stylesheet.readsAsCall_render_new {c : MixinCall} (hname : IsOneWord c.name)
    (harguments : Argument.PlainAll c.arguments) (hwritten : Blank c.written.toList) :
    ReadsAsCall (Stylesheet.render ⟨[.call c]⟩) c.name c.arguments := by
  obtain ⟨word, hword⟩ := hname.exists_word
  have hparen : ')' ∉ Argument.inner c.arguments := fun hmem => (harguments.groupable _ hmem).2 rfl
  have hgroups := Argument.groups_of_groupable harguments.groupable word.isUrl
  have htrim : trimmed c.written = "" := by rw [trimmed, trim_eq_nil_iff.mpr hwritten]
  have htext : c.render = join [word, groupToken (Argument.inner c.arguments)] := by
    rw [MixinCall.render, if_pos htrim]
    apply String.toList_injective
    simp [join, groupToken, hword.text, String.toList_intercalate, Argument.inner, Function.comp_def]
  have hof : Argument.ofTokens [groupToken (Argument.inner c.arguments)] = c.arguments :=
    (Argument.ofTokens_group rfl String.toList_ofList).trans harguments.arguments_eq
  have hrender : Stylesheet.render ⟨[.call c]⟩ = (Node.call c).render 0 := by
    simp [Stylesheet.render]
  rw [hrender]
  exact MixinCall.readsAsCall_line hword.text.symm (Node.callTokens_brackets hword.kind rfl)
    (hword.reads_group hparen hgroups) htext hof 0

/-- A call with a list in a list, and a keyed call. -/
theorem Stylesheet.readsAsCall_render_new_of_lists :
    ReadsAsCall "grid(1fr, [a b, []]);\n" "grid" [.text "1fr", .list [.text "a b", .list []]] ∧
    ReadsAsCall "url(gap: 0, of: [a]);\n" "url" [.map [("gap", .text "0"), ("of", .list [.text "a"])]] := by
  have hgrid : IsOneWord "grid" := by decide +kernel
  have hurl : IsOneWord "url" := by decide +kernel
  have htext : ∀ s ∈ ["1fr", "a b", "gap", "0", "of", "a"], IsPlain s := by decide +kernel
  simp only [List.forall_mem_cons] at htext
  obtain ⟨h1fr, hab, hgap, h0, hof, ha, -⟩ := htext
  have hlists : Argument.PlainAll [.text "1fr", .list [.text "a b", .list []]] := by
    refine .positional (List.forall_mem_cons.mpr ⟨.text h1fr, List.forall_mem_singleton.mpr (.list ?_)⟩)
    exact List.forall_mem_cons.mpr ⟨.text hab, List.forall_mem_singleton.mpr (.list nofun)⟩
  have hkeyed : Argument.PlainAll [.map [("gap", .text "0"), ("of", .list [.text "a"])]] := by
    have hlist : Argument.Plain (.list [.text "a"]) := .list (List.forall_mem_singleton.mpr (.text ha))
    exact .keyed (by simp) (by decide)
      (List.forall_mem_cons.mpr ⟨⟨hgap, .text h0⟩, List.forall_mem_singleton.mpr ⟨hof, hlist⟩⟩)
  have hfirst := Stylesheet.readsAsCall_render_new (c := ⟨"grid", _, "", "", .none⟩) hgrid hlists blank_nil
  have hsecond := Stylesheet.readsAsCall_render_new (c := ⟨"url", _, "", "", .none⟩) hurl hkeyed blank_nil
  have hprinted : Stylesheet.render ⟨[.call ⟨"grid", [.text "1fr", .list [.text "a b", .list []]], "", "", .none⟩]⟩ =
      "grid(1fr, [a b, []]);\n" := by decide +kernel
  have hprinted' : Stylesheet.render ⟨[.call ⟨"url", [.map [("gap", .text "0"), ("of", .list [.text "a"])]], "", "",
      .none⟩]⟩ = "url(gap: 0, of: [a]);\n" := by decide +kernel
  rw [hprinted] at hfirst
  rw [hprinted'] at hsecond
  exact ⟨hfirst, hsecond⟩

end Mixsheet
