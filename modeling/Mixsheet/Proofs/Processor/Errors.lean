import Mathlib
import Mixsheet.Proofs.Catalog.Errors
import Mixsheet.Proofs.Expansion.InOrder

/-! # What a run with the built-in mixins fails with

With the built-in mixins alone every call of a stylesheet is replaced by declarations and rules, or is taken out. A run
fails with the parse error of its text, or with a call of `column`, `row` or `rowModify` that is given no column or no
grid margin. -/

namespace Mixsheet.Catalog

open Evaluation Expansion

variable {theme : Theme} {units : Units} {depth : Nat}

/-- What a call of a stylesheet comes to: no mixin, statements without texts, or an error of the mixin itself. -/
inductive Comes (c : MixinCall) : Outcome → Prop where
  | unresolved : Comes c .unresolved
  | output {output : MixinOutput} (plain : output.Plain) : Comes c (.output output)
  | failed {e : MixinError} (refuses : Refuses c.name e) : Comes c (.failed e)

theorem comes_evaluate (hdepth : 3 ≤ depth) (c : MixinCall) :
    Comes c (evaluate (registry theme) units depth c) := by
  unfold evaluate
  cases hfound : (registry theme).resolve? c.name with
  | none => exact .unresolved
  | some found =>
    obtain ⟨m, hm, hname, rfl⟩ := exists_of_resolve? hfound
    obtain ⟨result, hcall, hsurfaces⟩ := surfaces_call? theme units hdepth hm (Args.ofArguments c.arguments)
    rw [hname] at hcall hsurfaces
    rw [call?, find?, hfound, Option.some_or] at hcall
    dsimp only at hcall ⊢
    rw [hcall]
    cases result with
    | ok output => exact .output (hsurfaces.output output rfl)
    | error e => exact .failed (hsurfaces.error e rfl)

theorem Comes.rawCalls_eq {c : MixinCall} {outcome : Outcome} (h : Comes c outcome) : rawCalls outcome = [] := by
  cases h with
  | unresolved | failed => rfl
  | @output output plain =>
    refine List.flatMap_eq_nil_iff.mpr fun node hn => ?_
    cases node with
    | declaration | rule => rfl
    | raw css => exact (plain _ hn).elim

/-- A call fails only with an error of its mixin, at the place of the call. -/
theorem Comes.of_failure? {c : MixinCall} {outcome : Outcome} (h : Comes c outcome) {error : ProcessError}
    (he : failure? c outcome = some error) :
    ∃ cause, error = .mixin c.name c.source.start cause ∧ Refuses c.name cause := by
  cases h with
  | unresolved => cases he
  | failed refuses => exact ⟨_, (Option.some.inj he).symm, refuses⟩
  | @output output plain =>
    obtain ⟨e, hraw, -⟩ := Option.map_eq_some_iff.mp he
    obtain ⟨node, hn, hnode⟩ := List.exists_of_findSome?_eq_some hraw
    cases node with
    | declaration | rule => cases hnode
    | raw css => exact (plain _ hn).elim

theorem calls_of_expand (hdepth : 3 ≤ depth) {sheet : Stylesheet} {e : Expanded}
    (h : expand (registry theme) units depth sheet = .ok e) : Node.calls e.nodes = [] := by
  rw [expand_eq] at h
  rw [calls_of_inOrder h]
  exact List.flatMap_eq_nil_iff.mpr fun c _ => (comes_evaluate hdepth c).rawCalls_eq

theorem exists_of_expand (hdepth : 3 ≤ depth) {sheet : Stylesheet} {error : ProcessError}
    (h : expand (registry theme) units depth sheet = .error error) :
    ∃ name position cause, error = .mixin name position cause ∧ Refuses name cause := by
  rw [expand_eq, inOrder] at h
  split at h
  · rename_i e he
    obtain rfl := Except.error.inj h
    obtain ⟨c, -, hc⟩ := List.exists_of_findSome?_eq_some he
    obtain ⟨cause, hcause, hrefuses⟩ := (comes_evaluate hdepth c).of_failure? hc
    exact ⟨_, _, cause, hcause, hrefuses⟩
  · cases h

/-- A call of a built-in mixin has a result, whatever it is given, as soon as three mixins may run at once: statements
without texts, or an error of the mixin itself. So a run leaves no call, and fails with the parse error of its text or
with such an error. -/
theorem fails_only_by_refusal (theme : Theme) (units : Units) {depth : Nat} (hdepth : 3 ≤ depth) :
    (∀ name ∈ (registry theme).names, ∀ args, ∃ result,
      call? (registry theme) units depth name args = some result ∧
        (∀ output, result = .ok output → ∀ css, .raw css ∉ output.nodes) ∧
        ∀ e, result = .error e → Refuses name e) ∧
    ∀ text,
      (∀ e, (Processor.mk (registry theme) units depth).process text = .ok e → Node.calls e.nodes = []) ∧
      ∀ error, (Processor.mk (registry theme) units depth).process text = .error error →
        (∃ e, Stylesheet.parse text = .error e ∧ error = .parse e) ∨
        ∃ name position cause, error = .mixin name position cause ∧ Refuses name cause := by
  constructor
  · intro name hname args
    obtain ⟨m, hm, rfl⟩ := exists_of_mem_names hname
    obtain ⟨result, hcall, hsurfaces⟩ := surfaces_call? theme units hdepth hm args
    exact ⟨result, hcall, fun output ho css hcss => hsurfaces.output output ho _ hcss, hsurfaces.error⟩
  · intro text
    unfold Processor.process
    cases Stylesheet.parse text with
    | error e => exact ⟨nofun, fun error he => .inl ⟨e, rfl, (Except.error.inj he).symm⟩⟩
    | ok sheet => exact ⟨fun e he => calls_of_expand hdepth he, fun error he => .inr (exists_of_expand hdepth he)⟩

/-- A call that nests three deep, given a map with a list in it, and a run that fails. -/
theorem fails_only_by_refusal_of_column :
    (∃ result, call? (registry .standard) .standard 3 "spacedBlock"
        (.one (.map [("height", .list [.undefined])])) = some result ∧
      (∀ output, result = .ok output → ∀ css, .raw css ∉ output.nodes) ∧
      ∀ e, result = .error e → Refuses "spacedBlock" e) ∧
    ∃ error, (Processor.mk (registry .standard) .standard 3).process "a\x7bcolumn(x);\x7d" = .error error ∧
      ∃ name position cause, error = .mixin name position cause ∧ Refuses name cause := by
  obtain ⟨hcall, hrun⟩ := fails_only_by_refusal .standard .standard (Nat.le_refl 3)
  have hname : "spacedBlock" ∈ (registry .standard).names := by decide +kernel
  have herror : (Processor.mk (registry .standard) .standard 3).process "a\x7bcolumn(x);\x7d" =
      .error (.mixin "column" ⟨1, 3⟩ (.invalidArgument "column" "'x' is not a column share")) := by cbv
  refine ⟨hcall _ hname _, _, herror, ((hrun _).2 _ herror).resolve_left ?_⟩
  rintro ⟨e, -, he⟩
  cases he

end Mixsheet.Catalog
