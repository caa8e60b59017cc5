import Mathlib.Logic.Relation
import Mixsheet.Proofs.Evaluation

/-! # Mixins that run

A run of mixins, step by step. The mixin that was called last runs, and those that wait for a result are kept as a
stack. Each of them has its own surroundings: where it was found, from where its calls are resolved if not from there,
and the units. A call that ends comes to what the steps from it come to. -/

namespace Mixsheet

/-- What is left of a script behind some of its calls. -/
inductive Script.Remains {α : Type} (script : Script α) : Script α → Prop where
  | all : Remains script script
  | behind {name : String} {args : Args} {next : MixinResult → Script α}
    (front : Remains script (.call name args next)) (result : MixinResult) : Remains script (next result)

namespace Evaluation

/-- Where the calls of a mixin are resolved, and the units. -/
structure Surroundings where
  root : Registry Mixin
  home : Registry Mixin
  units : Units

/-- A mixin that was called, and with what. -/
structure Invocation where
  around : Surroundings
  mixin : Mixin
  args : Args

/-- A mixin that goes on when a call of it has a result. -/
structure Waiting where
  invocation : Invocation
  next : MixinResult → Script MixinOutput

/-- The run of a mixin: what it has left to do, and the mixins that wait, the one that called it first. -/
inductive State where
  | running (invocation : Invocation) (script : Script MixinOutput) (waiting : List Waiting)
  | ended (result : MixinResult)

/-- What a mixin sees around it. -/
def Surroundings.scope (s : Surroundings) : Scope := ⟨s.root.outline, s.home.outline, s.units⟩

/-- The mixin that a name stands for here. -/
def Surroundings.find? (s : Surroundings) (name : String) : Option (Resolved Mixin) :=
  (s.home.resolve? name).or (s.root.resolve? name)

/-- A call, from here, of a mixin that was found. -/
def Surroundings.call (s : Surroundings) (found : Resolved Mixin) (args : Args) : Invocation :=
  ⟨⟨s.root, found.home, s.units⟩, found.mixin, args⟩

/-- All that a mixin does. -/
def Invocation.script (i : Invocation) : Script MixinOutput := i.mixin.script i.around.scope i.args

namespace State

/-- A mixin at its beginning. -/
def enter (i : Invocation) (waiting : List Waiting) : State := .running i i.script waiting

/-- The mixins that were called and have no result yet. -/
def invocations : State → List Invocation
  | .running i _ waiting => i :: waiting.map Waiting.invocation
  | .ended _ => []

/-- One step: a script ends and the one that waits for it goes on, or a script calls a mixin. -/
def step : State → State
  | .running _ (.done result) [] => .ended result
  | .running _ (.done result) (w :: waiting) => .running w.invocation (w.next result) waiting
  | .running i (.call name args next) waiting =>
    match i.around.find? name with
    | some found => .enter (i.around.call found args) (⟨i, next⟩ :: waiting)
    | none => .running i (next (.error (.notFound name))) waiting
  | .ended result => .ended result

/-- Steps lead from one state to the other. -/
def Reaches : State → State → Prop := Relation.ReflTransGen fun s t => s.step = t

end State

open State

/-! ### The steps of a run -/

/-- What a call from here comes to, with at most `depth` mixins running at once. -/
def Surroundings.call? (s : Surroundings) (depth : Nat) (name : String) (args : Args) : Option MixinResult :=
  match s.find? name with
  | none => some (.error (.notFound name))
  | some found => run? s.root s.units depth found args

theorem run?_succ (s : Surroundings) (depth : Nat) (found : Resolved Mixin) (args : Args) :
    run? s.root s.units (depth + 1) found args =
      (s.call found args).script.perform? ((s.call found args).around.call? depth) := rfl

/-- A script comes to its result step by step, if each mixin that it calls does; the mixins below wait. -/
theorem reaches_done {i : Invocation} {depth : Nat}
    (hrun : ∀ found args result, run? i.around.root i.around.units depth found args = some result → ∀ waiting,
      Reaches (.enter (i.around.call found args) waiting) (.running (i.around.call found args) (.done result) waiting))
    {script : Script MixinOutput} {result : MixinResult} (h : script.perform? (i.around.call? depth) = some result)
    (waiting : List Waiting) : Reaches (.running i script waiting) (.running i (.done result) waiting) := by
  induction script with
  | done r =>
    obtain rfl := Option.some.inj h
    exact .refl
  | call name args next ih =>
    rw [Script.perform?, Surroundings.call?] at h
    refine .head rfl ?_
    rw [step]
    cases hfind : i.around.find? name with
    | none =>
      rw [hfind] at h
      exact ih _ h
    | some found =>
      rw [hfind] at h
      dsimp only at h ⊢
      split at h
      · cases h
      · rename_i r hr
        exact ((hrun found args r hr _).tail rfl).trans (ih r h)

theorem reaches_of_run? {s : Surroundings} {depth : Nat} {found : Resolved Mixin} {args : Args} {result : MixinResult}
    (h : run? s.root s.units depth found args = some result) (waiting : List Waiting) :
    Reaches (.enter (s.call found args) waiting) (.running (s.call found args) (.done result) waiting) := by
  induction depth generalizing s found args result waiting with
  | zero => cases h
  | succ depth ih =>
    rw [run?_succ] at h
    exact reaches_done (fun _ _ _ hr waiting => ih hr waiting) h waiting

/-! ### What a state comes to -/

/-- With a result of the mixin above them, mixins that wait come to a result in the end. -/
def Waiting.Yields : List Waiting → MixinResult → MixinResult → Prop
  | [], given, result => given = result
  | w :: waiting, given, result =>
    ∃ depth own, (w.next given).perform? (w.invocation.around.call? depth) = some own ∧ Yields waiting own result

/-- The mixins of a state come to a result in the end. -/
def State.Yields : State → MixinResult → Prop
  | .running i script waiting, result =>
    ∃ depth own, script.perform? (i.around.call? depth) = some own ∧ Waiting.Yields waiting own result
  | .ended given, result => given = result

theorem Surroundings.call?_mono {s : Surroundings} {depth depth' : Nat} (hle : depth ≤ depth') {name : String}
    {args : Args} {result : MixinResult} (h : s.call? depth name args = some result) :
    s.call? depth' name args = some result := by
  unfold Surroundings.call? at h ⊢
  cases hfind : s.find? name with
  | none =>
    rw [hfind] at h
    exact h
  | some found =>
    rw [hfind] at h
    exact run?_mono hle h

/-- A script that calls a mixin comes to what it does with the result of that one. -/
theorem exists_perform? {s : Surroundings} {name : String} {args : Args} {next : MixinResult → Script MixinOutput}
    {given own : MixinResult} {depth depth' : Nat} (hcall : s.call? depth name args = some given)
    (hnext : (next given).perform? (s.call? depth') = some own) :
    ∃ depth, (Script.call name args next).perform? (s.call? depth) = some own := by
  refine ⟨max depth depth', ?_⟩
  rw [Script.perform?, s.call?_mono (Nat.le_max_left ..) hcall]
  exact Script.perform?_mono (fun _ _ _ h => s.call?_mono (Nat.le_max_right ..) h) hnext

/-- A state comes to what the next one comes to. -/
theorem State.Yields.of_step {s : State} {result : MixinResult} (h : s.step.Yields result) : s.Yields result := by
  match s with
  | .running i (.done given) [] => exact ⟨0, given, rfl, h⟩
  | .running i (.done given) (w :: waiting) => exact ⟨0, given, rfl, h⟩
  | .running i (.call name args next) waiting =>
    rw [step] at h
    split at h
    · rename_i found hfound
      obtain ⟨depth, given, hgiven, depth', own, hown, hwaiting⟩ := h
      have hcall : i.around.call? (depth + 1) name args = some given := by
        rw [Surroundings.call?, hfound]
        exact hgiven
      obtain ⟨depth, hperform⟩ := exists_perform? hcall hown
      exact ⟨depth, own, hperform, hwaiting⟩
    · rename_i hnone
      obtain ⟨depth, own, hown, hwaiting⟩ := h
      have hcall : i.around.call? depth name args = some (.error (.notFound name)) := by
        rw [Surroundings.call?, hnone]
      obtain ⟨depth, hperform⟩ := exists_perform? hcall hown
      exact ⟨depth, own, hperform, hwaiting⟩
  | .ended given => exact h

/-- What the steps of a run lead to is what its state comes to. -/
theorem State.Reaches.yields {s : State} {result : MixinResult} (h : Reaches s (.ended result)) : s.Yields result := by
  induction h using Relation.ReflTransGen.head_induction_on with
  | refl => rfl
  | head hstep _ ih =>
    subst hstep
    exact ih.of_step

/-- The steps of a called mixin end with its result, whenever it has one. -/
theorem reaches_ended_iff {s : Surroundings} {found : Resolved Mixin} {args : Args} {result : MixinResult} :
    Reaches (.enter (s.call found args) []) (.ended result) ↔
      ∃ depth, run? s.root s.units depth found args = some result := by
  constructor
  · intro h
    obtain ⟨depth, own, hown, rfl⟩ := h.yields
    exact ⟨depth + 1, hown⟩
  · rintro ⟨depth, h⟩
    exact (reaches_of_run? h []).tail rfl

end Evaluation
end Mixsheet
