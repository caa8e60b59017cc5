import Mixsheet.Proofs.Evaluation.Machine

/-! # What mixins see around them

However deeply mixins call one another, each of them sees the registry and the units that the run began with, and the
registry that holds it, which is that one or one in it. It calls what a name leads to from there, and only if the name
leads nowhere from there, what it leads to from the registry of the run. -/

namespace Mixsheet.Evaluation

open State

variable {root : Registry Mixin} {units : Units}

/-- A mixin that was called in a run, with what it sees. -/
structure Invocation.InRun (root : Registry Mixin) (units : Units) (i : Invocation) : Prop where
  root_ : i.around.root = root
  units_ : i.around.units = units
  home : root.Within i.around.home
  holds : ∃ name, i.around.home.get? name = some (.mixin i.mixin)

/-- Each mixin of a state is one of the run, with what is left of what it does; the waiting ones wait for a call. -/
def State.InRun (root : Registry Mixin) (units : Units) : State → Prop
  | .running i script waiting => i.InRun root units ∧ i.script.Remains script ∧
      ∀ w ∈ waiting, w.invocation.InRun root units ∧
        ∃ name args, w.invocation.script.Remains (.call name args w.next)
  | .ended _ => True

/-- How a call of a mixin goes on: with the mixin that its name leads to from the home of the caller; or else, if it
leads to none, with the one that it leads to from the root; or else with an error. -/
inductive Calls (root : Registry Mixin) (units : Units) (i : Invocation) (name : String) (args : Args)
    (next : MixinResult → Script MixinOutput) (waiting : List Waiting) : State → Prop where
  | atHome {found : Resolved Mixin} (here : i.around.home.resolve? name = some found) :
    Calls root units i name args next waiting
      (.enter ⟨⟨root, found.home, units⟩, found.mixin, args⟩ (⟨i, next⟩ :: waiting))
  | atRoot {found : Resolved Mixin} (nothing : i.around.home.resolve? name = none)
    (there : root.resolve? name = some found) :
    Calls root units i name args next waiting
      (.enter ⟨⟨root, found.home, units⟩, found.mixin, args⟩ (⟨i, next⟩ :: waiting))
  | missing (nothing : i.around.home.resolve? name = none) (nowhere : root.resolve? name = none) :
    Calls root units i name args next waiting (.running i (next (.error (.notFound name))) waiting)

theorem Invocation.InRun.call {i : Invocation} (h : i.InRun root units) {name : String} {found : Resolved Mixin}
    (hfound : i.around.find? name = some found) (args : Args) : (i.around.call found args).InRun root units := by
  have hwithin : root.Within found.home ∧ ∃ last, found.home.get? last = some (.mixin found.mixin) := by
    rcases Option.or_eq_some_iff.mp hfound with hhere | ⟨-, hthere⟩
    · obtain ⟨hhome, hholds⟩ := Registry.within_of_resolve? hhere
      exact ⟨h.home.trans hhome, hholds⟩
    · rw [h.root_] at hthere
      exact Registry.within_of_resolve? hthere
  exact ⟨h.root_, h.units_, hwithin.1, hwithin.2⟩

theorem Invocation.InRun.calls {i : Invocation} (h : i.InRun root units) (name : String) (args : Args)
    (next : MixinResult → Script MixinOutput) (waiting : List Waiting) :
    Calls root units i name args next waiting (step (.running i (.call name args next) waiting)) := by
  have hcall (found : Resolved Mixin) : i.around.call found args = ⟨⟨root, found.home, units⟩, found.mixin, args⟩ := by
    rw [Surroundings.call, h.root_, h.units_]
  rw [step, Surroundings.find?, h.root_]
  cases hhere : i.around.home.resolve? name with
  | some found =>
    rw [Option.some_or]
    dsimp only
    rw [hcall]
    exact .atHome hhere
  | none =>
    rw [Option.none_or]
    cases hthere : root.resolve? name with
    | some found =>
      dsimp only
      rw [hcall]
      exact .atRoot hhere hthere
    | none => exact .missing hhere hthere

theorem State.InRun.step {s : State} (h : s.InRun root units) : s.step.InRun root units := by
  match s with
  | .running i (.done result) [] => exact trivial
  | .running i (.done result) (w :: waiting) =>
    obtain ⟨-, -, hwaiting⟩ := h
    obtain ⟨hw, name, args, hcall⟩ := hwaiting w List.mem_cons_self
    exact ⟨hw, hcall.behind result, fun w' hw' => hwaiting w' (List.mem_cons_of_mem _ hw')⟩
  | .running i (.call name args next) waiting =>
    obtain ⟨hi, hscript, hwaiting⟩ := h
    rw [State.step]
    split
    · rename_i found hfound
      refine ⟨hi.call hfound args, .all, fun w hw => ?_⟩
      rcases List.mem_cons.mp hw with rfl | hw
      · exact ⟨hi, name, args, hscript⟩
      · exact hwaiting w hw
    · exact ⟨hi, hscript.behind _, hwaiting⟩
  | .ended result => exact trivial

theorem State.InRun.of_reaches {s t : State} (h : s.InRun root units) (hreach : Reaches s t) : t.InRun root units := by
  induction hreach with
  | refl => exact h
  | tail _ hstep ih =>
    subst hstep
    exact ih.step

/-- What a call of a stylesheet comes to when its mixin has a result. -/
def Outcome.ofResult : MixinResult → Outcome
  | .ok given => .output given
  | .error e => .failed e

theorem evaluate_eq_some {depth : Nat} {call : MixinCall} {found : Resolved Mixin}
    (hfound : root.resolve? call.name = some found) (h : evaluate root units depth call ≠ .unfinished) :
    ∃ result, run? root units depth found (Args.ofArguments call.arguments) = some result ∧
      evaluate root units depth call = .ofResult result := by
  unfold evaluate at h ⊢
  rw [hfound] at h ⊢
  dsimp only at h ⊢
  cases hrun : run? root units depth found (Args.ofArguments call.arguments) with
  | none =>
    rw [hrun] at h
    exact absurd rfl h
  | some result => cases result <;> exact ⟨_, rfl, rfl⟩

/-- A call of a stylesheet that comes to something has no mixin, or the steps of its mixin end with that. In each state
that they lead to, all mixins that were called see the registry and the units of the run and have their home in that
registry, and what runs next is what the name of a call leads to from the home of the caller, or else from the root. -/
theorem scopes_of_evaluate {call : MixinCall} {outcome : Outcome} (h : ComesTo root units call outcome) :
    (root.resolve? call.name = none ∧ outcome = .unresolved) ∨
    ∃ found result, root.resolve? call.name = some found ∧ outcome = .ofResult result ∧
      let start := State.enter ⟨⟨root, found.home, units⟩, found.mixin, Args.ofArguments call.arguments⟩ []
      Reaches start (.ended result) ∧
      ∀ s, Reaches start s → s.InRun root units ∧
        ∀ i name args next waiting, s = .running i (.call name args next) waiting →
          Calls root units i name args next waiting s.step := by
  obtain ⟨hends, depth, rfl⟩ := h
  cases hfound : root.resolve? call.name with
  | none =>
    refine .inl ⟨rfl, ?_⟩
    rw [evaluate, hfound]
  | some found =>
    obtain ⟨result, hrun, heq⟩ := evaluate_eq_some hfound hends
    obtain ⟨hhome, hholds⟩ := Registry.within_of_resolve? hfound
    have hstart : State.InRun root units
        (.enter ⟨⟨root, found.home, units⟩, found.mixin, Args.ofArguments call.arguments⟩ []) :=
      ⟨⟨rfl, rfl, hhome, hholds⟩, .all, nofun⟩
    refine .inr ⟨found, result, rfl, heq, ?_, fun s hs => ?_⟩
    · exact (@reaches_ended_iff ⟨root, root, units⟩ ..).mpr ⟨depth, hrun⟩
    · refine ⟨hstart.of_reaches hs, ?_⟩
      rintro i name args next waiting rfl
      exact (hstart.of_reaches hs).1.calls name args next waiting

/-- A mixin that calls another one and gives what it gives. -/
def forward (name : String) : Mixin := ⟨fun _ _ => .invoke name .none⟩

/-- A mixin that declares one property. -/
def declaring (value : String) : Mixin := ⟨fun _ _ => pure (.ofDeclaration ⟨"color", value⟩)⟩

/-- A registry with a mixin that calls one of a registry beside it, and one named like a mixin of the root. -/
def uiRegistry : Registry Mixin := (Registry.empty.register "card" (forward "grid.cell")).register "top" (declaring "blue")

/-- A registry with a mixin that calls `top`, a name that it does not have itself. -/
def gridRegistry : Registry Mixin := Registry.empty.register "cell" (forward "top")

/-- A registry with `top` in it and in one of the two registries in it. -/
def nestedRegistry : Registry Mixin :=
  ((Registry.empty.register "top" (declaring "red")).registerRegistry "ui" uiRegistry).registerRegistry "grid"
    gridRegistry

/-- Three mixins run at once, each with another home, and the last one is the one at the root. -/
theorem scopes_of_evaluate_nested :
    ComesTo nestedRegistry .standard ⟨"ui.card", [], "", "()", .none⟩ (.output (.ofDeclaration ⟨"color", "red"⟩)) ∧
    let start := State.enter ⟨⟨nestedRegistry, uiRegistry, .standard⟩, forward "grid.cell", ⟨[]⟩⟩ []
    start.step.step.invocations.map (fun i => i.around.home.names) = [["top", "ui", "grid"], ["cell"], ["card", "top"]] ∧
      start.step.step.InRun nestedRegistry .standard := by
  have hcomes : ComesTo nestedRegistry .standard ⟨"ui.card", [], "", "()", .none⟩
      (.output (.ofDeclaration ⟨"color", "red"⟩)) := ⟨by simp, 3, by cbv⟩
  have hfound : nestedRegistry.resolve? "ui.card" = some ⟨forward "grid.cell", uiRegistry⟩ := by cbv
  refine ⟨hcomes, by cbv, ?_⟩
  rcases scopes_of_evaluate hcomes with ⟨hnone, -⟩ | ⟨found, result, hsome, -, -, hrun⟩
  · cases hfound.symm.trans hnone
  · obtain rfl := Option.some.inj (hfound.symm.trans hsome)
    exact (hrun _ (.tail (.tail .refl rfl) rfl)).1

end Mixsheet.Evaluation
