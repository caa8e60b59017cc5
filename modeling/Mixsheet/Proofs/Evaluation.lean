import Mixsheet.Evaluation
import Mixsheet.Proofs.Registry
import Mixsheet.Proofs.Script

/-! # Runs of mixins at different depths

A run that has a result at one depth of calls has the same result at every greater depth. So what a
call comes to, when it comes to anything, does not depend on the depth. At any depth a run puts out what
the mixins of the registry do. -/

namespace Mixsheet

namespace Evaluation

variable {root : Registry Mixin} {units : Units}

theorem run?_mono {depth depth' : Nat} (hle : depth ≤ depth') {found : Resolved Mixin} {args : Args}
    {result : MixinResult} (h : run? root units depth found args = some result) :
    run? root units depth' found args = some result := by
  induction depth generalizing depth' found args result with
  | zero => cases h
  | succ depth ih =>
    obtain ⟨depth', rfl⟩ := Nat.exists_eq_succ_of_ne_zero (Nat.ne_zero_of_lt hle)
    unfold run? at h ⊢
    refine Script.perform?_mono (fun name args r hr => ?_) h
    cases hf : find? root found.home name with
    | none =>
      rw [hf] at hr
      exact hr
    | some next =>
      rw [hf] at hr
      exact ih (Nat.le_of_succ_le_succ hle) hr

theorem call?_mono {depth depth' : Nat} (hle : depth ≤ depth') {name : String} {args : Args} {result : MixinResult}
    (h : call? root units depth name args = some result) : call? root units depth' name args = some result := by
  unfold call? at h ⊢
  cases hf : find? root root name with
  | none =>
    rw [hf] at h
    exact h
  | some found =>
    rw [hf] at h
    exact run?_mono hle h

/-- A mixin of the outermost registry is run with the calls of that registry. -/
theorem call?_succ {name : String} {mixin : Mixin} (h : root.resolve? name = some ⟨mixin, root⟩) (depth : Nat)
    (args : Args) : call? root units (depth + 1) name args =
      (mixin.script ⟨root.outline, root.outline, units⟩ args).perform? (call? root units depth) := by
  rw [call?, find?, h, Option.some_or]
  rfl

/-- A call comes to an outcome: at some depth it does, and it is not that the mixins nest too deeply. -/
def ComesTo (root : Registry Mixin) (units : Units) (call : MixinCall) (outcome : Outcome) : Prop :=
  outcome ≠ .unfinished ∧ ∃ depth, evaluate root units depth call = outcome

theorem evaluate_mono {depth depth' : Nat} (hle : depth ≤ depth') {call : MixinCall}
    (h : evaluate root units depth call ≠ .unfinished) :
    evaluate root units depth' call = evaluate root units depth call := by
  unfold evaluate at h ⊢
  cases hf : root.resolve? call.name with
  | none => rfl
  | some found =>
    rw [hf] at h
    dsimp only at h ⊢
    cases hr : run? root units depth found (Args.ofArguments call.arguments) with
    | none =>
      rw [hr] at h
      exact absurd rfl h
    | some result => rw [run?_mono hle hr]

namespace ComesTo

variable {call : MixinCall} {outcome : Outcome}

/-- From some depth on a call comes to its outcome. -/
theorem eventually (h : ComesTo root units call outcome) :
    ∃ bound, ∀ depth ≥ bound, evaluate root units depth call = outcome := by
  obtain ⟨hne, bound, rfl⟩ := h
  exact ⟨bound, fun depth hle => evaluate_mono hle hne⟩

/-- At every depth a call comes to its outcome or nests too deeply. -/
theorem evaluate_eq (h : ComesTo root units call outcome) {depth : Nat}
    (hd : evaluate root units depth call ≠ .unfinished) : evaluate root units depth call = outcome := by
  obtain ⟨bound, hb⟩ := h.eventually
  rw [← hb _ (Nat.le_max_left bound depth), evaluate_mono (Nat.le_max_right bound depth) hd]

end ComesTo

/-- From some depth on each of a list of calls comes to its outcome. -/
theorem ComesTo.eventually_all {outcome : MixinCall → Outcome} {calls : List MixinCall}
    (h : ∀ call ∈ calls, ComesTo root units call (outcome call)) :
    ∃ bound, ∀ depth ≥ bound, ∀ call ∈ calls, evaluate root units depth call = outcome call := by
  induction calls with
  | nil => exact ⟨0, by simp⟩
  | cons call calls ih =>
    obtain ⟨b, hb⟩ := (h call List.mem_cons_self).eventually
    obtain ⟨b', hb'⟩ := ih fun c hc => h c (List.mem_cons_of_mem _ hc)
    refine ⟨max b b', fun depth hle c hc => ?_⟩
    rcases List.mem_cons.mp hc with rfl | hc
    · exact hb depth (Nat.le_trans (Nat.le_max_left _ _) hle)
    · exact hb' depth (Nat.le_trans (Nat.le_max_right _ _) hle) c hc

/-! ### Outputs -/

/-- A property that every mixin of a registry keeps is one of the output of every run. -/
theorem output_of_run? {Q : MixinOutput → Prop} (hroot : root.Every (Mixin.Keeps Q)) {depth : Nat}
    {found : Resolved Mixin} (hm : found.mixin.Keeps Q) (hhome : found.home.Every (Mixin.Keeps Q)) {args : Args}
    {output : MixinOutput} (h : run? root units depth found args = some (.ok output)) : Q output := by
  induction depth generalizing found args output with
  | zero => cases h
  | succ depth ih =>
    refine (hm _ args).of_perform? (fun name args output _ ho => ?_) h
    split at ho
    · cases ho
    · rename_i next hnext
      have hfound : next.mixin.Keeps Q ∧ next.home.Every (Mixin.Keeps Q) := by
        rcases Option.or_eq_some_iff.mp hnext with hn | ⟨-, hn⟩
        · exact hhome.of_resolve? hn
        · exact hroot.of_resolve? hn
      exact ih hfound.1 hfound.2 ho

theorem output_of_call? {Q : MixinOutput → Prop} (hroot : root.Every (Mixin.Keeps Q)) {depth : Nat} {name : String}
    {args : Args} {output : MixinOutput} (h : call? root units depth name args = some (.ok output)) : Q output := by
  unfold call? at h
  split at h
  · cases h
  · rename_i found hfound
    rw [find?, Option.or_self] at hfound
    obtain ⟨hm, hhome⟩ := hroot.of_resolve? hfound
    exact output_of_run? hroot hm hhome h

/-- A call of a stylesheet that puts something out is a call from the root with the values of its arguments. -/
theorem call?_of_evaluate {depth : Nat} {call : MixinCall} {output : MixinOutput}
    (h : evaluate root units depth call = .output output) :
    call? root units depth call.name (Args.ofArguments call.arguments) = some (.ok output) := by
  unfold evaluate at h
  rw [call?, find?, Option.or_self]
  split at h
  · cases h
  split at h
  · cases h
  · rename_i hresult
    obtain rfl := Outcome.output.inj h
    exact hresult
  · cases h

theorem output_of_evaluate {Q : MixinOutput → Prop} (hroot : root.Every (Mixin.Keeps Q)) {depth : Nat}
    {call : MixinCall} {output : MixinOutput} (h : evaluate root units depth call = .output output) :
    Q output :=
  output_of_call? hroot (call?_of_evaluate h)

end Evaluation
end Mixsheet
