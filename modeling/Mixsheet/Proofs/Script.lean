import Mixsheet.Proofs.Except
import Mixsheet.Script

/-! # What scripts end with

A script that has a result keeps it when more of the calls in it have one. What holds of its result
whenever it holds of the outputs of the calls in it is found without running anything, and so is what relates the
results of two scripts that make related calls. A script that calls only mixins that put something out has a result,
and fails only with errors of its own. -/

namespace Mixsheet

namespace Script

variable {α β : Type}

theorem perform?_mono {f g : String → Args → Option MixinResult}
    (hfg : ∀ name args result, f name args = some result → g name args = some result)
    {script : Script α} {result : Except MixinError α} (h : script.perform? f = some result) :
    script.perform? g = some result := by
  induction script with
  | done r => exact h
  | call name args next ih =>
    unfold perform? at h ⊢
    cases hc : f name args with
    | none =>
      rw [hc] at h
      cases h
    | some r =>
      rw [hc] at h
      rw [hfg name args r hc]
      exact ih r h

/-- A script goes on with the output of the call that it begins with. -/
theorem perform?_invoke_bind {run? : String → Args → Option MixinResult} {name : String} {args : Args}
    {output : MixinOutput} (h : run? name args = some (.ok output)) (f : MixinOutput → Script α) :
    (invoke name args >>= f).perform? run? = (f output).perform? run? := by
  change (Script.call name args fun result => (Script.done result).bind f).perform? run? = _
  rw [perform?, h]
  rfl

/-- What the script hands to the mixins that it calls has the property `H`, and whatever it ends with has the property
`P`, if every output of these calls has `Q`. -/
def Ends (H : String → Args → Prop) (Q : MixinOutput → Prop) (P : α → Prop) : Script α → Prop
  | .done result => ∀ a, result = .ok a → P a
  | .call name args next =>
    H name args ∧ ∀ result, (∀ output, result = .ok output → Q output) → (next result).Ends H Q P

section Ends

variable {H : String → Args → Prop} {Q : MixinOutput → Prop} {P : α → Prop} {R : β → Prop}

theorem ends_pure {a : α} (h : P a) : (pure a : Script α).Ends H Q P := by
  intro b hb
  obtain rfl := Except.ok.inj hb
  exact h

theorem ends_ofExcept {result : Except MixinError α} (h : ∀ a, result = .ok a → P a) :
    (ofExcept result).Ends H Q P := h

theorem ends_invoke {name : String} {args : Args} (h : H name args) : (invoke name args).Ends H Q Q :=
  ⟨h, fun _ hresult => hresult⟩

theorem Ends.bind {script : Script α} {f : α → Script β} (h : script.Ends H Q P)
    (hf : ∀ a, P a → (f a).Ends H Q R) : (script >>= f).Ends H Q R := by
  change (script.bind f).Ends H Q R
  induction script with
  | done result =>
    cases result with
    | ok a => exact hf a (h a rfl)
    | error e => exact nofun
  | call name args next ih => exact ⟨h.1, fun result hr => ih result (h.2 result hr)⟩

/-- A script that is run ends as it must. -/
theorem Ends.of_perform? {script : Script α} (h : script.Ends H Q P) {run? : String → Args → Option MixinResult}
    (hrun : ∀ name args output, H name args → run? name args = some (.ok output) → Q output) {a : α}
    (ha : script.perform? run? = some (.ok a)) : P a := by
  induction script with
  | done result => exact h a (Option.some.inj ha)
  | call name args next ih =>
    rw [perform?] at ha
    split at ha
    · cases ha
    · rename_i result hr
      refine ih result (h.2 result fun output ho => ?_) ha
      rw [ho] at hr
      exact hrun name args output h.1 hr

end Ends

/-- The script calls only mixins that `Known` holds of, and as long as these put something out it ends with no error but
those that `Fails` holds of. -/
def Asks (Known : String → Prop) (Fails : MixinError → Prop) : Script α → Prop
  | .done result => ∀ e, result = .error e → Fails e
  | .call name _ next => Known name ∧ ∀ output, (next (.ok output)).Asks Known Fails

section Asks

variable {Known : String → Prop} {Fails : MixinError → Prop}

theorem asks_pure (a : α) : (pure a : Script α).Asks Known Fails := nofun

theorem asks_ofExcept {result : Except MixinError α} (h : ∀ e, result = .error e → Fails e) :
    (ofExcept result).Asks Known Fails := h

theorem asks_invoke {name : String} (h : Known name) (args : Args) : (invoke name args).Asks Known Fails :=
  ⟨h, fun _ => nofun⟩

theorem Asks.bind {script : Script α} {f : α → Script β} (h : script.Asks Known Fails)
    (hf : ∀ a, (f a).Asks Known Fails) : (script >>= f).Asks Known Fails := by
  change (script.bind f).Asks Known Fails
  induction script with
  | done result =>
    cases result with
    | ok a => exact hf a
    | error e =>
      intro e' he
      obtain rfl := Except.error.inj he
      exact h e rfl
  | call name args next ih => exact ⟨h.1, fun output => ih _ (h.2 output)⟩

/-- A script that is run has a result if the mixins that it calls put something out. -/
theorem Asks.exists_result {script : Script α} (h : script.Asks Known Fails)
    {run? : String → Args → Option MixinResult}
    (hrun : ∀ name, Known name → ∀ args, ∃ output, run? name args = some (.ok output)) :
    ∃ result, script.perform? run? = some result ∧ ∀ e, result = .error e → Fails e := by
  induction script with
  | done result => exact ⟨result, rfl, h⟩
  | call name args next ih =>
    obtain ⟨output, houtput⟩ := hrun name h.1 args
    rw [perform?, houtput]
    exact ih _ (h.2 output)

end Asks

/-- Two scripts call the same mixins, one after the other, with arguments that `H` relates, and end with results that
`R` relates, if `Q` relates the outputs of the calls. -/
inductive Alike (H : String → Args → Args → Prop) (Q : MixinOutput → MixinOutput → Prop) {α β : Type}
    (R : α → β → Prop) : Script α → Script β → Prop where
  | done {x : Except MixinError α} {y : Except MixinError β} (results : Agree R x y) : Alike H Q R (.done x) (.done y)
  | call {name : String} {a b : Args} {f : MixinResult → Script α} {g : MixinResult → Script β} (args : H name a b)
    (next : ∀ x y, Agree Q x y → Alike H Q R (f x) (g y)) : Alike H Q R (.call name a f) (.call name b g)

section Alike

variable {H : String → Args → Args → Prop} {Q : MixinOutput → MixinOutput → Prop} {γ δ : Type} {R : α → β → Prop}
  {S : γ → δ → Prop}

theorem alike_pure {a : α} {b : β} (h : R a b) : Alike H Q R (pure a) (pure b) := .done (.ok h)

theorem alike_ofExcept (x : Except MixinError α) : Alike H Q Eq (ofExcept x) (ofExcept x) := .done (agree_refl x)

theorem alike_invoke {name : String} {a b : Args} (h : H name a b) : Alike H Q Q (invoke name a) (invoke name b) :=
  .call h fun _ _ hxy => .done hxy

theorem Alike.bind {s : Script α} {t : Script β} (h : Alike H Q R s t) {f : α → Script γ} {g : β → Script δ}
    (hfg : ∀ a b, R a b → Alike H Q S (f a) (g b)) : Alike H Q S (s >>= f) (t >>= g) := by
  change Alike H Q S (s.bind f) (t.bind g)
  induction h with
  | done results =>
    cases results with
    | ok related => exact hfg _ _ related
    | error e => exact .done (.error e)
  | call args next ih => exact .call args ih

/-- Two scripts that are run with related results of related calls have related results, or both have none. -/
theorem Alike.perform? {s : Script α} {t : Script β} (h : Alike H Q R s t)
    {f g : String → Args → Option MixinResult}
    (hfg : ∀ name a b, H name a b → Option.Rel (Agree Q) (f name a) (g name b)) :
    Option.Rel (Agree R) (s.perform? f) (t.perform? g) := by
  induction h with
  | done results => exact .some results
  | @call name a b _ _ args next ih =>
    have hcall := hfg name a b args
    rw [Script.perform?, Script.perform?]
    generalize f name a = x at hcall ⊢
    generalize g name b = y at hcall ⊢
    cases hcall with
    | none => exact .none
    | some results => exact ih _ _ results

end Alike

end Script

/-- What the mixin puts out has the property, if what each mixin that it calls puts out has it. -/
def Mixin.Keeps (Q : MixinOutput → Prop) (m : Mixin) : Prop :=
  ∀ scope args, (m.script scope args).Ends (fun _ _ => True) Q Q

end Mixsheet
