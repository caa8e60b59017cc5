import Mixsheet.Catalog
import Mixsheet.Proofs.Evaluation
import Mixsheet.Proofs.Units

/-! # The names of the built-in mixins

Each built-in mixin is found in the catalog under its own name, and nothing else is found there. -/

namespace Mixsheet.Catalog

/-- A mixin as it is listed: its name and its script. -/
abbrev Listed := String × (Scope → Args → Script MixinOutput)

theorem mem_margin (theme : Theme) : ("margin", margin) ∈ mixins theme := by simp [mixins]

theorem nodup_names (theme : Theme) : ((mixins theme).map (·.1)).Nodup := by simp [mixins]

/-- No name of a built-in mixin has a dot. -/
theorem segments_name (theme : Theme) : ∀ m ∈ mixins theme, Registry.segments m.1 = [m.1] := by
  simp only [mixins, List.forall_mem_cons]
  decide +kernel

/-- The registry with listed mixins written into it. -/
def registerAll (ms : List Listed) (r : Registry Mixin) : Registry Mixin :=
  ms.foldl (fun r (name, script) => r.register name ⟨script⟩) r

theorem registry_eq (theme : Theme) : registry theme = registerAll (mixins theme) .empty := by
  unfold registry registerAll
  rfl

theorem get?_register (r : Registry Mixin) (name : String) (mixin : Mixin) (k : String) :
    (r.register name mixin).get? k = if name = k then some (.mixin mixin) else r.get? k :=
  Table.get?_insert name _ r.entries k

theorem get?_registerAll_of_notMem {ms : List Listed} {name : String} (h : name ∉ ms.map (·.1))
    (r : Registry Mixin) : (registerAll ms r).get? name = r.get? name := by
  induction ms generalizing r with
  | nil => rfl
  | cons m ms ih =>
    rw [List.map_cons, List.mem_cons, not_or] at h
    exact (ih h.2 _).trans ((get?_register ..).trans (if_neg (Ne.symm h.1)))

theorem get?_registerAll {ms : List Listed} (hnd : (ms.map (·.1)).Nodup) {m : Listed} (hm : m ∈ ms)
    (r : Registry Mixin) : (registerAll ms r).get? m.1 = some (.mixin ⟨m.2⟩) := by
  induction ms generalizing r with
  | nil => cases hm
  | cons m' ms ih =>
    rw [List.map_cons, List.nodup_cons] at hnd
    rcases List.mem_cons.mp hm with rfl | hm
    · exact (get?_registerAll_of_notMem hnd.1 _).trans ((get?_register ..).trans (if_pos rfl))
    · exact ih hnd.2 hm _

/-- A built-in mixin is found under its name, in the catalog itself. -/
theorem resolve?_registry (theme : Theme) {m : Listed} (hm : m ∈ mixins theme) :
    (registry theme).resolve? m.1 = some ⟨⟨m.2⟩, registry theme⟩ := by
  have hget : (registry theme).get? m.1 = some (.mixin ⟨m.2⟩) := by
    rw [registry_eq]
    exact get?_registerAll (nodup_names theme) hm .empty
  rw [Registry.resolve?, segments_name theme m hm, Registry.follow?, hget]

theorem get?_registerAll_eq_some {ms : List Listed} {r : Registry Mixin} {name : String} {entry : Entry Mixin}
    (h : (registerAll ms r).get? name = some entry) :
    (∃ m ∈ ms, m.1 = name ∧ entry = .mixin ⟨m.2⟩) ∨ r.get? name = some entry := by
  induction ms generalizing r with
  | nil => exact .inr h
  | cons m ms ih =>
    rcases ih h with ⟨m', hm', hfound⟩ | hget
    · exact .inl ⟨m', List.mem_cons_of_mem _ hm', hfound⟩
    · have hregister := (get?_register r m.1 ⟨m.2⟩ name).symm.trans hget
      by_cases hname : m.1 = name
      · rw [if_pos hname] at hregister
        exact .inl ⟨m, List.mem_cons_self, hname, (Option.some.inj hregister).symm⟩
      · rw [if_neg hname] at hregister
        exact .inr hregister

theorem mem_names_registerAll {ms : List Listed} {r : Registry Mixin} {name : String}
    (h : name ∈ (registerAll ms r).names) : (∃ m ∈ ms, m.1 = name) ∨ name ∈ r.names := by
  induction ms generalizing r with
  | nil => exact .inr h
  | cons m ms ih =>
    rcases ih h with ⟨m', hm', hname⟩ | hregister
    · exact .inl ⟨m', List.mem_cons_of_mem _ hm', hname⟩
    · change name ∈ Table.keys (Table.insert m.1 _ r.entries) at hregister
      rw [Table.keys_insert] at hregister
      split at hregister
      · exact .inr hregister
      · rcases List.mem_append.mp hregister with hr | hm
        · exact .inr hr
        · exact .inl ⟨m, List.mem_cons_self, (List.mem_singleton.mp hm).symm⟩

/-- The names in the catalog are those of the built-in mixins. -/
theorem exists_of_mem_names {theme : Theme} {name : String} (h : name ∈ (registry theme).names) :
    ∃ m ∈ mixins theme, m.1 = name := by
  rw [registry_eq] at h
  exact (mem_names_registerAll h).resolve_right nofun

/-- What a name leads to in the catalog is the built-in mixin of that name. -/
theorem exists_of_resolve? {theme : Theme} {name : String} {found : Resolved Mixin}
    (h : (registry theme).resolve? name = some found) :
    ∃ m ∈ mixins theme, m.1 = name ∧ found = ⟨⟨m.2⟩, registry theme⟩ := by
  have hlisted : ∀ {k entry}, (registry theme).get? k = some entry →
      ∃ m ∈ mixins theme, m.1 = k ∧ entry = .mixin ⟨m.2⟩ := by
    intro k entry hget
    rw [registry_eq] at hget
    exact (get?_registerAll_eq_some hget).resolve_right nofun
  obtain ⟨first, rest, hsegments, -⟩ := Registry.exists_segments name
  rw [Registry.resolve?, hsegments, Registry.follow?_eq_some] at h
  obtain ⟨entry, hget, hleads⟩ := h
  obtain ⟨m, hm, hname, rfl⟩ := hlisted hget
  obtain ⟨rfl, rfl⟩ := hleads.of_mixin
  obtain rfl := Registry.eq_of_segments hsegments
  exact ⟨m, hm, hname, rfl⟩

/-- A built-in mixin is run with the calls of the catalog. -/
theorem call?_listed {theme : Theme} {name : String} {script : Scope → Args → Script MixinOutput}
    (hm : (name, script) ∈ mixins theme) (units : Units) (depth : Nat) (args : Args) :
    Evaluation.call? (registry theme) units (depth + 1) name args =
      (script ⟨(registry theme).outline, (registry theme).outline, units⟩ args).perform?
        (Evaluation.call? (registry theme) units depth) :=
  Evaluation.call?_succ (resolve?_registry theme hm) depth args

/-- A call of a built-in mixin that calls no other comes to the output of its script. -/
theorem evaluate_of_done {theme : Theme} {m : Listed} (hm : m ∈ mixins theme) {units : Units} {call : MixinCall}
    (hname : call.name = m.1) {output : MixinOutput}
    (h : m.2 ⟨(registry theme).outline, (registry theme).outline, units⟩ (Args.ofArguments call.arguments) =
      .done (.ok output)) (depth : Nat) :
    Evaluation.evaluate (registry theme) units (depth + 1) call = .output output := by
  rw [Evaluation.evaluate, hname, resolve?_registry theme hm]
  dsimp only
  rw [Evaluation.run?]
  have hscript : (Mixin.mk m.2).script (Resolved.scope ⟨⟨m.2⟩, registry theme⟩ (registry theme) units)
      (Args.ofArguments call.arguments) = .done (.ok output) := h
  rw [hscript]
  rfl

/-- A call of `left` with a number declares the property of that name, with the unit. -/
theorem evaluate_left_ten {theme : Theme} {units : Units} {call : MixinCall} (hname : call.name = "left")
    (hcall : call.arguments = [.text "10"]) (depth : Nat) :
    Evaluation.evaluate (registry theme) units (depth + 1) call =
      .output (.ofDeclaration ⟨"left", "10" ++ units.general⟩) := by
  have hmem : ("left", floatOrOffset "left") ∈ mixins theme := by simp [mixins]
  have hargs : Args.ofArguments call.arguments = .one (.number 10) := by
    rw [hcall]
    exact congrArg Args.one Value.ofText_ten
  refine evaluate_of_done hmem hname ?_ depth
  rw [hargs]
  change Script.done (.ok (MixinOutput.ofDeclaration ⟨"left", units.apply (.number 10) (some "left")⟩)) = _
  rw [Units.apply_ten]

end Mixsheet.Catalog
