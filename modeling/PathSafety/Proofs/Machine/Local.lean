import PathSafety.Proofs.Machine.Faults

/-!
# Nothing but entering blocks fails for the loop bound

A path that has been in a block as often as it may ends where it would enter the block again. Nothing that a
machine does ends a path for this reason, and no built-in hook does.

Contents:

* `Machine.Local` — that an action does not fail for the loop bound;
* `Machine.local_siteEval` — that operands are local;
* `Engine.Local` — that hooks and monitors are local;
* `Context.local_of_make` — those that come with the library are.
-/

namespace PathSafety

open IR

namespace Machine

variable {s : Setting}

/-- That an action does not fail for the loop bound. -/
def Local (α : Type) (x : Action α) : Prop := ∀ m f m', x m = .error (.fault f) m' → f.isLocal = true

theorem isLocal_reject (f : Fault) : f.reject.isLocal = true := by
  unfold Fault.reject
  split
  · rename_i hkind
    unfold Fault.isLocal
    cases hk : f.kind <;> rw [hk] at hkind
    all_goals first
      | rfl
      | cases hkind
  · rfl

theorem local_siteEval (site : Site) (o : Operand) : Local Value (site.eval s o) :=
  faults_siteEval (fun _ => Fault.isLocal_of_isPlain) rfl site o

end Machine

/-! ## Hooks and monitors -/

open Machine

/-- That no hook and no monitor of an engine fails for the loop bound. -/
structure Engine.Local {p : Project} (e : Engine p) : Prop where
  hooks : e.Hooked (Machine.Local Outcome)
  monitors : ∀ monitor ∈ e.monitors, ∀ site, Machine.Local Unit (monitor e.setting site)

/-- The built-in hooks and the monitors of checkers do not fail for the loop bound. -/
theorem Context.local_of_make {project : Project} {config : Config} {c : Context}
    (h : Context.make project config Registry.sandbox = .ok c) : c.engine.Local := by
  obtain ⟨hhooks, hmonitors⟩ :=
    Context.faults_of_make (fun _ => Fault.isLocal_of_isPlain) (fun f _ => isLocal_reject f) rfl h
  exact ⟨hhooks, hmonitors⟩

end PathSafety
