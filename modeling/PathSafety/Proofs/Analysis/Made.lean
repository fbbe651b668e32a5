import PathSafety.Analysis.Basic

/-!
# Contexts that are made

What `Context.make` builds of a project, what is asked for and a registry: the engine takes its bounds from the one and its
hooks from the other, and its monitors are those of the checkers that were selected.

Contents:

* `Context.exists_of_make` — what a context is made of;
* `Context.project_of_make`, `Context.hooks_of_make`, … — its parts;
* `Context.eq_dispatch_of_make` — that its hooks are all the same.
-/

namespace PathSafety

open IR

/-- What comes of two steps of which each may fail comes of the second after the first. -/
theorem exists_ok_of_bind {ε α β : Type} {x : Except ε α} {f : α → Except ε β} {b : β}
    (h : (x >>= f) = .ok b) : ∃ a, x = .ok a ∧ f a = .ok b := by
  cases x with
  | error _ => cases h
  | ok a => exact ⟨a, rfl, h⟩

namespace Context

variable {p : Project} {config : Config} {registry : Registry Hook} {c : Context}

/-- **A context is made** of the selected checkers and an engine for what is asked for. -/
theorem exists_of_make (h : make p config registry = .ok c) :
    ∃ checkers, Checker.select config.checkers = .ok checkers ∧ c = {
      project := p, config, checkers
      engine := {
        nullChecking := config.nullChecking
        loopBound := config.loopBound
        callDepth := config.callDepth
        hooks := registry.hooks p
        monitors := checkers.filterMap Checker.monitor? } } := by
  obtain ⟨checkers, hselect, hc⟩ := exists_ok_of_bind h
  exact ⟨checkers, hselect, (Except.ok.inj hc).symm⟩

theorem project_of_make (h : make p config registry = .ok c) : c.project = p := by
  obtain ⟨_, _, rfl⟩ := exists_of_make h
  rfl

theorem hooks_of_make (h : make p config registry = .ok c) : c.engine.hooks = registry.hooks c.project := by
  obtain ⟨_, _, rfl⟩ := exists_of_make h
  rfl

theorem monitors_of_make (h : make p config registry = .ok c) :
    c.engine.monitors = c.checkers.filterMap Checker.monitor? := by
  obtain ⟨_, _, rfl⟩ := exists_of_make h
  rfl

theorem nullChecking_of_make (h : make p config registry = .ok c) :
    c.engine.nullChecking = c.config.nullChecking := by
  obtain ⟨_, _, rfl⟩ := exists_of_make h
  rfl

/-- **A hook that is called** is the dispatcher of the registry, whether it is called by name or by default. -/
theorem eq_dispatch_of_make (h : make p config registry = .ok c) {hook : Hook}
    (hhook : (∃ n, c.engine.hooks.byName n = some hook) ∨ c.engine.hooks.default = some hook) :
    hook = registry.dispatch := by
  rw [hooks_of_make h] at hhook
  rcases hhook with ⟨n, hn⟩ | hdefault
  · unfold Registry.hooks at hn
    dsimp only at hn
    split at hn
    · exact (Option.some.inj hn).symm
    · cases hn
  · exact (Option.some.inj hdefault).symm

end Context

end PathSafety
