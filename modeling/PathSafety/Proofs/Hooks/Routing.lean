import PathSafety.Proofs.Analysis.Made
import PathSafety.Proofs.IR.Fits

/-!
# Where calls go

Two parts have to agree on who handles a call: `Registry.hooks` decides by name, over the functions of all
modules, which functions are hooked; `Engine.call` looks at the function that the calling module has for
the name. They agree on hooked functions and on functions that the calling module defines. They do not
agree on a function that the calling module only declares: the default hook then stands in for it, though
another module may define it.

Contents:

* `Route`, `Engine.along` — where a call can go, and what it does there;
* `Route.Promised` — where a call is said to go;
* `Context.call_along_route` — where it goes, and when that is where it is said to go.
-/

namespace PathSafety

open IR

/-- Where a call of a named function can go. -/
inductive Route (p : Project) where
  /-- To a hook of the registry. -/
  | hook (h : Hook)
  /-- Into the body of a function. -/
  | body (r : Routine) (mem : r ∈ p.routines)
  /-- To the default hook of the registry. -/
  | default

namespace Route

variable {p : Project}

/-- Where a call is said to go: to the hook that is found for the name; else into a function that some
module defines under it; only where there is none to the default hook. -/
def Promised (found : Option (String × Hook)) (name : String) (route : Route p) : Prop :=
  match found with
  | some (_, h) => route = .hook h
  | none =>
    (∃ r mem, route = .body r mem ∧ r.function.name = name ∧ r.function.isDeclaration = false) ∨
      route = .default ∧ ∀ r ∈ p.routines, r.function.name = name → r.function.isDeclaration = true

end Route

namespace Engine

variable {p : Project} (e : Engine p)

/-- What a call does on its route. -/
def along (default : Option Hook) (st : State p) (c : Call) (f : Function) :
    Route p → Action (Move p)
  | .hook h => do return resume (← h e.setting c)
  | .body r mem => do
    if (st.callers.length : Int) + 1 ≥ e.callDepth then Machine.fault (.callDepth e.callDepth f.name)
    let args ← c.site.evalAll e.setting c.args
    match Frame.call? r mem args with
    | some g => return .enter g
    | none => Machine.defect .missingIndex
  | .default =>
    match default with
    | some h => do return resume (← h e.setting c)
    | none => Machine.fault (.noHook f.name)

/-- Entering a function is entering the routine that the calling module has for its name. -/
theorem inline_eq (st : State p) (c : Call) (f : Function) {r : Routine}
    (hr : p.routineIn? c.site.routine.module f.name = some r) (default : Option Hook) :
    e.inline st c f = e.along default st c f (.body r (List.mem_of_find?_eq_some hr)) := by
  unfold inline along
  dsimp only
  split
  · rfl
  · refine bind_congr fun args => ?_
    split
    · rename_i h
      rw [hr] at h
      cases h
    · rename_i r' h
      obtain rfl := Option.some.inj (hr.symm.trans h)
      rfl

end Engine

namespace Registry

variable {r : Registry Hook}

/-- A name is hooked for the functions that have it if a hook is found for it and some module defines it. -/
theorem mem_replaced_iff {p : Project} {name : String} {found : Option (String × Hook)}
    (hfound : r.findHook name = .ok found) :
    name ∈ r.replaced p ↔
      found.isSome ∧ ∃ r ∈ p.routines, r.function.name = name ∧ r.function.isDeclaration = false := by
  unfold replaced
  rw [List.mem_map]
  constructor
  · rintro ⟨f, hf, rfl⟩
    obtain ⟨hmem, hrep⟩ := List.mem_filter.mp hf
    obtain ⟨q, hq, rfl⟩ := List.mem_map.mp hmem
    unfold replaces at hrep
    rw [hfound, Bool.and_eq_true] at hrep
    exact ⟨hrep.2, q, hq, rfl, by simpa using hrep.1⟩
  · rintro ⟨hsome, q, hq, rfl, hbody⟩
    refine ⟨q.function, List.mem_filter.mpr ⟨List.mem_map_of_mem hq, ?_⟩, rfl⟩
    simp only [replaces, hfound, hsome]
    simp [hbody]

theorem byName_hooks (p : Project) (name : String) :
    (r.hooks p).byName name = if name ∈ r.replaced p then some r.dispatch else none := by
  unfold hooks
  simp

/-- Dispatching a call goes to the hook that is found, else to the default hook. -/
theorem dispatch_of_found {s : Setting} {c : Call} {f : Function} (hf : c.target? = some f)
    {found : Option (String × Hook)} (hfound : r.findHook f.name = .ok found) :
    r.dispatch s c = match found with
      | some (_, h) => h s c
      | none =>
        match r.default with
        | some h => h s c
        | none => Machine.fault (.noHook f.name) := by
  unfold dispatch
  rw [hf]
  simp only [hfound]
  cases found <;> rfl

end Registry

namespace Context

variable {p : Project} {config : Config} {registry : Registry Hook} {c : Context}

/-- The engine looks at the function that the calling module has for a name: one with a body is entered
unless a hook is found for its name, one without a body goes to the dispatcher whatever other modules
define. -/
theorem hookOf?_eq (hc : make p config registry = .ok c) {f : Function} {found : Option (String × Hook)}
    (hfound : registry.findHook f.name = .ok found) (hf : f ∈ c.project.routines.map (·.function)) :
    c.engine.hookOf? f = if found.isSome ∨ f.isDeclaration then some registry.dispatch else none := by
  unfold Engine.hookOf?
  rw [hooks_of_make hc, Registry.byName_hooks]
  by_cases hmem : f.name ∈ registry.replaced c.project
  · have hsome := ((Registry.mem_replaced_iff hfound).mp hmem).1
    rw [if_pos hmem, if_pos (Or.inl hsome)]
  · rw [if_neg hmem]
    by_cases hdecl : f.isDeclaration = true
    · simp [hdecl, Registry.hooks]
    · -- a function with a body is hooked as soon as a hook is found for its name
      have hnone : found.isSome ≠ true := by
        intro hsome
        obtain ⟨r, hr, rfl⟩ := List.mem_map.mp hf
        exact hmem ((Registry.mem_replaced_iff hfound).mpr ⟨hsome, r, hr, rfl, by simpa using hdecl⟩)
      rw [if_neg hdecl, if_neg (not_or.mpr ⟨hnone, hdecl⟩)]

/-- **Where calls go.** A call of a named function that is no intrinsic goes to the hook that is found for
the name, else into the function that the calling module has for it; where that one has no body, it goes
to the default hook. This is where the call is said to go except in one case: no hook is found, the calling
module only declares the function, and some module defines it. -/
theorem call_along_route {modules : List Module} {layout : Layout}
    (hp : Project.ofModules? modules layout = some p) (hc : make p config registry = .ok c)
    (st : State c.project) {i : Instr} {callee : Operand} {args : List Operand}
    (hop : i.op = .call callee args) {f : Function}
    (hf : (Call.mk (st.frame.site i) callee args).target? = some f)
    (hintrinsic : Intrinsic.ofName? f.name = none)
    {found : Option (String × Hook)} (hfound : registry.findHook f.name = .ok found) :
    ∃ route : Route c.project,
      c.engine.move st (st.frame.site i) =
          c.engine.along registry.default st ⟨st.frame.site i, callee, args⟩ f route ∧
        (route.Promised found f.name ↔
          ¬ (found = none ∧ f.isDeclaration = true ∧
            ∃ r ∈ c.project.routines, r.function.name = f.name ∧ r.function.isDeclaration = false)) := by
  obtain rfl := project_of_make hc
  let call : Call := ⟨st.frame.site i, callee, args⟩
  obtain ⟨r, hr, hmem, hrf⟩ := Fits.exists_routineIn?_of_target? hp st.frame.routine_mem
    (show Fits.target? st.frame.routine callee = some f from hf)
  have hmove : c.engine.move st (st.frame.site i) =
      (match c.engine.hookOf? f with
      | some hook => do return Engine.resume (← hook c.engine.setting call)
      | none => do
        if f.isDeclaration then Machine.fault (.undefinedCallee f.name)
        c.engine.inline st call f) := by
    have hop' : (st.frame.site i).instr.op = .call callee args := hop
    simp only [Engine.move, hop', Engine.call, hf, hintrinsic]
    rfl
  have hhook := hookOf?_eq hc hfound (List.mem_map.mpr ⟨r, hmem, hrf⟩)
  have hdispatch := fun s => Registry.dispatch_of_found (s := s) hf hfound
  rw [hmove, hhook]
  cases found with
  | some entry =>
    refine ⟨.hook entry.2, ?_, by simp [Route.Promised]⟩
    rw [if_pos (show (some entry).isSome = true ∨ _ from Or.inl rfl)]
    show (do return Engine.resume (← registry.dispatch c.engine.setting call)) = _
    rw [hdispatch]
    rfl
  | none =>
    -- Without a hook of its own name, whether the function has a body decides; the promise fails
    -- where another module has one.
    by_cases hdecl : f.isDeclaration = true
    · refine ⟨.default, ?_, by simp [Route.Promised, hdecl]⟩
      rw [if_pos (Or.inr hdecl)]
      show (do return Engine.resume (← registry.dispatch c.engine.setting call)) = _
      rw [hdispatch]
      unfold Engine.along
      cases registry.default <;> rfl
    · have hbody : r.function.isDeclaration = false := by
        rw [hrf]
        simpa using hdecl
      refine ⟨.body r hmem, ?_, iff_of_true (Or.inl ⟨r, hmem, rfl, hrf ▸ rfl, hbody⟩) ?_⟩
      · rw [if_neg (by simpa using hdecl)]
        simp only [hdecl]
        exact c.engine.inline_eq st call f hr registry.default
      · exact fun h => hdecl h.2.1

/-! ### A function that only another module defines -/

/-- A module that calls a function which it declares. -/
def declaring : Module :=
  ⟨[], [⟨"f", .int 32, [], false, []⟩,
    ⟨"main", .int 32, [], false, [⟨"entry", [
      ⟨"r", .call (.global "f") []⟩,
      ⟨"end", .ret (some (.register "r"))⟩]⟩]⟩]⟩

/-- A module that defines the function. -/
def defining : Module :=
  ⟨[], [⟨"f", .int 32, [], false, [⟨"entry", [
    ⟨"end", .ret (some (.constant (.int 32) (.int 7)))⟩]⟩]⟩]⟩

/-- The project of both modules. -/
def linked : Project :=
  (Project.ofModules? [declaring, defining] ⟨[], 64⟩).getD ⟨[], ⟨[], 64⟩, []⟩

/-- The analysis of the project without any hooks. -/
def unhooked : Context :=
  match make linked {} {} with
  | .ok c => c
  | .error _ => ⟨linked, {}, [], {}⟩

/-- A path that is about to make the call. -/
def calling : State unhooked.project where
  machine := .initial
  frame := {
    routine := linked.routines.get ⟨1, by decide⟩
    block := ((linked.routines.get ⟨1, by decide⟩).function.blocks.get ⟨0, by decide⟩)
    routine_mem := List.get_mem _ _
    block_mem := List.get_mem _ _ }

theorem findHook_unhooked : ({} : Registry Hook).findHook "f" = .ok none := by
  have hok : (Name.candidates "f").toOption.isSome = true := by decide +kernel
  unfold Registry.findHook
  cases hnames : Name.candidates "f" with
  | error fault =>
    rw [hnames] at hok
    cases hok
  | ok names =>
    have hlookup : ({} : Registry Hook).lookup? names = none := by
      unfold Registry.lookup?
      exact List.findSome?_eq_none_iff.mpr fun _ _ => rfl
    show Except.ok (({} : Registry Hook).lookup? names) = _
    rw [hlookup]

/-- The call is not made where it is said to go: the function has a body that is not entered. -/
theorem call_not_promised :
    ∃ route : Route unhooked.project,
      unhooked.engine.move calling (calling.frame.site ⟨"r", .call (.global "f") []⟩) =
          unhooked.engine.along none calling
            ⟨calling.frame.site ⟨"r", .call (.global "f") []⟩, .global "f", []⟩
            ⟨"f", .int 32, [], false, []⟩ route ∧
        ¬ route.Promised none "f" := by
  have hp : Project.ofModules? [declaring, defining] ⟨[], 64⟩ = some linked := rfl
  have hc : make linked {} {} = .ok unhooked := rfl
  obtain ⟨route, hmove, hiff⟩ :=
    call_along_route hp hc calling (i := ⟨"r", .call (.global "f") []⟩) rfl
      (f := ⟨"f", .int 32, [], false, []⟩) rfl rfl findHook_unhooked
  refine ⟨route, hmove, fun hpromised => hiff.mp hpromised ⟨rfl, rfl, ?_⟩⟩
  exact ⟨linked.routines.get ⟨2, by decide⟩, List.get_mem _ _, rfl, rfl⟩

end Context

end PathSafety
