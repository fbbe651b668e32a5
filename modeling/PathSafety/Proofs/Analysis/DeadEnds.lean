import PathSafety.Proofs.Analysis.Evaluate
import PathSafety.Proofs.Path.DeadEnds

/-!
# Analyses have no dead paths

The hooks of the sandbox return single bits where functions do, all but one: an assignment to a wrapper returns the address
of the wrapper, whatever the function returns by its type. Where no assignment returns a single bit, all branches of a
well-typed project test single bits. So whatever path an analysis follows or keeps for later is one that an input takes,
and it has a successor at every fork.

Contents:

* `Function.Assigns` — functions whose calls are assignments to wrappers;
* `Registry.gives_bit_dispatch`, `Context.lively_of_make` — the hooks of an analysis;
* `Context.no_dead_paths` — explorations and the paths that they find;
* `Context.dead_end_assigning` — an assignment that is declared to return a single bit.
-/

namespace PathSafety

open IR Machine

/-- The branch without a successor where a path ends. -/
def Ending.deadEnd? : Ending → Option Location
  | .fault (.noSuccessor l) => some l
  | _ => none

theorem Ending.eq_of_deadEnd? {x : Ending} {l : Location} (h : x.deadEnd? = some l) : x = .fault (.noSuccessor l) := by
  unfold deadEnd? at h
  split at h
  · rw [Option.some.inj h]
  · cases h

/-- That the calls of a function are assignments to wrappers, by its name. -/
def IR.Function.Assigns (fn : Function) : Prop :=
  ∃ n, Registry.sandbox.findHook fn.name = .ok (some (n, SandboxHook.taintedAssign.run))

/-! ## Hooks -/

section Hooks

variable {s : Setting} {c : Call}

/-- That what a call returns has one bit. -/
def Outcome.IsBit (o : Outcome) : Prop := ∀ v, o = .returned v → v.width = 1

namespace Machine

/-- What is not a pointer points to nothing. -/
theorem gives_pointee_bit {α : Type} {P : α → Prop} {f : Ty → Action α} : Gives P (Call.pointee (.int 1) >>= f) :=
  gives_fault_bind

theorem gives_bit_returned {x : Action Value} (hx : Gives (fun v => v.width = 1) x) :
    Gives Outcome.IsBit (do return .returned (← x)) := by
  intro m o m' h v ho
  obtain ⟨w, m₁, hw, h⟩ := exists_of_bind h
  obtain ⟨rfl, _⟩ := of_pure h
  obtain rfl := Outcome.returned.inj ho
  exact hx hw

end Machine

namespace SandboxHook

theorem gives_bit_readPayload (hbit : c.resultType = .int 1) : Gives Outcome.IsBit (readPayload s c) := by
  unfold readPayload
  rw [hbit]
  refine gives_bind_of fun m n m' hn => ?_
  obtain rfl : 1 = n := (of_pure hn).1
  exact gives_bind fun o => gives_bind fun wrapper => gives_bit_returned (gives_bit_read wrapper)

theorem gives_bit_elementAddress (hbit : c.resultType = .int 1) (byReference : Bool) :
    Gives Outcome.IsBit (elementAddress s c byReference) := by
  refine gives_bind fun a => gives_bind fun base => gives_bind fun operand => gives_bind fun index => ?_
  rw [hbit]
  dsimp only
  split
  · exact gives_bind fun t => gives_bind fun width => gives_bind fun index => gives_pointee_bit
  · exact gives_bind fun index => gives_pointee_bit

theorem gives_bit_unknownResult (hbit : c.resultType = .int 1) : Gives Outcome.IsBit (unknownResult s c) := by
  unfold unknownResult
  rw [hbit]
  refine gives_bind_of fun m n m' hn => ?_
  obtain rfl : 1 = n := (of_pure hn).1
  exact gives_bit_returned (gives_width_fresh _ _)

/-- **The sandbox hooks** return a single bit where the type of the call is that of one, all but assignments. -/
theorem gives_bit_run {b : SandboxHook} (hb : b ≠ .taintedAssign) (hbit : c.resultType = .int 1) :
    Gives Outcome.IsBit (b.run s c) := by
  have hbody : Gives Outcome.IsBit (body s c b) := by
    cases b with
    | unsafeUnverified | taintedDeref => exact gives_bit_readPayload hbit
    | taintedAssign => exact absurd rfl hb
    | taintedIndex => exact gives_bit_elementAddress hbit true
    | stdArrayIndex => exact gives_bit_elementAddress hbit false
    | mallocInSandbox =>
      show Gives _ (allocateObjects s c)
      unfold allocateObjects
      rw [hbit]
      exact gives_pointee_bit
    | default => exact gives_bit_unknownResult hbit
  have hguarded : Gives Outcome.IsBit (guarded (body s c b)) := fun _ _ _ h => hbody (of_guarded h)
  unfold run
  split
  · exact gives_bind fun _ => hguarded
  · exact hguarded

end SandboxHook

/-- Sending calls to the sandbox hooks returns single bits where functions do, if no such function is an assignment. -/
theorem Registry.gives_bit_dispatch (hassign : ∀ fn, c.target? = some fn → fn.ret.isBit = true → ¬ fn.Assigns) :
    Gives c.ReturnsBit (Registry.sandbox.dispatch s c) := by
  have hsandbox : Registry.sandbox.All fun h => ∃ b : SandboxHook, h = b.run := all_sandbox fun b => ⟨b, rfl⟩
  -- Every hook but the assigning ones returns a value of the type the call has.
  have hrun : ∀ {b : SandboxHook} {fn}, c.target? = some fn → (fn.ret.isBit = true → b ≠ .taintedAssign) →
      Gives c.ReturnsBit (b.run s c) := by
    intro b fn hfn hb m o m' h hret
    have hbit := hret fn hfn
    have htype : c.resultType = .int 1 := (Call.resultType_of_target? hfn).trans (Ty.eq_of_isBit hbit)
    exact SandboxHook.gives_bit_run (hb hbit) htype h
  unfold dispatch
  split
  · exact gives_fault
  · rename_i fn hfn
    split
    · exact gives_fault
    · rename_i n hook hfound
      obtain ⟨b, rfl⟩ := hsandbox.1 _ _ (mem_of_findHook hfound)
      refine hrun hfn fun hbit => ?_
      rintro rfl
      exact hassign fn hfn hbit ⟨n, hfound⟩
    · split
      · rename_i hook hdefault
        obtain rfl : SandboxHook.default.run = hook := Option.some.inj hdefault
        exact hrun hfn fun _ => nofun
      · exact gives_fault

end Hooks

namespace Context

variable {modules : List Module} {layout : Layout} {project : Project} {config : Config} {c : Context} {name : String}
  {bits : Routine → List String}

/-- **Analyses** in which no assignment returns a single bit leave branches with single bits. -/
theorem lively_of_make (hp : Project.ofModules? modules layout = some project)
    (hassign : ∀ m ∈ project.modules, ∀ fn ∈ m.functions, fn.ret.isBit = true → ¬ fn.Assigns)
    (hmake : make project config Registry.sandbox = .ok c) : c.engine.Lively := by
  have hbuiltin : c.engine.BuiltIn := builtIn_of_make Registry.builtIn_sandbox hmake
  obtain ⟨hhooks, hmonitors⟩ := faults_of_make (P := fun f => f.isDeadEnd = false)
    (fun _ => Fault.isDeadEnd_of_isPlain) (fun _ => Fault.isDeadEnd_reject) rfl hmake
  refine ⟨hbuiltin, ?_, hhooks, hmonitors⟩
  intro hook hhook call hcall
  rw [eq_dispatch_of_make hmake hhook]
  obtain rfl := project_of_make hmake
  refine Registry.gives_bit_dispatch fun fn hfn hbit => ?_
  obtain ⟨n, _, hglobal⟩ := Fits.exists_global_of_target? hfn
  have hmodule := List.mem_of_getElem? (Project.module_of_mem hp hcall)
  exact hassign _ hmodule fn (List.mem_of_find?_eq_some (Module.name_of_global? hglobal).2) hbit

/-- **No dead paths**: in all situations of the exploration of a well-typed project, the condition of the path that is
followed and of each that waits can hold. No path ends for lack of a successor, and every path that is found is one that an
input takes. -/
theorem no_dead_paths (hp : Project.ofModules? modules layout = some project) (htypes : project.TypesBits bits)
    (hassign : ∀ m ∈ project.modules, ∀ fn ∈ m.functions, fn.ret.isBit = true → ¬ fn.Assigns)
    (hmake : make project config Registry.sandbox = .ok c) {start : Start c.project}
    (hstart : Start.of c.project name = .ok start) :
    (∀ x, Relation.ReflTransGen (fun x y => c.engine.advance? x = some y) start.progress x →
      (∀ st ∈ x.current, st.machine.condition.Feasible) ∧ ∀ a ∈ x.waiting, a.state.machine.condition.Feasible) ∧
      ∀ path ∈ c.engine.pathsOf start, path.machine.condition.Feasible ∧
        ∀ l, path.ending ≠ .fault (.noSuccessor l) := by
  have he := lively_of_make hp hassign hmake
  obtain rfl := project_of_make hmake
  have hbegin : start.progress.Alive bits := Engine.alive_progress htypes hstart
  constructor
  · intro x hx
    have halive := Engine.alive_of_advances hp htypes he hx hbegin
    exact ⟨fun st hst => (halive.current st hst).feasible, fun a ha => (halive.waiting a ha).feasible⟩
  · intro path hpath
    -- the paths are those that have been found when the exploration is exhausted
    obtain ⟨y, hsteps, _, hfound⟩ := c.engine.exists_exhausted start.progress
    rw [← Engine.found_progress, ← hfound] at hpath
    have halive := Engine.alive_of_advances hp htypes he hsteps hbegin
    obtain ⟨hfeasible, hsuccessor⟩ := halive.finished path (List.mem_reverse.mp hpath)
    exact ⟨hfeasible, hsuccessor⟩

namespace Polling

/-- An operand of 32 bits. -/
def word (n : Int) : Operand := .constant (.int 32) (.int n)

/-- A function that asks from outside whether to write into a table, at an index from outside, and goes by what is there
afterwards. -/
def polling : Module where
  globals := [⟨"table", .array 4 (.int 32), none⟩]
  functions := [
    ⟨"more", .int 1, [], false, []⟩,
    ⟨"main", .int 32, [("k", .int 32)], false,
      [⟨"entry", [⟨"p", .gep true (.global "table") none [word 0, .register "k"]⟩, ⟨"c", .call (.global "more") []⟩,
          ⟨"", .condBr (.register "c") "yes" "no"⟩]⟩,
        ⟨"yes", [⟨"", .store (word 1) (.register "p")⟩, ⟨"", .br "no"⟩]⟩,
        ⟨"no", [⟨"v", .load (.register "p") none⟩,
          ⟨"", .switch (.register "v") "rest" [(word 0, "last"), (word 1, "last")]⟩]⟩,
        ⟨"rest", [⟨"d", .icmp .ult (.register "v") (word 9)⟩, ⟨"", .condBr (.register "d") "last" "entry"⟩]⟩,
        ⟨"last", [⟨"", .ret (some (.register "v"))⟩]⟩]⟩]

/-- The registers of type `i1`. -/
def bitsOf (r : Routine) : List String :=
  match r.function.name with
  | "main" => ["c", "d"]
  | _ => []

/-- The function is well typed and assigns to no wrappers, so its exploration has no dead paths. -/
theorem no_dead_paths_polling : (projectOf polling).TypesBits bitsOf ∧
    (∀ m ∈ (projectOf polling).modules, ∀ fn ∈ m.functions, fn.ret.isBit = true → ¬ fn.Assigns) ∧
    (∃ start, Start.of (ofModule polling).project "main" = .ok start) ∧
    ∀ start, Start.of (ofModule polling).project "main" = .ok start →
      (∀ x, Relation.ReflTransGen (fun x y => (ofModule polling).engine.advance? x = some y) start.progress x →
        (∀ st ∈ x.current, st.machine.condition.Feasible) ∧ ∀ a ∈ x.waiting, a.state.machine.condition.Feasible) ∧
        ∀ path ∈ (ofModule polling).engine.pathsOf start, path.machine.condition.Feasible ∧
          ∀ l, path.ending ≠ .fault (.noSuccessor l) := by
  have hp : Project.ofModules? [polling] ⟨[], 64⟩ = some (projectOf polling) := rfl
  have htypes : (projectOf polling).TypesBits bitsOf := List.all_eq_true.mp (by decide +kernel)
  have hunhooked : (Registry.sandbox.findHook "more").toOption.any Option.isNone = true := by decide +kernel
  have hassign : ∀ m ∈ (projectOf polling).modules, ∀ fn ∈ m.functions, fn.ret.isBit = true → ¬ fn.Assigns := by
    intro m hm fn hfn hbit hassigns
    rw [Project.modules_of_ofModules? hp] at hm
    obtain rfl := List.mem_singleton.mp hm
    -- `more` has no hook of its own, and the other function returns no bit.
    rcases List.mem_cons.mp hfn with rfl | hfn
    · obtain ⟨n, hn⟩ := hassigns
      have hn : Registry.sandbox.findHook "more" = _ := hn
      rw [hn] at hunhooked
      cases hunhooked
    · obtain rfl := List.mem_singleton.mp hfn
      cases hbit
  have hstart : (Start.of (ofModule polling).project "main").toBool = true := by decide +kernel
  refine ⟨htypes, hassign, ?_, fun start hstart => no_dead_paths hp htypes hassign (make_ofModule polling) hstart⟩
  cases h : Start.of (ofModule polling).project "main" with
  | ok start => exact ⟨start, rfl⟩
  | error err =>
    rw [h] at hstart
    cases hstart

end Polling

/-! ### An assignment that is declared to return a single bit -/

/-- A function that branches on what an assignment to a wrapper returns. -/
def assigning : Module where
  globals := []
  functions := [
    ⟨"rlbox::tainted::operator=", .int 1, [("to", .ptrTo (.int 32) 0), ("from", .int 32)], false, []⟩,
    ⟨"main", .int 32, [], false,
      [⟨"entry", [⟨"a", .alloca (.int 32) none⟩,
          ⟨"r", .call (.global "rlbox::tainted::operator=") [.register "a", .constant (.int 32) (.int 1)]⟩,
          ⟨"", .condBr (.register "r") "yes" "no"⟩]⟩,
        ⟨"yes", [⟨"", .ret (some (.constant (.int 32) (.int 1)))⟩]⟩,
        ⟨"no", [⟨"", .ret (some (.constant (.int 32) (.int 0)))⟩]⟩]⟩]

/-- What the assignment returns is the address of the wrapper, which is neither true nor false: the path of this function
ends at the branch, though the function is well typed. -/
theorem dead_end_assigning : (projectOf assigning).TypesBits (fun _ => ["r"]) ∧
    ∃ start, Start.of (ofModule assigning).project "main" = .ok start ∧
      ∃ path ∈ (ofModule assigning).engine.pathsOf start, path.ending = .fault (.noSuccessor ⟨"main", "entry", 2⟩) := by
  have hends : ((ofModule assigning).pathsWithin 4 "main").any (fun l => l.any fun x =>
      decide (x.2.ending.deadEnd? = some ⟨"main", "entry", 2⟩)) = true := by decide +kernel
  obtain ⟨l, hl, hends⟩ := Option.any_eq_true _ _ |>.mp hends
  obtain ⟨x, hx, hends⟩ := List.any_eq_true.mp hends
  obtain ⟨start, hstart, hpaths, _⟩ := paths_of_pathsWithin hl
  refine ⟨List.all_eq_true.mp (by decide +kernel), start, hstart, x.2, ?_, ?_⟩
  · rw [Engine.pathsOf_eq, hpaths]
    exact List.mem_map_of_mem hx
  · exact Ending.eq_of_deadEnd? (of_decide_eq_true hends)

end Context

end PathSafety
