import PathSafety.Proofs.Analysis.Evaluate
import PathSafety.Proofs.Path.Values

/-!
# Analyses in which every operand has a value

The hooks of the sandbox return something wherever a call expects it, and they and the checkers evaluate nothing but the
operands of the instruction. So analyses of projects in the form of static single assignment do not end paths for lack of
a value.

Contents:

* `SandboxHook.supplies`, `Registry.supplies_dispatch` — hooks that return what calls expect;
* `Context.supplies_of_make` — the hooks and monitors of an analysis;
* `Context.not_lacksValue_of_ssa` — no path of an analysis lacks a value.
-/

namespace PathSafety

open IR Machine

/-! ## Hooks -/

section Hooks

variable {s : Setting} {c : Call}

/-- Nothing is returned only where nothing is expected. -/
def Call.Expects (c : Call) (o : Outcome) : Prop := o = .returnedVoid → c.resultType.isVoid = true

theorem gives_expected_value {x : Action Value} : Gives c.Expects (do return .returned (← x)) :=
  gives_bind fun _ => gives_pure nofun

namespace SandboxHook

theorem gives_writePayload : Gives c.Expects (writePayload s c) := by
  refine gives_bind fun a => gives_bind fun destination => gives_bind fun operand => gives_bind fun v => ?_
  dsimp only
  split
  · refine gives_bind fun t => gives_bind fun width => gives_bind fun payload => gives_bind fun _ => ?_
    split
    · rename_i hvoid
      exact gives_pure fun _ => by rw [hvoid]; rfl
    · exact gives_pure nofun
  · refine gives_bind fun payload => gives_bind fun _ => ?_
    split
    · rename_i hvoid
      exact gives_pure fun _ => by rw [hvoid]; rfl
    · exact gives_pure nofun

theorem gives_elementAddress (byReference : Bool) : Gives c.Expects (elementAddress s c byReference) := by
  refine gives_bind fun a => gives_bind fun base => gives_bind fun operand => gives_bind fun index => ?_
  dsimp only
  split
  · refine gives_bind fun t => gives_bind fun width => gives_bind fun index => ?_
    exact gives_bind fun element => gives_bind fun size => gives_bind fun offset => gives_expected_value
  · refine gives_bind fun index => ?_
    exact gives_bind fun element => gives_bind fun size => gives_bind fun offset => gives_expected_value

theorem gives_allocateObjects : Gives c.Expects (allocateObjects s c) := by
  refine gives_bind fun element => gives_bind fun bits => ?_
  dsimp only
  split
  · exact gives_fault_bind
  · split
    · exact gives_expected_value
    · refine gives_bind fun count => ?_
      split
      · exact gives_fault_bind
      · exact gives_bind fun n => gives_expected_value

theorem gives_unknownResult : Gives c.Expects (unknownResult s c) := by
  unfold unknownResult
  dsimp only
  split
  · rename_i hvoid
    exact gives_pure fun _ => by rw [hvoid]; rfl
  · split <;> exact gives_expected_value
  · split <;> exact gives_expected_value
  · split
    · exact gives_fault
    · split
      · exact gives_fault_bind
      · exact gives_bind fun bits => gives_expected_value

theorem gives_run (b : SandboxHook) : Gives c.Expects (b.run s c) := by
  have hbody : Gives c.Expects (body s c b) := by
    cases b with
    | unsafeUnverified | taintedDeref =>
      exact gives_bind fun width => gives_bind fun a => gives_bind fun wrapper => gives_expected_value
    | taintedAssign => exact gives_writePayload
    | taintedIndex => exact gives_elementAddress true
    | stdArrayIndex => exact gives_elementAddress false
    | mallocInSandbox => exact gives_allocateObjects
    | default => exact gives_unknownResult
  have hguarded : Gives c.Expects (guarded (body s c b)) := fun _ _ _ h => hbody (of_guarded h)
  unfold run
  split
  · exact gives_bind fun _ => hguarded
  · exact hguarded

/-- **The sandbox hooks** return something wherever a call expects it. -/
theorem supplies (b : SandboxHook) : Hook.Supplies s b.run where
  supplied c hargs := composes_supplied.sandbox (faults_read fun _ => Fault.lacksValue_of_isPlain) c hargs b
  returns _ _ _ h := gives_run b h rfl

end SandboxHook

/-- Sending calls to hooks that return what calls expect does so as well. -/
theorem Registry.supplies_dispatch {r : Registry Hook} (hr : r.All fun h => h.Supplies s) : r.dispatch.Supplies s where
  supplied c hargs :=
    faults_dispatch (fun _ => Fault.lacksValue_of_isPlain)
      ⟨fun n h hn => (hr.1 n h hn).supplied c hargs, fun h hh => (hr.2 h hh).supplied c hargs⟩
  returns c m m' h := by
    have hgives : Gives c.Expects (r.dispatch s c) := by
      unfold dispatch
      split
      · exact gives_fault
      · split
        · exact gives_fault
        · rename_i hfound
          intro m o m' h ho
          exact (hr.1 _ _ (mem_of_findHook hfound)).returns c m m' (ho ▸ h)
        · split
          · rename_i hdefault
            intro m o m' h ho
            exact (hr.2 _ hdefault).returns c m m' (ho ▸ h)
          · exact gives_fault
    exact hgives h rfl

end Hooks

namespace Context

variable {modules : List Module} {layout : Layout} {project : Project} {config : Config} {registry : Registry Hook}
  {c : Context} {name : String}

/-- **Analyses** with hooks that return what calls expect lack no values by themselves. -/
theorem supplies_of_make (hregistry : registry.All fun h => h.Supplies ⟨project, config.nullChecking⟩)
    (hc : make project config registry = .ok c) : c.engine.Supplies := by
  have hdispatch : ∀ {h}, c.engine.HasHook h → h = registry.dispatch := eq_dispatch_of_make hc
  obtain ⟨checkers, _, rfl⟩ := exists_of_make hc
  refine ⟨fun h hh => ?_, fun monitor hmonitor site heval => ?_⟩
  · exact hdispatch hh ▸ Registry.supplies_dispatch hregistry
  · obtain ⟨k, _, hk⟩ := List.mem_filterMap.mp hmonitor
    exact queries_supplied.checker heval
      (fun o ho => faults_bind (heval o ho) faults_evalNat) hk

/-- **No path lacks a value**: in an analysis of a project in the form of static single assignment, with hooks that return
something wherever a call expects it, no path ends at an operand without a value or at a phi without an incoming one. -/
theorem not_lacksValue_of_ssa (hp : Project.ofModules? modules layout = some project) (hssa : project.Ssa)
    (hregistry : registry.All fun h => h.Supplies ⟨project, config.nullChecking⟩)
    (hc : make project config registry = .ok c) {start : Start c.project} (hstart : Start.of c.project name = .ok start) :
    ∀ path ∈ c.engine.pathsOf start, ∀ f, path.ending = .fault f → f.lacksValue = false := by
  have he := supplies_of_make hregistry hc
  obtain rfl := project_of_make hc
  exact Engine.not_lacksValue_of_mem hp hssa he hstart

namespace Counting

/-- An operand of 32 bits. -/
def word (n : Int) : Operand := .constant (.int 32) (.int n)

/-- A function that counts up to a number that it is given from outside, by calling another one in a loop. -/
def counting : Module where
  globals := [⟨"step", .int 32, some (word 1)⟩]
  functions := [
    ⟨"limit", .int 32, [], false, []⟩,
    ⟨"next", .int 32, [("x", .int 32)], false,
      [⟨"entry", [⟨"s", .load (.global "step") (some (.int 32))⟩, ⟨"y", .arith .add [] (.register "x") (.register "s")⟩,
        ⟨"", .ret (some (.register "y"))⟩]⟩]⟩,
    ⟨"main", .int 32, [], false,
      [⟨"entry", [⟨"n", .call (.global "limit") []⟩, ⟨"", .br "head"⟩]⟩,
        ⟨"head", [⟨"i", .phi (.int 32) [(word 0, "entry"), (.register "j", "body")]⟩,
          ⟨"c", .icmp .ult (.register "i") (.register "n")⟩, ⟨"", .condBr (.register "c") "body" "done"⟩]⟩,
        ⟨"body", [⟨"j", .call (.global "next") [.register "i"]⟩, ⟨"", .br "head"⟩]⟩,
        ⟨"done", [⟨"", .ret (some (.register "i"))⟩]⟩]⟩]

/-- The registers that have values where the blocks begin. -/
def begin : String → String → List String
  | "main", "head" => ["n"]
  | "main", "body" | "main", "done" => ["n", "i", "c"]
  | _, _ => []

/-- The loop is in the form of static single assignment, and no path through it lacks a value. -/
theorem supplied_counting : (projectOf counting).Ssa ∧ (∃ start, Start.of (ofModule counting).project "main" = .ok start) ∧
    ∀ start, Start.of (ofModule counting).project "main" = .ok start →
      ∀ path ∈ (ofModule counting).engine.pathsOf start, ∀ f, path.ending = .fault f → f.lacksValue = false := by
  have hcheck : (projectOf counting).isSsa begin = true := by decide +kernel
  have hssa : (projectOf counting).Ssa := Project.ssa_of_isSsa hcheck
  have hp : Project.ofModules? [counting] ⟨[], 64⟩ = some (projectOf counting) := rfl
  have hstart : (Start.of (ofModule counting).project "main").toBool = true := by decide +kernel
  refine ⟨hssa, ?_, fun start hstart => ?_⟩
  · cases h : Start.of (ofModule counting).project "main" with
    | ok start => exact ⟨start, rfl⟩
    | error err =>
      rw [h] at hstart
      cases hstart
  · exact not_lacksValue_of_ssa hp hssa (Registry.all_sandbox fun b => b.supplies) (make_ofModule counting) hstart

end Counting

end Context

end PathSafety
