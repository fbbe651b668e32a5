import PathSafety.Analysis.Log
import PathSafety.Hooks.Dispatch
import PathSafety.Path.Start
import PathSafety.Report.Basic

/-!
# Analyses

The analysis of functions of a project: every path is explored with the hooks of a registry and the
monitors of checkers, and reported with the verdict of the checkers.

Contents:

* `Config`, `Context` — what an analysis is made with;
* `Escape` — why there may be no report;
* `Analysis`, `Context.analyze` — the analysis of a function;
* `Context.records` — what is said about it.
-/

namespace PathSafety

open IR

/-- What an analysis is asked for. -/
structure Config where
  loopBound : Int := 1000
  nullChecking : Bool := true
  callDepth : Int := 64
  /-- The checkers by name. -/
  checkers : List String := Checker.all.map Checker.name
  verbose : Bool := false

/-- What functions of a project are analyzed with. -/
structure Context where
  project : Project
  config : Config
  checkers : List Checker
  engine : Engine project

namespace Context

/-- The context of an analysis; or the names of checkers that are not known. -/
def make (project : Project) (config : Config) (registry : Registry Hook) :
    Except (List String) Context := do
  let checkers ← Checker.select config.checkers
  return {
    project, config, checkers
    engine := {
      nullChecking := config.nullChecking
      loopBound := config.loopBound
      callDepth := config.callDepth
      hooks := registry.hooks project
      monitors := checkers.filterMap Checker.monitor? } }

end Context

/-- The registry of the sandbox hooks and the default one. -/
def Registry.sandbox : Registry Hook :=
  match ({} : Registry Hook).registerAll SandboxHook.run with
  | .ok r => r
  | .error _ => {}

/-- Why the analysis of a function comes to no report. -/
inductive Escape where
  | pointerWidth (bits : Nat)
  | defect (d : Defect)

/-- A path with its result. -/
structure Explored where
  path : Path
  result : Result

/-- What exploring a function came to. -/
structure Exploration where
  args : List (String × Value) := []
  paths : List Explored := []
  /-- Why there are no paths. -/
  fault : Option Fault := none

/-- An analysis of a function: what was explored, and the report. -/
structure Analysis where
  exploration : Exploration
  report : Report

/-- Finished paths with their results; a path that ended by a defect has none. -/
def Explored.all : List Path → Except Defect (List Explored)
  | [] => .ok []
  | path :: paths => do
    match path.ending with
    | .outcome o => return ⟨path, o.result⟩ :: (← all paths)
    | .fault f => return ⟨path, .fault f⟩ :: (← all paths)
    | .defect d => throw d

namespace Exploration

/-- The instructions that were executed, in order, path after path. -/
def trace (x : Exploration) : List Location := x.paths.flatMap fun e => e.path.trace

end Exploration

namespace Context

variable (c : Context)

/-- Explores a function. -/
def explore (name : String) : Except Escape Exploration :=
  match Start.of c.project name with
  | .error (.pointerWidth n) => .error (.pointerWidth n)
  | .error (.fault f) => .ok { fault := some f }
  | .ok start =>
    match Explored.all (c.engine.pathsOf start) with
    | .error d => .error (.defect d)
    | .ok paths => .ok { args := start.args, paths }

/-- The report of what was explored. -/
def report (name : String) (x : Exploration) : Report := {
  function := name
  loopBound := c.config.loopBound
  errors := (x.fault.map Fault.message).toList
  paths := x.paths.mapIdx fun i e => .of c.checkers i e.result e.path.blocks }

/-- Analyzes a function. -/
def analyze (name : String) : Except Escape Analysis := do
  let x ← c.explore name
  return ⟨x, c.report name x⟩

/-! ## Records -/

/-- What is said when a monitor ends a path. -/
def monitorRecord? : Result → Option Record
  | .fault (.divisor place text) => some ⟨.info, s!"divisor can be zero at {place.text}: {text}"⟩
  | .fault (.offset size place text) =>
    some ⟨.info, s!"offset can reach {size} at {place.text}: {text}"⟩
  | _ => none

/-- What is said about the report of a path. -/
def pathRecord? (name : String) (p : PathReport) : Option Record :=
  match p.verdict.kind with
  | some k => some ⟨.warning, s!"{name} path {p.index}: {k.name}: {p.verdict.message}"⟩
  | none =>
    if p.aborted then some ⟨.warning, s!"{name} path {p.index} aborted: {p.result}"⟩
    else if c.config.verbose then some ⟨.info, s!"{name} path {p.index}: {p.result}"⟩
    else none

/-- What is said when a function cannot be explored. -/
def failureText (name : String) (f : Fault) : String := s!"Failed to explore {name}: {f.message}"

/-- How the time that an analysis took is written; it does not belong to what was found. -/
def timeText : String := "_s"

/-- What is said in the end. -/
def summaryText (r : Report) : String :=
  s!"{r.function}: {r.paths.length} path(s), {r.violations.length} violation(s), " ++
    s!"{r.aborted.length} aborted in {timeText}"

/-- What is said during an analysis. -/
def records (a : Analysis) : List Record :=
  let name := a.report.function
  let beginning : Record := ⟨.info, s!"Analyzing {name} (loop bound {a.report.loopBound})"⟩
  match a.exploration.fault with
  | some f => [beginning, ⟨.error, failureText name f⟩]
  | none =>
    beginning :: a.exploration.paths.filterMap (fun e => monitorRecord? e.result) ++
      a.report.paths.filterMap (c.pathRecord? name) ++ [⟨.info, summaryText a.report⟩]

end Context

end PathSafety
