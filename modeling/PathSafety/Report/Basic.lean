import PathSafety.Check.Checker
import PathSafety.Text.Json

/-!
# Reports

What is reported of a function: every path with its result and verdict, and the errors that kept paths from
being explored.

Contents:

* `PathReport`, `Report` — the reports;
* `Report.violations`, `Report.aborted` — the paths that were not found safe;
* `Report.toJson` — a report as JSON.
-/

namespace PathSafety

open Text

/-- What is reported of a path. -/
structure PathReport where
  index : Int
  result : String
  blocks : List String := []
  verdict : Verdict
  /-- Whether the path ended by a fault that is no violation. -/
  aborted : Bool := false
  deriving DecidableEq, Repr

/-- What is reported of a function. -/
structure Report where
  function : String
  paths : List PathReport := []
  errors : List String := []
  loopBound : Int
  deriving DecidableEq, Repr

/-- The report of a path by its place among the paths, its result and the blocks that it went through. -/
def PathReport.of (checkers : List Checker) (index : Nat) (r : Result) (blocks : List BlockId) :
    PathReport :=
  let verdict := Checker.verdict checkers r
  { index, result := r.describe, blocks := blocks.map BlockId.text, verdict
    aborted := verdict.passed && r.fault?.isSome }

/-- A verdict as JSON. -/
def Verdict.toJson (v : Verdict) : Json :=
  .record [("kind", (v.kind.map fun c => Json.text c.name).getD .null), ("message", .text v.message)]

/-- A report of a path as JSON. -/
def PathReport.toJson (r : PathReport) : Json :=
  .record [("index", .int r.index), ("result", .text r.result), ("blocks", .texts r.blocks),
    ("check", r.verdict.toJson), ("aborted", .bool r.aborted)]

namespace Report

variable (r : Report)

/-- The paths with a violation. -/
def violations : List PathReport := r.paths.filter fun p => !p.verdict.passed

/-- The paths that ended by a fault that is no violation. -/
def aborted : List PathReport := r.paths.filter (·.aborted)

/-- Whether there is a path with a violation. -/
def hasViolations : Bool := !r.violations.isEmpty

/-- A report as JSON. -/
def toJson : Json :=
  .record [("function", .text r.function), ("loop_bound", .int r.loopBound),
    ("paths", .list (r.paths.map PathReport.toJson)), ("error", .texts r.errors)]

end Report

end PathSafety
