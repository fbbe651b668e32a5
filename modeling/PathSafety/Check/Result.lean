import PathSafety.Path.Basic

/-!
# Results of paths

How a finished path ended, with values as they are shown.
-/

namespace PathSafety

/-- How a path ended. -/
inductive Result where
  | returned (shown : String)
  | returnedVoid
  | threw (shown : String)
  | aborted
  | fault (f : Fault)

/-- How a value is shown. -/
def Value.text (v : Value) : String := Fault.shown v.width v.const?

/-- The result that an outcome is. -/
def Outcome.result : Outcome → Result
  | .returned v => .returned v.text
  | .returnedVoid => .returnedVoid
  | .threw v => .threw v.text
  | .aborted => .aborted

/-- The result of an ending; a defect is none. -/
def Ending.result? : Ending → Option Result
  | .outcome o => some o.result
  | .fault f => some (.fault f)
  | .defect _ => none

namespace Result

/-- A result in a few words. -/
def describe : Result → String
  | returned v => s!"Return({v})"
  | returnedVoid => "ReturnVoid"
  | threw v => s!"Throw({v})"
  | aborted => "Abort"
  | fault f => s!"{f.kind.name}: {f.message}"

/-- The fault that a result is. -/
def fault? : Result → Option Fault
  | fault f => some f
  | _ => none

end Result

end PathSafety
