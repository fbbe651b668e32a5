import PathSafety.Check.Result
import PathSafety.Text.Json

/-!
# Stated results

Results that are stated by the name of their sort and some values, and were not found by exploring. The
values may be of any kind; messages show them.
-/

namespace PathSafety

open Text

/-- A result by its name and what belongs to it. -/
inductive Stated where
  | mk (kind : String) (args : List Json) (value : Json) (cause : Option Stated)

namespace Stated

/-- A value that belongs to a fault, as its message shows it: a list is shown as several values. -/
def argText : Json → String
  | .list items => Json.tupleShown items
  | j => j.shown

/-- A value as it is shown among others. -/
def argTextInside : Json → String
  | .list items => Json.tupleShown items
  | j => j.shownInside

/-- What several values that belong to a fault say. -/
def argsText : List Json → String
  | [] => ""
  | [j] => argText j
  | js => "(" ++ ", ".intercalate (js.map argTextInside) ++ ")"

/-- Whether a value counts as given: blanks, zeros and empty values do not. -/
def isGiven : Json → Bool
  | .null => false
  | .bool b => b
  | .number n _ => n != 0
  | .text s => !s.isEmpty
  | .list items => !items.isEmpty
  | .record fields => !fields.isEmpty

/-- What a fault with an address says. -/
def addressText (address : Json) : String :=
  "null pointer dereference" ++
    if isGiven address then s!" (address {argText address})" else ""

/-- The message of a fault of a sort with some values, if the sort takes as many. -/
def messageOf? : FaultKind → List Json → Option String
  | .nullPointerDereference, [] => some (addressText (.text ""))
  | .nullPointerDereference, [a] => some (addressText a)
  | .nullPointerDereference, _ => none
  | .loopBoundExceeded, [place, bound] =>
    some s!"loop bound {argText bound} exceeded at {argText place}"
  | .loopBoundExceeded, _ => none
  | .arityMismatch, [callee, expected, actual] =>
    some s!"{argText callee}: expected {argText expected} argument(s), got {argText actual}"
  | .arityMismatch, _ => none
  | .engineRejected, _ => none
  | _, args => some (argsText args)

/-- The fault that is stated. -/
def fault? : Stated → Option Fault
  | mk kind args _ cause => do
    match ← FaultKind.ofName? kind, cause with
    | .engineRejected, some c => return .rejected (← c.fault?)
    | k, _ => return .reported k (← messageOf? k args)

/-- The result that is stated. -/
def result? : Stated → Option Result
  | s@(mk kind _ value _) =>
    match kind with
    | "Return" => some (.returned value.shown)
    | "Throw" => some (.threw value.shown)
    | "ReturnVoid" => some .returnedVoid
    | "Abort" => some .aborted
    | _ => s.fault?.map .fault

end Stated

end PathSafety
