import PathSafety.Check.Result
import PathSafety.Path.Step

/-!
# Checkers

A checker looks for one kind of violation. Some watch instructions while a path is executed and end the
path where a violation is possible; all of them judge the results of finished paths.

Contents:

* `Checker`, `Checker.select` — the checkers, and the choice among them by name;
* `Checker.monitor?` — what a checker watches;
* `Verdict`, `Checker.verdict` — what checkers say about a result; the first violation counts.
-/

namespace PathSafety

open IR

/-- The kinds of violations. -/
inductive Checker where
  | nullDereference
  | divisionByZero
  | outOfBounds
  deriving DecidableEq, Repr

/-- What is found out about a path. -/
structure Verdict where
  /-- The kind of violation, if there is one. -/
  kind : Option Checker := none
  message : String := ""
  deriving DecidableEq, Repr

namespace Verdict

/-- The verdict that no violation was found. -/
def pass : Verdict := ⟨none, "no violation"⟩

/-- Whether there is no violation. -/
def passed (v : Verdict) : Bool := v.kind.isNone

end Verdict

namespace Checker

/-- The name of a checker. -/
def name : Checker → String
  | nullDereference => "null_dereference"
  | divisionByZero => "division_by_zero"
  | outOfBounds => "out_of_bounds"

/-- What a checker finds. -/
def description : Checker → String
  | nullDereference => "Detects loads and stores through pointers that can be NULL"
  | divisionByZero => "Detects division or remainder by a possibly-zero divisor"
  | outOfBounds => "Detects in-bounds pointer arithmetic that can leave its object"

/-- All checkers, in the order in which they judge. -/
def all : List Checker := [nullDereference, divisionByZero, outOfBounds]

/-- The checker of a name. -/
def ofName? (n : String) : Option Checker := all.find? (·.name == n)

/-! ## Selection -/

/-- A list with a name put in its place in the order of code points, unless it is there. -/
def insertName (n : String) : List String → List String
  | [] => [n]
  | m :: ms => if n = m then m :: ms else if n < m then n :: m :: ms else m :: insertName n ms

/-- The names that are not those of checkers, sorted and each once. -/
def unknown (names : List String) : List String :=
  (names.filter fun n => (ofName? n).isNone).foldl (fun ns n => insertName n ns) []

/-- The checkers of some names, in the order in which they judge; or the names that are not known. -/
def select (names : List String) : Except (List String) (List Checker) :=
  match unknown names with
  | [] => .ok (all.filter fun c => names.contains c.name)
  | ns => .error ns

/-- What is said of names that are not known. -/
def unknownMessage (names : List String) : String := "unknown checker(s): " ++ ", ".intercalate names

/-! ## Watching -/

/-- Ends a path before a division whose divisor can be zero. -/
def watchDivision : Monitor := fun s site =>
  match site.instr.op with
  | .arith op _ _ divisor =>
    if Value.divides op then do
      let v ← site.eval s divisor
      if ← Machine.sat [v.equals 0] then Machine.fault (.divisor site.location site.text)
    else pure ()
  | _ => pure ()

/-- Ends a path before an address computation that can leave the object it is said to stay in. -/
def watchOffset : Monitor := fun s site =>
  match site.instr.op with
  | .gep true address source indices => do
    let object := site.routine.scope.accessType address source
    let size ← Machine.sizeInBytes s object
    let offset ← Machine.offset s (site.eval s) s.pointerBits object indices
    let leaves ← Machine.valueOr ((Value.ofNat offset.width size).cmp .ule offset)
    if ← Machine.sat [leaves] then Machine.fault (.offset size site.location site.text)
  | _ => pure ()

/-- What a checker watches, if it does. Null pointers are watched by the machine itself. -/
def monitor? : Checker → Option Monitor
  | nullDereference => none
  | divisionByZero => some watchDivision
  | outOfBounds => some watchOffset

/-! ## Judging -/

/-- What a checker says about a fault: the message if it is a violation of its kind. -/
def judge : Checker → Fault → Option String
  | nullDereference, .rejected cause =>
    if cause.kind = .nullPointerDereference then some s!"{cause.message} inside hooked call" else none
  | nullDereference, f =>
    if f.kind = .nullPointerDereference ∨ f.kind = .nullDereference then some f.message else none
  | divisionByZero, f => if f.kind = .divisionByZero then some f.message else none
  | outOfBounds, f => if f.kind = .outOfBounds then some f.message else none

/-- The verdict of checkers, in order, about a result. -/
def verdict (checkers : List Checker) (r : Result) : Verdict :=
  (checkers.findSome? fun c => (r.fault?.bind c.judge).map fun m => ⟨some c, m⟩).getD .pass

end Checker

end PathSafety
