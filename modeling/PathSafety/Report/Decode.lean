import PathSafety.Report.Basic

/-!
# Reading reports

A report from a JSON value. Fields that are not known are left out of account; some fields may be absent.
Numbers and truth values may be written in several ways, texts and lists in one only.

Contents:

* `intOf?`, `boolOf?`, `listOf?` — values of one kind;
* `Report.ofJson?` — the report that a value stands for.
-/

namespace PathSafety

open Text

namespace Report

/-! ## Values -/

/-- The greatest number of digits of an integer in a text. -/
def digitBound : Nat := 4300

/-- A text without a point and zeros at its end. -/
def dropZeroDecimals (s : List Char) : List Char :=
  match splitFirst? ['.'] s with
  | some (whole, decimals) => if decimals.all (· == '0') then whole else s
  | none => s

/-- An integer, as a number without a fraction or as a text. -/
def intOf? : Json → Option Int
  | .number n k => if n % (Nat.pow 10 k : Int) = 0 then some (n / (Nat.pow 10 k : Int)) else none
  | .bool b => some (if b then 1 else 0)
  | .text s => groupedInt? digitBound (dropZeroDecimals (trim s.toList))
  | _ => none

/-- The texts that stand for truth. -/
def trueTexts : List String := ["1", "true", "t", "yes", "y", "on"]

/-- The texts that stand for falsehood. -/
def falseTexts : List String := ["0", "false", "f", "no", "n", "off"]

/-- A truth value, as such, as a number or as a text. -/
def boolOf? : Json → Option Bool
  | .bool b => some b
  | .number n k =>
    if n = 0 then some false else if n = (Nat.pow 10 k : Int) then some true else none
  | .text s =>
    let s := s.map Char.toLower
    if trueTexts.contains s then some true else if falseTexts.contains s then some false else none
  | _ => none

/-- A text. -/
def textOf? : Json → Option String
  | .text s => some s
  | _ => none

/-- The items of a list, each read by `item`. -/
def listOf? {α : Type} (item : Json → Option α) : Json → Option (List α)
  | .list items => items.mapM item
  | _ => none

/-- A field that has to be there. -/
def required? {α : Type} (j : Json) (name : String) (read : Json → Option α) : Option α :=
  (j.field? name).bind read

/-- A field that may be absent. -/
def optional? {α : Type} (j : Json) (name : String) (absent : α) (read : Json → Option α) : Option α :=
  match j.field? name with
  | some v => read v
  | none => some absent

/-! ## Reports -/

/-- The kind of violation of a verdict. -/
def kindOf? : Json → Option (Option Checker)
  | .null => some none
  | .text s => (Checker.ofName? s).map some
  | _ => none

/-- A verdict. -/
def verdictOf? (j : Json) : Option Verdict :=
  match j with
  | .record _ => do
    return ⟨← optional? j "kind" none kindOf?, ← optional? j "message" "" textOf?⟩
  | _ => none

/-- A report of a path. -/
def pathOf? (j : Json) : Option PathReport :=
  match j with
  | .record _ => do
    return {
      index := ← required? j "index" intOf?
      result := ← required? j "result" textOf?
      blocks := ← optional? j "blocks" [] (listOf? textOf?)
      verdict := ← required? j "check" verdictOf?
      aborted := ← optional? j "aborted" false boolOf? }
  | _ => none

/-- A number or nothing. -/
def timeOf? : Json → Option Unit
  | .null | .bool _ | .number .. => some ()
  | j => (intOf? j).map fun _ => ()

/-- A report. How long the analysis took and the version of the program are only checked. -/
def ofJson? (j : Json) : Option Report := do
  optional? j "analysis_time" () timeOf?
  let _ ← optional? j "sandverify_version" "" textOf?
  return {
    function := ← required? j "function" textOf?
    paths := ← optional? j "paths" [] (listOf? pathOf?)
    errors := ← optional? j "error" [] (listOf? textOf?)
    loopBound := ← required? j "loop_bound" intOf? }

end Report

end PathSafety
