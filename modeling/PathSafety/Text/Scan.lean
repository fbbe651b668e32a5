import PathSafety.Text.CharClass

/-!
# Scanning

Small readers over lists of characters. A reader that fails gives `none`; one that succeeds gives what it
read and the rest.
-/

namespace PathSafety.Text

/-- The rest of a text after a beginning. -/
def dropPrefix? : List Char → List Char → Option (List Char)
  | [], s => some s
  | c :: cs, d :: ds => if c = d then dropPrefix? cs ds else none
  | _ :: _, [] => none

/-- Whether a text begins with another. -/
def startsWith (p s : List Char) : Bool := (dropPrefix? p s).isSome

/-- The text before an ending. -/
def dropSuffix? (p s : List Char) : Option (List Char) :=
  (dropPrefix? p.reverse s.reverse).map List.reverse

/-- The text before and the text after the first occurrence of a pattern. -/
def splitFirst? (p : List Char) : List Char → Option (List Char × List Char)
  | [] => if p.isEmpty then some ([], []) else none
  | c :: cs =>
    match dropPrefix? p (c :: cs) with
    | some rest => some ([], rest)
    | none => (splitFirst? p cs).map fun (before, after) => (c :: before, after)

/-- The text before and the text after the last occurrence of a pattern. -/
def splitLast? (p s : List Char) : Option (List Char × List Char) :=
  (splitFirst? p.reverse s.reverse).map fun (after, before) => (before.reverse, after.reverse)

/-- The decimal digits that a text begins with, by value. -/
def digits : List Char → List Nat × List Char
  | [] => ([], [])
  | c :: cs =>
    match digitValue? c with
    | some d => let (ds, rest) := digits cs; (d :: ds, rest)
    | none => ([], c :: cs)

/-- The number that decimal digits write. -/
def ofDigits (ds : List Nat) : Nat := ds.foldl (fun n d => 10 * n + d) 0

/-- A number of at least one digit. -/
def nat? (s : List Char) : Option (Nat × List Char) :=
  match digits s with
  | ([], _) => none
  | (ds, rest) => some (ofDigits ds, rest)

/-- A number with an optional minus sign. -/
def int? : List Char → Option (Int × List Char)
  | '-' :: s => (nat? s).map fun (n, rest) => (-(n : Int), rest)
  | s => (nat? s).map fun (n, rest) => ((n : Int), rest)

/-- Decimal digits that are all of a text; single underscores may stand between them. -/
def groupedDigits? : List Char → Option (List Nat)
  | [] => none
  | [c] => (digitValue? c).map ([·])
  | c :: '_' :: cs => do return (← digitValue? c) :: (← groupedDigits? cs)
  | c :: cs => do return (← digitValue? c) :: (← groupedDigits? cs)

/-- Whether a text begins with a minus sign, and what follows a sign. -/
def splitSign : List Char → Bool × List Char
  | '-' :: s => (true, s)
  | '+' :: s => (false, s)
  | s => (false, s)

/-- The integer that all of a text is, with or without a sign, of at most `bound` digits. -/
def groupedInt? (bound : Nat) (s : List Char) : Option Int := do
  let (negative, s) := splitSign s
  let ds ← groupedDigits? s
  if ds.length > bound then none
  let n := ofDigits ds
  return if negative then -n else n

/-- At least one blank. -/
def blanks? : List Char → Option (List Char)
  | c :: cs => if isBlank c then some (trimLeft cs) else none
  | [] => none

/-- The value of a hexadecimal digit. -/
def hexValue? (c : Char) : Option Nat :=
  if '0' ≤ c && c ≤ '9' then some (c.toNat - 48)
  else if 'a' ≤ c && c ≤ 'f' then some (c.toNat - 87)
  else if 'A' ≤ c && c ≤ 'F' then some (c.toNat - 55)
  else none

end PathSafety.Text
