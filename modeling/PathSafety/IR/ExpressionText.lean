import PathSafety.Text.Scan

/-!
# The text of constant expressions

Constant expressions are kept as they are written. The readers here find the parts that give them a
meaning: address computations on one global, and conversions of a global, an integer, a null pointer or
another constant expression.
-/

namespace PathSafety.IR.ExpressionText

open PathSafety.Text

/-- The operands of an address computation: all between the parentheses. -/
def addressOperands? (text : List Char) : Option (List Char) := do
  let body ← dropPrefix? "getelementptr ".toList text
  let body := (dropPrefix? "inbounds ".toList body).getD body
  let body ← dropPrefix? ['('] body
  dropSuffix? [')'] body

/-- The conversions that a constant expression can name. -/
def castKeywords : List (List Char) :=
  ["bitcast", "ptrtoint", "inttoptr", "addrspacecast"].map String.toList

/-- The operand of a conversion: all before the last `to`, after which no parenthesis stands. -/
def castOperand? (text : List Char) : Option (List Char) := do
  let body ← castKeywords.findSome? fun k => dropPrefix? (k ++ " (".toList) text
  let body ← dropSuffix? [')'] body
  let (operand, target) ← splitLast? " to ".toList body
  if target.contains '(' || target.contains ')' then none else some (trim operand)

/-- The characters of a name between quotes, up to the closing quote, escapes resolved. -/
def quotedName? : List Char → Option (List Char × List Char)
  | '"' :: rest => some ([], rest)
  | '\\' :: a :: b :: rest => do
    let x ← hexValue? a
    let y ← hexValue? b
    let (name, rest) ← quotedName? rest
    return (Char.ofNat (16 * x + y) :: name, rest)
  | '\\' :: _ => none
  | c :: rest => (quotedName? rest).map fun (name, rest) => (c :: name, rest)
  | [] => none

/-- Whether a character can stand in a name without quotes. -/
def isNameChar (c : Char) : Bool := isWord c || c == '-' || c == '$' || c == '.'

/-- The name that a reference to a global gives, after its `@`. -/
def globalName? : List Char → Option (List Char × List Char)
  | '"' :: rest => quotedName? rest
  | s => match s.takeWhile isNameChar with
    | [] => none
    | name => some (name, s.dropWhile isNameChar)

/-- The references to globals in a text, each with the text after it. -/
def references (fuel : Nat) : List Char → List (List Char × List Char)
  | [] => []
  | c :: s =>
    match fuel with
    | 0 => []
    | fuel + 1 =>
      if c = '@' then
        match globalName? s with
        | some (name, rest) => (name, rest) :: references fuel rest
        | none => references fuel s
      else references fuel s

/-- The only reference to a global in a text, with the text after it. -/
def onlyReference? (text : List Char) : Option (String × List Char) :=
  match references text.length text with
  | [(name, rest)] => some (String.ofList name, rest)
  | _ => none

/-- One index of an address computation: its width and its value. -/
def index? (s : List Char) : Option ((Nat × Int) × List Char) := do
  let s ← dropPrefix? [','] s
  let s ← dropPrefix? ['i'] (trimLeft s)
  let (width, s) ← nat? s
  let s ← blanks? s
  let (n, s) ← int? s
  return ((width, n), s)

/-- The indices of an address computation, if nothing else is written. -/
def indices? (fuel : Nat) (s : List Char) : Option (List (Nat × Int)) :=
  if s.all isBlank then some []
  else
    match fuel with
    | 0 => none
    | fuel + 1 => do
      let (i, rest) ← index? s
      let is ← indices? fuel rest
      return i :: is

/-- The keyword of a nested constant expression, if one begins here. -/
def nestedAt? (s : List Char) : Option (List Char) :=
  ("getelementptr".toList :: castKeywords).find? fun k =>
    match dropPrefix? (k ++ [' ']) s with
    | some rest => startsWith ['('] ((dropPrefix? "inbounds ".toList rest).getD rest) ||
        startsWith ['('] rest
    | none => false

/-- The first nested constant expression in an operand: its keyword, and the text from there on. A
keyword inside a longer word does not count. -/
def nested? (afterWord : Bool) : List Char → Option (List Char × List Char)
  | [] => none
  | c :: s =>
    match (if afterWord then none else nestedAt? (c :: s)) with
    | some k => some (k, c :: s)
    | none => nested? (isWord c) s

/-- The width that a conversion to an integer ends with. -/
def targetWidth? (text : List Char) : Option Nat := do
  let body ← dropSuffix? [')'] text
  let (_, target) ← splitLast? " to i".toList body
  match ← nat? target with
  | (n, []) => some n
  | _ => none

/-- An integer operand: its width, and its value, which is written after its type. -/
def integer? (s : List Char) : Option (Nat × Int) := do
  let s ← dropPrefix? ['i'] s
  let (width, s) ← nat? s
  let s ← blanks? s
  match ← int? s with
  | (n, []) => some (width, n)
  | _ => none

/-- Whether an operand is a null pointer. -/
def isNull (s : List Char) : Bool := (dropSuffix? " null".toList s).isSome

end PathSafety.IR.ExpressionText
