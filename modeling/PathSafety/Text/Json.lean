import PathSafety.Text.Quoted
import PathSafety.Text.Scan

/-!
# JSON values

Values of JSON and two ways to write them: as JSON text over several lines, in which every character is
printable ASCII, and as they are shown in messages.

Contents:

* `Json` — the values;
* `Json.number` as text: `decimalText`;
* `Json.render` — JSON text;
* `Json.shown` — a value in a message, and `tupleShown`, several of them.
-/

namespace PathSafety.Text

/-- A value of JSON. A number is an integer without decimals, or its digits before and after the point. -/
inductive Json where
  | null
  | bool (b : Bool)
  | number (digits : Int) (decimals : Nat)
  | text (s : String)
  | list (items : List Json)
  | record (fields : List (String × Json))
  deriving Inhabited

namespace Json

/-- An integer. -/
def int (n : Int) : Json := number n 0

/-- A list of texts. -/
def texts (ss : List String) : Json := list (ss.map text)

/-- The value of a field. -/
def field? (name : String) : Json → Option Json
  | record fields => fields.lookup name
  | _ => none

/-! ## Numbers -/

/-- The last power of ten that is written with zeros before the point. -/
def greatestExponent : Int := 16

/-- The last power of ten that is written with zeros behind the point. -/
def leastExponent : Int := -4

/-- The digits of a number without the zeros at its end. -/
def significant (n : Nat) : List Char :=
  let ds := (Nat.toDigits 10 n).reverse.dropWhile (· == '0')
  if ds.isEmpty then ['0'] else ds.reverse

/-- A number with a point, of digits of which `places` stand behind it: positional if it is neither very
large nor very small, with an exponent else. -/
def decimalText (n places : Nat) : List Char :=
  let ds := significant n
  let exponent : Int := if n = 0 then 0 else ((Nat.toDigits 10 n).length : Int) - 1 - places
  if exponent < leastExponent ∨ greatestExponent ≤ exponent then
    let rest := ds.tail
    let power := Nat.toDigits 10 exponent.natAbs
    ds.take 1 ++ (if rest.isEmpty then [] else '.' :: rest) ++
      ['e', if exponent < 0 then '-' else '+'] ++ List.replicate (2 - power.length) '0' ++ power
  else if exponent < 0 then
    '0' :: '.' :: List.replicate (exponent.natAbs - 1) '0' ++ ds
  else
    let whole := exponent.toNat + 1
    let rest := ds.drop whole
    ds.take whole ++ List.replicate (whole - ds.length) '0' ++ '.' :: (if rest.isEmpty then ['0'] else rest)

/-- How a number is written. -/
def numberText (digits : Int) (decimals : Nat) : String :=
  if decimals = 0 then toString digits
  else String.ofList ((if digits < 0 then ['-'] else []) ++ decimalText digits.natAbs decimals)

/-! ## JSON text -/

/-- A code unit of sixteen bits, escaped. -/
def escapeUnit (n : Nat) : List Char := '\\' :: 'u' :: hexDigits 4 n

/-- A character in a JSON string. -/
def escapeChar (c : Char) : List Char :=
  let n := c.toNat
  if c = '"' ∨ c = '\\' then ['\\', c]
  else if c = '\n' then ['\\', 'n']
  else if c = '\r' then ['\\', 'r']
  else if c = '\t' then ['\\', 't']
  else if n = 8 then ['\\', 'b']
  else if n = 12 then ['\\', 'f']
  else if 32 ≤ n ∧ n < 127 then [c]
  else if n < 0x10000 then escapeUnit n
  else
    let k := n - 0x10000
    escapeUnit (0xd800 + k / 0x400) ++ escapeUnit (0xdc00 + k % 0x400)

/-- A JSON string. -/
def escaped (s : String) : String := String.ofList ('"' :: (s.toList.flatMap escapeChar ++ ['"']))

/-- The beginning of a line `depth` steps deep. -/
def newline (indent depth : Nat) : String := String.ofList ('\n' :: List.replicate (indent * depth) ' ')

/-- Members between brackets, each on a line of its own. -/
def enclosed (indent depth : Nat) (opening closing : String) (members : List String) : String :=
  if members.isEmpty then opening ++ closing
  else
    opening ++ ",".intercalate (members.map (newline indent (depth + 1) ++ ·)) ++ newline indent depth ++
      closing

mutual

/-- JSON text, the value standing `depth` steps deep. -/
def renderAt (indent depth : Nat) : Json → String
  | null => "null"
  | bool b => if b then "true" else "false"
  | number n k => numberText n k
  | text s => escaped s
  | list items => enclosed indent depth "[" "]" (renderItems indent depth items)
  | record fields => enclosed indent depth "\x7b" "\x7d" (renderFields indent depth fields)

/-- The texts of the items of a list. -/
def renderItems (indent depth : Nat) : List Json → List String
  | [] => []
  | j :: js => renderAt indent (depth + 1) j :: renderItems indent depth js

/-- The texts of the fields of a record. -/
def renderFields (indent depth : Nat) : List (String × Json) → List String
  | [] => []
  | (k, j) :: fields =>
    (escaped k ++ ": " ++ renderAt indent (depth + 1) j) :: renderFields indent depth fields

end

/-- JSON text with a number of blanks for each step. -/
def render (indent : Nat) (j : Json) : String := renderAt indent 0 j

/-! ## Messages -/

mutual

/-- A value inside another in a message. -/
def shownInside : Json → String
  | null => "None"
  | bool b => if b then "True" else "False"
  | number n k => numberText n k
  | text s => quoted s
  | list items => "[" ++ ", ".intercalate (shownItems items) ++ "]"
  | record fields => "\x7b" ++ ", ".intercalate (shownFields fields) ++ "\x7d"

/-- The items of a list in a message. -/
def shownItems : List Json → List String
  | [] => []
  | j :: js => shownInside j :: shownItems js

/-- The fields of a record in a message. -/
def shownFields : List (String × Json) → List String
  | [] => []
  | (k, j) :: fields => (quoted k ++ ": " ++ shownInside j) :: shownFields fields

end

/-- A value in a message: a text stands for itself. -/
def shown : Json → String
  | text s => s
  | j => shownInside j

/-- Several values in a message; a single one is told from a value in parentheses by a comma. -/
def tupleShown (js : List Json) : String :=
  match shownItems js with
  | [s] => s!"({s},)"
  | ss => "(" ++ ", ".intercalate ss ++ ")"

end Json

end PathSafety.Text
