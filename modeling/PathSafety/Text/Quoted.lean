import PathSafety.Text.CharClass

/-!
# Quoted text

How messages quote a name: between single quotes, or double ones if the name holds a single and no
double quote; the quote, the backslash and characters without a visible form are escaped.
-/

namespace PathSafety.Text

/-- `n` in hexadecimal, lower case, with at least `width` digits. -/
def hexDigits (width n : Nat) : List Char :=
  let ds := Nat.toDigits 16 n
  List.replicate (width - ds.length) '0' ++ ds

/-- `n` in hexadecimal without leading zeros. -/
def hex (n : Nat) : String := String.ofList (Nat.toDigits 16 n)

/-- The quotation mark for a text. -/
def quoteFor (s : List Char) : Char :=
  if s.contains '\'' && !s.contains '"' then '"' else '\''

/-- One character inside quotation marks `q`. -/
def quoteChar (q c : Char) : List Char :=
  if c == q || c == '\\' then ['\\', c]
  else if c == '\n' then ['\\', 'n']
  else if c == '\r' then ['\\', 'r']
  else if c == '\t' then ['\\', 't']
  else if isPrintable c then [c]
  else if c.toNat < 0x100 then '\\' :: 'x' :: hexDigits 2 c.toNat
  else if c.toNat < 0x10000 then '\\' :: 'u' :: hexDigits 4 c.toNat
  else '\\' :: 'U' :: hexDigits 8 c.toNat

/-- A text between quotation marks. -/
def quote (s : List Char) : List Char :=
  let q := quoteFor s
  q :: (s.flatMap (quoteChar q) ++ [q])

/-- A string between quotation marks. -/
def quoted (s : String) : String := String.ofList (quote s.toList)

end PathSafety.Text
