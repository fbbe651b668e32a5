import PathSafety.Name.Mangled.Component

/-!
# Readers of mangled names

A reader takes characters off a mangled name and remembers what later parts of the name may refer to: the
components that stand for substitutions, and the name that a constructor takes.

Contents:

* `Reading`, `Reader` — the state and the readers;
* characters, numbers, source names, sequences;
* `Reader.substitution` — what a substitution stands for.
-/

namespace PathSafety.Name.Mangled

/-- How far a name has been read. -/
structure Reading where
  rest : List Char
  substitutions : Array Component := #[]
  /-- The name that constructors and destructors take. -/
  lastName : Option Component := none
  inExpression : Bool := false
  inConversion : Bool := false
  /-- Whether the scopes of a name in an expression end by a letter of their own. -/
  closedScopes : Bool := true

/-- Reads a part of a name. -/
abbrev Reader := StateT Reading Option

namespace Reader

variable {α : Type}

/-- The next character. -/
def peek : Reader (Option Char) := return (← get).rest.head?

/-- The character after the next. -/
def peekSecond : Reader (Option Char) := return (← get).rest[1]?

/-- Whether a character comes next. -/
def sees (c : Char) : Reader Bool := return (← peek) == some c

/-- Whether two characters come next. -/
def seesBoth (c d : Char) : Reader Bool := return (← peek) == some c && (← peekSecond) == some d

/-- Leaves characters out. -/
def skip (n : Nat) : Reader Unit := modify fun r => { r with rest := r.rest.drop n }

/-- The next character, which is read. -/
def next : Reader Char := do
  match ← peek with
  | some c => skip 1; return c
  | none => failure

/-- Reads a character if it comes next, and says whether it did. -/
def accept (c : Char) : Reader Bool := do
  if ← sees c then skip 1; return true
  else return false

/-- Reads a character that has to come next. -/
def expect (c : Char) : Reader Unit := do
  if !(← accept c) then failure

/-- Reads the characters of a class that come next. -/
def span (p : Char → Bool) : Reader (List Char) := do
  let text := (← get).rest.takeWhile p
  skip text.length
  return text

/-- A larger number than any that a name may hold. -/
def numberBound : Nat := 0x80000000

/-- A number; no digits are zero. -/
def number : Reader Nat := do
  let n := (← span Char.isDigit).foldl (fun n c => 10 * n + (c.toNat - 48)) 0
  if n < numberBound then return n else failure

/-- A number which may be negative, and whether it is. -/
def signedNumber : Reader (Bool × Nat) := do
  let negative ← accept 'n'
  return (negative, ← number)

/-- A number that is counted from nothing at all: `_`, `0_`, `1_` and so on. -/
def compactNumber : Reader Nat := do
  if ← accept '_' then return 0
  let n ← number
  expect '_'
  return n + 1

/-- Reads items while a test holds before each; each has to take something off the name. -/
def manyWhile (test : Reader Bool) (item : Reader α) : Reader (List α) := do
  loop ((← get).rest.length + 1)
where
  /-- At most `fuel` items. -/
  loop : Nat → Reader (List α)
    | 0 => failure
    | fuel + 1 => do
      if ← test then
        let a ← item
        return a :: (← loop fuel)
      else return []

/-- Reads items up to a character, which is read too. -/
def manyUntil (stop : Char) (item : Reader α) : Reader (List α) := do
  let items ← manyWhile (return !(← sees stop)) item
  expect stop
  return items

/-- Reads at least one item up to a character, which is read too. -/
def someUntil (stop : Char) (item : Reader α) : Reader (List α) := do
  let a ← item
  return a :: (← manyUntil stop item)

/-- What compilers write for the anonymous namespace. -/
def isAnonymous (text : List Char) : Bool :=
  match text with
  | '_' :: 'G' :: 'L' :: 'O' :: 'B' :: 'A' :: 'L' :: '_' :: c :: 'N' :: _ => ['.', '_', '$'].contains c
  | _ => false

/-- The name of a given length. -/
def identifier (length : Nat) : Reader Component := do
  let text := (← get).rest.take length
  if length = 0 || text.length < length then failure
  skip length
  return .name (if isAnonymous text then "(anonymous namespace)".toList else text)

/-- A name behind its length. -/
def sourceName : Reader Component := do
  let c ← identifier (← number)
  modify fun r => { r with lastName := some c }
  return c

/-- Does not let a reader change the name that constructors take. -/
def keepingLastName (read : Reader α) : Reader α := do
  let last := (← get).lastName
  let a ← read
  modify fun r => { r with lastName := last }
  return a

/-- Remembers a component for substitutions. -/
def remember (c : Component) : Reader Component := do
  modify fun r => { r with substitutions := r.substitutions.push c }
  return c

/-- The tags of a name. -/
def tags (c : Component) : Reader Component :=
  keepingLastName do
    let tags ← manyWhile (sees 'B') (skip 1 *> sourceName)
    return tags.foldl .tagged c

/-- Tells entities of one name apart; nothing is written for it. -/
def discriminator : Reader Unit := do
  if ← accept '_' then
    let long ← accept '_'
    let n ← number
    if long && n ≥ 10 then expect '_'

/-- The digits of the numbers of substitutions. -/
def isSubstitutionDigit (c : Char) : Bool := c.isDigit || c.isUpper

/-- The number that digits to the base of 36 write. -/
def substitutionNumber (digits : List Char) : Nat :=
  digits.foldl (fun n c => 36 * n + (if c.isDigit then c.toNat - 48 else c.toNat - 55)) 0

/-- The abbreviation of a standard name: what it is written as, what it is written as in full, and the name
that its constructors take. -/
def standardName? : Char → Option (String × String × Option String)
  | 't' => some ("std", "std", none)
  | 'a' => some ("std::allocator", "std::allocator", some "allocator")
  | 'b' => some ("std::basic_string", "std::basic_string", some "basic_string")
  | 's' =>
    some ("std::string", "std::basic_string<char, std::char_traits<char>, std::allocator<char> >",
      some "basic_string")
  | 'i' =>
    some ("std::istream", "std::basic_istream<char, std::char_traits<char> >", some "basic_istream")
  | 'o' =>
    some ("std::ostream", "std::basic_ostream<char, std::char_traits<char> >", some "basic_ostream")
  | 'd' =>
    some ("std::iostream", "std::basic_iostream<char, std::char_traits<char> >", some "basic_iostream")
  | _ => none

/-- A substitution. As a scope, a standard name is written in full before a constructor or destructor. -/
def substitution (asScope : Bool) : Reader Component := do
  expect 'S'
  let digits ← span isSubstitutionDigit
  if !digits.isEmpty || (← sees '_') then
    expect '_'
    let index := if digits.isEmpty then 0 else substitutionNumber digits + 1
    StateT.lift (← get).substitutions[index]?
  else
    let (short, full, last) ← StateT.lift (standardName? (← next))
    let inFull := asScope && ((← sees 'C') || (← sees 'D'))
    if let some last := last then
      modify fun r => { r with lastName := some (.standard last) }
    let c := .standard (if inFull then full else short)
    if ← sees 'B' then remember (← tags c) else return c

end Reader

end PathSafety.Name.Mangled
