import PathSafety.Text.Scan

/-!
# Command line options

How the arguments of the command are read: options that begin with dashes, and words, the first of which
names the target and the others the functions. An option may be shortened as long as it is the only one
that begins so, options of one letter may be written together, and all behind a double dash are words.

Contents:

* `Flag`, `Options` — the options and what they come to;
* `Item`, `Item.all?` — the arguments one by one;
* `Request`, `Request.ofArgs` — what a command line asks for;
* `integer?` — how numbers are written.
-/

namespace PathSafety.Command

open Text

/-- The options. -/
inductive Flag where
  | help | output | bound | noNullChecks | checkers | verbose | debug | json | version
  deriving DecidableEq, Repr

namespace Flag

/-- How the options are spelled. -/
def spellings : List (String × Flag) :=
  [("-h", help), ("--help", help), ("-o", output), ("--output", output), ("--bound", bound),
   ("--no-null-checks", noNullChecks), ("--checkers", checkers), ("-v", verbose),
   ("--verbose", verbose), ("--debug", debug), ("--json", json), ("--version", version)]

/-- The option that is spelled so. -/
def ofSpelling? (s : List Char) : Option Flag := spellings.lookup (String.ofList s)

/-- Whether an option is followed by a value. -/
def takesValue : Flag → Bool
  | output | bound | checkers => true
  | _ => false

end Flag

/-- What the options come to. -/
structure Options where
  target : String := ""
  functions : List String := []
  output : Option String := none
  bound : Int := 1000
  noNullChecks : Bool := false
  checkers : String := "null_dereference,division_by_zero,out_of_bounds"
  verbose : Bool := false
  debug : Bool := false
  json : Bool := false
  deriving DecidableEq, Repr

/-- The greatest number of digits of a number. -/
def digitBound : Nat := 4300

/-- An integer in decimal digits of any script, with or without a sign. -/
def integer? (s : String) : Option Int := groupedInt? digitBound (trim s.toList)

/-! ## Arguments one by one -/

/-- An argument. -/
inductive Item where
  | word (s : String)
  /-- The double dash. -/
  | dashes
  /-- An option in the spelling that was used, and the value that stands in the same argument. -/
  | option (flag : Flag) (spelling : List Char) (value : Option (List Char))
  /-- What looks like an option and is none. -/
  | unknown (s : String)
  deriving DecidableEq, Repr

namespace Item

/-- What stands before and what stands behind the equals sign, if there is one. -/
def splitValue (s : List Char) : List Char × Option (List Char) :=
  match splitFirst? ['='] s with
  | some (name, value) => (name, some value)
  | none => (s, none)

/-- The options that an argument may be short for. -/
def matching (s : List Char) : List Item :=
  match s with
  | '-' :: '-' :: _ =>
    let (name, value) := splitValue s
    (Flag.spellings.filter fun (n, _) => startsWith name n.toList).map fun (n, f) =>
      .option f n.toList value
  | d :: c :: rest =>
    Flag.spellings.filterMap fun (n, f) =>
      if n.toList = [d, c] then some (.option f [d, c] (some rest))
      else if startsWith s n.toList then some (.option f n.toList none)
      else none
  | _ => []

/-- Whether a text is a negative number: digits behind a minus sign, with at most one point that digits
stand behind. -/
def isNegativeNumber (s : List Char) : Bool :=
  match s with
  | '-' :: s =>
    let isDigit (c : Char) : Bool := (digitValue? c).isSome
    let rest := s.dropWhile isDigit
    match rest with
    | [] => !s.isEmpty
    | '.' :: places => !places.isEmpty && places.all isDigit
    | _ => false
  | _ => false

/-- The option that an argument is spelled as, in full or before an equals sign. -/
def spelled? (s : List Char) : Option Item :=
  match Flag.ofSpelling? s with
  | some f => some (.option f s none)
  | none =>
    match splitValue s with
    | (name, some value) => (Flag.ofSpelling? name).map fun f => .option f name (some value)
    | (_, none) => none

/-- An argument that is not a double dash; none if it is short for several options. -/
def of? (arg : String) : Option Item :=
  match arg.toList with
  | [] | ['-'] => some (.word arg)
  | s@('-' :: _) =>
    match spelled? s with
    | some i => some i
    | none =>
      match matching s with
      | [i] => some i
      | _ :: _ :: _ => none
      | [] => if isNegativeNumber s || s.contains ' ' then some (.word arg) else some (.unknown arg)
  | _ => some (.word arg)

/-- The arguments of a command line. -/
def all? : List String → Option (List Item)
  | [] => some []
  | "--" :: rest => some (.dashes :: rest.map .word)
  | arg :: rest => do return (← of? arg) :: (← all? rest)

/-- Whether an argument is a word or the double dash. -/
def isPositional : Item → Bool
  | word _ | dashes => true
  | _ => false

/-- A word or the double dash, as it is written. -/
def text : Item → String
  | word s | unknown s => s
  | dashes => "--"
  | option _ spelling _ => String.ofList spelling

end Item

/-! ## Command lines -/

/-- What a command line asks for. -/
inductive Request where
  | analyze (o : Options)
  | help
  | version
  /-- Nothing that can be done. -/
  | misuse
  deriving DecidableEq, Repr

/-- How far a command line has been read. -/
structure Reading where
  options : Options := {}
  hasTarget : Bool := false
  hasFunctions : Bool := false
  /-- Whether there is something that belongs nowhere. -/
  hasExtras : Bool := false

namespace Reading

/-- Sets an option without a value; two of them end the reading. -/
def set (r : Reading) : Flag → Except Request Reading
  | .help => throw .help
  | .version => throw .version
  | .noNullChecks => return { r with options := { r.options with noNullChecks := true } }
  | .verbose => return { r with options := { r.options with verbose := true } }
  | .debug => return { r with options := { r.options with debug := true } }
  | .json => return { r with options := { r.options with json := true } }
  | _ => throw .misuse

/-- Sets an option to a value. -/
def setTo (r : Reading) (flag : Flag) (value : String) : Except Request Reading :=
  match flag with
  | .output => return { r with options := { r.options with output := some value } }
  | .checkers => return { r with options := { r.options with checkers := value } }
  | .bound =>
    match integer? value with
    | some n => return { r with options := { r.options with bound := n } }
    | none => throw .misuse
  | _ => throw .misuse

/-- What options of one letter in one argument mean: options without a value, and at most one that has a
value or waits for it. -/
def letters? (flag : Flag) : List Char → Option (List Flag × Option (Flag × Option (List Char)))
  | [] => some (if flag.takesValue then ([], some (flag, none)) else ([flag], none))
  | c :: cs =>
    if flag.takesValue then some ([], some (flag, some (c :: cs)))
    else do
      let next ← Flag.ofSpelling? ['-', c]
      let (flags, last) ← letters? next cs
      return (flag :: flags, last)

/-- What an option means. -/
def meaning? (flag : Flag) (spelling : List Char) (value : Option (List Char)) :
    Option (List Flag × Option (Flag × Option (List Char))) :=
  match value with
  | none => letters? flag []
  | some value =>
    if flag.takesValue then some ([], some (flag, some value))
    else if startsWith ['-', '-'] spelling || value.isEmpty then none
    else letters? flag value

/-- Reads words: the target, then the functions. Words of which there is no need are left over. -/
def takeWords (r : Reading) (items : List Item) : Reading :=
  let isWord (i : Item) : Bool := i != .dashes
  let functionsOf (items : List Item) : List String := (items.map Item.text).erase "--"
  let words := items.filter isWord
  if words.isEmpty then { r with hasExtras := r.hasExtras || !items.isEmpty }
  else if r.hasFunctions then { r with hasExtras := true }
  else if r.hasTarget then
    { r with hasFunctions := true, options := { r.options with functions := functionsOf items } }
  else
    let behind := (items.dropWhile fun i => !isWord i).drop 1
    let rest := behind.dropWhile fun i => !isWord i
    let r := { r with
      hasTarget := true
      options := { r.options with target := (words.map Item.text).headD "" } }
    if rest.isEmpty then r
    else { r with hasFunctions := true, options := { r.options with functions := functionsOf rest } }

/-- Reads arguments; at most `fuel` of them. -/
def takeAll : Nat → Reading → List Item → Except Request Reading
  | 0, r, _ => return r
  | _, r, [] => return r
  | fuel + 1, r, .unknown _ :: rest => takeAll fuel { r with hasExtras := true } rest
  | fuel + 1, r, .option flag spelling value :: rest =>
    match meaning? flag spelling value, rest with
    | none, _ => throw .misuse
    | some (flags, none), rest => do takeAll fuel (← flags.foldlM set r) rest
    | some (flags, some (last, some value)), rest => do
      takeAll fuel (← (← flags.foldlM set r).setTo last (String.ofList value)) rest
    | some (flags, some (last, none)), .word value :: rest => do
      takeAll fuel (← (← flags.foldlM set r).setTo last value) rest
    | some (_, some (_, none)), _ => throw .misuse
  | fuel + 1, r, items =>
    let run := items.takeWhile Item.isPositional
    takeAll fuel (r.takeWords run) (items.drop run.length)

/-- The request that the reading comes to. -/
def request (r : Reading) : Request :=
  if r.hasTarget && r.hasFunctions && !r.hasExtras then .analyze r.options else .misuse

end Reading

/-- What a command line asks for. -/
def Request.ofArgs (args : List String) : Request :=
  match Item.all? args with
  | none => .misuse
  | some items =>
    match Reading.takeAll items.length {} items with
    | .ok r => r.request
    | .error stop => stop

end PathSafety.Command
