import PathSafety.Name.Bracket

/-!
# Descriptors

What a printed name says about the function that it names: the scopes, the function, the template
arguments, the parameters and the type of the result.

Contents:

* `Descriptor`, `Descriptor.qualifiedName`, `Descriptor.canonical` — what a name says, and the two names
  made from it; all instances of a template have one canonical name;
* `splitScopes`, `splitResult`, `splitParameters` — the parts of a name;
* `Descriptor.ofText?` — the descriptor of a printed name;
* `balancedTail?` — the name of the function alone, found by its brackets.
-/

namespace PathSafety.Name

open Text

/-- What a printed name says about a function. -/
structure Descriptor where
  /-- The scopes from the outermost to the innermost, as they are written. -/
  scopes : List (List Char)
  /-- The name of the function without its template arguments. -/
  function : List Char
  /-- The template arguments of the function, else those of the innermost scope that has any. -/
  templateArgs : Option (List (List Char)) := none
  parameters : List (List Char) := []
  result : Option (List Char) := none
  isOperator : Bool := false
  isConstructor : Bool := false
  isDestructor : Bool := false
  deriving DecidableEq, Repr

/-- What stands between scopes. -/
def separator : List Char := [':', ':']

/-- Names joined as scopes. -/
def joinScopes (names : List (List Char)) : List Char := separator.intercalate names

/-- The scopes that libraries insert for the versions of their binaries. -/
def inlineScopes : List (List Char) := ["__1".toList, "__cxx11".toList]

namespace Descriptor

variable (d : Descriptor)

/-- The scopes as they are written, and the function. -/
def qualifiedName : List Char := joinScopes (d.scopes ++ [d.function])

/-- The scopes without template arguments and without those that do not show in sources. -/
def canonicalScopes : List (List Char) :=
  (d.scopes.map eraseTemplates).filter fun scope => !inlineScopes.contains scope

/-- The function without template arguments; the name of an operator has none, though it may have angle
brackets. -/
def canonicalFunction : List Char := if d.isOperator then d.function else eraseTemplates d.function

/-- The name that all instances of a function share. -/
def canonical : List Char := joinScopes (d.canonicalScopes ++ [d.canonicalFunction])

end Descriptor

/-- The texts between separators of scopes. -/
def splitScopeTokens : List Token → List (List Char)
  | [] => [[]]
  | .char ':' :: .char ':' :: ts => [] :: splitScopeTokens ts
  | t :: ts =>
    match splitScopeTokens ts with
    | part :: parts => (t.text ++ part) :: parts
    | [] => [t.text]

/-- The parts of a qualified name, which separators outside of brackets part. -/
def splitScopes (s : List Char) : List (List Char) := splitScopeTokens (tokens s)

/-- What stands before and what stands after the last blank that no operator name precedes. -/
def splitBlank? : List Token → Option (List Char × List Char)
  | [] => none
  | t :: ts =>
    if t.isOperator then none
    else
      match splitBlank? ts with
      | some (before, after) => some (t.text ++ before, after)
      | none => if t = .char ' ' then some ([], Token.join ts) else none

/-- The type of the result, if it is written, and the qualified name. -/
def splitResult (head : List Char) : Option (List Char) × List Char :=
  match splitBlank? (tokens head) with
  | some (before, after) =>
    let before := trim before
    (if before.isEmpty then none else some before, trim after)
  | none => (none, trim head)

/-- What stands before and what stands behind the first parenthesis outside of brackets. -/
def splitParenthesis? : List Token → Option (List Char × List Char)
  | [] => none
  | t :: ts =>
    if t = .char '(' then some ([], Token.join ts)
    else (splitParenthesis? ts).map fun (before, behind) => (t.text ++ before, behind)

/-- What stands before the list of parameters, and the parameters. Where an angle bracket without a
partner hides the list, it begins at the first parenthesis. -/
def splitParameters (s : List Char) : List Char × List (List Char) :=
  let found :=
    match splitParenthesis? (tokens s) with
    | some parts => some parts
    | none => if anglesBalanced s then none else splitFirst? ['('] s
  match found with
  | some (head, behind) => (trimRight head, splitList (beforeClosing 0 behind))
  | none => (s, [])

/-- The function that the last part of a qualified name names, its template arguments, and whether it is
an operator. -/
def splitFunction (s : List Char) : List Char × Option (List (List Char)) × Bool :=
  match operatorName? none s with
  | some (name, rest) => (trimRight name, (splitTemplate (trim rest)).2, true)
  | none => ((splitTemplate s).1, (splitTemplate s).2, false)

namespace Descriptor

/-- The descriptor of a function by its qualified name. -/
def ofQualified (qualified : List Char) (parameters : List (List Char)) (result : Option (List Char)) :
    Descriptor :=
  let parts := splitScopes qualified
  let scopes := parts.dropLast
  let last := parts.getLast?.getD []
  let (function, args, isOperator) := splitFunction last
  let isDestructor := !isOperator && startsWith ['~'] last
  let names := scopes.getLast?.any fun scope => (splitTemplate scope).1 == function
  { scopes, function, parameters, result, isOperator, isDestructor
    templateArgs := args.or (scopes.reverse.findSome? fun scope => (splitTemplate scope).2)
    isConstructor := !isOperator && !isDestructor && names }

/-- The descriptor of a name whose angle brackets have no partners: nothing of it can be told apart. -/
def ofUnbalanced (head : List Char) (parameters : List (List Char)) : Descriptor :=
  { scopes := [], function := head, parameters
    isOperator := (splitFirst? operatorKeyword head).isSome
    isDestructor := head.contains '~' }

/-- The descriptor of a printed name; a blank one has none. -/
def ofText? (s : List Char) : Option Descriptor :=
  let text := trim (stripTags s)
  if text.isEmpty then none
  else
    let (head, parameters) := splitParameters text
    if anglesBalanced head then
      let (result, qualified) := splitResult head
      some (ofQualified qualified parameters result)
    else some (ofUnbalanced head parameters)

end Descriptor

/-- The text after each separator, the last one first. -/
def tails (s : List Char) : List (List Char) := go s.reverse []
where
  /-- The text is read backwards; `seen` is what has been read. -/
  go : List Char → List Char → List (List Char)
    | ':' :: ':' :: cs, seen => seen :: go cs (separator ++ seen)
    | c :: cs, seen => go cs (c :: seen)
    | [], _ => []

/-- The text up to the first parenthesis or blank. -/
def beforeStop (s : List Char) : List Char := s.takeWhile fun c => c != '(' && c != ' '

/-- The last part of a name, cut at the first parenthesis or blank, that has as many opening as closing
angle brackets. -/
def balancedTail? (s : List Char) : Option (List Char) :=
  ((tails s).map beforeStop).find? fun t => !t.isEmpty && t.count '<' == t.count '>'

end PathSafety.Name
