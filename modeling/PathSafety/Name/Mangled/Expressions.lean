import PathSafety.Name.Mangled.Rules

/-!
# The rules of expressions

How expressions in mangled names are read, and the reader of whole names.

Contents:

* template arguments, literals, unresolved names, operations;
* `Rules.ofDepth` — the rules to a depth;
* `Component.ofMangled?` — the component that a mangled name stands for.
-/

namespace PathSafety.Name.Mangled

namespace Rules

open Reader

variable (r : Rules)

/-! ## Template arguments -/

/-- The value of a literal, or a name that is mangled itself. -/
def literal : Reader Component := do
  expect 'L'
  if (← sees '_') || (← sees 'Z') then
    let _ ← accept '_'
    mangled r false <* expect 'E'
  else
    let t ← r.type
    let isNull := match t with
      | .builtin b => b == .nullptr
      | _ => false
    if isNull && (← accept 'E') then return t
    let negative ← accept 'n'
    let value ← span (· != 'E')
    if value.isEmpty then failure
    expect 'E'
    return .literal negative t value

/-- A template argument. -/
def templateArg : Reader Component := do
  match ← peek with
  | some 'X' => skip 1; r.expression <* expect 'E'
  | some 'L' => literal r
  | some 'I' | some 'J' => .pack <$> r.templateArgs
  | _ => r.type

/-- Template arguments after the letter that opens them. -/
def templateArgsRest : Reader (List Component) :=
  keepingLastName do
    if ← accept 'E' then return []
    else someUntil 'E' (templateArg r)

/-- Template arguments. -/
def openTemplateArgs : Reader (List Component) := do
  if !(← accept 'J') then expect 'I'
  templateArgsRest r

/-! ## Operations -/

/-- Expressions up to a character. -/
def expressions (stop : Char) : Reader (List Component) := manyUntil stop r.expression

/-- A name whose meaning hangs on template arguments. -/
def unresolvedName : Reader Component := do
  let closed := (← get).closedScopes
  let scope ←
    if closed && (← sees 'N') then
      skip 1
      let c ← scopes r false
      expect 'E'
      pure c
    else if closed && (← peek).any Char.isDigit then
      let c ← scopes r false
      expect 'E'
      pure c
    else r.type
  let c ← r.unqualified (some scope)
  if ← sees 'I' then return .template c (← r.templateArgs) else return c

/-- A name without scopes that may have template arguments. -/
def simpleName : Reader Component := do
  let c ← r.unqualified none
  if ← sees 'I' then return .template c (← r.templateArgs) else return c

/-- A parameter of the function whose type the expression belongs to. -/
def functionParameter : Reader Component := do
  if ← accept 'T' then return .functionParameter 0
  else return .functionParameter ((← compactNumber) + 1)

/-- The member that an expression selects. -/
def member : Reader Component := do
  if (← seesBoth 'g' 's') || (← seesBoth 's' 'r') then r.expression else simpleName r

/-- An operation with one operand. -/
def unaryOperation (o : Operator) : Reader Component := do
  if o.code == "st" then return .unary (.operator o) (← r.type)
  let behind ← if o.isStep then (! ·) <$> accept '_' else pure false
  let operand ← if o.code == "sP" then .pack <$> templateArgsRest r else r.expression
  return if behind then .postfixed (.operator o) operand else .unary (.operator o) operand

/-- An operation with two operands. -/
def binaryOperation (o : Operator) : Reader Component := do
  let left ←
    if o.isNamedCast then r.type
    else if o.isFold then operatorName r
    else if o.code == "di" then r.unqualified none
    else r.expression
  let right ←
    if o.code == "cl" then .arguments <$> expressions r 'E'
    else if o.code == "dt" || o.code == "pt" then member r
    else r.expression
  return .binary o left right

/-- The creation of an object. -/
def allocation : Reader Component := do
  let place ← expressions r '_'
  let t ← r.type
  if ← accept 'E' then return .allocation place t none
  else if ← seesBoth 'p' 'i' then
    skip 2
    return .allocation place t (some (.arguments (← expressions r 'E')))
  else if ← seesBoth 'i' 'l' then return .allocation place t (some (← r.expression))
  else failure

/-- An operation with three operands. -/
def ternaryOperation (o : Operator) : Reader Component := do
  if o.code == "nw" || o.code == "na" then allocation r
  else
    let first ← if o.isFold then operatorName r else r.expression
    let second ← r.expression
    return .ternary o first second (← r.expression)

/-- An operation. -/
def operation : Reader Component := do
  match ← operatorName r with
  | .operator o =>
    match o.operands with
    | 0 => return .nullary (.operator o)
    | 1 => unaryOperation r o
    | 2 => binaryOperation r o
    | _ => ternaryOperation r o
  | .extendedOperator 0 c => return .nullary (.extendedOperator 0 c)
  | .extendedOperator 1 c => return .unary (.extendedOperator 1 c) (← r.expression)
  | .cast t =>
    if ← accept '_' then return .unary (.cast t) (.arguments (← expressions r 'E'))
    else return .unary (.cast t) (← r.expression)
  | _ => failure

/-- An expression. -/
def plainExpression : Reader Component := do
  match ← peek, ← peekSecond with
  | some 'L', _ => literal r
  | some 'T', _ => templateParameter
  | some 's', some 'r' => skip 2; unresolvedName r
  | some 's', some 'p' => skip 2; .expansion <$> r.expression
  | some 'f', some 'p' => skip 2; functionParameter
  | some 'o', some 'n' => skip 2; simpleName r
  | some 'i', some 'l' => skip 2; return .initializer none (← expressions r 'E')
  | some 't', some 'l' =>
    skip 2
    let t ← r.type
    return .initializer (some t) (← expressions r 'E')
  | some 'u', _ =>
    skip 1
    let c ← sourceName
    return .vendorExpression c (← templateArgsRest r)
  | some c, _ => if c.isDigit then simpleName r else operation r
  | none, _ => failure

/-- An expression; conversions in it are casts. -/
def anyExpression : Reader Component := do
  let before := (← get).inExpression
  modify fun s => { s with inExpression := true }
  let c ← plainExpression r
  modify fun s => { s with inExpression := before }
  return c

/-! ## Whole names -/

/-- The rules that call each other no more often than `depth` times in each other. -/
def ofDepth : Nat → Rules
  | 0 => default
  | depth + 1 =>
    let r := ofDepth depth
    { encoding := wholeEntity r
      name := entityName r
      unqualified := unqualifiedIn r
      type := anyType r
      templateArgs := openTemplateArgs r
      expression := anyExpression r }

end Rules

namespace Component

open Reader

/-- A whole mangled name. Each call of a rule by another takes a character off the name, or is one of few
in a row that do not. -/
def ofMangledWith? (closedScopes : Bool) (s : List Char) : Option Component := do
  let read : Reader Component := expect '_' *> Rules.mangled (Rules.ofDepth (8 * s.length + 8)) true
  let (c, reading) ← read.run { rest := s, closedScopes }
  if reading.rest.isEmpty then some c else none

/-- The component that a mangled name stands for. Where scopes in expressions cannot be read as closed,
they are read as types. -/
def ofMangled? (s : List Char) : Option Component :=
  (ofMangledWith? true s).orElse fun _ => ofMangledWith? false s

end Component

end PathSafety.Name.Mangled
