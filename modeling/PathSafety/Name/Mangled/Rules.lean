import PathSafety.Name.Mangled.Reader

/-!
# The rules of types and names

How the parts of a mangled name are read. The rules call each other; each is given the `Rules` to call,
which read one level less, so that the recursion ends.

Contents:

* `Rules` — the readers that rules call;
* parameters and qualifiers;
* `Rules.unqualified`, `Rules.name`, `Rules.encoding` and their parts;
* `Rules.type` and its parts.
-/

namespace PathSafety.Name.Mangled

/-- The readers that the rules call. -/
structure Rules where
  /-- A function with its parameters, or something else that is a whole; `true` for all of a name. -/
  encoding : Bool → Reader Component
  name : Reader Component
  /-- The last part of a name, in a scope. -/
  unqualified : Option Component → Reader Component
  type : Reader Component
  templateArgs : Reader (List Component)
  expression : Reader Component

/-- Readers that read nothing. -/
instance : Inhabited Rules :=
  ⟨⟨fun _ => failure, failure, fun _ => failure, failure, failure, failure⟩⟩

namespace Rules

open Reader

variable (r : Rules)

/-! ## Parameters and qualifiers -/

/-- Whether a list of parameters goes on. -/
def seesParameter : Reader Bool := do
  match ← peek with
  | none | some 'E' | some '.' => return false
  | some 'R' | some 'O' => return (← peekSecond) != some 'E'
  | _ => return true

/-- The types of parameters; `void` alone is none. -/
def parameters : Reader (List Component) := do
  match ← manyWhile seesParameter r.type with
  | [] => failure
  | [.builtin b] => return if b = .void then [] else [.builtin b]
  | types => return types

/-- The type of a function after its name. -/
def functionBody (hasResult : Bool) : Reader Component := do
  let explicit ← accept 'J'
  let result ← if explicit || hasResult then some <$> r.type else pure none
  return .function result (← parameters r)

/-- A qualifier before what it qualifies. -/
inductive Mark where
  | cv (q : Qualifier)
  | transactionSafe
  | noexcept (condition : Option Component)
  | throwing (types : List Component)

/-- A qualifier on a type. -/
def Mark.onType : Mark → Component → Component
  | cv q, c => .qualifiedType q c
  | transactionSafe, c => .transactionSafe c
  | noexcept e, c => .noexcept c e
  | throwing ts, c => .throwing c ts

/-- A qualifier on a function. -/
def Mark.onFunction : Mark → Component → Component
  | cv q, c => .qualifiedThis q c
  | m, c => m.onType c

/-- The next qualifier, if there is one. -/
def mark? : Reader (Option Mark) := do
  match ← peek, ← peekSecond with
  | some 'r', _ => skip 1; return some (.cv .restrict)
  | some 'V', _ => skip 1; return some (.cv .volatile)
  | some 'K', _ => skip 1; return some (.cv .const)
  | some 'D', some 'x' => skip 2; return some .transactionSafe
  | some 'D', some 'o' => skip 2; return some (.noexcept none)
  | some 'D', some 'O' =>
    skip 2
    let e ← r.expression
    expect 'E'
    return some (.noexcept (some e))
  | some 'D', some 'w' =>
    skip 2
    let ts ← parameters r
    expect 'E'
    return some (.throwing ts)
  | _, _ => return none

/-- The qualifiers that come next, the outermost first. -/
def marks : Reader (List Mark) := do
  loop ((← get).rest.length + 1)
where
  /-- At most `fuel` qualifiers. -/
  loop : Nat → Reader (List Mark)
    | 0 => failure
    | fuel + 1 => do
      match ← mark? r with
      | some m => return m :: (← loop fuel)
      | none => return []

/-- The qualifier for the kind of value that a function is called on. -/
def valueKind : Reader (Component → Component) := do
  if ← accept 'R' then return .lvalueThis
  else if ← accept 'O' then return .rvalueThis
  else return id

/-! ## Names -/

/-- A parameter of a template. -/
def templateParameter : Reader Component := do
  expect 'T'
  return .templateParameter (← compactNumber)

/-- The name of an operator or of a conversion. -/
def operatorName : Reader Component := do
  let c ← next
  let d ← next
  if c == 'v' && d.isDigit then return .extendedOperator (d.toNat - 48) (← sourceName)
  else if c == 'c' && d == 'v' then
    let before ← get
    set { before with inConversion := !before.inExpression }
    let t ← r.type
    modify fun s => { s with inConversion := before.inConversion }
    return if before.inExpression then .cast t else .conversion t
  else .operator <$> StateT.lift (Operator.ofCode? [c, d])

/-- The name of a function that is an operator. -/
def operatorFunction : Reader Component := do
  let before ← get
  if ← seesBoth 'o' 'n' then
    skip 2
    modify fun s => { s with inExpression := false }
  let c ← operatorName r
  modify fun s => { s with inExpression := before.inExpression }
  match c with
  | .operator o => if o.code == "li" then return .literalOperator o (← sourceName) else return c
  | _ => return c

/-- A constructor or a destructor, named by the last name before it. -/
def structor : Reader Component := do
  if ← accept 'C' then
    let inheriting ← accept 'I'
    if !(['1', '2', '3', '4', '5'].contains (← next)) then failure
    if inheriting then
      let _ ← (some <$> r.type) <|> pure none
    return .constructor (← StateT.lift (← get).lastName)
  else
    expect 'D'
    if !(['0', '1', '2', '4', '5'].contains (← next)) then failure
    return .destructor (← StateT.lift (← get).lastName)

/-- The type of a function without a name. -/
def lambda : Reader Component := do
  let ps ← parameters r
  expect 'E'
  return .lambda ps (← compactNumber)

/-- A type without a name. -/
def unnamed : Reader Component := do
  match ← next with
  | 'l' => lambda r
  | 't' => remember (.unnamedType (← compactNumber))
  | _ => failure

/-- The last part of a name before its tags. -/
def lastPart : Reader Component := do
  let c ← StateT.lift (← peek)
  if c.isDigit then sourceName
  else if c.isLower then operatorFunction r
  else if ← seesBoth 'D' 'C' then
    skip 2
    return .binding (← someUntil 'E' sourceName)
  else if c == 'C' || c == 'D' then structor r
  else
    skip 1
    if c == 'L' then sourceName <* discriminator
    else if c == 'U' then unnamed r
    else failure

/-- The last part of a name, in a scope. -/
def unqualifiedIn (scope : Option Component) : Reader Component := do
  let c ← tags (← lastPart r)
  return match scope with
  | some s => .qualified s c
  | none => c

/-- The parts of a name in scopes, after `scope`. What stands for a scope is remembered if it can be
substituted later. -/
def inScopes (substitutable : Bool) : Nat → Option Component → Reader Component
  | 0, _ => failure
  | fuel + 1, scope => do
    let proceed (c : Component) : Reader Component := do
      if ← sees 'E' then return c
      if substitutable then
        let _ ← remember c
      inScopes substitutable fuel (some c)
    match ← peek, scope with
    | some 'I', some c => proceed (.template c (← r.templateArgs))
    | some 'I', none => failure
    | some 'M', some c => skip 1; inScopes substitutable fuel (some c)
    | some 'T', none => proceed (← templateParameter)
    | some 'T', some _ => failure
    | some 'S', none => inScopes substitutable fuel (some (← substitution true))
    | some 'S', some _ => failure
    | _, _ =>
      if (← seesBoth 'D' 't') || (← seesBoth 'D' 'T') then
        if scope.isSome then failure
        proceed (← r.type)
      else proceed (← r.unqualified scope)

/-- The parts of a name in scopes. -/
def scopes (substitutable : Bool) : Reader Component := do
  inScopes r substitutable ((← get).rest.length + 1) none

/-- A name in scopes, with what qualifies the function of this name. -/
def nestedName : Reader Component := do
  expect 'N'
  let ms ← marks r
  let kind ← valueKind
  let c ← scopes r true
  expect 'E'
  return kind (ms.foldr Mark.onFunction c)

/-- The name of something inside a function. -/
def localEntity : Reader Component := do
  let c ← r.name
  match c with
  | .lambda .. | .unnamedType _ => return c
  | _ => discriminator; return c

/-- A name inside a function, of which the type of the result is left out. -/
def localName : Reader Component := do
  expect 'Z'
  let f ← r.encoding false
  expect 'E'
  let c ←
    if ← accept 's' then
      discriminator
      pure (.name "string literal".toList)
    else if ← accept 'd' then
      let n ← compactNumber
      pure (.defaultArgument n (← localEntity r))
    else localEntity r
  return .nested f.withoutResult c

/-- A name with template arguments behind it if there are any. The name itself is remembered, unless it
stands for a substitution. -/
def withTemplateArgs (substituted : Bool) (c : Component) : Reader Component := do
  if ← sees 'I' then
    if !substituted then
      let _ ← remember c
    return .template c (← r.templateArgs)
  else return c

/-- The name of an entity. -/
def entityName : Reader Component := do
  match ← peek with
  | some 'N' => nestedName r
  | some 'Z' => localName r
  | some 'S' =>
    if ← seesBoth 'S' 't' then
      skip 2
      if ← sees 'S' then failure
      withTemplateArgs r false (← r.unqualified (some (.name "std".toList)))
    else withTemplateArgs r true (← substitution false)
  | _ => withTemplateArgs r false (← r.unqualified none)

/-! ## Encodings -/

/-- An offset of a thunk, which is not written. -/
def thunkOffset : Char → Reader Unit
  | 'h' => do
    let _ ← signedNumber
    expect '_'
  | 'v' => do
    let _ ← signedNumber
    expect '_'
    let _ ← signedNumber
    expect '_'
  | _ => failure

/-- What the compiler makes for a type, a function or a variable. -/
def special : Reader Component := do
  let c ← next
  let d ← next
  match c, d with
  | 'T', 'V' => .special "vtable for " <$> r.type
  | 'T', 'T' => .special "VTT for " <$> r.type
  | 'T', 'I' => .special "typeinfo for " <$> r.type
  | 'T', 'S' => .special "typeinfo name for " <$> r.type
  | 'T', 'F' => .special "typeinfo fn for " <$> r.type
  | 'T', 'J' => .special "java Class for " <$> r.type
  | 'T', 'h' => thunkOffset 'h' *> (.special "non-virtual thunk to " <$> r.encoding false)
  | 'T', 'v' => thunkOffset 'v' *> (.special "virtual thunk to " <$> r.encoding false)
  | 'T', 'c' =>
    thunkOffset (← next)
    thunkOffset (← next)
    .special "covariant return thunk to " <$> r.encoding false
  | 'T', 'C' =>
    let derived ← r.type
    let _ ← number
    expect '_'
    return .constructionTable (← r.type) derived
  | 'T', 'H' => .special "TLS init function for " <$> r.name
  | 'T', 'W' => .special "TLS wrapper function for " <$> r.name
  | 'G', 'V' => .special "guard variable for " <$> r.name
  | 'G', 'R' =>
    let c ← r.name
    return .temporary c (← number)
  | 'G', 'A' => .special "hidden alias for " <$> r.encoding false
  | 'G', 'T' =>
    if (← next) == 'n' then .special "non-transaction clone for " <$> r.encoding false
    else .special "transaction clone for " <$> r.encoding false
  | _, _ => failure

/-- Something as a whole: an entity, with its type if it is a function. -/
def wholeEntity (outermost : Bool) : Reader Component := do
  if (← sees 'G') || (← sees 'T') then special r
  else
    let c ← r.name
    match ← peek with
    | none | some 'E' => return c
    | _ =>
      let t ← functionBody r c.hasResult
      match c with
      | .nested .. => return if outermost then .typed c t else (Component.typed c t).withoutResult
      | _ => return .typed c t

/-- The characters of the names of clones. -/
def isCloneChar (c : Char) : Bool := c.isLower || c.isDigit || c == '_'

/-- The names of the clones that a function is one of. -/
def clones : Nat → Component → Reader Component
  | 0, _ => failure
  | fuel + 1, c => do
    if (← sees '.') && (← peekSecond).any isCloneChar then
      skip 1
      let word ← span isCloneChar
      let numbers ← numbered fuel
      clones fuel (.clone c (.name ('.' :: word ++ numbers)))
    else return c
where
  /-- Numbers behind the name of a clone. -/
  numbered : Nat → Reader (List Char)
    | 0 => return []
    | fuel + 1 => do
      if (← sees '.') && (← peekSecond).any Char.isDigit then
        skip 1
        let digits ← span Char.isDigit
        return '.' :: digits ++ (← numbered fuel)
      else return []

/-- A mangled name after the letter that begins it. -/
def mangled (outermost : Bool) : Reader Component := do
  expect 'Z'
  let c ← r.encoding outermost
  if outermost then clones ((← get).rest.length + 1) c else return c

/-! ## Types -/

/-- The type of a function. -/
def functionType : Reader Component := do
  expect 'F'
  let _ ← accept 'Y'
  let t ← functionBody r true
  let kind ← valueKind
  expect 'E'
  return kind t

/-- A type with qualifiers. A reference to a function is written outside of what qualifies it. -/
def qualifiedType (ms : List Mark) : Reader Component := do
  let onFunction ← sees 'F'
  let t ← if onFunction then functionType r else r.type
  let wrap := ms.foldr (if onFunction then Mark.onFunction else Mark.onType)
  remember <| match t with
    | .reference u => .reference (wrap u)
    | .rvalueReference u => .rvalueReference (wrap u)
    | _ => wrap t

/-- A type of arrays. -/
def arrayType : Reader Component := do
  let size ←
    if ← sees '_' then pure none
    else
      let digits ← span Char.isDigit
      if digits.isEmpty then some <$> r.expression else pure (some (.name digits))
  expect '_'
  return .array size (← r.type)

/-- A type of vectors. -/
def vectorType : Reader Component := do
  let size ← if ← accept '_' then r.expression else .number <$> number
  expect '_'
  return .vector size (← r.type)

/-- A type of numbers with a fixed point. -/
def fixedPoint : Reader Component := do
  let accumulating := (← peek).any Char.isDigit
  let _ ← number
  let length ← r.type
  let _ ← signedNumber
  let saturating ← sees 's'
  skip 1
  return .fixedPoint saturating accumulating length

/-- A type of two letters, the first of which is `D`. -/
def extendedType (c : Char) : Reader Component := do
  match c with
  | 'T' | 't' =>
    let e ← r.expression
    expect 'E'
    remember (.decltype e)
  | 'p' => remember (.expansion (← r.type))
  | 'v' => remember (← vectorType r)
  | 'a' => return .name "auto".toList
  | 'c' => return .name "decltype(auto)".toList
  | 'F' => fixedPoint r
  | _ => .builtin <$> StateT.lift (Builtin.ofExtendedLetter? c)

/-- A parameter of a template as a type, with template arguments of its own. In the name of a conversion
the arguments belong to the conversion, unless others follow. -/
def parameterType : Reader Component := do
  let c ← templateParameter
  let before ← get
  if !(← sees 'I') then remember c
  else if before.inConversion then
    let args ← r.templateArgs
    if ← sees 'I' then
      let _ ← remember c
      remember (.template c args)
    else
      modify fun s => { s with rest := before.rest, substitutions := before.substitutions }
      remember c
  else
    let _ ← remember c
    remember (.template c (← r.templateArgs))

/-- A substitution as a type. -/
def substitutedType : Reader Component := do
  if (← peekSecond).any fun c => c == '_' || isSubstitutionDigit c then
    let c ← substitution false
    if ← sees 'I' then remember (.template c (← r.templateArgs)) else return c
  else
    match ← r.name with
    | .standard s => return .standard s
    | c => remember c

/-- A type without qualifiers. -/
def plainType : Reader Component := do
  let c ← StateT.lift (← peek)
  match Builtin.ofLetter? c with
  | some b => skip 1; return .builtin b
  | none =>
    match c with
    | 'T' => parameterType r
    | 'S' => substitutedType r
    | 'F' => remember (← functionType r)
    | 'A' => skip 1; remember (← arrayType r)
    | 'M' =>
      skip 1
      let owner ← r.type
      remember (.memberPointer owner (← r.type))
    | 'P' => skip 1; remember (.pointer (← r.type))
    | 'R' => skip 1; remember (.reference (← r.type))
    | 'O' => skip 1; remember (.rvalueReference (← r.type))
    | 'C' => skip 1; remember (.complex (← r.type))
    | 'G' => skip 1; remember (.imaginary (← r.type))
    | 'u' => skip 1; remember (.vendorType (← sourceName))
    | 'U' =>
      skip 1
      let q ← sourceName
      let q ← if ← sees 'I' then .template q <$> r.templateArgs else pure q
      remember (.vendorQualified (← r.type) q)
    | 'D' => skip 1; extendedType r (← next)
    | _ => remember (← r.name)

/-- A type. -/
def anyType : Reader Component := do
  match ← marks r with
  | [] => plainType r
  | ms => qualifiedType r ms

end Rules

end PathSafety.Name.Mangled
