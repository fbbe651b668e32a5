import PathSafety.Name.Mangled.Component

/-!
# Printing components

How the component that a mangled name stands for is written in the language that the name comes from. What
is written around a type waits in a list of modifiers until the type in the middle has been written.

Contents:

* `Printing`, `Printer` — what has been written and what waits;
* template arguments and packs;
* modifiers, functions and arrays;
* expressions;
* `Component.text?` — the text of a component.
-/

namespace PathSafety.Name.Mangled

/-- A component that waits to be written around another. -/
structure Modifier where
  id : Nat
  component : Component
  /-- The template arguments in force where the component stands. -/
  templates : List (List Component)

/-- How far the printing has got. -/
structure Printing where
  out : Array Char := #[]
  /-- The last character that was written, even if it was taken back. -/
  last : Char := '\x00'
  modifiers : List Modifier := []
  /-- Which modifiers have been written, by number. -/
  written : Array Bool := #[]
  templates : List (List Component) := []
  /-- The arguments of the innermost template under way. -/
  current : Option (List Component) := none
  /-- The member of a pack that is written; none for the whole pack. -/
  packIndex : Option Nat := some 0
  inLambda : Bool := false

/-- Writes something; nothing comes of it if the component makes no sense. -/
abbrev Printer := StateT Printing Option

namespace Printer

variable {α : Type}

/-- Writes a character. -/
def char (c : Char) : Printer Unit := modify fun p => { p with out := p.out.push c, last := c }

/-- Writes characters. -/
def chars (cs : List Char) : Printer Unit := cs.forM char

/-- Writes a text. -/
def text (s : String) : Printer Unit := chars s.toList

/-- Writes a number. -/
def number (n : Nat) : Printer Unit := text (toString n)

/-- The last character that was written. -/
def last : Printer Char := return (← get).last

/-- Writes something with other modifiers around it. -/
def withModifiers (ms : List Modifier) (print : Printer α) : Printer α := do
  let held := (← get).modifiers
  modify fun p => { p with modifiers := ms }
  let a ← print
  modify fun p => { p with modifiers := held }
  return a

/-- Writes something with other template arguments in force. -/
def withTemplates (ts : List (List Component)) (print : Printer α) : Printer α := do
  let held := (← get).templates
  modify fun p => { p with templates := ts }
  let a ← print
  modify fun p => { p with templates := held }
  return a

/-- A modifier that has not been written. -/
def newModifier (c : Component) : Printer Modifier := do
  let p ← get
  set { p with written := p.written.push false }
  return ⟨p.written.size, c, p.templates⟩

/-- Whether a modifier has been written. -/
def isWritten (m : Modifier) : Printer Bool := return (← get).written.getD m.id false

/-- Notes that a modifier has been written. -/
def markWritten (m : Modifier) : Printer Unit :=
  modify fun p => { p with written := p.written.setIfInBounds m.id true }

/-! ## Template arguments and packs -/

/-- The argument of the innermost template for a parameter. -/
def argument? (index : Nat) : Printer (Option Component) := do
  match (← get).templates with
  | [] => failure
  | args :: _ => return args[index]?

/-- The argument that is written for a parameter, a member where it is a pack. -/
def argument (index : Nat) : Printer Component := do
  match ← argument? index, (← get).packIndex with
  | some (.pack args), some i => StateT.lift args[i]?
  | some c, _ => return c
  | none, _ => failure

/-- The first of the results of a search. -/
def firstOf (search : Component → Printer (Option (List Component))) :
    List Component → Printer (Option (List Component))
  | [] => return none
  | c :: cs => do
    match ← search c with
    | some p => return some p
    | none => firstOf search cs

/-- What a component is made of, as far as packs can be in it. -/
def parts : Component → List Component
  | .qualified a b | .nested a b | .typed a b | .constructionTable a b | .clone a b
  | .vendorQualified a b | .vector a b | .memberPointer a b | .unary a b | .postfixed a b => [a, b]
  | .template a cs | .throwing a cs | .vendorExpression a cs => a :: cs
  | .pack cs | .binding cs | .arguments cs => cs
  | .literalOperator _ a | .constructor a | .destructor a | .extendedOperator _ a | .conversion a | .cast a | .special _ a
  | .temporary a _ | .qualifiedType _ a | .pointer a | .reference a | .rvalueReference a | .complex a
  | .imaginary a | .vendorType a | .decltype a | .qualifiedThis _ a | .lvalueThis a | .rvalueThis a
  | .transactionSafe a | .nullary a => [a]
  | .function result ps => result.toList ++ ps
  | .array size a => size.toList ++ [a]
  | .noexcept a e => a :: e.toList
  | .binary _ a b => [a, b]
  | .ternary _ a b c => [a, b, c]
  | .allocation place a b => place ++ a :: b.toList
  | .literal _ a _ => [a]
  | .initializer t cs => t.toList ++ cs
  | .name _ | .standard _ | .builtin _ | .tagged .. | .defaultArgument .. | .templateParameter _
  | .functionParameter _ | .operator _ | .lambda .. | .unnamedType _ | .expansion _ | .fixedPoint ..
  | .number _ => []

/-- The first pack that the parameters in a component stand for. -/
def pack? : Nat → Component → Printer (Option (List Component))
  | 0, _ => failure
  | fuel + 1, c =>
    match c with
    | .templateParameter i => do
      match ← argument? i with
      | some (.pack args) => return some args
      | _ => return none
    | c => firstOf (pack? fuel) (parts c)

/-- How many arguments there are if expansions of packs are counted out. -/
def countArguments (fuel : Nat) : List Component → Printer Nat
  | [] => return 0
  | .expansion c :: cs => do
    let rest ← countArguments fuel cs
    return match ← pack? fuel c with
      | some args => args.length + rest
      | none => rest + 1
  | _ :: cs => return (← countArguments fuel cs) + 1

/-! ## Modifiers -/

variable (print : Component → Printer Unit)

/-- Writes members with commas between them. A comma before members that come to nothing is taken back. -/
def list : List Component → Printer Unit
  | [] => return
  | [c] => print c
  | c :: cs => do
    print c
    text ", "
    let size := (← get).out.size
    list cs
    modify fun p => if p.out.size = size then { p with out := p.out.shrink (size - 2) } else p

/-- Writes template arguments in angle brackets, two of which never stand together. -/
def angled (args : List Component) : Printer Unit := do
  if (← last) == '<' then char ' '
  char '<'
  list print args
  if (← last) == '>' then char ' '
  char '>'

/-- How a qualifier is written. -/
def qualifierText : Qualifier → String
  | .restrict => " restrict"
  | .volatile => " volatile"
  | .const => " const"

/-- Writes something inside a function. -/
def innerEntity (c : Component) : Printer Unit := do
  text "::"
  match c with
  | .defaultArgument n c =>
    text s!"\x7bdefault arg#{n + 1}\x7d::"
    print c
  | c => print c

/-- Writes a component that was waiting. -/
def modifier : Component → Printer Unit
  | .qualifiedType q _ | .qualifiedThis q _ => text (qualifierText q)
  | .transactionSafe _ => text " transaction_safe"
  | .noexcept _ e => do
    text " noexcept"
    e.forM print
  | .throwing _ ts => do
    text " throw"
    list print ts
  | .vendorQualified _ q => do
    char ' '
    print q
  | .pointer _ => char '*'
  | .lvalueThis _ => text " &"
  | .reference _ => char '&'
  | .rvalueThis _ => text " &&"
  | .rvalueReference _ => text "&&"
  | .complex _ => text " _Complex"
  | .imaginary _ => text " _Imaginary"
  | .memberPointer owner _ => do
    if (← last) != '(' then char ' '
    print owner
    text "::*"
  | .typed entity _ => print entity
  | .vector size _ => do
    text " __vector("
    print size
    char ')'
  | c => print c

/-- What the first modifiers that have not been written ask for: parentheses, and a blank before. -/
def parentheses : List Modifier → Printer (Bool × Bool)
  | [] => return (false, false)
  | m :: ms => do
    if ← isWritten m then return (false, false)
    match m.component with
    | .pointer _ | .reference _ | .rvalueReference _ => return (true, false)
    | .qualifiedType .. | .vendorQualified .. | .complex _ | .imaginary _ | .memberPointer .. =>
      return (true, true)
    | _ => parentheses ms

/-- Writes the parameters of a function, with what waits before and behind them. -/
def functionParts (parameters : List Component) (ms : List Modifier) (around : Bool → Printer Unit) :
    Printer Unit := do
  let (parens, space) ← parentheses ms
  if parens then
    let space := space || !(['(', '*'].contains (← last))
    if space && (← last) != ' ' then char ' '
    char '('
  withModifiers [] do
    around false
    if parens then char ')'
    char '('
    list print parameters
    char ')'
    around true

/-- The first modifier that has not been written. -/
def firstWaiting? : List Modifier → Printer (Option Modifier)
  | [] => return none
  | m :: ms => do if ← isWritten m then firstWaiting? ms else return some m

/-- Writes the size of an array, with what waits before it. -/
def arrayParts (size : Option Component) (ms : List Modifier) (around : Printer Unit) :
    Printer Unit := do
  let (parens, space) ← (do
    match ← firstWaiting? ms with
    | none => return (false, true)
    | some m =>
      match m.component with
      | .array .. => return (false, false)
      | _ => return (true, true))
  if parens then text " ("
  around
  if parens then char ')'
  if space then char ' '
  char '['
  size.forM print
  char ']'

/-- Writes what waits. What qualifies a function is left for what is written `behind` its parameters. -/
def waiting (behind : Bool) : List Modifier → Printer Unit
  | [] => return
  | m :: ms => do
    if (← isWritten m) || (!behind && m.component.qualifiesFunction) then waiting behind ms
    else
      markWritten m
      match m.component with
      | .function _ ps => withTemplates m.templates (functionParts print ps ms fun b => waiting b ms)
      | .array size _ => withTemplates m.templates (arrayParts print size ms (waiting false ms))
      | .nested f c =>
        withTemplates m.templates do
          withModifiers [] (print f)
          innerEntity print (match c with
            | .defaultArgument n c => .defaultArgument n c.dropQualifiers
            | c => c.dropQualifiers)
      | c =>
        withTemplates m.templates (modifier print c)
        waiting behind ms

/-- Writes something inside with a component around it. -/
def around (c inner : Component) : Printer Unit := do
  let m ← newModifier c
  withModifiers (m :: (← get).modifiers) (print inner)
  if !(← isWritten m) then modifier print c

/-! ## Types and functions -/

/-- How many modifiers a name may have. -/
def modifierBound : Nat := 4

/-- The qualifiers of a function that a component begins with. -/
def leadingQualifiers : Component → List Component
  | c@(.qualifiedThis _ d) | c@(.lvalueThis d) | c@(.rvalueThis d) | c@(.transactionSafe d)
  | c@(.noexcept d _) | c@(.throwing d _) => c :: leadingQualifiers d
  | _ => []

/-- What stands inside a function. -/
def nestedEntity : Component → Component
  | .defaultArgument _ c => c
  | c => c

/-- Writes an entity with its type: it waits until the type is written around it. The arguments of a
template hold for the type too. -/
def typed (entity type : Component) : Printer Unit := do
  let base := entity.dropQualifiers
  let inner := match base with
    | .nested _ c => nestedEntity c
    | _ => base
  let innerQualifiers := match base with
    | .nested .. => leadingQualifiers inner
    | _ => []
  let outer ← (leadingQualifiers entity).mapM newModifier
  let own ← newModifier base
  let qualifiers ← innerQualifiers.mapM newModifier
  let ms := own :: (qualifiers.reverse ++ outer.reverse)
  if ms.length > modifierBound then failure
  let templates := (← get).templates
  let scope := match inner.dropQualifiers with
    | .template _ args => args :: templates
    | _ => templates
  withModifiers ms do
    withTemplates scope (print type)
    ms.forM fun m => do
      if !(← isWritten m) then
        char ' '
        modifier print m.component

/-- Writes a name with template arguments; nothing around it is written inside. -/
def template (entity : Component) (args : List Component) : Printer Unit := do
  let held := (← get).current
  modify fun p => { p with current := some args }
  withModifiers [] do
    print entity
    angled print args
  modify fun p => { p with current := held }

/-- Writes the type that a conversion converts to. The arguments of the innermost template hold for it,
but not for arguments of its own. -/
def conversion (type : Component) : Printer Unit := do
  let held := (← get).templates
  let scope := (← get).current.toList ++ held
  match type with
  | .template c args =>
    withTemplates scope (print c)
    angled print args
  | c => withTemplates scope (print c)

/-- Writes a reference. References to references are one: of two different kinds the plain one. -/
def reference (plain : Bool) (c type : Component) : Printer Unit := do
  let target ←
    match type with
    | .templateParameter i => if (← get).inLambda then pure type else argument i
    | _ => pure type
  match target, plain with
  | .reference u, _ => around print target u
  | .rvalueReference u, false => around print target u
  | .rvalueReference u, true => around print c u
  | _, _ => around print c type

/-- Writes a qualified type, unless the qualifier is waiting already. -/
def qualifiedType (q : Qualifier) (c type : Component) : Printer Unit := do
  if ← repeated (← get).modifiers then print type else around print c type
where
  /-- Whether the first qualifiers that wait have the qualifier among them. -/
  repeated : List Modifier → Printer Bool
    | [] => return false
    | m :: ms => do
      if ← isWritten m then repeated ms
      else
        match m.component with
        | .qualifiedType k _ => if k = q then return true else repeated ms
        | _ => return false

/-- Writes the type of a function around what waits. -/
def function (c : Component) (result : Option Component) (parameters : List Component) :
    Printer Unit := do
  let ms := (← get).modifiers
  let done ←
    match result with
    | none => pure false
    | some t => do
      let m ← newModifier c
      withModifiers (m :: ms) (print t)
      if ← isWritten m then pure true
      else
        char ' '
        pure false
  if !done then functionParts print parameters ms fun b => waiting print b ms

/-- The qualifiers that wait first; those that have not been written are written with the elements of an
array instead. -/
def takeQualifiers : List Modifier → Printer (List Modifier)
  | [] => return []
  | m :: ms => do
    match m.component with
    | .qualifiedType .. =>
      if ← isWritten m then takeQualifiers ms
      else
        let copy ← newModifier m.component
        markWritten m
        return { copy with templates := m.templates } :: (← takeQualifiers ms)
    | _ => return []

/-- Writes a type of arrays around what waits. -/
def array (c : Component) (size : Option Component) (element : Component) : Printer Unit := do
  let ms := (← get).modifiers
  let own ← newModifier c
  let copies ← takeQualifiers ms
  if copies.length ≥ modifierBound then failure
  withModifiers (copies.reverse ++ own :: ms) (print element)
  if !(← isWritten own) then
    copies.reverse.forM fun m => modifier print m.component
    arrayParts print size ms (waiting print false ms)

/-- Writes the pattern of an expansion for each member of the pack in it. -/
def expansion (fuel : Nat) (pattern : Component) (operand : Component → Printer Unit) :
    Printer Unit := do
  let found ← if (← get).inLambda then pure none else pack? fuel pattern
  match found with
  | none =>
    operand pattern
    text "..."
  | some args =>
    (List.range args.length).forM fun i => do
      modify fun p => { p with packIndex := some i }
      print pattern
      if i + 1 < args.length then text ", "

/-! ## Expressions -/

/-- Whether an operand needs no parentheses. -/
def isSimple : Component → Bool
  | .name _ | .qualified .. | .initializer .. | .functionParameter _ => true
  | _ => false

/-- Writes an operand. -/
def operand (c : Component) : Printer Unit := do
  if isSimple c then print c
  else
    char '('
    print c
    char ')'

/-- Writes an operator in an expression. -/
def sign : Component → Printer Unit
  | .operator o => text o.text
  | c => print c

/-- What the address is taken of: of a function without its parameters. -/
def addressed : Component → Component
  | .typed c@(.qualified ..) (.function ..) => c
  | c => c

/-- Writes an operation with one operand. -/
def unary (fuel : Nat) (o c : Component) : Printer Unit := do
  match o with
  | .operator o =>
    match o.code with
    | "sZ" => number (((← pack? fuel c).getD []).length)
    | "sP" =>
      match c with
      | .pack args => number (← countArguments fuel args)
      | _ => failure
    | "gs" =>
      text o.text
      print c
    | "st" | "nx" =>
      text o.text
      char '('
      print c
      char ')'
    | "ad" =>
      text o.text
      operand print (addressed c)
    | _ =>
      text o.text
      operand print c
  | .cast t =>
    char '('
    print t
    char ')'
    operand print c
  | o =>
    print o
    operand print c

/-- Writes a fold of an operator over a pack. -/
def fold (code : String) (o first : Component) (second : Option Component) : Printer Unit := do
  let held := (← get).packIndex
  modify fun p => { p with packIndex := none }
  match code, second with
  | "fl", _ =>
    text "(..."
    sign print o
    operand print first
    char ')'
  | "fr", _ =>
    char '('
    operand print first
    sign print o
    text "...)"
  | _, some second =>
    char '('
    operand print first
    sign print o
    text "..."
    sign print o
    operand print second
    char ')'
  | _, none => failure
  modify fun p => { p with packIndex := held }

/-- Whether an expression says itself which part it initializes. -/
def isDesignated : Component → Bool
  | .binary o _ _ | .ternary o _ _ _ => o.isDesignator
  | _ => false

/-- Writes the value of a part that is initialized. -/
def designatedValue (c : Component) : Printer Unit := do
  if isDesignated c then print c
  else
    char '='
    operand print c

/-- Writes an operation with two operands. -/
def binary (o : Operator) (left right : Component) : Printer Unit := do
  if o.isNamedCast then
    text o.text
    char '<'
    print left
    text ">("
    print right
    char ')'
  else if o.isFold then fold print o.code left right none
  else if o.code == "di" then
    char '.'
    print left
    designatedValue print right
  else if o.code == "dx" then
    char '['
    print left
    char ']'
    designatedValue print right
  else
    let greater := o.text == ">"
    if greater then char '('
    match o.code, left with
    | "cl", .typed f _ => operand print f
    | _, _ => operand print left
    if o.code == "ix" then
      char '['
      print right
      char ']'
    else
      if o.code != "cl" then text o.text
      operand print right
    if greater then char ')'

/-- Writes an operation with three operands. -/
def ternary (o : Operator) (first second third : Component) : Printer Unit := do
  if o.isFold then fold print o.code first second (some third)
  else if o.code == "dX" then
    char '['
    print first
    text " ... "
    print second
    char ']'
    designatedValue print third
  else
    operand print first
    text o.text
    operand print second
    text " : "
    operand print third

/-- Writes a literal. -/
def literal (negative : Bool) (type : Component) (value : List Char) : Printer Unit := do
  let style := match type with
    | .builtin b => b.style
    | _ => .plain
  let written : Printer Unit := do
    if negative then char '-'
    chars value
  match style, negative, value with
  | .number suffix, _, _ =>
    written
    text suffix
  | .bool, false, ['0'] => text "false"
  | .bool, false, ['1'] => text "true"
  | style, _, _ =>
    char '('
    print type
    char ')'
    if negative then char '-'
    if style = .float then char '['
    chars value
    if style = .float then char ']'

/-- Writes the name of a function that is an operator; a blank stands before a word and none at the end. -/
def operatorFunction (o : Operator) : Printer Unit := do
  text "operator"
  let name := o.text.toList
  if name.head?.any Char.isLower then char ' '
  chars (if name.getLast? = some ' ' then name.dropLast else name)

end Printer

namespace Component

open Printer

/-- Writes a component, going at most `fuel` components deep. -/
def print : Nat → Component → Printer Unit
  | 0, _ => failure
  | fuel + 1, c =>
    let print := print fuel
    match c with
    | .name s => chars s
    | .standard s => text s
    | .builtin b => text b.name
    | .tagged c tag => do
      print c
      text "[abi:"
      print tag
      char ']'
    | .qualified scope c => do
      print scope
      text "::"
      print c
    | .nested f c => do
      print f
      innerEntity print c
    | .defaultArgument .. => failure
    | .typed c t => Printer.typed print c t
    | .template c args => Printer.template print c args
    | .pack cs | .arguments cs => list print cs
    | .templateParameter i => do
      if (← get).inLambda then text s!"auto:{i + 1}"
      else
        let arg ← argument i
        withTemplates (← get).templates.tail (print arg)
    | .functionParameter 0 => text "this"
    | .functionParameter n => text s!"\x7bparm#{n}\x7d"
    | .constructor c => print c
    | .destructor c => do
      char '~'
      print c
    | .operator o => operatorFunction o
    | .extendedOperator _ c => do
      text "operator "
      print c
    | .conversion t => do
      text "operator "
      Printer.conversion print t
    | .cast t => do
      text "operator "
      print t
    | .literalOperator o c => do
      text o.text
      operand print c
    | .lambda ps n => do
      text "\x7blambda("
      let held := (← get).inLambda
      modify fun p => { p with inLambda := true }
      list print ps
      modify fun p => { p with inLambda := held }
      text s!")#{n + 1}\x7d"
    | .unnamedType n => text s!"\x7bunnamed type#{n + 1}\x7d"
    | .binding cs => do
      char '['
      list print cs
      char ']'
    | .special phrase c => do
      text phrase
      print c
    | .constructionTable base derived => do
      text "construction vtable for "
      print base
      text "-in-"
      print derived
    | .temporary c n => do
      text s!"reference temporary #{n} for "
      print c
    | .clone c suffix => do
      print c
      text " [clone "
      print suffix
      char ']'
    | .qualifiedType q t => Printer.qualifiedType print q c t
    | .reference t => Printer.reference print true c t
    | .rvalueReference t => Printer.reference print false c t
    | .vendorQualified t _ | .pointer t | .complex t | .imaginary t | .qualifiedThis _ t
    | .lvalueThis t | .rvalueThis t | .transactionSafe t | .noexcept t _ | .throwing t _
    | .memberPointer _ t | .vector _ t => around print c t
    | .vendorType c => print c
    | .function result ps => Printer.function print c result ps
    | .array size t => Printer.array print c size t
    | .decltype e => do
      text "decltype ("
      print e
      char ')'
    | .expansion e => Printer.expansion print fuel e (operand print)
    | .fixedPoint saturating accumulating length => do
      if saturating then text "_Sat "
      match length with
      | .builtin ⟨"int", _⟩ => pure ()
      | t =>
        print t
        char ' '
      text (if accumulating then "_Accum" else "_Fract")
    | .nullary o => sign print o
    | .unary o c => Printer.unary print fuel o c
    | .postfixed o c => do
      operand print c
      sign print o
    | .binary o a b => Printer.binary print o a b
    | .ternary o a b c => Printer.ternary print o a b c
    | .allocation place t initial => do
      text "new "
      if !place.isEmpty then
        operand print (.arguments place)
        char ' '
      print t
      initial.forM (operand print)
    | .literal negative t value => Printer.literal print negative t value
    | .initializer t cs => do
      t.forM print
      char '\x7b'
      list print cs
      char '\x7d'
    | .vendorExpression c args => do
      print c
      char '('
      list print args
      char ')'
    | .number n => Printer.number n

/-- How deep components may be nested. -/
def depthBound : Nat := 1025

/-- The text of a component. -/
def text? (c : Component) : Option (List Char) := do
  let (_, p) ← (c.print depthBound).run {}
  return p.out.toList

end Component

end PathSafety.Name.Mangled
