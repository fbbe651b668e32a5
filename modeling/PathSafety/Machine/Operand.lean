import PathSafety.IR.ExpressionText
import PathSafety.IR.Printer
import PathSafety.Machine.Offset

/-!
# Values of operands

The value of an operand: a register's, a constant's, or the address of a global value. A global variable
gets its address, and its initializer written there, when it is first met.
-/

namespace PathSafety

open IR

/-- The values of the registers of one call. -/
abbrev Registers := Std.TreeMap String Value

/-- How a global name of a module gets its address. -/
abbrev Addressing := Nat → String → Action Value

namespace Machine

/-- The value of an integer or address in a constant expression, `bits` wide. Every nested expression is
shorter, so the length of the text bounds `fuel`. -/
def evalExpression (s : Setting) (address : Addressing) : Nat → List Char → Nat → Action Value
  | 0, text, _ => fault (.unsupportedExpression (String.ofList text))
  | fuel + 1, text, bits => do
    let unsupported : Action Value := fault (.unsupportedExpression (String.ofList text))
    let target (name : String) : Action (Nat × GlobalValue) :=
      match s.project.global? name with
      | some v => pure v
      | none => fault (.unknownGlobal name)
    let asAddress : Option (Action Value) ← (do
      let some operands := ExpressionText.addressOperands? text | return none
      let some (name, rest) := ExpressionText.onlyReference? operands | return none
      let (module, v) ← target name
      let .data g := v | return none
      let some indices := ExpressionText.indices? rest.length rest | return none
      return some do
        let base ← address module name
        let eval (i : Nat × Int) : Action Value := return .ofInt i.1 i.2
        let offset ← offset s eval base.width g.ty indices
        valueOr (Value.arith .add base offset))
    if let some run := asAddress then run
    else
      let some operand := ExpressionText.castOperand? text | unsupported
      if let some (keyword, inner) := ExpressionText.nested? false operand then
        let width := if keyword = "ptrtoint".toList then ExpressionText.targetWidth? inner else none
        let v ← evalExpression s address fuel inner (width.getD s.pointerBits)
        return v.resize bits
      else
        let reference : Option (Nat × String × List Char) ← (do
          let some (name, rest) := ExpressionText.onlyReference? operand | return none
          let (module, _) ← target name
          return some (module, name, rest))
        match reference with
        | some (module, name, []) => return (← address module name).resize bits
        | _ =>
          match ExpressionText.integer? operand with
          | some (_, n) => return .ofInt bits n
          | none => if ExpressionText.isNull operand then return .ofNat bits 0 else unsupported

/-- The name of the symbol that stands for a floating point constant. -/
def realName (t : Ty) : String := "const_" ++ t.text

mutual

/-- The value of an operand seen in a module, given the registers and how globals get addresses. -/
def evalWith (s : Setting) (address : Addressing) (module : Nat) (registers : Registers) :
    Operand → Action Value
  | .register n => match registers.get? n with
    | some v => pure v
    | none => fault .unboundOperand
  | .global n => address module n
  | .assembly .. => fault .unboundOperand
  | .constant t v => do
    let some bits := s.project.layout.bits? t | fault (.unsizedConstant t)
    evalConstant s address module registers t bits v

/-- The value of a constant of type `t`, `bits` wide. -/
def evalConstant (s : Setting) (address : Addressing) (module : Nat) (registers : Registers) (t : Ty)
    (bits : Nat) : ConstantValue → Action Value
  | .expression text =>
    let text := Text.trim text.toList
    evalExpression s address (text.length + 1) text bits
  | .undef => fresh "undef" bits
  | .null => pure (.ofNat bits 0)
  | .int n => match t with
    | .int _ => pure (.ofInt bits n)
    | .half | .float | .double => fresh (realName t) bits
    | _ => fault (.unsupportedConstant (s!"{t.text} {n}") t)
  | .real _ => match t with
    | .half | .float | .double => fresh (realName t) bits
    | _ => fault (.unsupportedConstant t.text t)
  | .bytes bs =>
    match t with
    | .array _ e | .vector _ e =>
      match s.project.layout.bits? e, bs with
      | _, [] => fault .emptyAggregate
      | some n, bs => pure (Value.concat (bs.map fun b => .ofNat n b.toNat))
      | none, _ => fault (.unsizedConstant e)
    | _ => fault (.unsupportedConstant t.text t)
  | .elements es => do
    let limit := match t.fields? s.project.layout.structs with
      | some fields => fields.length
      | none => es.length
    let parts ← evalAll s address module registers limit es
    if parts.isEmpty then fault .emptyAggregate
    return Value.concat parts

/-- The values of the first operands of a list. -/
def evalAll (s : Setting) (address : Addressing) (module : Nat) (registers : Registers) :
    Nat → List Operand → Action (List Value)
  | 0, _ | _, [] => pure []
  | n + 1, o :: os => do
    let v ← evalWith s address module registers o
    let vs ← evalAll s address module registers n os
    return v :: vs

end

/-- Gives a global name its address. At the first time a variable is set apart and its initializer
written; `depth` bounds how many variables can wait for one another's initializers. -/
def addressWithin (s : Setting) : Nat → Addressing
  | 0, _, _ => defect .endlessInitializer
  | depth + 1, module, name => do
    if let some a := (← get).addresses.get? name then return a
    let enter (bits : Nat) : Action Value := do
      let a ← allocate s bits
      modify fun m => { m with addresses := m.addresses.insert name a }
      return a
    match s.project.globalIn? module name with
    | none => fault .unboundOperand
    | some (.code _) => enter 8
    | some (.data g) =>
      let bits := (s.project.layout.bits? g.ty).getD 0
      let a ← enter (if bits = 0 then 8 else bits)
      if let some init := g.init then
        let v ← evalWith s (addressWithin s depth) module ∅ init
        write s a v
      return a

/-- How many global names a project has. -/
def globalCount (p : Project) : Nat :=
  p.modules.foldl (fun n m => n + (m.globals.length + m.functions.length)) 0

/-- The address of a global name of a module. -/
def address (s : Setting) : Addressing := addressWithin s (globalCount s.project + 1)

/-- The value of an operand seen in a module. -/
def eval (s : Setting) (module : Nat) (registers : Registers) (o : Operand) : Action Value :=
  evalWith s (address s) module registers o

end Machine

end PathSafety
