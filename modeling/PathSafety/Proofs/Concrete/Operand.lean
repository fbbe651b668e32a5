import PathSafety.IR.ExpressionText
import PathSafety.IR.Project
import PathSafety.Machine.Operand
import PathSafety.Proofs.Concrete.Word

/-!
# Operands of a concrete run

The value of an operand when every global value has an address from the beginning. Nothing is set apart or
written on the way, so that evaluation is a function of the registers and the placement. In a constant
expression everything has the width of its own type: a number is made at that width before it is converted, and
so is another conversion.

Contents:

* `ExpressionShape`, `ExpressionShape.of?` — what a constant expression says;
* `Concrete.targetBits?`, `Concrete.ownBits?` — the widths of constant expressions by their own texts;
* `Concrete.offset` — how far a list of indices lies from a base pointer;
* `Concrete.operand` — the value of an operand.
-/

namespace PathSafety

open IR

/-- What a constant expression says. -/
inductive ExpressionShape where
  /-- An address at some indices from a global variable. -/
  | element (module : Nat) (g : Global) (name : String) (indices : List (Nat × Int))
  /-- A conversion of another expression, which is taken at some width or at that of pointers. -/
  | nested (inner : List Char) (width : Option Nat)
  /-- The address of a global value. -/
  | reference (module : Nat) (name : String)
  /-- A number of the width of its type. -/
  | integer (width : Nat) (n : Int)
  | null

namespace ExpressionShape

open ExpressionText

/-- What an operand says that is not made of others. -/
def ofLiteral? (operand : List Char) : Option ExpressionShape :=
  match integer? operand with
  | some (width, n) => some (.integer width n)
  | none => if isNull operand then some .null else none

/-- What a conversion says. -/
def ofConversion? (p : Project) (text : List Char) : Option ExpressionShape := do
  let operand ← castOperand? text
  match nested? false operand with
  | some (keyword, inner) =>
    some (.nested inner (if keyword = "ptrtoint".toList then targetWidth? inner else none))
  | none =>
    match onlyReference? operand with
    | some (name, rest) =>
      match p.global? name, rest with
      | some (module, _), [] => some (.reference module name)
      | some _, _ => ofLiteral? operand
      | none, _ => none
    | none => ofLiteral? operand

/-- What a constant expression says, if it is one of those that are modeled. -/
def of? (p : Project) (text : List Char) : Option ExpressionShape :=
  match (addressOperands? text).bind onlyReference? with
  | some (name, rest) =>
    match p.global? name with
    | some (module, .data g) =>
      match indices? rest.length rest with
      | some indices => some (.element module g name indices)
      | none => ofConversion? p text
    | some (_, .code _) => ofConversion? p text
    | none => none
  | none => ofConversion? p text

end ExpressionShape

namespace Concrete

/-- The addresses of global values, by name. -/
abbrev Placement := String → Option Nat

/-- The words in the registers of one call. -/
abbrev Registers := String → Option Word

/-- The registers with a word in one of them. -/
def Registers.set (rs : Registers) (n : String) (v : Word) : Registers :=
  fun m => if m = n then some v else rs m

/-! ## Offsets -/

section Offset

variable {ι : Type} (l : Layout) (eval : ι → Option Word) (width : Nat)

/-- The size of a type in bytes. -/
def size? (t : Ty) : Option Nat := (l.bytes t).toOption

/-- The sizes of types, summed up. -/
def sizes? : List Ty → Option Nat
  | [] => some 0
  | t :: ts => do return (← size? l t) + (← sizes? ts)

/-- The offset of the indices after the first, from `offset` on. -/
def innerOffset : Ty → List ι → BitVec width → Option (BitVec width)
  | _, [], offset => some offset
  | t, i :: is, offset =>
    if t.isStruct then do
      let field := (← eval i).toNat
      let fields := (t.fields? l.structs).getD []
      let preceding ← sizes? l (fields.take field)
      innerOffset (← fields[field]?) is (offset + BitVec.ofNat width preceding)
    else
      match t with
      | .array _ e | .vector _ e => do
        let index ← eval i
        let size ← size? l e
        innerOffset e is (offset + index.bits.signExtend width * BitVec.ofNat width size)
      | _ => none

/-- The offset in bytes of indices into objects of type `t`. -/
def offset (t : Ty) : List ι → Option (BitVec width)
  | [] => some 0
  | i :: is => do
    let index ← eval i
    let size ← size? l t
    innerOffset l eval width t is (index.bits.signExtend width * BitVec.ofNat width size)

end Offset

/-! ## Operands -/

section Operand

variable (p : Project) (place : Placement)

/-- The address of a global value. -/
def address (name : String) : Option Word := (place name).map (Word.ofNat p.layout.pointerBits)

/-- The width of the type that a conversion ends with: an integer's, or that of pointers. -/
def targetBits? (text : List Char) : Option Nat := do
  let body ← Text.dropSuffix? [')'] text
  let (_, target) ← Text.splitLast? " to ".toList body
  if target = "ptr".toList || target.getLast? = some '*' then some p.layout.pointerBits
  else
    match ← (Text.dropPrefix? ['i'] target).bind Text.nat? with
    | (n, []) => some n
    | _ => none

/-- The width of the value of a constant expression by its own text. -/
def ownBits? (text : List Char) : Option Nat :=
  match ExpressionShape.of? p text with
  | some (.element ..) => some p.layout.pointerBits
  | _ => targetBits? p text

/-- Whether an address computation is written for objects of the type of a variable. -/
def isWrittenFor (g : Global) (text : List Char) : Bool :=
  (ExpressionText.addressOperands? text).any (Text.startsWith (g.ty.text.toList ++ ", ".toList))

/-- The value of a constant expression, `bits` wide unless it is an address computation. -/
def expression : Nat → List Char → Nat → Option Word
  | 0, _, _ => none
  | fuel + 1, text, bits => do
    match ← ExpressionShape.of? p text with
    | .element _ g name indices =>
      if isWrittenFor g text then
        let base ← address p place name
        let offset ← offset p.layout (fun i => some (.ofInt i.1 i.2)) base.width g.ty indices
        return ⟨base.bits + offset⟩
      else none
    | .nested inner _ => return (← expression fuel inner (← ownBits? p inner)).resize bits
    | .reference _ name => return (← address p place name).resize bits
    | .integer width n => return (Word.ofInt width n).resize bits
    | .null => return .ofNat bits 0

/-- How many of the elements that are written an aggregate of some type has. -/
def elementLimit (t : Ty) (es : List Operand) : Nat :=
  match t.fields? p.layout.structs with
  | some fields => fields.length
  | none => es.length

mutual

/-- The value of an operand. -/
def operand (registers : Registers) : Operand → Option Word
  | .register n => registers n
  | .global n => address p place n
  | .constant t v => do constant registers t (← p.layout.bits? t) v
  | .assembly .. => none

/-- The value of a constant of type `t`, `bits` wide. -/
def constant (registers : Registers) (t : Ty) (bits : Nat) : ConstantValue → Option Word
  | .expression text =>
    let text := Text.trim text.toList
    expression p place (text.length + 1) text bits
  | .null => some (.ofNat bits 0)
  | .int n => match t with
    | .int _ => some (.ofInt bits n)
    | _ => none
  | .bytes bs => match t with
    | .array _ e | .vector _ e => do
      let n ← p.layout.bits? e
      return .concat (bs.map fun b => .ofNat n b.toNat)
    | _ => none
  | .elements es => do return .concat (← operands registers (elementLimit p t es) es)
  | .undef | .real _ => none

/-- The values of the first operands of a list. -/
def operands (registers : Registers) : Nat → List Operand → Option (List Word)
  | 0, _ | _, [] => some []
  | n + 1, o :: os => do return (← operand registers o) :: (← operands registers n os)

end

end Operand

end Concrete

end PathSafety
