import PathSafety.IR.Ty
import PathSafety.Term.Basic

/-!
# Modules

Operands, instructions, functions and modules. References are by name: a register belongs to its
function, a global name to its module. `PathSafety.IR.Typing` finds the types that are not written.
-/

namespace PathSafety.IR

mutual

/-- What an instruction works on. -/
inductive Operand where
  /-- An argument or the result of an instruction of the same function. -/
  | register (name : String)
  /-- A global variable or function of the same module. -/
  | global (name : String)
  | constant (ty : Ty) (value : ConstantValue)
  /-- Inline assembly; only ever called. -/
  | assembly (ty : Ty) (code : String) (constraint : String)

/-- The value of a constant of some type. -/
inductive ConstantValue where
  /-- All zero. -/
  | null
  | undef
  | int (n : Int)
  /-- A floating point number, by the bits of its double precision form. -/
  | real (bits : UInt64)
  | bytes (bs : List UInt8)
  | elements (es : List Operand)
  /-- A constant expression, kept as it is written. -/
  | expression (text : String)

end

instance : Inhabited Operand := ⟨.register ""⟩

/-- The value of a constant. A vector constant given one element stands for that many of it. -/
def ConstantValue.spread : Ty → ConstantValue → ConstantValue
  | .vector n t, v =>
    match v with
    | .null | .bytes _ | .elements _ | .expression _ => v
    | _ => .elements (List.replicate n (.constant t v))
  | _, v => v

/-- The predicates of integer comparison. -/
inductive IntPredicate where
  | eq | ne | ugt | uge | ult | ule | sgt | sge | slt | sle
  deriving DecidableEq, Repr

/-- Conversions between integer and pointer types, and those that change nothing. -/
inductive CastOp where
  | trunc | zext | sext | bitcast | ptrtoint | inttoptr | addrspacecast
  deriving DecidableEq, Repr

/-- Instructions that have a text but no meaning here. -/
inductive Unmodeled where
  | floatArith (op : String) (flags : List String) (a b : Operand)
  | fneg (a : Operand)
  | fcmp (predicate : String) (a b : Operand)
  | floatCast (op : String) (value : Operand) (target : Ty)
  | extractValue (aggregate : Operand) (path : List Nat)
  | insertValue (aggregate value : Operand) (path : List Nat)
  | extractElement (vector index : Operand)
  | insertElement (vector value index : Operand)
  | atomicUpdate (op : String) (pointer value : Operand) (ordering : String)
  | fence (ordering : String)

/-- What an instruction does. Types are absent where the pointer tells them. -/
inductive Op where
  | arith (op : ArithOp) (flags : List String) (a b : Operand)
  | icmp (predicate : IntPredicate) (a b : Operand)
  | cast (op : CastOp) (value : Operand) (target : Ty)
  | alloca (ty : Ty) (count : Option Operand)
  | load (pointer : Operand) (ty : Option Ty)
  | store (value pointer : Operand)
  | gep (inbounds : Bool) (pointer : Operand) (source : Option Ty) (indices : List Operand)
  | select (condition a b : Operand)
  | phi (ty : Ty) (incoming : List (Operand × String))
  | call (callee : Operand) (args : List Operand)
  | br (target : String)
  | condBr (condition : Operand) (yes no : String)
  | switch (value : Operand) (default : String) (cases : List (Operand × String))
  | ret (value : Option Operand)
  | unreachable
  | unmodeled (op : Unmodeled)

/-- An instruction with the name of its result. -/
structure Instr where
  name : String
  op : Op

/-- A basic block. -/
structure Block where
  name : String
  instrs : List Instr

/-- A function; without blocks it is a declaration. -/
structure Function where
  name : String
  ret : Ty
  params : List (String × Ty)
  vararg : Bool
  blocks : List Block

/-- A global variable. -/
structure Global where
  name : String
  ty : Ty
  init : Option Operand

/-- A module. -/
structure Module where
  globals : List Global
  functions : List Function

/-- What a global name stands for. -/
inductive GlobalValue where
  | data (g : Global)
  | code (f : Function)

namespace Function

/-- Whether the function has no body. -/
def isDeclaration (f : Function) : Bool := f.blocks.isEmpty

/-- The type of the function. -/
def ty (f : Function) : Ty := .fn f.ret (f.params.map (·.2)) f.vararg

/-- The block of a name. -/
def block? (f : Function) (name : String) : Option Block := f.blocks.find? (·.name == name)

end Function

namespace GlobalValue

/-- What the address of a global value points to. -/
def valueType : GlobalValue → Ty
  | data g => g.ty
  | code f => f.ty

end GlobalValue

/-- The global value of a name. -/
def Module.global? (m : Module) (name : String) : Option GlobalValue :=
  match m.globals.find? (·.name == name) with
  | some g => some (.data g)
  | none => (m.functions.find? (·.name == name)).map .code

end PathSafety.IR
