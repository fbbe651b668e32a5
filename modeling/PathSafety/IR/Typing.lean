import PathSafety.IR.Module
import Std.Data.TreeMap

/-!
# Types of operands and results

Only constants, arguments and some instructions carry their types; the other types follow. A `Scope` is
what an operand has to be seen in: the module for global names and the types of the registers.
-/

namespace PathSafety.IR

/-- Where operands are looked up. -/
structure Scope where
  module : Module
  structs : StructTable
  registers : Std.TreeMap String Ty

namespace Scope

/-- The type of an operand; `void` for one that is not there. -/
def operandType (s : Scope) : Operand → Ty
  | .register n => s.registers.getD n .void
  | .global n => match s.module.global? n with
    | some v => .ptrTo v.valueType 0
    | none => .void
  | .constant t _ => t
  | .assembly t _ _ => t

/-- The function type of a callee. -/
def calleeType (s : Scope) (callee : Operand) : Ty :=
  match s.operandType callee with
  | .ptrTo t _ => t
  | t => t

/-- The part of a type that an index selects. -/
def part (s : Scope) (t : Ty) (index : Nat) : Ty :=
  match t with
  | .array _ e | .vector _ e => e
  | t => ((t.fields? s.structs).getD [])[index]?.getD .void

/-- The part of a type that an index operand selects. Fields are selected by constants. -/
def partAt (s : Scope) (t : Ty) : Operand → Ty
  | .constant _ (.int n) => s.part t n.toNat
  | _ => s.part t 0

/-- The type that a pointer operation works on: the one written, or what the pointer points to. -/
def accessType (s : Scope) (pointer : Operand) (written : Option Ty) : Ty :=
  written.getD ((s.operandType pointer).pointee?.getD .void)

/-- The type of a comparison's result: a bit, or as many as the operands have elements. -/
def comparisonType (s : Scope) (a : Operand) : Ty :=
  match s.operandType a with
  | .vector n _ => .vector n (.int 1)
  | _ => .int 1

/-- The type of the pointer that an address computation gives. -/
def gepType (s : Scope) (pointer : Operand) (written : Option Ty) (indices : List Operand) : Ty :=
  match written, s.operandType pointer with
  | none, .ptrTo t space => .ptrTo ((indices.drop 1).foldl s.partAt t) space
  | _, t => t

/-- The type of an instruction's result. -/
def resultType (s : Scope) : Op → Ty
  | .arith _ _ a _ | .select _ a _ => s.operandType a
  | .icmp _ a _ => s.comparisonType a
  | .cast _ _ target => target
  | .alloca t _ => .ptrTo t 0
  | .load p t => s.accessType p t
  | .gep _ p t is => s.gepType p t is
  | .phi t _ => t
  | .call callee _ => match s.calleeType callee with
    | .fn ret _ _ => ret
    | _ => .void
  | .store .. | .br _ | .condBr .. | .switch .. | .ret _ | .unreachable => .void
  | .unmodeled op => match op with
    | .floatArith _ _ a _ | .fneg a => s.operandType a
    | .fcmp _ a _ => s.comparisonType a
    | .floatCast _ _ target => target
    | .extractValue a path => path.foldl s.part (s.operandType a)
    | .insertValue a _ _ | .insertElement a _ _ => s.operandType a
    | .extractElement a _ => s.part (s.operandType a) 0
    | .atomicUpdate _ _ v _ => s.operandType v
    | .fence _ => .void

/-- Takes in the types of the results of instructions. -/
def withResults (s : Scope) (instrs : List Instr) : Scope :=
  instrs.foldl (fun s i => { s with registers := s.registers.insert i.name (s.resultType i.op) }) s

/-- The scope of a function's body. One pass over the blocks finds a type wherever definitions are
written before their uses; a second pass serves the other orders. -/
def ofFunction (m : Module) (structs : StructTable) (f : Function) : Scope :=
  let args := f.params.foldl (fun r (n, t) => r.insert n t) (∅ : Std.TreeMap String Ty)
  let instrs := f.blocks.flatMap (·.instrs)
  ((Scope.mk m structs args).withResults instrs).withResults instrs

end Scope

end PathSafety.IR
