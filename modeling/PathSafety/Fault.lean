import PathSafety.IR.Ty
import PathSafety.Text.Quoted

/-!
# Faults and defects

A `Fault` ends one path and becomes its result; a `Defect` ends the whole analysis of a function. Faults
are causes: `Fault.kind` says what sort of trouble a fault is and `Fault.message` words it.
-/

namespace PathSafety

open IR (Ty)
open Text (quoted)

/-- A place in a function: the next instruction of a block. -/
structure Location where
  function : String
  block : String
  index : Nat
  deriving DecidableEq, Repr

/-- How a location is written. -/
def Location.text (l : Location) : String := s!"{l.function}:{l.block}:{l.index}"

/-- The sorts of faults. -/
inductive FaultKind where
  | engineError | nullPointerDereference | loopBoundExceeded | unreachableInstruction
  | unsupportedInstruction | functionNotFound | otherError
  | verificationError | unparseableName | unresolvableCallTarget | arityMismatch | engineRejected
  | safetyViolation | divisionByZero | outOfBounds | nullDereference | other
  deriving DecidableEq, Repr

namespace FaultKind

/-- The name of a sort of fault. -/
def name : FaultKind → String
  | engineError => "EngineError"
  | nullPointerDereference => "NullPointerDereference"
  | loopBoundExceeded => "LoopBoundExceeded"
  | unreachableInstruction => "UnreachableInstruction"
  | unsupportedInstruction => "UnsupportedInstruction"
  | functionNotFound => "FunctionNotFound"
  | otherError => "OtherError"
  | verificationError => "VerificationError"
  | unparseableName => "UnparseableName"
  | unresolvableCallTarget => "UnresolvableCallTarget"
  | arityMismatch => "ArityMismatch"
  | engineRejected => "EngineRejected"
  | safetyViolation => "SafetyViolation"
  | divisionByZero => "DivisionByZero"
  | outOfBounds => "OutOfBounds"
  | nullDereference => "NullDereference"
  | other => "Other"

/-- All sorts. -/
def all : List FaultKind :=
  [engineError, nullPointerDereference, loopBoundExceeded, unreachableInstruction,
   unsupportedInstruction, functionNotFound, otherError, verificationError, unparseableName,
   unresolvableCallTarget, arityMismatch, engineRejected, safetyViolation, divisionByZero, outOfBounds,
   nullDereference, other]

/-- The sort of a name. -/
def ofName? (n : String) : Option FaultKind := all.find? (·.name == n)

/-- Whether the sort is raised by hooks, the dispatcher or monitors, and not by the engine. -/
def isVerification : FaultKind → Bool
  | verificationError | unparseableName | unresolvableCallTarget | arityMismatch | engineRejected
  | safetyViolation | divisionByZero | outOfBounds | nullDereference | other => true
  | _ => false

end FaultKind

/-- The numbers of arguments that a hook accepts. -/
inductive Arity where
  | exactly (n : Nat)
  | oneOf (ns : List Nat)
  deriving DecidableEq, Repr

namespace Arity

/-- Whether a number of arguments is accepted. -/
def accepts : Arity → Nat → Bool
  | exactly n, k => n == k
  | oneOf ns, k => ns.contains k

/-- How an arity is written: one number, or a list in parentheses that a single member ends by a comma. -/
def text : Arity → String
  | exactly n => toString n
  | oneOf [n] => s!"({n},)"
  | oneOf ns => "(" ++ ", ".intercalate (ns.map toString) ++ ")"

end Arity

/-- Why a path ended without a result. -/
inductive Fault where
  /-- A load or store through an address that can be zero; the address, if it is a constant. -/
  | nullPointer (bits : Nat) (address : Option Nat)
  | loopBound (function block : String) (bound : Int)
  | unreachable (place : Location)
  | unsupportedInstruction (keyword text : String)
  | unsupportedConstant (text : String) (ty : Ty)
  | unsupportedExpression (text : String)
  | functionNotFound (name : String)
  | noBody (name : String)
  | unsizedParameter (name : String) (ty : Ty)
  | symbolicAllocation (text : String)
  | noIncoming (block : String) (text : String)
  | noSuccessor (place : Location)
  | indirectCall (text : String)
  | undefinedCallee (name : String)
  | callDepth (bound : Int) (name : String)
  | symbolicLength (name : String)
  | emptySymbol (bits : Int) (name : String)
  | unboundOperand
  | unsizedConstant (ty : Ty)
  | unknownGlobal (name : String)
  | emptyAggregate
  | unsized (ty : Ty)
  | notWholeBytes (ty : Ty) (bits : Nat)
  | notIndexable (ty : Ty)
  | emptyName
  | notDemangled (name : String)
  | nothingToParse (name : String)
  | unresolvableCall (text : String)
  | arity (callee : String) (expected : Arity) (actual : Nat)
  /-- A fault of the engine inside a hook. -/
  | rejected (cause : Fault)
  | divisor (place : Location) (text : String)
  | offset (size : Nat) (place : Location) (text : String)
  | notPointer (ty : Ty)
  | opaquePointee (ty : Ty)
  | unsizedValue (ty : Ty)
  | noHook (name : String)
  | opaqueResult (callee : String) (ty : Ty)
  | unsupportedResult (callee : String) (ty : Ty)
  | emptyAllocation (callee : String) (ty : Ty)
  | symbolicCount (callee : String)
  /-- A fault of which only the sort and the wording are known. -/
  | reported (kind : FaultKind) (message : String)

namespace Fault

/-- The sort of a fault. -/
def kind : Fault → FaultKind
  | nullPointer .. => .nullPointerDereference
  | loopBound .. => .loopBoundExceeded
  | unreachable _ => .unreachableInstruction
  | unsupportedInstruction .. | unsupportedConstant .. | unsupportedExpression _ =>
    .unsupportedInstruction
  | functionNotFound _ => .functionNotFound
  | noBody _ | unsizedParameter .. | symbolicAllocation _ | noIncoming .. | noSuccessor _
  | indirectCall _ | undefinedCallee _ | callDepth .. | symbolicLength _ | emptySymbol ..
  | unboundOperand | unsizedConstant _ | unknownGlobal _ | emptyAggregate | unsized _
  | notWholeBytes .. | notIndexable _ => .otherError
  | emptyName | notDemangled _ | nothingToParse _ => .unparseableName
  | unresolvableCall _ => .unresolvableCallTarget
  | arity .. => .arityMismatch
  | rejected _ => .engineRejected
  | divisor .. => .divisionByZero
  | offset .. => .outOfBounds
  | notPointer _ | opaquePointee _ | unsizedValue _ | noHook _ | opaqueResult .. | unsupportedResult ..
  | emptyAllocation .. | symbolicCount _ => .other
  | reported k _ => k

/-- A value as messages show it: constants in hexadecimal, anything else as a blank. -/
def shown (bits : Nat) : Option Nat → String
  | some n => s!"<BV{bits} 0x{Text.hex n}>"
  | none => "_"

/-- The wording of a fault. -/
def message : Fault → String
  | nullPointer bits address => s!"null pointer dereference (address {shown bits address})"
  | loopBound f b bound => s!"loop bound {bound} exceeded at {f}:{b}"
  | unreachable l => s!"reached unreachable at {l.text}"
  | unsupportedInstruction k t => s!"unsupported instruction '{k}': {t}"
  | unsupportedConstant t ty => s!"constant {t} of type {ty.text} is not modeled"
  | unsupportedExpression t => s!"constant expression {quoted t} is not modeled"
  | functionNotFound n => s!"function {quoted n} not found in project"
  | noBody n => s!"function {quoted n} has no body"
  | unsizedParameter n ty => s!"parameter {n} of unsized type {ty.text}"
  | symbolicAllocation t => s!"alloca with symbolic count: {t}"
  | noIncoming b t => s!"phi has no incoming value for {b}: {t}"
  | noSuccessor l => s!"no feasible successor at {l.text}"
  | indirectCall t => s!"indirect call without a hook: {t}"
  | undefinedCallee n => s!"call to undefined function {quoted n} without a hook"
  | callDepth d n => s!"maximum call depth {d} reached calling {n}"
  | symbolicLength n => s!"{n} with symbolic length"
  | emptySymbol bits n => s!"cannot create a {bits}-bit value {quoted n}"
  | unboundOperand => "no value for operand _"
  | unsizedConstant ty => s!"constant of unsized type {ty.text}"
  | unknownGlobal n => s!"constant expression refers to unknown global @{n}"
  | emptyAggregate => "empty aggregate constant"
  | unsized ty => s!"type {ty.text} has no size"
  | notWholeBytes ty bits => s!"type {ty.text} is not byte sized ({bits} bits)"
  | notIndexable ty => s!"cannot index into {ty.text}"
  | emptyName => "empty symbol name"
  | notDemangled n => s!"cannot demangle {quoted n}"
  | nothingToParse n => s!"nothing to parse in {quoted n}"
  | unresolvableCall t => s!"call target is not a known function: {t}"
  | arity c expected n => s!"{c}: expected {expected.text} argument(s), got {n}"
  | rejected cause => s!"engine rejected hook operation: {cause.message}"
  | divisor l t => s!"divisor can be zero at {l.text}: {t}"
  | offset size l t => s!"offset can be >= {size} bytes at {l.text}: {t}"
  | notPointer ty => s!"not a pointer type: {ty.text}"
  | opaquePointee ty => s!"pointee of opaque pointer {ty.text} is unknown"
  | unsizedValue ty => s!"type {ty.text} has no size"
  | noHook n => s!"no hook for {n} and no default hook"
  | opaqueResult c ty => s!"{c} returns opaque struct {ty.text}"
  | unsupportedResult c ty => s!"{c} returns unsupported type {ty.text}"
  | emptyAllocation c ty => s!"{c} allocates zero-sized type {ty.text}"
  | symbolicCount c => s!"{c} called with a symbolic element count"
  | reported _ m => m

end Fault

/-- Trouble that no path can have as its result. -/
inductive Defect where
  /-- A division of one constant by another that is zero. -/
  | divisionByZero
  /-- An operation on values of different widths. -/
  | widthMismatch
  /-- An argument, field or instruction that is not there. -/
  | missingIndex
  /-- A value was asked for on a path that has none. -/
  | noValue
  /-- An address was asked for on a path that has none. -/
  | noAddress
  /-- A global value refers to others more deeply than there are any. -/
  | endlessInitializer
  deriving DecidableEq, Repr

/-- What an action fails with. -/
inductive Failure where
  | fault (f : Fault)
  | defect (d : Defect)

end PathSafety
