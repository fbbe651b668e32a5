import PathSafety.Hooks.Guard

/-!
# Sandbox hooks

What the operations of a sandbox library do: values inside the sandbox are wrapped, and wrappers are read,
written, indexed and allocated through calls. Widths come from the types at the call.
-/

namespace PathSafety

open IR

/-- The built-in hooks. -/
inductive SandboxHook where
  /-- Takes the payload out of a wrapper. -/
  | unsafeUnverified
  /-- Writes a payload into a wrapper. -/
  | taintedAssign
  /-- The address of an element, whose index may come by reference. -/
  | taintedIndex
  /-- The address of an element, whose index comes by value. -/
  | stdArrayIndex
  /-- Reads the pointer inside a wrapper. -/
  | taintedDeref
  /-- Allocates storage for a number of objects. -/
  | mallocInSandbox
  /-- Gives something unknown of the type that the callee returns. -/
  | default
  deriving DecidableEq, Repr

namespace SandboxHook

/-- The name of a hook. -/
def name : SandboxHook → String
  | unsafeUnverified => "UnsafeUnverifiedHook"
  | taintedAssign => "TaintedAssignHook"
  | taintedIndex => "TaintedIndexHook"
  | stdArrayIndex => "StdArrayIndexHook"
  | taintedDeref => "TaintedDerefHook"
  | mallocInSandbox => "MallocInSandboxHook"
  | default => "DefaultHook"

/-- All built-in hooks. -/
def all : List SandboxHook :=
  [unsafeUnverified, taintedAssign, taintedIndex, stdArrayIndex, taintedDeref, mallocInSandbox, default]

/-- The hook of a name. -/
def ofName? (n : String) : Option SandboxHook := all.find? (·.name == n)

/-- The canonical signatures of the operations, with their hooks. -/
def table : List (String × SandboxHook) :=
  [("rlbox::tainted_base_impl::UNSAFE_unverified", unsafeUnverified),
   ("rlbox::tainted_base_impl::unverified_safe_because", unsafeUnverified),
   ("rlbox::tainted_volatile::operator=", taintedAssign),
   ("rlbox::tainted::operator=", taintedAssign),
   ("rlbox::tainted_base_impl::operator[]", taintedIndex),
   ("std::array::operator[]", stdArrayIndex),
   ("rlbox::tainted_base_impl::operator*", taintedDeref),
   ("rlbox::rlbox_sandbox::malloc_in_sandbox", mallocInSandbox)]

/-- How many arguments a hook accepts; the default hook accepts any number. -/
def arity? : SandboxHook → Option Arity
  | unsafeUnverified | mallocInSandbox => some (.oneOf [1, 2])
  | taintedAssign | taintedIndex | stdArrayIndex => some (.exactly 2)
  | taintedDeref => some (.exactly 1)
  | default => none

variable (s : Setting) (c : Call)

/-- Reads what is stored in a wrapper, as wide as the type that the call returns. -/
def readPayload : Action Outcome := do
  let width ← Call.sizeOf s c.resultType
  let wrapper ← c.eval s (← c.arg 0)
  return .returned (← Machine.read s wrapper width)

/-- Writes a value into a wrapper. A pointer is a wrapper itself and stands for its payload. -/
def writePayload : Action Outcome := do
  let destination ← c.eval s (← c.arg 0)
  let operand ← c.arg 1
  let v ← c.eval s operand
  let t := c.typeOf operand
  let payload ←
    if t.isPointer then do
      let width ← Call.sizeOf s (← Call.pointee t)
      Machine.read s v width
    else pure v
  Machine.write s destination payload
  match c.resultType with
  | .void => return .returnedVoid
  | _ => return .returned destination

/-- The address of an element, as large as what the returned pointer points to. -/
def elementAddress (byReference : Bool) : Action Outcome := do
  let base ← c.eval s (← c.arg 0)
  let operand ← c.arg 1
  let index ← c.eval s operand
  let t := c.typeOf operand
  let index ←
    if byReference && t.isPointer then do
      let width ← Call.sizeOf s (← Call.pointee t)
      Machine.read s index width
    else pure index
  let element ← Call.pointee c.resultType
  let size ← Machine.sizeInBytes s element
  let offset ← Machine.valueOr
    (Value.arith .mul (index.resize base.width) (.ofNat base.width size))
  return .returned (← Machine.valueOr (Value.arith .add base offset))

/-- Storage for what the returned pointer points to, or for as many of it as the second argument says. -/
def allocateObjects : Action Outcome := do
  let element ← Call.pointee c.resultType
  let bits ← Call.sizeOf s element
  if bits = 0 then Machine.fault (.emptyAllocation c.calleeName element)
  match c.args[1]? with
  | none => return .returned (← Machine.allocate s bits)
  | some count =>
    let count ← c.eval s count
    if count.isSymbolic then Machine.fault (.symbolicCount c.calleeName)
    return .returned (← Machine.allocate s (bits * (← Machine.evalNat count)))

/-- The beginning of the name of an unknown value, by its type. -/
def unknownPrefix? : Ty → Option String
  | .int _ => some "int"
  | .half | .float | .double => some "fp"
  | .vector _ _ => some "vec"
  | .array _ _ => some "arr"
  | .struct _ _ | .named _ => some "struct"
  | _ => none

/-- Whether a type is a struct about whose elements nothing is known. -/
def isOpaqueStruct : Ty → Bool
  | .named n => ((Ty.named n).fields? s.project.layout.structs).isNone
  | _ => false

/-- An unknown value. A pointer points to fresh storage if it says what for. -/
def unknownResult : Action Outcome := do
  let t := c.resultType
  let callee := c.calleeName
  match t with
  | .void => return .returnedVoid
  | .ptr _ | .ptrTo _ _ =>
    let bits := if t.isOpaque then none else t.pointee?.bind s.project.layout.bits?
    match bits with
    | none | some 0 => return .returned (← Machine.fresh ("ptr_" ++ callee) s.pointerBits)
    | some n => return .returned (← Machine.allocate s n)
  | t =>
    match unknownPrefix? t with
    | none => Machine.fault (.unsupportedResult callee t)
    | some pre =>
      if isOpaqueStruct s t then Machine.fault (.opaqueResult callee t)
      let bits ← Call.sizeOf s t
      return .returned (← Machine.fresh (pre ++ "_" ++ callee) bits)

/-- What a hook does with a call that has as many arguments as it accepts. -/
def body : SandboxHook → Action Outcome
  | unsafeUnverified | taintedDeref => readPayload s c
  | taintedAssign => writePayload s c
  | taintedIndex => elementAddress s c true
  | stdArrayIndex => elementAddress s c false
  | mallocInSandbox => allocateObjects s c
  | default => unknownResult s c

/-- The hook. -/
def run (h : SandboxHook) : Hook := fun s c => do
  if let some accepted := h.arity? then
    let _ ← c.expect accepted
  guarded (body s c h)

end SandboxHook

end PathSafety
