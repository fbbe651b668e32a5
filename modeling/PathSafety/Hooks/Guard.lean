import PathSafety.Machine.Site

/-!
# Guarded hooks

What all built-in hooks share: they accept certain numbers of arguments, and a fault of the engine inside
one is reported as rejected.
-/

namespace PathSafety

open IR

namespace Call

/-- The arguments, if there are as many as accepted. -/
def expect (c : Call) (accepted : Arity) : Action (List Operand) :=
  if accepted.accepts c.args.length then pure c.args
  else Machine.fault (.arity c.calleeName accepted c.args.length)

/-- What a pointer type says that it points to. -/
def pointee (t : Ty) : Action Ty :=
  if !t.isPointer then Machine.fault (.notPointer t)
  else
    match t.isOpaque, t.pointee? with
    | false, some u => pure u
    | _, _ => Machine.fault (.opaquePointee t)

/-- The size in bits of a type. -/
def sizeOf (s : Setting) (t : Ty) : Action Nat :=
  match s.project.layout.bits? t with
  | some n => pure n
  | none => Machine.fault (.unsizedValue t)

end Call

/-- A fault as it leaves a hook. -/
def Fault.reject (f : Fault) : Fault := if f.kind.isVerification then f else .rejected f

/-- Runs the body of a hook. -/
def guarded {α : Type} (body : Action α) : Action α :=
  tryCatch body fun
    | .fault f => Machine.fault f.reject
    | .defect d => Machine.defect d

end PathSafety
