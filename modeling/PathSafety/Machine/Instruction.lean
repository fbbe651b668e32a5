import PathSafety.Machine.Site

/-!
# Instructions

What the instructions that do not end a block do. Each takes the site it stands at and gives the value of
its result.
-/

namespace PathSafety

open IR

/-- The condition that a comparison stands for. -/
def IR.IntPredicate.condition (p : IntPredicate) (a b : Value) : Except ValueError Cond :=
  match p with
  | .eq => a.cmp .eq b
  | .ne => (a.cmp .eq b).map Term.mkNot
  | .ugt => b.cmp .ult a
  | .uge => b.cmp .ule a
  | .ult => a.cmp .ult b
  | .ule => a.cmp .ule b
  | .sgt => b.cmp .slt a
  | .sge => b.cmp .sle a
  | .slt => a.cmp .slt b
  | .sle => a.cmp .sle b

namespace Machine

variable (s : Setting) (site : Site)

/-- The size of a type in bits; a type of no size ends the path. -/
def sized (t : Ty) : Action Nat :=
  match s.project.layout.bits? t with
  | none | some 0 => fault (.unsized t)
  | some n => pure n

/-- An arithmetic operation. -/
def arith (op : ArithOp) (a b : Operand) : Action Value := do
  let a ← site.eval s a
  let b ← site.eval s b
  valueOr (Value.arith op a b)

/-- A comparison: a single bit. -/
def compare (p : IntPredicate) (a b : Operand) : Action Value := do
  let a ← site.eval s a
  let b ← site.eval s b
  return ⟨← valueOr (p.condition a b)⟩

/-- A conversion; only `sext` widens with the sign. -/
def cast (op : CastOp) (v : Operand) (target : Ty) : Action Value := do
  let v ← site.eval s v
  let bits ← sized s target
  return if op = .sext then v.signedResize bits else v.resize bits

/-- Storage for a known number of objects. -/
def alloca (t : Ty) (count : Option Operand) : Action Value := do
  let bits ← sized s t
  match count with
  | none => allocate s bits
  | some n =>
    let n ← site.eval s n
    if n.isSymbolic then fault (.symbolicAllocation site.text)
    allocate s (bits * (← evalNat n))

/-- A load. -/
def load (pointer : Operand) (written : Option Ty) : Action Value := do
  let bits ← sized s (site.routine.scope.accessType pointer written)
  let address ← site.eval s pointer
  read s address bits

/-- A store; the pointer is evaluated before the value. -/
def store (v pointer : Operand) : Action Unit := do
  let address ← site.eval s pointer
  let v ← site.eval s v
  write s address v

/-- The address that an address computation gives. -/
def gep (pointer : Operand) (written : Option Ty) (indices : List Operand) : Action Value := do
  let base ← site.eval s pointer
  let t := site.routine.scope.accessType pointer written
  let offset ← offset s (site.eval s) base.width t indices
  valueOr (Value.arith .add base offset)

/-- A choice between two values. -/
def select (condition a b : Operand) : Action Value := do
  let condition ← site.eval s condition
  let a ← site.eval s a
  let b ← site.eval s b
  valueOr (Value.ite (condition.equals 1) a b)

/-- The value that comes in from the block before. -/
def phi (incoming : List (Operand × String)) : Action Value :=
  match incoming.find? fun (_, block) => site.previous == some block with
  | some (v, _) => site.eval s v
  | none => fault (.noIncoming (site.previous.getD "entry") site.text)

end Machine

end PathSafety
