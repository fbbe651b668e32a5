import PathSafety.Proofs.IR.Fits

/-!
# Single bits in well-typed modules

A conditional branch tests a single bit. What typing says about single bits is little of what it says: the registers of
type `i1` are assigned by operations that give one bit from operands that are one bit, functions that return `i1` return
one bit, parameters of type `i1` get one bit, and branches test one. A module keeps this if it is well typed; nothing is
asked of operands of other types.

Contents:

* `Operand.isBit` — operands that are single bits, where some registers are;
* `Op.givesBit`, `Op.takesBits` — operations that give single bits, and those that get them where they need them;
* `Routine.typesBits`, `Project.TypesBits` — that routines keep the typing of single bits.
-/

namespace PathSafety.IR

/-- Whether a type is that of a single bit. -/
def Ty.isBit : Ty → Bool
  | .int 1 => true
  | _ => false

section Operands

variable (p : Project) (r : Routine) (bits : List String)

/-- Whether a constant of type `i1` is a single bit. Several elements are no integer, and an address is as wide as
pointers are. -/
def ConstantValue.isBit : ConstantValue → Bool
  | .expression text =>
    match ExpressionShape.of? p (Text.trim text.toList) with
    | some (.element ..) => false
    | _ => true
  | .elements _ => false
  | _ => true

/-- Whether an operand is a single bit, where `bits` are the registers that hold one. -/
def Operand.isBit : Operand → Bool
  | .register n => bits.contains n
  | .constant t v => t.isBit && v.isBit p
  | .global _ | .assembly .. => false

/-- Whether what an operation leaves in its register is a single bit. A call that names no function leaves nothing. -/
def Op.givesBit : Op → Bool
  | .arith _ _ a _ | .select _ a _ => a.isBit p bits
  | .icmp .. => true
  | .cast _ _ t => t.isBit
  | .load a t => (r.scope.accessType a t).isBit
  | .phi _ incoming => incoming.all fun (o, _) => o.isBit p bits
  | .call callee _ =>
    match Fits.target? r callee with
    | some f => f.ret.isBit
    | none => true
  | .alloca .. | .gep .. => false
  | .store .. | .br _ | .condBr .. | .switch .. | .ret _ | .unreachable | .unmodeled _ => true

/-- Whether an operation gets single bits where it needs them: to branch, to return one, and to pass one. -/
def Op.takesBits : Op → Bool
  | .condBr c _ _ => c.isBit p bits
  | .ret (some v) => !r.function.ret.isBit || v.isBit p bits
  | .call callee args =>
    match Fits.target? r callee with
    | some f => (f.params.zip args).all fun (param, o) => !param.2.isBit || o.isBit p bits
    | none => true
  | _ => true

/-- Whether some registers of a routine hold single bits by their types, and single bits are where they are needed. -/
def Routine.typesBits : Bool :=
  (r.function.params.all fun (n, t) => !bits.contains n || t.isBit) &&
    r.function.blocks.all fun b =>
      b.instrs.all fun i => (!bits.contains i.name || i.op.givesBit p r bits) && i.op.takesBits p r bits

end Operands

/-- That the routines of a project keep the typing of single bits, where the registers that hold one are given for each
of them. -/
def Project.TypesBits (p : Project) (bits : Routine → List String) : Prop :=
  ∀ r ∈ p.routines, r.typesBits p (bits r) = true

section Rules

variable {p : Project} {r : Routine} {bits : List String} {b : Block} {i : Instr}

theorem Routine.isBit_of_param (h : r.typesBits p bits = true) {n : String} {t : Ty} (hn : (n, t) ∈ r.function.params)
    (hbits : n ∈ bits) : t.isBit = true := by
  have hparam := List.all_eq_true.mp (Bool.and_eq_true_iff.mp h).1 _ hn
  simpa [hbits] using hparam

theorem Routine.typesBits_instr (h : r.typesBits p bits = true) (hb : b ∈ r.function.blocks) (hi : i ∈ b.instrs) :
    (i.name ∈ bits → i.op.givesBit p r bits = true) ∧ i.op.takesBits p r bits = true := by
  have hinstr := List.all_eq_true.mp (List.all_eq_true.mp (Bool.and_eq_true_iff.mp h).2 b hb) i hi
  simpa [imp_iff_not_or] using hinstr

theorem Ty.eq_of_isBit {t : Ty} (h : t.isBit = true) : t = .int 1 := by
  unfold Ty.isBit at h
  split at h
  · rfl
  · cases h

end Rules

end PathSafety.IR
