import PathSafety.IR.Module

/-!
# What operations look at

The operands that an operation evaluates, and what an operand is in the end made of: registers, global names and
assembly.

Contents:

* `Operand.leaves` — the registers, global names and assembly in an operand;
* `Op.operands` — the operands that an operation evaluates.
-/

namespace PathSafety.IR

mutual

/-- The registers, global names and assembly in an operand. -/
def Operand.leaves : Operand → List Operand
  | .constant _ v => v.leaves
  | .register n => [.register n]
  | .global n => [.global n]
  | .assembly t code constraint => [.assembly t code constraint]

/-- The registers, global names and assembly in a constant. -/
def ConstantValue.leaves : ConstantValue → List Operand
  | .elements es => Operand.leavesOf es
  | _ => []

/-- The registers, global names and assembly in several operands. -/
def Operand.leavesOf : List Operand → List Operand
  | [] => []
  | o :: os => o.leaves ++ Operand.leavesOf os

end

/-- Whether an operand is not made of others. -/
def Operand.isLeaf : Operand → Bool
  | .constant .. => false
  | _ => true

mutual

theorem Operand.isLeaf_of_mem_leaves {o l : Operand} (h : l ∈ o.leaves) : l.isLeaf = true := by
  cases o with
  | constant t v =>
    rw [Operand.leaves] at h
    exact ConstantValue.isLeaf_of_mem_leaves h
  | register | global | assembly =>
    rw [Operand.leaves] at h
    exact List.mem_singleton.mp h ▸ rfl

theorem ConstantValue.isLeaf_of_mem_leaves {v : ConstantValue} {l : Operand} (h : l ∈ v.leaves) : l.isLeaf = true := by
  cases v with
  | elements es =>
    rw [ConstantValue.leaves] at h
    exact Operand.isLeaf_of_mem_leavesOf h
  | null | undef | int | real | bytes | expression => simp [ConstantValue.leaves] at h

theorem Operand.isLeaf_of_mem_leavesOf {os : List Operand} {l : Operand} (h : l ∈ Operand.leavesOf os) :
    l.isLeaf = true := by
  cases os with
  | nil => simp [Operand.leavesOf] at h
  | cons o os =>
    rw [Operand.leavesOf] at h
    rcases List.mem_append.mp h with h | h
    · exact Operand.isLeaf_of_mem_leaves h
    · exact Operand.isLeaf_of_mem_leavesOf h

end

/-- The operands that an operation evaluates, whatever comes in: not those of a phi, of which it takes one, and not the
callee. -/
def Op.operands : Op → List Operand
  | .arith _ _ a b | .icmp _ a b => [a, b]
  | .cast _ v _ => [v]
  | .alloca _ count => count.toList
  | .load pointer _ => [pointer]
  | .store value pointer => [value, pointer]
  | .gep _ pointer _ indices => pointer :: indices
  | .select condition a b => [condition, a, b]
  | .call _ args => args
  | .condBr condition _ _ => [condition]
  | .switch value _ cases => value :: cases.map (·.1)
  | .ret value => value.toList
  | .phi .. | .br _ | .unreachable | .unmodeled _ => []

end PathSafety.IR
