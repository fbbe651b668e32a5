import PathSafety.Proofs.Concrete.Run
import PathSafety.Proofs.IR.Fits

/-!
# Phis take their values at once

The phis of a block all read the registers as they were when the block was entered. As long as no phi takes
the value of one before it, this is the same as reading the registers one phi after another.

Contents:

* `Concrete.operand_congr` — operands that name no changed register;
* `Concrete.Activation.Entered` — that the rest of a block's phis can read the registers as they are.
-/

namespace PathSafety.Concrete

open IR

variable {p : Project} {place : Placement} {names : List String} {cs cs' : Registers}

mutual

/-- An operand has the same value in registers that differ in none that it names. -/
theorem operand_congr (h : ∀ n, names.contains n = false → cs n = cs' n) (o : Operand)
    (ho : Fits.mentions names o = false) : operand p place cs o = operand p place cs' o := by
  cases o with
  | register n => exact h n ho
  | global n => rfl
  | assembly => rfl
  | constant t v =>
    unfold operand
    cases p.layout.bits? t with
    | none => rfl
    | some bits => exact constant_congr h t bits v ho

theorem constant_congr (h : ∀ n, names.contains n = false → cs n = cs' n) (t : Ty) (bits : Nat)
    (v : ConstantValue) (hv : Fits.constantMentions names v = false) :
    constant p place cs t bits v = constant p place cs' t bits v := by
  cases v with
  | elements es =>
    unfold constant
    rw [operands_congr h (elementLimit p t es) es hv]
  | _ => rfl

theorem operands_congr (h : ∀ n, names.contains n = false → cs n = cs' n) (k : Nat) (os : List Operand)
    (hos : Fits.operandsMention names os = false) :
    operands p place cs k os = operands p place cs' k os := by
  cases os with
  | nil => cases k <;> rfl
  | cons o os =>
    unfold Fits.operandsMention at hos
    rw [Bool.or_eq_false_iff] at hos
    cases k with
    | zero => rfl
    | succ k =>
      unfold operands
      rw [operand_congr h o hos.1, operands_congr h k os hos.2]

end

/-- That phis among some instructions that are left can read registers as they are: no phi is left, or the
registers are those of the block's entry apart from the results of phis that no phi takes. -/
def PhisFrom (entry cs : Registers) (is : List Instr) : Prop :=
  (∀ i ∈ is, Fits.isPhi i.op = false) ∨
    ∃ seen : List String, Fits.phis seen is = true ∧ ∀ n, seen.contains n = false → entry n = cs n

theorem phisFrom_of_phis {is : List Instr} (h : Fits.phis [] is = true) : PhisFrom cs cs is :=
  Or.inr ⟨[], h, fun _ _ => rfl⟩

/-- A phi has the same value in both registers. -/
theorem PhisFrom.operand {entry : Registers} {i : Instr} {is : List Instr} (h : PhisFrom entry cs (i :: is))
    {t : Ty} {incoming : List (Operand × String)} (hi : i.op = .phi t incoming) {x : Operand × String}
    (hx : x ∈ incoming) : Concrete.operand p place entry x.1 = Concrete.operand p place cs x.1 := by
  rcases h with h | ⟨seen, hseen, hagree⟩
  · have := h i List.mem_cons_self
    rw [hi] at this
    cases this
  · unfold Fits.phis at hseen
    rw [hi] at hseen
    simp only [Fits.incoming?, Bool.and_eq_true] at hseen
    have hno := List.all_eq_true.mp hseen.1 x hx
    exact operand_congr hagree x.1 (by simpa using hno)

/-- Executing an instruction leaves the phis after it as they were. -/
theorem PhisFrom.tail {entry : Registers} {i : Instr} {is : List Instr} (h : PhisFrom entry cs (i :: is))
    (hcs : ∀ n, n ≠ i.name → cs' n = cs n) : PhisFrom entry cs' is := by
  rcases h with h | ⟨seen, hseen, hagree⟩
  · exact Or.inl fun j hj => h j (List.mem_cons_of_mem i hj)
  · unfold Fits.phis at hseen
    cases hincoming : Fits.incoming? i.op with
    | none =>
      rw [hincoming] at hseen
      refine Or.inl fun j hj => ?_
      simpa using List.all_eq_true.mp hseen j hj
    | some incoming =>
      rw [hincoming] at hseen
      simp only [Bool.and_eq_true] at hseen
      refine Or.inr ⟨i.name :: seen, hseen.2, fun n hn => ?_⟩
      simp only [List.contains_cons, Bool.or_eq_false_iff, beq_eq_false_iff_ne, ne_eq] at hn
      rw [hcs n hn.1]
      exact hagree n hn.2

/-- That a run has entered the block that it is in, and the phis that are left can read its registers. -/
def Activation.Entered (a : Activation) : Prop :=
  ∃ entry, a.entry = some entry ∧ PhisFrom entry a.registers (a.block.instrs.drop a.index)

theorem Activation.Entered.finish {a : Activation} (h : a.Entered) {i : Instr} (hi : a.instr? = some i)
    (result : Option Word) : (a.finish result).Entered := by
  obtain ⟨entry, hentry, hphis⟩ := h
  obtain ⟨hlt, hget⟩ := List.getElem?_eq_some_iff.mp hi
  rw [List.drop_eq_getElem_cons hlt, hget] at hphis
  refine ⟨entry, hentry, hphis.tail fun n hn => ?_⟩
  unfold Activation.finish
  rw [hi]
  cases result with
  | none => rfl
  | some v => exact if_neg hn

theorem Activation.Entered.operand {a : Activation} {entry : Registers} (hentry : a.entry = some entry)
    (h : a.Entered) {i : Instr} (hi : a.instr? = some i) {t : Ty} {incoming : List (Operand × String)}
    (hop : i.op = .phi t incoming) {x : Operand × String} (hx : x ∈ incoming) :
    Concrete.operand p place entry x.1 = Concrete.operand p place a.registers x.1 := by
  obtain ⟨entry', hentry', hphis⟩ := h
  obtain rfl := Option.some.inj (hentry.symm.trans hentry')
  obtain ⟨hlt, hget⟩ := List.getElem?_eq_some_iff.mp hi
  rw [List.drop_eq_getElem_cons hlt, hget] at hphis
  exact hphis.operand hop hx

end PathSafety.Concrete
