import PathSafety.Solver.Gadget
import PathSafety.Term.Build

/-!
# Lowering terms to bit-level expressions

`lower` spells a term with the gadgets, every shared part once; `lowerAll` makes one logical expression
of a list of conditions. `Lowers e t` says that `e` computes `t` under every assignment that gives the
variables the values of the symbols; the main statement `unsat_of_lowerAll` carries unsatisfiability of
the logical expression back to the conditions.
-/

namespace PathSafety

open Std.Tactic.BVDecide

/-- `σ` gives the first `n` variables, at all widths up to `n`, the values that `ν` gives the symbols of
those numbers. -/
def Agrees (n : Nat) (ν : Valuation) (σ : BVExpr.Assignment) : Prop :=
  ∀ id < n, ∀ w ≤ n, (BVExpr.var id : BVExpr w).eval σ = BitVec.ofNat w (ν id)

theorem Agrees.mono {m n : Nat} {ν : Valuation} {σ : BVExpr.Assignment} (h : Agrees n ν σ)
    (hmn : m ≤ n) : Agrees m ν σ :=
  fun id hid w hw => h id (by omega) w (by omega)

/-- The assignment that holds, for variables up to `k`, the values of the symbols at width `n`. -/
def assignmentOf (ν : Valuation) (n : Nat) : Nat → BVExpr.Assignment
  | 0 => .leaf ⟨BitVec.ofNat n (ν 0)⟩
  | k + 1 => .branch (k + 1) (assignmentOf ν n k) (.leaf ⟨BitVec.ofNat n (ν (k + 1))⟩)

theorem get_assignmentOf (ν : Valuation) (n k id : Nat) (h : id ≤ k) :
    (assignmentOf ν n k).get id = ⟨BitVec.ofNat n (ν id)⟩ := by
  induction k with
  | zero =>
    obtain rfl : id = 0 := by omega
    rfl
  | succ k ih =>
    change (Bool.rec ((assignmentOf ν n k).get id) ⟨BitVec.ofNat n (ν (k + 1))⟩
      ((k + 1).ble id) : BVExpr.PackedBitVec) = _
    cases hb : (k + 1).ble id with
    | false =>
      have : ¬ k + 1 ≤ id := fun hle => Bool.noConfusion (hb.symm.trans (Nat.ble_eq.mpr hle))
      exact ih (by omega)
    | true =>
      obtain rfl : id = k + 1 := by have := Nat.ble_eq.mp hb; omega
      rfl

/-- Every valuation has an assignment that agrees with it. -/
theorem agrees_assignmentOf (ν : Valuation) (n : Nat) : Agrees n ν (assignmentOf ν n n) := by
  intro id hid w hw
  rw [BVExpr.eval_var, get_assignmentOf ν n n id (by omega)]
  exact BitVec.setWidth_ofNat_of_le hw _

/-- `e` computes `t` under every assignment that agrees with a valuation far enough. -/
def Lowers {w : Nat} (e : BVExpr w) (t : Term w) : Prop :=
  ∃ n, ∀ ν σ, Agrees n ν σ → e.eval σ = t.denote ν

namespace Lowers

variable {w n m : Nat}

theorem of_eval {e : BVExpr w} {t : Term w} (h : ∀ ν σ, e.eval σ = t.denote ν) : Lowers e t :=
  ⟨0, fun ν σ _ => h ν σ⟩

theorem symbol (s : Symbol) : Lowers (.var s.id : BVExpr w) (.symbol s) :=
  ⟨max (s.id + 1) w, fun _ _ h => h s.id (by omega) w (by omega)⟩

theorem map {e : BVExpr n} {t : Term n} {e' : BVExpr w} {t' : Term w} (h : Lowers e t)
    (step : ∀ ν σ, e.eval σ = t.denote ν → e'.eval σ = t'.denote ν) : Lowers e' t' := by
  obtain ⟨k, h⟩ := h
  exact ⟨k, fun ν σ hσ => step ν σ (h ν σ hσ)⟩

theorem map₂ {e : BVExpr n} {t : Term n} {f : BVExpr m} {u : Term m} {e' : BVExpr w} {t' : Term w}
    (h : Lowers e t) (h' : Lowers f u)
    (step : ∀ ν σ, e.eval σ = t.denote ν → f.eval σ = u.denote ν → e'.eval σ = t'.denote ν) :
    Lowers e' t' := by
  obtain ⟨k, h⟩ := h
  obtain ⟨k', h'⟩ := h'
  exact ⟨max k k', fun ν σ hσ =>
    step ν σ (h ν σ (hσ.mono (by omega))) (h' ν σ (hσ.mono (by omega)))⟩

theorem map₃ {c : BVExpr 1} {d : Term 1} {e : BVExpr n} {t : Term n} {f : BVExpr m} {u : Term m}
    {e' : BVExpr w} {t' : Term w} (hc : Lowers c d) (h : Lowers e t) (h' : Lowers f u)
    (step : ∀ ν σ, c.eval σ = d.denote ν → e.eval σ = t.denote ν → f.eval σ = u.denote ν →
      e'.eval σ = t'.denote ν) : Lowers e' t' := by
  obtain ⟨k, hc⟩ := hc
  obtain ⟨k', h⟩ := h
  obtain ⟨k'', h'⟩ := h'
  exact ⟨max k (max k' k''), fun ν σ hσ => step ν σ (hc ν σ (hσ.mono (by omega)))
    (h ν σ (hσ.mono (by omega))) (h' ν σ (hσ.mono (by omega)))⟩

end Lowers

/-- The expression for an operation. -/
def lowerArith {w : Nat} : ArithOp → BVExpr w → BVExpr w → BVExpr w
  | .add, a, b => .bin a .add b
  | .sub, a, b => Gadget.sub a b
  | .mul, a, b => .bin a .mul b
  | .udiv, a, b => Gadget.udiv a b
  | .sdiv, a, b => Gadget.sdiv a b
  | .urem, a, b => Gadget.urem a b
  | .srem, a, b => Gadget.srem a b
  | .and, a, b => .bin a .and b
  | .or, a, b => .bin a .or b
  | .xor, a, b => .bin a .xor b
  | .shl, a, b => .shiftLeft a b
  | .lshr, a, b => .shiftRight a b
  | .ashr, a, b => .arithShiftRight a b

theorem eval_lowerArith {w : Nat} (op : ArithOp) (a b : BVExpr w) (σ : BVExpr.Assignment) :
    (lowerArith op a b).eval σ = op.eval (a.eval σ) (b.eval σ) := by
  cases op <;> simp [lowerArith, ArithOp.eval, BVBinOp.eval, Gadget.urem]

/-- The bit for a comparison. -/
def lowerCmp {n : Nat} : CmpOp → BVExpr n → BVExpr n → BVExpr 1
  | .eq, a, b => Gadget.eq a b
  | .ult, a, b => Gadget.ult a b
  | .ule, a, b => .un .not (Gadget.ult b a)
  | .slt, a, b => Gadget.slt a b
  | .sle, a, b => .un .not (Gadget.slt b a)

theorem eval_lowerCmp {n : Nat} (op : CmpOp) (a b : BVExpr n) (σ : BVExpr.Assignment) :
    (lowerCmp op a b).eval σ = BitVec.ofBool (op.eval (a.eval σ) (b.eval σ)) := by
  cases op <;> simp only [lowerCmp, CmpOp.eval, BVExpr.eval_un, BVUnOp.eval, Gadget.eval_eq,
    Gadget.eval_ult, Gadget.eval_slt]
  · rw [BitVec.ule_eq_not_ult]
    cases (b.eval σ).ult (a.eval σ) <;> rfl
  · rw [BitVec.sle_eq_not_slt]
    cases (b.eval σ).slt (a.eval σ) <;> rfl

/-- A term with an expression that computes it. -/
structure Lowered {w : Nat} (t : Term w) where
  expr : BVExpr w
  lowers : Lowers expr t

/-- A term that was lowered before. -/
structure LoweredEntry where
  {width : Nat}
  term : Term width
  result : Lowered term

/-- What has been lowered so far, found by hash. -/
abbrev LoweringMemory := Std.HashMap UInt64 (List LoweredEntry)

/-- The entry for a term among those of the same hash. -/
def findLowered {w : Nat} (t : Term w) : List LoweredEntry → Option (Lowered t)
  | [] => none
  | e :: rest =>
    if hw : e.width = w then
      if ht : hw ▸ e.term = t then some (by subst hw; subst ht; exact e.result)
      else findLowered t rest
    else findLowered t rest

/-- Lowers a term, using and extending the memory. -/
def lower : {w : Nat} → (t : Term w) → StateM LoweringMemory (Lowered t)
  | _, .const v => pure ⟨.const v, .of_eval fun _ _ => rfl⟩
  | _, .symbol s => pure ⟨.var s.id, .symbol s⟩
  | _, t => do
    if let some r := findLowered t ((← get).getD t.hashCode []) then return r
    let r : Lowered t ← (match t with
      | .const v => pure ⟨.const v, .of_eval fun _ _ => rfl⟩
      | .symbol s => pure ⟨.var s.id, .symbol s⟩
      | .not a => do
        let a ← lower a
        pure ⟨.un .not a.expr, a.lowers.map fun ν σ h => by
          rw [BVExpr.eval_un, h]; rfl⟩
      | .arith op a b => do
        let a ← lower a
        let b ← lower b
        pure ⟨lowerArith op a.expr b.expr, a.lowers.map₂ b.lowers fun ν σ h h' => by
          rw [eval_lowerArith, h, h']; rfl⟩
      | .cmp op a b => do
        let a ← lower a
        let b ← lower b
        pure ⟨lowerCmp op a.expr b.expr, a.lowers.map₂ b.lowers fun ν σ h h' => by
          rw [eval_lowerCmp, h, h']; rfl⟩
      | .ite c a b => do
        let c ← lower c
        let a ← lower a
        let b ← lower b
        pure ⟨Gadget.mux c.expr a.expr b.expr,
          c.lowers.map₃ a.lowers b.lowers fun ν σ hc h h' => by
            rw [Gadget.eval_mux, hc, h, h']; rfl⟩
      | .concat hi lo hw => do
        let hi ← lower hi
        let lo ← lower lo
        pure ⟨Gadget.append hi.expr lo.expr hw, hi.lowers.map₂ lo.lowers fun ν σ h h' => by
          rw [Gadget.eval_append, h, h']; rfl⟩
      | .slice lo a => do
        let a ← lower a
        pure ⟨.extract lo _ a.expr, a.lowers.map fun ν σ h => by
          rw [BVExpr.eval_extract, h]; rfl⟩
      | .sext a => do
        let a ← lower a
        pure ⟨Gadget.signExtend _ a.expr, a.lowers.map fun ν σ h => by
          rw [Gadget.eval_signExtend, h]; rfl⟩)
    modify fun m => m.insert t.hashCode (⟨t, r⟩ :: m.getD t.hashCode [])
    return r

/-- `f` says whether the condition `c` holds. -/
def Decides (f : BVLogicalExpr) (c : Cond) : Prop :=
  ∃ n, ∀ ν σ, Agrees n ν σ → f.eval σ = decide (c.Holds ν)

/-- A condition with a logical expression that decides it. -/
structure LoweredCond (c : Cond) where
  expr : BVLogicalExpr
  decides : Decides expr c

theorem Decides.not {f : BVLogicalExpr} {c : Cond} (h : Decides f c) : Decides (.not f) (.not c) := by
  obtain ⟨n, h⟩ := h
  refine ⟨n, fun ν σ hσ => ?_⟩
  rw [BVLogicalExpr.eval_not, h ν σ hσ]
  rcases (by decide : ∀ v : BitVec 1, v = 0#1 ∨ v = 1#1) (c.denote ν) with hv | hv <;>
    simp [Term.Holds, Term.denote, hv]

theorem Decides.and {f g : BVLogicalExpr} {c d : Cond} (h : Decides f c) (h' : Decides g d) :
    Decides (.gate .and f g) (.arith .and c d) := by
  obtain ⟨n, h⟩ := h
  obtain ⟨n', h'⟩ := h'
  refine ⟨max n n', fun ν σ hσ => ?_⟩
  rw [BVLogicalExpr.eval_gate, h ν σ (hσ.mono (by omega)), h' ν σ (hσ.mono (by omega))]
  rcases (by decide : ∀ v : BitVec 1, v = 0#1 ∨ v = 1#1) (c.denote ν) with hv | hv <;>
    rcases (by decide : ∀ v : BitVec 1, v = 0#1 ∨ v = 1#1) (d.denote ν) with hu | hu <;>
    simp [Term.Holds, Term.denote, ArithOp.eval, Gate.eval, hv, hu]

theorem Lowers.decides {e : BVExpr 1} {c : Cond} (h : Lowers e c) :
    Decides (.literal (.bin e .eq (.const 1#1))) c := by
  obtain ⟨n, h⟩ := h
  refine ⟨n, fun ν σ hσ => ?_⟩
  simp only [BVLogicalExpr.eval_literal, BVPred.eval_bin, BVBinPred.eval, BVExpr.eval_const, h ν σ hσ,
    Term.Holds]
  rfl

theorem Lowers.decides_cmp {n : Nat} {a b : BVExpr n} {t u : Term n} {op : CmpOp}
    {f : BVLogicalExpr} (h : Lowers a t) (h' : Lowers b u)
    (step : ∀ σ, f.eval σ = op.eval (a.eval σ) (b.eval σ)) : Decides f (.cmp op t u) := by
  obtain ⟨k, h⟩ := h
  obtain ⟨k', h'⟩ := h'
  refine ⟨max k k', fun ν σ hσ => ?_⟩
  rw [step, h ν σ (hσ.mono (by omega)), h' ν σ (hσ.mono (by omega))]
  change _ = decide (BitVec.ofBool (op.eval (t.denote ν) (u.denote ν)) = 1#1)
  cases op.eval (t.denote ν) (u.denote ν) <;> rfl

/-- Lowers a condition. Conjunctions and the comparisons that bit-level expressions know become logical
expressions, which need fewer gates than bits. -/
def lowerCond : (c : Cond) → StateM LoweringMemory (LoweredCond c)
  | .not c => do
    let f ← lowerCond c
    pure ⟨.not f.expr, f.decides.not⟩
  | .arith .and c d => do
    let f ← lowerCond c
    let g ← lowerCond d
    pure ⟨.gate .and f.expr g.expr, f.decides.and g.decides⟩
  | .cmp .eq a b => do
    let a ← lower a
    let b ← lower b
    pure ⟨.literal (.bin a.expr .eq b.expr), a.lowers.decides_cmp b.lowers fun _ => rfl⟩
  | .cmp .ult a b => do
    let a ← lower a
    let b ← lower b
    pure ⟨.literal (.bin a.expr .ult b.expr), a.lowers.decides_cmp b.lowers fun _ => rfl⟩
  | .cmp .ule a b => do
    let a ← lower a
    let b ← lower b
    pure ⟨.not (.literal (.bin b.expr .ult a.expr)), a.lowers.decides_cmp b.lowers fun σ => by
      rw [CmpOp.eval, BitVec.ule_eq_not_ult]; rfl⟩
  | c => do
    let r ← lower c
    pure ⟨.literal (.bin r.expr .eq (.const 1#1)), r.lowers.decides⟩

/-- Conditions with a logical expression that is true exactly where they all hold. -/
structure LoweredAll (cs : List Cond) where
  expr : BVLogicalExpr
  decides : ∃ n, ∀ ν σ, Agrees n ν σ → expr.eval σ = decide (Term.AllHold ν cs)

/-- Lowers a list of conditions to their conjunction. -/
def lowerConds : (cs : List Cond) → StateM LoweringMemory (LoweredAll cs)
  | [] => pure ⟨.const true, 0, fun _ _ _ => by simp [Term.AllHold]⟩
  | c :: cs => do
    let f ← lowerCond c
    let g ← lowerConds cs
    pure ⟨.gate .and f.expr g.expr, by
      obtain ⟨n, h⟩ := f.decides
      obtain ⟨n', h'⟩ := g.decides
      refine ⟨max n n', fun ν σ hσ => ?_⟩
      rw [BVLogicalExpr.eval_gate, h ν σ (hσ.mono (by omega)), h' ν σ (hσ.mono (by omega))]
      rw [Bool.eq_iff_iff]
      simp only [Gate.eval, Bool.and_eq_true, decide_eq_true_eq]
      simp only [Term.AllHold, List.forall_mem_cons]⟩

/-- The conjunction of conditions as one logical expression. -/
def lowerAll (cs : List Cond) : LoweredAll cs := (lowerConds cs ∅).1

/-- Conditions whose logical expression is unsatisfiable never hold together. -/
theorem unsat_of_lowerAll {cs : List Cond} (h : (lowerAll cs).expr.Unsat) (ν : Valuation) :
    ¬ Term.AllHold ν cs := by
  obtain ⟨n, hn⟩ := (lowerAll cs).decides
  have := hn ν _ (agrees_assignmentOf ν n)
  rw [h] at this
  simpa using this.symm

end PathSafety
