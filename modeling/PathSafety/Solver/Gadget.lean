import PathSafety.Term.Basic
import Std.Tactic.BVDecide.Bitblast

/-!
# Gadgets

The bit-level expressions of the standard library know fewer operations than `Term`. Each gadget here
spells one missing operation with those that exist; its `eval_` lemma says that it computes the
operation.
-/

namespace PathSafety.Gadget

open Std.Tactic.BVDecide

variable {w n : Nat} {σ : BVExpr.Assignment}

/-- Two's complement. -/
def neg (a : BVExpr w) : BVExpr w := .bin (.un .not a) .add (.const 1#w)

@[simp] theorem eval_neg (a : BVExpr w) : (neg a).eval σ = -(a.eval σ) := by
  simp [neg, BitVec.neg_eq_not_add]

/-- Subtraction. -/
def sub (a b : BVExpr w) : BVExpr w := .bin a .add (neg b)

@[simp] theorem eval_sub (a b : BVExpr w) : (sub a b).eval σ = a.eval σ - b.eval σ := by
  simp [sub, BitVec.sub_eq_add_neg]

/-- One bit of a term. -/
def bit (i : Nat) (a : BVExpr w) : BVExpr 1 := .extract i 1 a

@[simp] theorem eval_bit (i : Nat) (a : BVExpr w) :
    (bit i a).eval σ = BitVec.ofBool ((a.eval σ).getLsbD i) := by
  ext j hj
  obtain rfl : j = 0 := by omega
  simp [bit]

/-- The sign bit. -/
def sign (a : BVExpr w) : BVExpr 1 := bit (w - 1) a

@[simp] theorem eval_sign (a : BVExpr w) : (sign a).eval σ = BitVec.ofBool (a.eval σ).msb := by
  cases w with
  | zero => rw [sign, eval_bit, BitVec.msb_eq_getLsbD_last]
  | succ w => simp [sign, BitVec.msb_eq_getLsbD_last]

/-- Unsigned order as a bit: the borrow of a subtraction one bit wider. -/
def ult (a b : BVExpr w) : BVExpr 1 :=
  bit w (sub (w := 1 + w) (.append (.const 0#1) a rfl) (.append (.const 0#1) b rfl))

@[simp] theorem eval_ult (a b : BVExpr w) :
    (ult a b).eval σ = BitVec.ofBool ((a.eval σ).ult (b.eval σ)) := by
  simp only [ult, eval_bit, eval_sub, BVExpr.eval_append, BVExpr.eval_const]
  congr 1
  generalize a.eval σ = x
  generalize b.eval σ = y
  have hx := x.isLt
  have hy := y.isLt
  have hp : 2 ^ (1 + w) = 2 * 2 ^ w := by rw [Nat.add_comm, Nat.pow_succ, Nat.mul_comm]
  rw [← BitVec.testBit_toNat, BitVec.toNat_sub]
  simp only [BitVec.toNat_append, BitVec.toNat_ofNat, Nat.zero_mod, Nat.zero_shiftLeft, Nat.zero_or]
  rw [BitVec.ult, Nat.testBit_eq_decide_div_mod_eq, hp, Bool.eq_iff_iff]
  simp only [decide_eq_true_eq]
  by_cases h : x.toNat < y.toNat
  · have : (2 * 2 ^ w - y.toNat + x.toNat) % (2 * 2 ^ w) = 2 * 2 ^ w - y.toNat + x.toNat :=
      Nat.mod_eq_of_lt (by omega)
    rw [this]
    have h1 : (2 * 2 ^ w - y.toNat + x.toNat) / 2 ^ w = 1 := by
      rw [Nat.div_eq_iff (by omega)]
      omega
    simp [h, h1]
  · have : (2 * 2 ^ w - y.toNat + x.toNat) % (2 * 2 ^ w) = x.toNat - y.toNat := by
      rw [show 2 * 2 ^ w - y.toNat + x.toNat = (x.toNat - y.toNat) + 2 * 2 ^ w by omega,
        Nat.add_mod_right]
      exact Nat.mod_eq_of_lt (by omega)
    rw [this]
    have h1 : (x.toNat - y.toNat) / 2 ^ w = 0 := Nat.div_eq_of_lt (by omega)
    simp [h, h1]

/-- Equality as a bit: the difference pattern is below one. -/
def eq (a b : BVExpr w) : BVExpr 1 :=
  .un .not (ult (.const 0#w) (.bin a .xor b))

@[simp] theorem eval_eq (a b : BVExpr w) :
    (eq a b).eval σ = BitVec.ofBool (a.eval σ == b.eval σ) := by
  simp only [eq, BVExpr.eval_un, eval_ult, BVExpr.eval_const, BVExpr.eval_bin, BVUnOp.eval,
    BVBinOp.eval]
  generalize a.eval σ = x
  generalize b.eval σ = y
  by_cases h : x = y
  · subst h
    simp [BitVec.ult]
  · have hne : x ^^^ y ≠ 0#w := by simpa [BitVec.xor_eq_zero_iff] using h
    have : (0#w).ult (x ^^^ y) = true := by
      have : (x ^^^ y).toNat ≠ 0 := fun hz => hne (BitVec.eq_of_toNat_eq (by simpa using hz))
      simp only [BitVec.ult, BitVec.toNat_ofNat, Nat.zero_mod, decide_eq_true_eq]
      omega
    rw [this, beq_eq_false_iff_ne.mpr h]
    rfl

/-- Signed order as a bit. -/
def slt (a b : BVExpr w) : BVExpr 1 :=
  .bin (.bin (sign a) .xor (sign b)) .xor (ult a b)

@[simp] theorem eval_slt (a b : BVExpr w) :
    (slt a b).eval σ = BitVec.ofBool ((a.eval σ).slt (b.eval σ)) := by
  simp only [slt, BVExpr.eval_bin, eval_sign, eval_ult, BVBinOp.eval]
  generalize a.eval σ = x
  generalize b.eval σ = y
  rw [BitVec.slt_eq_ult]
  cases x.msb <;> cases y.msb <;> cases x.ult y <;> rfl

/-- A choice between two terms by a bit. -/
def mux (c : BVExpr 1) (a b : BVExpr w) : BVExpr w :=
  let m : BVExpr w := .replicate w c (by omega)
  .bin (.bin m .and a) .or (.bin (.un .not m) .and b)

theorem eval_replicate_bit (c : BVExpr 1) (h : w = 1 * w) :
    (BVExpr.replicate w c h).eval σ = if c.eval σ = 1#1 then BitVec.allOnes w else 0#w := by
  have key : ∀ (v : BitVec 1) (u : Nat) (h' : u = 1 * w),
      (h' ▸ BitVec.replicate w v : BitVec u) = if v = 1#1 then BitVec.allOnes u else 0#u := by
    intro v u h'
    subst h'
    ext i hi
    rcases (by decide : ∀ c : BitVec 1, c = 0#1 ∨ c = 1#1) v with rfl | rfl <;>
      simp [Nat.mod_one]
  simpa [BVExpr.eval] using key (c.eval σ) w h

@[simp] theorem eval_mux (c : BVExpr 1) (a b : BVExpr w) :
    (mux c a b).eval σ = if c.eval σ = 1#1 then a.eval σ else b.eval σ := by
  simp only [mux, BVExpr.eval_bin, BVExpr.eval_un, eval_replicate_bit, BVBinOp.eval, BVUnOp.eval]
  split <;> simp

/-- One term above another, at a width known to be the sum. -/
def append {m : Nat} (a : BVExpr m) (b : BVExpr n) (h : w = m + n) : BVExpr w := .append a b h

@[simp] theorem eval_append {m : Nat} (a : BVExpr m) (b : BVExpr n) (h : w = m + n) :
    (append a b h).eval σ = (a.eval σ ++ b.eval σ).cast h.symm := by
  subst h
  simp [append]

/-- Sign extension, or the lowest bits where the result is not wider. -/
def signExtend (w : Nat) (a : BVExpr n) : BVExpr w :=
  if h : n ≤ w then append (.replicate (w - n) (sign a) (by omega)) a (m := w - n) (by omega)
  else .extract 0 w a

@[simp] theorem eval_signExtend (a : BVExpr n) :
    (signExtend w a).eval σ = (a.eval σ).signExtend w := by
  by_cases h : n ≤ w
  · rw [signExtend, dif_pos h, eval_append, eval_replicate_bit, eval_sign,
      BitVec.signExtend_eq_append_of_le h]
    cases (a.eval σ).msb <;> simp
  · rw [signExtend, dif_neg h, BVExpr.eval_extract]
    ext i hi
    rw [BitVec.getElem_extractLsb', BitVec.getElem_signExtend, dif_pos (by omega), Nat.zero_add,
      BitVec.getLsbD_eq_getElem]

/-- Unsigned division, all ones for a divisor of zero. -/
def udiv (a b : BVExpr w) : BVExpr w :=
  mux (eq b (.const 0#w)) (.const (BitVec.allOnes w)) (.bin a .udiv b)

@[simp] theorem eval_udiv (a b : BVExpr w) :
    (udiv a b).eval σ = (a.eval σ).smtUDiv (b.eval σ) := by
  simp only [udiv, eval_mux, eval_eq, BVExpr.eval_const, BVExpr.eval_bin, BVBinOp.eval,
    BitVec.smtUDiv_eq]
  by_cases h : b.eval σ = 0#w
  · simp [h]
  · rw [beq_eq_false_iff_ne.mpr h, if_neg h, if_neg (by decide)]

/-- Unsigned remainder. -/
def urem (a b : BVExpr w) : BVExpr w := .bin a .umod b

/-- The value without its sign. -/
def magnitude (a : BVExpr w) : BVExpr w := mux (sign a) (neg a) a

@[simp] theorem eval_magnitude (a : BVExpr w) :
    (magnitude a).eval σ = if (a.eval σ).msb then -(a.eval σ) else a.eval σ := by
  simp only [magnitude, eval_mux, eval_sign, eval_neg]
  cases (a.eval σ).msb <;> rfl

/-- Signed division, rounded toward zero. -/
def sdiv (a b : BVExpr w) : BVExpr w :=
  let q := udiv (magnitude a) (magnitude b)
  mux (.bin (sign a) .xor (sign b)) (neg q) q

@[simp] theorem eval_sdiv (a b : BVExpr w) :
    (sdiv a b).eval σ = (a.eval σ).smtSDiv (b.eval σ) := by
  simp only [sdiv, eval_mux, eval_neg, eval_udiv, eval_magnitude, BVExpr.eval_bin, eval_sign,
    BVBinOp.eval, BitVec.smtSDiv_eq]
  cases (a.eval σ).msb <;> cases (b.eval σ).msb <;> rfl

/-- Signed remainder, with the sign of the dividend. -/
def srem (a b : BVExpr w) : BVExpr w :=
  let r := urem (magnitude a) (magnitude b)
  mux (sign a) (neg r) r

@[simp] theorem eval_srem (a b : BVExpr w) :
    (srem a b).eval σ = (a.eval σ).srem (b.eval σ) := by
  simp only [srem, urem, eval_mux, eval_neg, eval_magnitude, BVExpr.eval_bin, eval_sign,
    BVBinOp.eval, BitVec.srem_eq]
  cases (a.eval σ).msb <;> cases (b.eval σ).msb <;> rfl

end PathSafety.Gadget
