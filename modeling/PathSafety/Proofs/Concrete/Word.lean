import Mathlib.Algebra.GroupWithZero.Nat
import PathSafety.Machine.Basic

/-!
# Words and bytes

The values of a concrete run: numbers of some width, and a memory that gives every address a byte.

Contents:

* `Word`, `Word.arith`, `Word.concat` — numbers and what is done with them;
* `number`, `Word.load`, `Word.store` — little-endian reading and writing;
* `number_add`, `byte_number` — a number and its bytes.
-/

namespace PathSafety

/-- A number of some width. -/
structure Word where
  {width : Nat}
  bits : BitVec width
  deriving DecidableEq

/-- What is at every address. -/
abbrev Bytes := Nat → BitVec 8

namespace Word

/-- The number that a word stands for. -/
def toNat (a : Word) : Nat := a.bits.toNat

/-- The number `n`, reduced to the width. -/
def ofNat (width n : Nat) : Word := ⟨BitVec.ofNat width n⟩

/-- The number `n`, reduced to the width. -/
def ofInt (width : Nat) (n : Int) : Word := ⟨BitVec.ofInt width n⟩

/-- A word widened with zeros, or cut. -/
def resize (bits : Nat) (a : Word) : Word := ⟨a.bits.setWidth bits⟩

/-- A word widened with its sign, or cut. -/
def signedResize (bits : Nat) (a : Word) : Word := ⟨a.bits.signExtend bits⟩

/-- Something done with two words of the same width. -/
def aligned {α : Type} (a b : Word) (f : {w : Nat} → BitVec w → BitVec w → α) : Option α :=
  if h : b.width = a.width then some (f a.bits (h ▸ b.bits)) else none

/-- An arithmetic operation. -/
def arith (op : ArithOp) (a b : Word) : Option Word := aligned a b fun x y => ⟨op.eval x y⟩

/-- A comparison. -/
def compare (op : CmpOp) (a b : Word) : Option Bool := aligned a b fun x y => op.eval x y

/-- Words one above another, the first of the list lowest. -/
def concat : List Word → Word
  | [] => ofNat 0 0
  | a :: as => ⟨(concat as).bits ++ a.bits⟩

/-- Words are equal if their widths and numbers are. -/
theorem ext_toNat {a b : Word} (hw : a.width = b.width) (h : a.toNat = b.toNat) : a = b := by
  obtain ⟨u⟩ := a
  obtain ⟨v⟩ := b
  obtain rfl : _ = _ := hw
  exact congrArg Word.mk (BitVec.eq_of_toNat_eq h)

@[simp] theorem toNat_mk {w : Nat} (v : BitVec w) : (Word.mk v).toNat = v.toNat := rfl

theorem toNat_lt (a : Word) : a.toNat < 2 ^ a.width := a.bits.isLt

@[simp] theorem width_concat_cons (a : Word) (as : List Word) :
    (concat (a :: as)).width = (concat as).width + a.width := rfl

@[simp] theorem toNat_concat_cons (a : Word) (as : List Word) :
    (concat (a :: as)).toNat = 2 ^ a.width * (concat as).toNat + a.toNat := by
  show ((concat as).bits ++ a.bits).toNat = _
  rw [BitVec.toNat_append, Nat.shiftLeft_eq, Nat.mul_comm,
    ← Nat.two_pow_add_eq_or_of_lt a.bits.isLt]
  rfl

/-! ### Low bits -/

/-- The low bits of a number are all that it has, if it is no wider. -/
theorem toNat_mod_min (a : Word) (k : Nat) : a.toNat % 2 ^ min k a.width = a.toNat % 2 ^ k := by
  rcases Nat.le_total k a.width with hle | hle
  · rw [Nat.min_eq_left hle]
  · have hlt := Nat.lt_of_lt_of_le a.toNat_lt (Nat.pow_le_pow_right (by decide) hle)
    rw [Nat.min_eq_right hle, Nat.mod_eq_of_lt a.toNat_lt, Nat.mod_eq_of_lt hlt]

/-- Cutting keeps the low bits. -/
theorem toNat_resize_mod (a : Word) {bits k : Nat} (h : k ≤ bits) : (a.resize bits).toNat % 2 ^ k = a.toNat % 2 ^ k := by
  show (a.bits.setWidth bits).toNat % 2 ^ k = _
  rw [BitVec.toNat_setWidth, Nat.mod_mod_of_dvd _ (Nat.pow_dvd_pow 2 h)]
  rfl

/-- The low bits of an integer are those that it has at a smaller width. -/
theorem toNat_ofInt_mod (n : Int) {width k : Nat} (h : k ≤ width) :
    (ofInt width n).toNat % 2 ^ k = (ofInt k n).toNat := by
  have hnonneg : ∀ j : Nat, 0 ≤ n % ((2 ^ j : Nat) : Int) := fun j =>
    Int.emod_nonneg n (Int.natCast_ne_zero.mpr (Nat.ne_of_gt (Nat.two_pow_pos j)))
  show (BitVec.ofInt width n).toNat % 2 ^ k = (BitVec.ofInt k n).toNat
  rw [BitVec.toNat_ofInt, BitVec.toNat_ofInt]
  apply Int.natCast_inj.mp
  rw [Int.natCast_emod, Int.toNat_of_nonneg (hnonneg width), Int.toNat_of_nonneg (hnonneg k),
    Int.emod_emod_of_dvd n (Int.natCast_dvd_natCast.mpr (Nat.pow_dvd_pow 2 h))]

end Word

/-! ## Memory -/

/-- The number that the `n` bytes from address `a` on write, the lowest first. -/
def number (memory : Bytes) (a : Nat) : Nat → Nat
  | 0 => 0
  | n + 1 => (memory a).toNat + 256 * number memory (a + 1) n

namespace Word

open Machine (byteCount)

/-- Reads a word of some width. -/
def load (memory : Bytes) (a bits : Nat) : Word := ofNat bits (number memory a (byteCount bits))

/-- The byte at a place of a word; behind its end are zeros. -/
def byte (v : Word) (place : Nat) : BitVec 8 := v.bits.extractLsb' (8 * place) 8

/-- Writes a word. -/
def store (memory : Bytes) (a : Nat) (v : Word) : Bytes := fun x =>
  if a ≤ x ∧ x < a + byteCount v.width then v.byte (x - a) else memory x

end Word

variable {memory : Bytes}

theorem number_lt (memory : Bytes) (a n : Nat) : number memory a n < 2 ^ (8 * n) := by
  induction n generalizing a with
  | zero => exact Nat.one_pos
  | succ n ih =>
    have h1 := (memory a).isLt
    have h2 := ih (a + 1)
    have h3 : 2 ^ (8 * (n + 1)) = 256 * 2 ^ (8 * n) := by
      rw [Nat.mul_add, Nat.pow_add, Nat.mul_comm]
    simp only [number]
    omega

/-- A number is made of those that two halves of the bytes write. -/
theorem number_add (memory : Bytes) (a m n : Nat) :
    number memory a (m + n) = number memory a m + 2 ^ (8 * m) * number memory (a + m) n := by
  induction m generalizing a with
  | zero => simp [number]
  | succ m ih =>
    have hpow : 2 ^ (8 * (m + 1)) = 256 * 2 ^ (8 * m) := by
      rw [Nat.mul_add, Nat.pow_add, Nat.mul_comm]
    rw [Nat.add_right_comm, number, ih, number, hpow, Nat.mul_add, ← Nat.mul_assoc, ← Nat.add_assoc,
      Nat.add_right_comm a 1 m, Nat.add_assoc a m 1]

/-- Only the bytes that are read matter. -/
theorem number_congr {memory' : Bytes} {a n : Nat} (h : ∀ k < n, memory (a + k) = memory' (a + k)) :
    number memory a n = number memory' a n := by
  induction n generalizing a with
  | zero => rfl
  | succ n ih =>
    have h0 := h 0 (by omega)
    rw [Nat.add_zero] at h0
    rw [number, number, h0, ih fun k hk => ?_]
    have hk := h (k + 1) (by omega)
    rwa [show a + (k + 1) = a + 1 + k by omega] at hk

/-- The bytes of a number are those that write it. -/
theorem byte_number {a n k : Nat} (hk : k < n) :
    BitVec.ofNat 8 (number memory a n / 2 ^ (8 * k)) = memory (a + k) := by
  have hsplit : number memory a n = number memory a k + 2 ^ (8 * k) * number memory (a + k) (n - k) := by
    rw [← number_add, Nat.add_sub_cancel' (Nat.le_of_lt hk)]
  have hsucc : number memory (a + k) (n - k) =
      (memory (a + k)).toNat + 256 * number memory (a + k + 1) (n - k - 1) := by
    rw [show n - k = (n - k - 1) + 1 by omega]
    rfl
  rw [hsplit, Nat.add_comm, Nat.mul_add_div (Nat.two_pow_pos _), Nat.div_eq_of_lt (number_lt _ _ _),
    Nat.add_zero, hsucc]
  apply BitVec.eq_of_toNat_eq
  rw [BitVec.toNat_ofNat]
  have := (memory (a + k)).isLt
  omega

/-- A byte of a bitvector, by its number. -/
theorem extract_byte {w : Nat} (v : BitVec w) (k : Nat) :
    v.extractLsb' (8 * k) 8 = BitVec.ofNat 8 (v.toNat / 2 ^ (8 * k)) := by
  apply BitVec.eq_of_toNat_eq
  rw [BitVec.extractLsb'_toNat, BitVec.toNat_ofNat, Nat.shiftRight_eq_div_pow]

/-- A number of at most `8 * n` bits is written by its `n` bytes. -/
theorem number_bytes {w a n : Nat} (v : BitVec w) (hw : w ≤ 8 * n)
    (h : ∀ k < n, memory (a + k) = v.extractLsb' (8 * k) 8) : number memory a n = v.toNat := by
  have hbytes : ∀ m ≤ n, number memory a m = v.toNat % 2 ^ (8 * m) := by
    intro m hm
    induction m with
    | zero => simp [number, Nat.mod_one]
    | succ m ih =>
      rw [number_add, ih (by omega), number, number, h m (by omega), extract_byte, BitVec.toNat_ofNat,
        Nat.mul_zero, Nat.add_zero, Nat.mul_add, Nat.pow_add, Nat.mod_mul]
  rw [hbytes n (Nat.le_refl n)]
  exact Nat.mod_eq_of_lt (Nat.lt_of_lt_of_le v.isLt (Nat.pow_le_pow_right (by omega) hw))

end PathSafety
