import Mathlib.Algebra.GroupWithZero.Nat
import Mathlib.Data.Nat.Init
import PathSafety.Value

/-!
# What terms mean

A `Reading` gives every symbol a bitvector at the width at which it is used, and `Term.meaning` carries it
over to terms. `Term.denote` is the special case of readings that come from a valuation. What is proved
here, once for all readings, is that the building functions mean what the constructors mean that they
stand for.

Contents:

* `Reading`, `Term.meaning`, `Term.denote_eq_meaning` — meanings;
* `meaning_mkArith`, `meaning_mkSlice`, `meaning_mkConcat`, ... — one lemma for each building function.
-/

namespace PathSafety

/-- Gives every symbol a bitvector at every width. -/
abbrev Reading := Symbol → (w : Nat) → BitVec w

/-- The reading that a valuation stands for: it looks at the number of a symbol alone. -/
def Valuation.reading (ν : Valuation) : Reading := fun s w => BitVec.ofNat w (ν s.id)

namespace Term

variable {w : Nat} (ρ : Reading)

/-- The width of one word above another. -/
theorem width_eq {m n : Nat} (h : w = m + n) : m + n = w := h.symm

/-- The bitvector that a term stands for under a reading. -/
def meaning : {w : Nat} → Term w → BitVec w
  | _, .const v => v
  | w, .symbol s => ρ s w
  | _, .not a => ~~~ a.meaning
  | _, .arith op a b => op.eval a.meaning b.meaning
  | _, .cmp op a b => BitVec.ofBool (op.eval a.meaning b.meaning)
  | _, .ite c a b => if c.meaning = 1#1 then a.meaning else b.meaning
  | _, .concat hi lo h => (hi.meaning ++ lo.meaning).cast (width_eq h)
  | w, .slice lo a => a.meaning.extractLsb' lo w
  | w, .sext a => a.meaning.signExtend w

theorem denote_eq_meaning (ν : Valuation) {w : Nat} (t : Term w) :
    t.denote ν = t.meaning ν.reading := by
  induction t with
  | const | symbol => rfl
  | not a ih => simp only [denote, meaning, ih]
  | arith op a b iha ihb => simp only [denote, meaning, iha, ihb]
  | cmp op a b iha ihb => simp only [denote, meaning, iha, ihb]
  | ite c a b ihc iha ihb => simp only [denote, meaning, ihc, iha, ihb]
  | concat hi lo h ihh ihl => simp only [denote, meaning, ihh, ihl]
  | slice lo a ih => simp only [denote, meaning, ih]
  | sext a ih => simp only [denote, meaning, ih]

/-! ## Constants -/

variable {ρ}

@[simp] theorem meaning_const (v : BitVec w) : (Term.const v).meaning ρ = v := rfl

theorem eq_const_of_const? {t : Term w} {v : BitVec w} (h : t.const? = some v) : t = .const v := by
  cases t <;> simp_all [const?]

theorem meaning_of_const? {t : Term w} {v : BitVec w} (h : t.const? = some v) : t.meaning ρ = v := by
  rw [eq_const_of_const? h, meaning_const]

theorem meaning_of_isZero {t : Term w} (h : t.isZero = true) : t.meaning ρ = 0#w :=
  meaning_of_const? (by simpa [isZero] using h)

@[simp] theorem meaning_ofBool (b : Bool) : (ofBool b).meaning ρ = BitVec.ofBool b := rfl

@[simp] theorem meaning_tt : tt.meaning ρ = 1#1 := rfl

@[simp] theorem meaning_ff : ff.meaning ρ = 0#1 := rfl

@[simp] theorem meaning_mkNot (t : Term w) : t.mkNot.meaning ρ = ~~~ t.meaning ρ := by
  cases t <;> simp [mkNot, meaning, BitVec.not_not]

/-! ## Operations that keep the width -/

theorem meaning_of_simplify? {op : ArithOp} {a b t : Term w} (h : simplify? op a b = some t) :
    t.meaning ρ = op.eval (a.meaning ρ) (b.meaning ρ) := by
  have zero : ∀ {t : Term w}, t.isZero = true → t.meaning ρ = 0#w := meaning_of_isZero
  have const : ∀ {t : Term w} {v : BitVec w}, t.const? = some v → t.meaning ρ = v := meaning_of_const?
  cases op <;> simp only [simplify?] at h <;> (repeat' split at h) <;>
    simp_all [ArithOp.eval]
  all_goals simp [← h]

@[simp] theorem meaning_mkArith (op : ArithOp) (a b : Term w) :
    (mkArith op a b).meaning ρ = op.eval (a.meaning ρ) (b.meaning ρ) := by
  simp only [mkArith]
  split
  · rename_i u v ha hb
    rw [meaning_const, meaning_of_const? ha, meaning_of_const? hb]
  · cases h : simplify? op a b with
    | none => rfl
    | some t => exact meaning_of_simplify? h

theorem eq_zero_or_one (v : BitVec 1) : v = 0#1 ∨ v = 1#1 := by
  revert v
  decide

theorem ofBool_beq_one (v : BitVec 1) : BitVec.ofBool (v == 1#1) = v := by
  revert v
  decide

theorem ofBool_beq_zero (v : BitVec 1) : BitVec.ofBool (v == 0#1) = ~~~ v := by
  revert v
  decide

/-- A single bit equals one where it is set and zero where its negation is. -/
theorem meaning_truth (a : Cond) (v : BitVec 1) :
    (if v = 1#1 then a else a.mkNot).meaning ρ = BitVec.ofBool (a.meaning ρ == v) := by
  rcases eq_zero_or_one v with rfl | rfl
  · rw [if_neg (by decide), meaning_mkNot, ofBool_beq_zero]
  · rw [if_pos rfl, ofBool_beq_one]

theorem meaning_of_truth? {n : Nat} {a b : Term n} {c : Cond} (h : truth? a b = some c) :
    c.meaning ρ = BitVec.ofBool (a.meaning ρ == b.meaning ρ) := by
  unfold truth? at h
  split at h
  · rename_i a b
    split at h
    · rename_i v hb
      rw [← Option.some.inj h, meaning_truth, meaning_of_const? hb]
    · rename_i v ha _
      rw [← Option.some.inj h, meaning_truth, meaning_of_const? ha, Bool.beq_comm]
    · cases h
  · cases h

@[simp] theorem meaning_mkCmp {n : Nat} (op : CmpOp) (a b : Term n) :
    (mkCmp op a b).meaning ρ = BitVec.ofBool (op.eval (a.meaning ρ) (b.meaning ρ)) := by
  simp only [mkCmp]
  split
  · rename_i u v ha hb
    rw [meaning_ofBool, meaning_of_const? ha, meaning_of_const? hb]
  · split
    · rename_i hop
      subst hop
      split
      · rename_i hab
        simp [hab, CmpOp.eval]
      · cases h : truth? a b with
        | none => rfl
        | some c => exact meaning_of_truth? h
    · rfl

@[simp] theorem meaning_mkIte (c : Cond) (a b : Term w) :
    (mkIte c a b).meaning ρ = if c.meaning ρ = 1#1 then a.meaning ρ else b.meaning ρ := by
  simp only [mkIte]
  split
  · rename_i v hc
    rw [meaning_of_const? hc]
    split <;> rfl
  · split
    · rename_i hab
      rw [hab, ite_self]
    · rfl

@[simp] theorem meaning_mkAll (cs : List Cond) :
    (mkAll cs).meaning ρ = 1#1 ↔ ∀ c ∈ cs, c.meaning ρ = 1#1 := by
  induction cs with
  | nil => simp [mkAll]
  | cons c cs ih =>
    have hand : ∀ u v : BitVec 1, u &&& v = 1#1 ↔ u = 1#1 ∧ v = 1#1 := by decide
    rw [mkAll, List.foldr_cons, meaning_mkArith, ArithOp.eval, hand, List.forall_mem_cons]
    exact and_congr_right fun _ => ih

/-! ## Slices and concatenations -/

theorem meaning_cast {m n : Nat} (h : m = n) (t : Term m) :
    (h ▸ t : Term n).meaning ρ = (t.meaning ρ).cast h := by
  subst h
  rfl

/-- Bits of a run of bits are bits of the whole. -/
theorem extract_extract {n : Nat} (v : BitVec n) {i lo w m : Nat} (h : lo + w ≤ m) :
    (v.extractLsb' i m).extractLsb' lo w = v.extractLsb' (i + lo) w := by
  apply BitVec.eq_of_getLsbD_eq
  intro k hk
  have hm : lo + k < m := by omega
  simp [hk, hm, Nat.add_assoc]

/-- The bits of a sign extension below the width of what is extended. -/
theorem extract_signExtend {n : Nat} (v : BitVec n) {lo w m : Nat} (h : lo + w ≤ n) (hm : n ≤ m) :
    (v.signExtend m).extractLsb' lo w = v.extractLsb' lo w := by
  apply BitVec.eq_of_getLsbD_eq
  intro k hk
  have hn : lo + k < n := by omega
  have hm : lo + k < m := by omega
  simp only [BitVec.getLsbD_extractLsb', hk, BitVec.getLsbD_signExtend, hm, hn, decide_true,
    Bool.true_and, if_true]

@[simp] theorem meaning_mkSlice {n : Nat} (lo w : Nat) (a : Term n) :
    (mkSlice lo w a).meaning ρ = (a.meaning ρ).extractLsb' lo w := by
  fun_induction mkSlice lo w a with
  | case1 n a lo w h =>
    obtain ⟨rfl, rfl⟩ := h
    exact BitVec.extractLsb'_eq_self.symm
  | case2 => exact BitVec.of_length_zero.symm
  | case3 => rfl
  | case4 lo w _ n m lo' a _ h ih =>
    rw [ih, meaning, extract_extract _ h]
  | case5 => rfl
  | case6 lo w _ m n hi l h _ ih =>
    rw [ih, meaning, BitVec.cast_eq, BitVec.extractLsb'_append_eq_of_add_le h]
  | case7 lo w _ m n hi l _ h _ ih =>
    rw [ih, meaning, BitVec.cast_eq, BitVec.extractLsb'_append_eq_of_le h]
  | case8 lo w _ m n hi l h h' _ ihh ihl =>
    -- the slice lies across the border of the two parts
    rw [meaning, meaning, BitVec.cast_eq, ihh, ihl, BitVec.extractLsb'_append_eq_ite,
      dif_pos (by omega), dif_neg h]
    apply BitVec.eq_of_getLsbD_eq
    intro k hk
    have h1 : lo - n = 0 := by omega
    have h2 : w - (n - lo) = lo + w - n := by omega
    simp only [BitVec.getLsbD_cast, BitVec.getLsbD_append, BitVec.getLsbD_extractLsb', h1, h2]
  | case9 lo w _ m n a _ h ih =>
    rw [ih, meaning, extract_signExtend _ h.1 h.2]
  | case10 => rfl
  | case11 => rfl

theorem meaning_of_fuse? {m n : Nat} {a : Term m} {b : Term n} {t : Term (m + n)}
    (h : fuse? a b = some t) : t.meaning ρ = a.meaning ρ ++ b.meaning ρ := by
  unfold fuse? at h
  split at h
  · rw [← Option.some.inj h]
    rfl
  · split at h
    · rename_i hk
      subst hk
      split at h
      · rename_i hc
        obtain ⟨rfl, rfl, _⟩ := hc
        rw [← Option.some.inj h, meaning_mkSlice, meaning, meaning,
          BitVec.extractLsb'_append_extractLsb'_eq_extractLsb' rfl]
      · cases h
    · cases h
  · cases h

@[simp] theorem meaning_mkConcat {m n : Nat} (hi : Term m) (lo : Term n) (w : Nat) (h : w = m + n) :
    (mkConcat hi lo w h).meaning ρ = (hi.meaning ρ ++ lo.meaning ρ).cast h.symm := by
  -- By the cases of the constructor: reassociated, fused with the neighbour, or kept as it is.
  fun_induction mkConcat hi lo w h with
  | case1 lo t => rw [meaning_cast, BitVec.zero_width_append, BitVec.cast_cast]
  | case2 n t _ lo =>
    exact (BitVec.append_zero_width (t.meaning ρ) (lo.meaning ρ)).symm
  | case3 lo hn p q a b hm ihb iha =>
    show (a.mkConcat (b.mkConcat lo (q + _) _) (p + q + _) _).meaning ρ = _
    rw [iha, ihb, meaning, BitVec.cast_eq, BitVec.cast_eq, BitVec.cast_eq, BitVec.append_assoc]
  | case4 lo _ m _ t hi _ hf => exact meaning_of_fuse? hf
  | case5 m _ p q a b t hi _ _ h _ hf _ =>
    dsimp only
    rw [hf]
    simp only [meaning, meaning_of_fuse? hf, BitVec.cast_eq, BitVec.append_assoc, BitVec.cast_cast]
  | case6 m _ p q a b hi _ _ h _ hf _ =>
    dsimp only
    rw [hf]
    rfl
  | case7 => rfl

/-- Widening with zeros, or cutting. -/
@[simp] theorem meaning_mkResize {n : Nat} (w : Nat) (a : Term n) :
    (mkResize w a).meaning ρ = (a.meaning ρ).setWidth w := by
  rw [mkResize]
  split
  · rename_i h
    rw [meaning_mkConcat, meaning_const]
    apply BitVec.eq_of_toNat_eq
    rw [BitVec.toNat_cast, BitVec.toNat_append]
    simp [Nat.mod_eq_of_lt (Nat.lt_of_lt_of_le (a.meaning ρ).isLt (Nat.pow_le_pow_right (by omega) h))]
  · rw [meaning_mkSlice]
    apply BitVec.eq_of_toNat_eq
    simp

/-- Widening with the sign, or cutting. -/
@[simp] theorem meaning_mkSignedResize {n : Nat} (w : Nat) (a : Term n) :
    (mkSignedResize w a).meaning ρ = (a.meaning ρ).signExtend w := by
  unfold mkSignedResize
  split
  · rename_i h
    subst h
    exact (BitVec.signExtend_eq _).symm
  · split
    · rename_i h
      rw [meaning_mkSlice, BitVec.signExtend_eq_setWidth_of_le _ h]
      apply BitVec.eq_of_toNat_eq
      simp
    · cases a <;> rfl

end Term

end PathSafety
