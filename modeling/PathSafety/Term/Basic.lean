/-!
# Terms

A term of width `w` is an expression over unknowns that denotes a bitvector of width `w` under every
valuation of the unknowns. Conditions are the terms of width one.

Contents:

* `Symbol`, `Valuation` — the unknowns and what gives them values;
* `Term`, `Term.denote` — expressions and their meaning;
* `Term.decEq` — equality, quick on shared and on unequal terms: every term stores a hash.

Division follows the theory of fixed-width bitvectors, so that every term has a value: dividing by
zero gives all ones (or one, for a negative signed dividend) and leaves the dividend as remainder.
-/

namespace PathSafety

/-- An unknown. Its number alone tells it from other unknowns; the name is for reports. -/
structure Symbol where
  id : Nat
  name : String
  deriving DecidableEq, Hashable

/-- Gives every symbol number a value, which is reduced to the width at which the symbol is used. -/
abbrev Valuation := Nat → Nat

/-- Operations that keep the width of their two operands. -/
inductive ArithOp where
  | add | sub | mul | udiv | sdiv | urem | srem | and | or | xor | shl | lshr | ashr
  deriving DecidableEq, Hashable, Repr

/-- The comparisons that the others are made of. -/
inductive CmpOp where
  | eq | ult | ule | slt | sle
  deriving DecidableEq, Hashable, Repr

/-- Expressions of a fixed width. `slice lo a` takes as many bits of `a` as the width says, from bit
`lo` upwards; `concat hi lo` puts `lo` into the lowest bits. -/
inductive Term : Nat → Type where
  | const {w : Nat} (v : BitVec w) : Term w
  | symbol {w : Nat} (s : Symbol) : Term w
  | not {w : Nat} (a : Term w) : Term w
  | arith {w : Nat} (op : ArithOp) (a b : Term w) : Term w
  | cmp {n : Nat} (op : CmpOp) (a b : Term n) : Term 1
  | ite {w : Nat} (c : Term 1) (a b : Term w) : Term w
  | concat {m n w : Nat} (hi : Term m) (lo : Term n) (h : w = m + n) : Term w
  | slice {n w : Nat} (lo : Nat) (a : Term n) : Term w
  | sext {n w : Nat} (a : Term n) : Term w
with
  /-- A hash kept in every term. -/
  @[computed_field]
  hashCode : (w : Nat) → Term w → UInt64
    | w, .const v => mixHash 3 (mixHash (hash w) (hash v.toNat))
    | w, .symbol s => mixHash 5 (mixHash (hash w) (hash s.id))
    | _, .not a => mixHash 7 (hashCode _ a)
    | _, .arith op a b => mixHash (mixHash 11 (hash op)) (mixHash (hashCode _ a) (hashCode _ b))
    | _, .cmp op a b => mixHash (mixHash 13 (hash op)) (mixHash (hashCode _ a) (hashCode _ b))
    | _, .ite c a b => mixHash (hashCode _ c) (mixHash (hashCode _ a) (hashCode _ b))
    | _, .concat hi lo _ => mixHash 17 (mixHash (hashCode _ hi) (hashCode _ lo))
    | w, .slice lo a => mixHash (mixHash 19 (hash w)) (mixHash (hash lo) (hashCode _ a))
    | w, .sext a => mixHash (mixHash 23 (hash w)) (hashCode _ a)

/-- A condition holds where it denotes one. -/
abbrev Cond := Term 1

namespace ArithOp

/-- What an operation does to two bitvectors. -/
def eval {w : Nat} : ArithOp → BitVec w → BitVec w → BitVec w
  | add, a, b => a + b
  | sub, a, b => a - b
  | mul, a, b => a * b
  | udiv, a, b => a.smtUDiv b
  | sdiv, a, b => a.smtSDiv b
  | urem, a, b => a % b
  | srem, a, b => a.srem b
  | and, a, b => a &&& b
  | or, a, b => a ||| b
  | xor, a, b => a ^^^ b
  | shl, a, b => a <<< b
  | lshr, a, b => a >>> b
  | ashr, a, b => a.sshiftRight' b

end ArithOp

namespace CmpOp

/-- Whether two bitvectors compare. -/
def eval {n : Nat} : CmpOp → BitVec n → BitVec n → Bool
  | eq, a, b => a == b
  | ult, a, b => a.ult b
  | ule, a, b => a.ule b
  | slt, a, b => a.slt b
  | sle, a, b => a.sle b

end CmpOp

namespace Term

/-- The bitvector that a term stands for under a valuation. -/
def denote (ν : Valuation) : {w : Nat} → Term w → BitVec w
  | _, .const v => v
  | w, .symbol s => BitVec.ofNat w (ν s.id)
  | _, .not a => ~~~ a.denote ν
  | _, .arith op a b => op.eval (a.denote ν) (b.denote ν)
  | _, .cmp op a b => BitVec.ofBool (op.eval (a.denote ν) (b.denote ν))
  | _, .ite c a b => if c.denote ν = 1#1 then a.denote ν else b.denote ν
  | _, .concat hi lo h => (hi.denote ν ++ lo.denote ν).cast h.symm
  | w, .slice lo a => (a.denote ν).extractLsb' lo w
  | w, .sext a => (a.denote ν).signExtend w

/-- Whether a condition holds under a valuation. -/
def Holds (ν : Valuation) (c : Cond) : Prop := c.denote ν = 1#1

instance (ν : Valuation) (c : Cond) : Decidable (c.Holds ν) :=
  inferInstanceAs (Decidable (c.denote ν = 1#1))

/-- Whether all conditions of a list hold under a valuation. -/
def AllHold (ν : Valuation) (cs : List Cond) : Prop := ∀ c ∈ cs, c.Holds ν

instance (ν : Valuation) (cs : List Cond) : Decidable (AllHold ν cs) :=
  inferInstanceAs (Decidable (∀ c ∈ cs, c.Holds ν))

/-- Equality of terms. Terms that are the same object are equal at once and terms whose hashes differ
are unequal at once; only else are their parts compared. -/
def decEq {w : Nat} (s t : Term w) : Decidable (s = t) :=
  withPtrEqDecEq s t fun _ =>
    if hne : s.hashCode = t.hashCode then
      match s, t with
      | .const u, .const v =>
        if h : u = v then .isTrue (by rw [h]) else .isFalse (by simpa using h)
      | .symbol x, .symbol y =>
        if h : x = y then .isTrue (by rw [h]) else .isFalse (by simpa using h)
      | .not a, .not b =>
        match decEq a b with
        | .isTrue h => .isTrue (by rw [h])
        | .isFalse h => .isFalse (by simpa using h)
      | .arith op a b, .arith op' a' b' =>
        if ho : op = op' then
          match decEq a a', decEq b b' with
          | .isTrue h, .isTrue h' => .isTrue (by rw [ho, h, h'])
          | .isFalse h, _ => .isFalse (by simp [h])
          | _, .isFalse h => .isFalse (by simp [h])
        else .isFalse (by simp [ho])
      | .cmp (n := m) op a b, .cmp (n := n) op' a' b' =>
        if ho : op = op' then
          if hn : m = n then
            match decEq a (hn ▸ a'), decEq b (hn ▸ b') with
            | .isTrue h, .isTrue h' => .isTrue (by subst hn; subst ho; rw [h, h'])
            | .isFalse h, _ => .isFalse (by subst hn; simpa [ho] using fun h' => absurd h' h)
            | _, .isFalse h => .isFalse (by subst hn; simpa [ho] using fun _ h' => absurd h' h)
          else .isFalse (by simp [hn])
        else .isFalse (by simp [ho])
      | .ite c a b, .ite c' a' b' =>
        match decEq c c', decEq a a', decEq b b' with
        | .isTrue hc, .isTrue h, .isTrue h' => .isTrue (by rw [hc, h, h'])
        | .isFalse h, _, _ => .isFalse (by simp [h])
        | _, .isFalse h, _ => .isFalse (by simp [h])
        | _, _, .isFalse h => .isFalse (by simp [h])
      | .concat (m := m) (n := n) a b _, .concat (m := m') (n := n') a' b' _ =>
        if hm : m = m' then
          if hn : n = n' then
            match decEq a (hm ▸ a'), decEq b (hn ▸ b') with
            | .isTrue h, .isTrue h' => .isTrue (by subst hm; subst hn; simp [h, h'])
            | .isFalse h, _ => .isFalse (by subst hm; subst hn; simpa using fun h' => absurd h' h)
            | _, .isFalse h =>
              .isFalse (by subst hm; subst hn; simpa using fun _ h' => absurd h' h)
          else .isFalse (by simp [hn])
        else .isFalse (by simp [hm])
      | .slice (n := m) lo a, .slice (n := n) lo' a' =>
        if hl : lo = lo' then
          if hn : m = n then
            match decEq a (hn ▸ a') with
            | .isTrue h => .isTrue (by subst hn; rw [hl, h])
            | .isFalse h => .isFalse (by subst hn; simpa [hl] using h)
          else .isFalse (by simp [hn])
        else .isFalse (by simp [hl])
      | .sext (n := m) a, .sext (n := n) a' =>
        if hn : m = n then
          match decEq a (hn ▸ a') with
          | .isTrue h => .isTrue (by subst hn; rw [h])
          | .isFalse h => .isFalse (by subst hn; simpa using h)
        else .isFalse (by simp [hn])
      | .const _, .symbol _ | .const _, .not _ | .const _, .arith .. | .const _, .cmp ..
      | .const _, .ite .. | .const _, .concat .. | .const _, .slice .. | .const _, .sext _
      | .symbol _, .const _ | .symbol _, .not _ | .symbol _, .arith .. | .symbol _, .cmp ..
      | .symbol _, .ite .. | .symbol _, .concat .. | .symbol _, .slice .. | .symbol _, .sext _
      | .not _, .const _ | .not _, .symbol _ | .not _, .arith .. | .not _, .cmp ..
      | .not _, .ite .. | .not _, .concat .. | .not _, .slice .. | .not _, .sext _
      | .arith .., .const _ | .arith .., .symbol _ | .arith .., .not _ | .arith .., .cmp ..
      | .arith .., .ite .. | .arith .., .concat .. | .arith .., .slice .. | .arith .., .sext _
      | .cmp .., .const _ | .cmp .., .symbol _ | .cmp .., .not _ | .cmp .., .arith ..
      | .cmp .., .ite .. | .cmp .., .concat .. | .cmp .., .slice .. | .cmp .., .sext _
      | .ite .., .const _ | .ite .., .symbol _ | .ite .., .not _ | .ite .., .arith ..
      | .ite .., .cmp .. | .ite .., .concat .. | .ite .., .slice .. | .ite .., .sext _
      | .concat .., .const _ | .concat .., .symbol _ | .concat .., .not _ | .concat .., .arith ..
      | .concat .., .cmp .. | .concat .., .ite .. | .concat .., .slice .. | .concat .., .sext _
      | .slice .., .const _ | .slice .., .symbol _ | .slice .., .not _ | .slice .., .arith ..
      | .slice .., .cmp .. | .slice .., .ite .. | .slice .., .concat .. | .slice .., .sext _
      | .sext _, .const _ | .sext _, .symbol _ | .sext _, .not _ | .sext _, .arith ..
      | .sext _, .cmp .. | .sext _, .ite .. | .sext _, .concat .. | .sext _, .slice .. =>
        .isFalse (by simp)
    else .isFalse (by rintro rfl; exact hne rfl)

instance {w : Nat} : DecidableEq (Term w) := decEq

end Term

end PathSafety
