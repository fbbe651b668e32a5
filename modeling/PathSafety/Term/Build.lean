import PathSafety.Term.Basic

/-!
# Building terms

One function per constructor of `Term` that folds constants and removes the usual identities
(`x + 0`, `x - x`, two neighbouring slices of one term, ...). Every function denotes what the
constructor denotes; what it returns is a constant exactly when folding made it one, and that is what
the engine calls a *concrete* value.
-/

namespace PathSafety.Term

variable {w : Nat}

/-- The bitvector of a constant. -/
def const? : Term w → Option (BitVec w)
  | .const v => some v
  | _ => none

/-- The symbol of a term that is nothing but a symbol. -/
def symbol? : Term w → Option Symbol
  | .symbol s => some s
  | _ => none

/-- Whether a term is a constant. -/
def isConst (t : Term w) : Bool := t.const?.isSome

/-- Whether a term is the constant zero. -/
def isZero (t : Term w) : Bool := t.const? == some 0#w

/-- The condition that always holds. -/
def tt : Cond := .const 1#1

/-- The condition that never holds. -/
def ff : Cond := .const 0#1

/-- The condition with a fixed truth value. -/
def ofBool (b : Bool) : Cond := .const (BitVec.ofBool b)

def mkNot : Term w → Term w
  | .const v => .const (~~~ v)
  | .not a => a
  | a => .not a

/-- Identities of the operations whose result is one of the operands or a constant. -/
def simplify? (op : ArithOp) (a b : Term w) : Option (Term w) :=
  match op with
  | .add => if a.isZero then some b else if b.isZero then some a else none
  | .sub => if b.isZero then some a else if a = b then some (.const 0#w) else none
  | .mul =>
    if a.isZero then some a else if b.isZero then some b
    else if a.const? = some 1#w then some b else if b.const? = some 1#w then some a else none
  | .and =>
    if a.isZero then some a else if b.isZero then some b
    else if a.const? = some (BitVec.allOnes w) then some b
    else if b.const? = some (BitVec.allOnes w) then some a
    else if a = b then some a else none
  | .or =>
    if a.isZero then some b else if b.isZero then some a
    else if a.const? = some (BitVec.allOnes w) then some a
    else if b.const? = some (BitVec.allOnes w) then some b
    else if a = b then some a else none
  | .xor =>
    if a.isZero then some b else if b.isZero then some a
    else if a = b then some (.const 0#w) else none
  | .shl | .lshr | .ashr => if b.isZero then some a else none
  | .udiv | .sdiv | .urem | .srem => none

def mkArith (op : ArithOp) (a b : Term w) : Term w :=
  match a.const?, b.const? with
  | some u, some v => .const (op.eval u v)
  | _, _ => (simplify? op a b).getD (.arith op a b)

/-- Equality of a single bit with a constant, which is the bit or its negation. -/
def truth? : {n : Nat} → Term n → Term n → Option Cond
  | 1, a, b =>
    match a.const?, b.const? with
    | _, some v => some (if v = 1#1 then a else a.mkNot)
    | some v, none => some (if v = 1#1 then b else b.mkNot)
    | none, none => none
  | _, _, _ => none

def mkCmp {n : Nat} (op : CmpOp) (a b : Term n) : Cond :=
  match a.const?, b.const? with
  | some u, some v => ofBool (op.eval u v)
  | _, _ =>
    if op = .eq then
      if a = b then tt else (truth? a b).getD (.cmp op a b)
    else .cmp op a b

def mkIte (c : Cond) (a b : Term w) : Term w :=
  match c.const? with
  | some v => if v = 1#1 then a else b
  | none => if a = b then a else .ite c a b

/-- The bits of `a` from `lo` on, as many as the width of the result. A slice of a slice, of a
concatenation or of a sign extension is taken of the parts. -/
def mkSlice {n : Nat} (lo : Nat) (w : Nat) (a : Term n) : Term w :=
  if h : lo = 0 ∧ n = w then h.2 ▸ a
  else if w = 0 then .const 0#w
  else
    match n, a with
    | _, .const v => .const (v.extractLsb' lo w)
    | n, .slice lo' a => if lo + w ≤ n then mkSlice (lo' + lo) w a else .slice lo (.slice (w := n) lo' a)
    | _, .concat (m := m) (n := n) hi l h =>
      if hw : lo + w ≤ n then mkSlice lo w l
      else if hn : n ≤ lo then mkSlice (lo - n) w hi
      else .concat (mkSlice 0 (lo + w - n) hi) (mkSlice lo (n - lo) l) (by omega)
    | m, .sext (n := n) a =>
      if lo + w ≤ n ∧ n ≤ m then mkSlice lo w a else .slice lo (.sext (w := m) a)
    | _, a => .slice lo a

/-- `hi` above `lo` as one part, if they are two constants or two neighbouring slices of one term. -/
def fuse? {m n : Nat} : Term m → Term n → Option (Term (m + n))
  | .const u, .const v => some (.const (u ++ v))
  | .slice (n := k) i a, .slice (n := k') j b =>
    if h : k = k' then
      if i = j + n ∧ a = h ▸ b ∧ i + m ≤ k then some (mkSlice j (m + n) a) else none
    else none
  | _, _ => none

/-- `hi` above `lo`, the parts of a concatenation nested to the right and fused where they can be. -/
def mkConcat {m n : Nat} (hi : Term m) (lo : Term n) (w : Nat) (h : w = m + n) : Term w :=
  if hm : m = 0 then (show n = w by omega) ▸ lo
  else if hn : n = 0 then (show m = w by omega) ▸ hi
  else
    match m, hi with
    | _, .concat (m := p) (n := q) a b hpq =>
      mkConcat a (mkConcat b lo (q + n) rfl) w (by omega)
    | m, hi =>
      match fuse? hi lo with
      | some t => h ▸ t
      | none =>
        match n, lo with
        | _, .concat (m := p) (n := q) a b hpq =>
          match fuse? hi a with
          | some t => .concat t b (by omega)
          | none => .concat hi (.concat a b hpq) h
        | _, lo => .concat hi lo h

theorem eq_sub_add {n w : Nat} (h : n ≤ w) : w = w - n + n := (Nat.sub_add_cancel h).symm

/-- A term widened with zeros, or cut, to the width asked for. -/
def mkResize {n : Nat} (w : Nat) (a : Term n) : Term w :=
  if h : n ≤ w then mkConcat (.const 0#(w - n)) a w (eq_sub_add h)
  else mkSlice 0 w a

/-- A term widened with copies of its sign bit, or cut, to the width asked for. -/
def mkSignedResize {n : Nat} (w : Nat) (a : Term n) : Term w :=
  if h : n = w then h ▸ a
  else if w ≤ n then mkSlice 0 w a
  else
    match a with
    | .const v => .const (v.signExtend w)
    | a => .sext a

/-- That all conditions of a list hold. -/
def mkAll (cs : List Cond) : Cond :=
  cs.foldr (mkArith .and) tt

end PathSafety.Term
