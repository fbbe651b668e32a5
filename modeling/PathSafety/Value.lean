import PathSafety.Term.Build

/-!
# Values

A `Value` is a term together with its width: what a register holds and what memory is read and written
in. Operations on values of different widths fail, as does dividing one constant by another that is
zero; with an unknown operand a division has the value that `Term.denote` gives it.
-/

namespace PathSafety

/-- A term of some width. -/
structure Value where
  {width : Nat}
  term : Term width

/-- Why an operation on values has no result. -/
inductive ValueError where
  | widthMismatch
  | divisionByZero
  deriving DecidableEq, Repr

namespace Value

/-- The constant `n`, reduced to the width. -/
def ofNat (width n : Nat) : Value := ⟨.const (BitVec.ofNat width n)⟩

/-- The constant `n`, reduced to the width. -/
def ofInt (width : Nat) (n : Int) : Value := ⟨.const (BitVec.ofInt width n)⟩

/-- The number that a constant value stands for. -/
def const? (v : Value) : Option Nat := v.term.const?.map (·.toNat)

/-- Whether the value is not a constant. -/
def isSymbolic (v : Value) : Bool := !v.term.isConst

/-- The symbol that a value is, if it is nothing else. -/
def symbol? (v : Value) : Option Symbol := v.term.symbol?

/-- A value widened with zeros, or cut. A width of zero asks for no change. -/
def resize (bits : Nat) (v : Value) : Value := if bits = 0 then v else ⟨v.term.mkResize bits⟩

/-- A value widened with its sign, or cut. A width of zero asks for no change. -/
def signedResize (bits : Nat) (v : Value) : Value :=
  if bits = 0 then v else ⟨v.term.mkSignedResize bits⟩

/-- The operands brought to one width, if they have the same. -/
def aligned {α : Type} (a b : Value) (f : {w : Nat} → Term w → Term w → α) : Except ValueError α :=
  if h : b.width = a.width then .ok (f a.term (h ▸ b.term)) else .error .widthMismatch

/-- Whether an operation divides. -/
def divides : ArithOp → Bool
  | .udiv | .sdiv | .urem | .srem => true
  | _ => false

/-- An arithmetic operation. -/
def arith (op : ArithOp) (a b : Value) : Except ValueError Value :=
  if divides op && !a.isSymbolic && b.term.isZero && a.width == b.width then .error .divisionByZero
  else aligned a b fun x y => ⟨Term.mkArith op x y⟩

/-- A comparison. -/
def cmp (op : CmpOp) (a b : Value) : Except ValueError Cond :=
  aligned a b fun x y => Term.mkCmp op x y

/-- A choice. -/
def ite (c : Cond) (a b : Value) : Except ValueError Value :=
  aligned a b fun x y => ⟨Term.mkIte c x y⟩

/-- That a value equals a number. -/
def equals (v : Value) (n : Nat) : Cond := Term.mkCmp .eq v.term (.const (BitVec.ofNat _ n))

/-- Values stacked on top of one, the first of the list lowest. -/
def stack (v : Value) : List Value → Value
  | [] => v
  | u :: us => stack ⟨Term.mkConcat u.term v.term _ rfl⟩ us

/-- Values one above another, the first of the list lowest. -/
def concat : List Value → Value
  | [] => ofNat 0 0
  | v :: vs => stack v vs

end Value

end PathSafety
