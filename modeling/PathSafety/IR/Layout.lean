import PathSafety.IR.Ty

/-!
# Sizes of types

The size of a type in bits, without padding, and in bytes where it is a whole number of bytes.
-/

namespace PathSafety.IR

/-- What the size of a type depends on. -/
structure Layout where
  structs : StructTable
  pointerBits : Nat

namespace Layout

mutual

/-- The size of a type, given those of the identified structs. -/
def bitsWith (pointerBits : Nat) (named : String → Option Nat) : Ty → Option Nat
  | .int n => some n
  | .void => some 0
  | .half => some 16
  | .float => some 32
  | .double => some 64
  | .label | .metadata | .fn _ _ _ => none
  | .ptr _ | .ptrTo _ _ => some pointerBits
  | .array n t | .vector n t => (bitsWith pointerBits named t).map (· * n)
  | .struct ts _ => sumWith pointerBits named ts
  | .named n => named n

/-- The size of types laid out one after another. -/
def sumWith (pointerBits : Nat) (named : String → Option Nat) : List Ty → Option Nat
  | [] => some 0
  | t :: ts =>
    match bitsWith pointerBits named t, sumWith pointerBits named ts with
    | some a, some b => some (a + b)
    | _, _ => none

end

/-- The size of an identified struct that holds others no deeper than the first argument. -/
def namedBits (l : Layout) : Nat → String → Option Nat
  | 0, _ => none
  | depth + 1, n => (l.structs.lookup n).join.bind (sumWith l.pointerBits (l.namedBits depth))

/-- The size of a type in bits: 0 for `void`, none for functions, labels, metadata and whatever holds an
opaque struct. No struct holds itself, so the number of structs bounds the depth. -/
def bits? (l : Layout) (t : Ty) : Option Nat :=
  bitsWith l.pointerBits (l.namedBits l.structs.length) t

/-- Why a type has no size in bytes. -/
inductive SizeError where
  | unsized (ty : Ty)
  | notWholeBytes (ty : Ty) (bits : Nat)

/-- The size of a type in bytes. -/
def bytes (l : Layout) (t : Ty) : Except SizeError Nat :=
  match l.bits? t with
  | none => .error (.unsized t)
  | some n => if n % 8 = 0 then .ok (n / 8) else .error (.notWholeBytes t n)

end Layout

end PathSafety.IR
