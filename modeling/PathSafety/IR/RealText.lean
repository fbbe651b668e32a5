/-!
# Floating point constants

A floating point constant is written as the bits of a double in hexadecimal, after rounding it to the
precision of its type.
-/

namespace PathSafety.IR

/-- A binary format: the bits of a significand with the leading one, and the least exponent of a
normal number. -/
structure RealFormat where
  precision : Nat
  minExponent : Int

/-- Sixteen bits. -/
def RealFormat.half : RealFormat := ⟨11, -14⟩

/-- Thirty-two bits. -/
def RealFormat.single : RealFormat := ⟨24, -126⟩

/-- The quotient of `m` by `2 ^ k` rounded to nearest, ties to even. -/
def roundShift (m k : Nat) : Nat :=
  let q := m >>> k
  let r := m - (q <<< k)
  let h := 1 <<< k
  if 2 * r > h || (2 * r == h && q % 2 == 1) then q + 1 else q

/-- The bits of the double that is nearest to `m * 2 ^ e`, for an `m` of at most 53 bits whose value a
double can hold. -/
def doubleBits (m : Nat) (e : Int) : Nat :=
  if m = 0 then 0
  else
    let top := m.log2
    let exponent := e + top
    if exponent < -1022 then m <<< (e + 1074).toNat
    else (((exponent + 1023).toNat <<< 52)) + ((m <<< (52 - top)) - (1 <<< 52))

/-- A double rounded to a narrower format, as a double again. -/
def RealFormat.round (f : RealFormat) (bits : UInt64) : Nat :=
  let n := bits.toNat
  let sign := n >>> 63 <<< 63
  let field := (n >>> 52) % 2048
  let fraction := n % (1 <<< 52)
  if field = 2047 then n
  else
    let m := if field = 0 then fraction else fraction + (1 <<< 52)
    let e : Int := (max field 1 : Nat) - 1075
    let exponent := max (e + m.log2) f.minExponent
    let step := exponent - (f.precision - 1 : Nat)
    if step ≤ e then n
    else
      let q := roundShift m (step - e).toNat
      sign + doubleBits q step

/-- The text of a floating point constant of the given format, double if there is none. -/
def realText (format : Option RealFormat) (bits : UInt64) : String :=
  let n := match format with
    | some f => f.round bits
    | none => bits.toNat
  let digits := "0x" ++ String.ofList (Nat.toDigits 16 n)
  "".pushn ' ' (16 - digits.length) ++ digits

end PathSafety.IR
