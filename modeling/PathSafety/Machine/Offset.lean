import PathSafety.Machine.Basic

/-!
# Address offsets

How many bytes a list of indices lies from a base pointer. The first index steps over whole objects of
the source type; each later one selects a field of a struct or an element of an array or vector.
-/

namespace PathSafety.Machine

open IR

/-- The sizes of types, summed up. -/
def sumOfBytes (s : Setting) : List Ty → Action Nat
  | [] => pure 0
  | t :: ts => do
    let n ← sizeInBytes s t
    let rest ← sumOfBytes s ts
    return n + rest

/-- An offset moved by an index times an element size. -/
def scaled (width : Nat) (offset index : Value) (size : Nat) : Action Value := do
  let step ← valueOr (Value.arith .mul (index.signedResize width) (.ofNat width size))
  valueOr (Value.arith .add offset step)

/-- The offset of the indices after the first, from `offset` on. -/
def innerOffset {ι : Type} (s : Setting) (eval : ι → Action Value) (width : Nat) :
    Ty → List ι → Value → Action Value
  | _, [], offset => pure offset
  | t, i :: is, offset => do
    if t.isStruct then
      let field ← evalNat (← eval i)
      let fields := (t.fields? s.project.layout.structs).getD []
      let preceding ← sumOfBytes s (fields.take field)
      let offset ← valueOr (Value.arith .add offset (.ofNat width preceding))
      match fields[field]? with
      | some t => innerOffset s eval width t is offset
      | none => defect .missingIndex
    else
      match t with
      | .array _ e | .vector _ e =>
        let index ← eval i
        let size ← sizeInBytes s e
        let offset ← scaled width offset index size
        innerOffset s eval width e is offset
      | t => fault (.notIndexable t)

/-- The offset in bytes, at the given width, of indices into objects of type `t`. -/
def offset {ι : Type} (s : Setting) (eval : ι → Action Value) (width : Nat) (t : Ty) :
    List ι → Action Value
  | [] => pure (.ofNat width 0)
  | i :: is => do
    let index ← eval i
    let size ← sizeInBytes s t
    let first ← scaled width (.ofNat width 0) index size
    innerOffset s eval width t is first

end PathSafety.Machine
