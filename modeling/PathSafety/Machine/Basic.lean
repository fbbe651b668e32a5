import PathSafety.Fault
import PathSafety.IR.Project
import PathSafety.Machine.Memory
import PathSafety.PathCondition

/-!
# The machine

What a path has besides its call stack: the path condition, memory, the addresses of global values and
the supplies of addresses and symbols. Actions on a machine keep what they did also when they fail.

Contents:

* `Machine`, `Action` — the state and its actions;
* `allocate`, `fresh`, `assume`, `sat` — supplies and the path condition;
* `read`, `write` — memory, with its checks for null pointers;
* `evalNat` — the number that a value stands for.
-/

namespace PathSafety

open IR

/-- What is fixed while a project is explored. -/
structure Setting where
  project : Project
  nullChecking : Bool

namespace Setting

/-- The width of pointers. -/
def pointerBits (s : Setting) : Nat := s.project.layout.pointerBits

/-- Whether there are machines whose pointers have the width of the project's. -/
def hasMachine (s : Setting) : Bool := [64, 32].contains s.pointerBits

end Setting

/-- The part of a path's state that instructions work on. -/
structure Machine where
  condition : PathCondition := {}
  memory : Memory := ∅
  /-- The addresses of the global values that were met. -/
  addresses : Std.TreeMap String Value := ∅
  nextAddress : Nat
  nextSymbol : Nat := 0

/-- Something that a machine does. -/
abbrev Action := EStateM Failure Machine

namespace Machine

/-- Where the first allocation goes. -/
def allocationBase : Nat := 0x10000000

/-- Allocations start at multiples of this number and leave at least as many bytes between them. -/
def alignment : Nat := 16

/-- A machine that has done nothing. -/
def initial : Machine := { nextAddress := allocationBase }

/-- How many bytes hold a number of bits. -/
def byteCount (bits : Nat) : Nat := (bits + 7) / 8

/-- How many bytes are set apart for an allocation, the gap after it included. -/
def stride (bits : Nat) : Nat :=
  (max 1 (byteCount bits) + (2 * alignment - 1)) / alignment * alignment

/-- Ends the path. -/
def fault {α : Type} (f : Fault) : Action α := throw (.fault f)

/-- Ends the analysis. -/
def defect {α : Type} (d : Defect) : Action α := throw (.defect d)

/-- The result of an operation on values; one that has none ends the analysis. -/
def valueOr {α : Type} : Except ValueError α → Action α
  | .ok a => pure a
  | .error .widthMismatch => defect .widthMismatch
  | .error .divisionByZero => defect .divisionByZero

/-- The size of a type in bytes; a type without one ends the path. -/
def sizeInBytes (s : Setting) (t : Ty) : Action Nat :=
  match s.project.layout.bytes t with
  | .ok n => pure n
  | .error (.unsized t) => fault (.unsized t)
  | .error (.notWholeBytes t n) => fault (.notWholeBytes t n)

/-- Sets fresh storage apart and returns its address. -/
def allocate (s : Setting) (bits : Nat) : Action Value := do
  let m ← get
  set { m with nextAddress := m.nextAddress + stride bits }
  return .ofNat s.pointerBits m.nextAddress

/-- A value about which nothing is known. -/
def fresh (name : String) (bits : Int) : Action Value := do
  if bits ≤ 0 then fault (.emptySymbol bits name)
  let m ← get
  set { m with nextSymbol := m.nextSymbol + 1 }
  return ⟨(.symbol ⟨m.nextSymbol, name⟩ : Term bits.toNat)⟩

/-- Adds to the path condition. -/
def assume (c : Cond) : Action Unit :=
  modify fun m => { m with condition := m.condition.assume c }

/-- Whether the path condition can hold together with some more conditions. -/
def sat (extra : List Cond) : Action Bool := do
  let m ← get
  let (answer, condition) := m.condition.sat extra
  set { m with condition }
  return answer

/-- The number that a value stands for; of several possible ones, any. -/
def evalNat (v : Value) : Action Nat := do
  match (← get).condition.anyValue? v.term with
  | some n => return n
  | none => defect .noValue

/-- Ends the path if null checking is on and the address can be zero. -/
def checkNull (s : Setting) (address : Value) : Action Unit := do
  if s.nullChecking then
    if ← sat [address.equals 0] then
      fault (.nullPointer address.width address.const?)

/-- Reads whole bytes at a known address. -/
def readBytes (a n : Nat) : Action Value := do
  let m ← get
  let (v, memory, nextSymbol) := m.memory.load m.nextSymbol a n
  set { m with memory, nextSymbol }
  return v

/-- Up to how far apart the possible values of an address may be for a read to go through all of them. -/
def readSpan : Nat := 1024

/-- The value read at `address` when it is one of `first` and `others`. -/
def readAny (address : Value) (n : Nat) (first : Nat) : List Nat → Action Value
  | [] => readBytes first n
  | a :: others => do
    let v ← readBytes first n
    let rest ← readAny address n a others
    valueOr (Value.ite (address.equals first) v rest)

/-- Reads whole bytes. Where the possible values of the address lie close together, the result is a
choice between what is at each of them; else one of them is picked and the path keeps to it. -/
def readBytesAt (address : Value) (n : Nat) : Action Value := do
  match address.const? with
  | some a => readBytes a n
  | none =>
    match (← get).condition.possible address.term readSpan with
    | .inl (a :: others) => readAny address n a others
    | .inr (some a) =>
      assume (address.equals a)
      readBytes a n
    | .inl [] | .inr none => defect .noAddress

/-- Reads a value of some width. -/
def read (s : Setting) (address : Value) (bits : Nat) : Action Value := do
  checkNull s address
  let v ← readBytesAt address (byteCount bits)
  if 8 * byteCount bits = bits then return v
  else if v.width < bits then defect .widthMismatch
  else return v.resize bits

/-- Writes a value. Of several possible addresses the greatest is taken, and the path keeps to it. -/
def write (s : Setting) (address v : Value) : Action Unit := do
  checkNull s address
  let n := byteCount v.width
  let v := v.resize (8 * n)
  match address.const? with
  | some a => modify fun m => { m with memory := m.memory.store a v n }
  | none =>
    match (← get).condition.greatest? address.term with
    | none => defect .noAddress
    | some a =>
      assume (address.equals a)
      modify fun m => { m with memory := m.memory.store a v n }

end Machine

end PathSafety
