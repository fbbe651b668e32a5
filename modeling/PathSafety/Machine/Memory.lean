import PathSafety.Value
import Std.Data.TreeMap

/-!
# Memory

One flat map from addresses to bytes, read and written in little-endian order. Bytes that were never
written are unknown: the first read of a run of them makes one symbol for the whole run, named after the
address where it starts.

What is not a constant stays together as a *piece*: every byte knows its place in the value that it was
written with, or in the symbol that was made for it. A read that enters a piece behind its beginning takes
the piece to be as long from there as it is in all; unknown bytes that it covers in this way are left out
of the value read, which is then narrower than was asked for.

Contents:

* `Cell`, `Memory` — bytes and where they are;
* `Memory.store` — writing a value;
* `Memory.load` — reading, and what it makes of unknown bytes.
-/

namespace PathSafety

/-- A byte of memory. -/
abbrev Byte := Term 8

/-- A byte with its place in the piece that it is part of, and the size of that piece. -/
structure Cell where
  byte : Byte
  place : Nat := 0
  size : Nat := 1

/-- The bytes that were written or read so far. -/
abbrev Memory := Std.TreeMap Nat Cell

namespace Memory

/-- Runs of unknown bytes and reads of pieces end at multiples of this number. -/
def pageSize : Nat := 4096

/-- How many of the `n` addresses from `a` on are unknown and on the page of `a`. -/
def unknownRun (m : Memory) (a : Nat) : Nat → Nat
  | 0 => 0
  | n + 1 =>
    if m.contains a then 0
    else if (a + 1) % pageSize = 0 then 1
    else unknownRun m (a + 1) n + 1

/-- Writes the bytes of a term from byte `place` on, `n` of them, at the addresses from `a` on. The term
is a piece of `size` bytes, or of single bytes if `size` is none. -/
def storeTerm {w : Nat} (m : Memory) (a : Nat) (t : Term w) (size : Option Nat) (place : Nat) :
    Nat → Memory
  | 0 => m
  | n + 1 =>
    let byte := t.mkSlice (8 * place) 8
    let cell : Cell := match size with
      | some size => { byte, place, size }
      | none => { byte }
    storeTerm (m.insert a cell) (a + 1) t size (place + 1) n

/-- Writes a value of `n` bytes at an address. -/
def store (m : Memory) (a : Nat) (v : Value) (n : Nat) : Memory :=
  m.storeTerm a v.term (if v.isSymbolic then some n else none) 0 n

/-- The bytes of one piece at the addresses after `a`, at most `n` of them, up to the end of the page. -/
def pieceFrom (m : Memory) (a : Nat) (c : Cell) : Nat → List Byte
  | 0 => []
  | n + 1 =>
    if (a + 1) % pageSize = 0 then []
    else
      match m.get? (a + 1) with
      | none => []
      | some d =>
        if d.place = c.place + 1 ∧ d.size = c.size then
          d.byte :: pieceFrom m (a + 1) d n
        else []

/-- The bytes at the `n` addresses from `a` on, lowest first, with what memory and the symbol supply have
become. `fuel` bounds the number of pieces and unknown runs. -/
def loadBytes (fuel : Nat) (m : Memory) (supply : Nat) (a n : Nat) : List Value × Memory × Nat :=
  match fuel, n with
  | _, 0 | 0, _ => ([], m, supply)
  | fuel + 1, n + 1 =>
    match m.get? a with
    | some c =>
      let bytes := c.byte :: m.pieceFrom a c n
      let next := a + bytes.length
      let room := min (c.size - bytes.length) (n + 1 - bytes.length)
      let skipped := if next % pageSize = 0 then 0 else m.unknownRun next room
      let (rest, m, supply) :=
        loadBytes fuel m supply (next + skipped) (n + 1 - bytes.length - skipped)
      (bytes.map (⟨·⟩) ++ rest, m, supply)
    | none =>
      let run := max 1 (m.unknownRun a (n + 1))
      let s : Term (8 * run) := .symbol ⟨supply, "mem_" ++ String.ofList (Nat.toDigits 16 a)⟩
      let m := m.store a ⟨s⟩ run
      let (rest, m, supply) := loadBytes fuel m (supply + 1) (a + run) (n + 1 - run)
      (⟨s⟩ :: rest, m, supply)

/-- Reads `n` bytes at an address as one value. -/
def load (m : Memory) (supply : Nat) (a n : Nat) : Value × Memory × Nat :=
  let (parts, m, supply) := loadBytes n m supply a n
  (Value.concat parts, m, supply)

end Memory

end PathSafety
