import PathSafety.Machine.Site

/-!
# Intrinsics

Calls that are modeled by themselves, whatever is defined or hooked under their names: the functions that
end a program, throwing, the markers without effect, and the block operations on memory.
-/

namespace PathSafety

open Text

/-- What is called by a name that is modeled by itself. -/
inductive Intrinsic where
  | abort
  | throwing
  | marker
  | copy
  | fill
  deriving DecidableEq, Repr

namespace Intrinsic

/-- The functions that end the program. -/
def aborting : List String := ["abort", "exit", "_exit", "_Exit"]

/-- Beginnings of the names of markers. -/
def markers : List String := ["llvm.lifetime.", "llvm.dbg.", "llvm.assume", "llvm.experimental.noalias"]

/-- Beginnings of the names of copies. -/
def copies : List String := ["llvm.memcpy.", "llvm.memmove."]

/-- Whether a name begins with one of some texts. -/
def beginsWith (beginnings : List String) (name : String) : Bool :=
  beginnings.any fun b => startsWith b.toList name.toList

/-- The intrinsic of a name. -/
def ofName? (name : String) : Option Intrinsic :=
  if aborting.contains name then some .abort
  else if name = "__cxa_throw" then some .throwing
  else if beginsWith markers name then some .marker
  else if beginsWith copies name then some .copy
  else if beginsWith ["llvm.memset."] name then some .fill
  else none

end Intrinsic

namespace Machine

/-- The destination and the length of a block operation; the length must be a constant. -/
def blockOperands (s : Setting) (c : Call) (name : String) : Action (Value × Nat) := do
  let dest ← c.eval s (← c.arg 0)
  let length ← c.eval s (← c.arg 2)
  if length.isSymbolic then fault (.symbolicLength name)
  return (dest, ← evalNat length)

/-- Copies a block, which is read whole before it is written. -/
def copyBlock (s : Setting) (c : Call) (name : String) : Action Unit := do
  let (dest, length) ← blockOperands s c name
  if length ≠ 0 then
    let source ← c.eval s (← c.arg 1)
    write s dest (← read s source (8 * length))

/-- Fills a block with copies of one byte. -/
def fillBlock (s : Setting) (c : Call) (name : String) : Action Unit := do
  let (dest, length) ← blockOperands s c name
  if length ≠ 0 then
    let byte := (← c.eval s (← c.arg 1)).resize 8
    write s dest (Value.concat (List.replicate length byte))

/-- Executes an intrinsic. -/
def intrinsic (s : Setting) (c : Call) (name : String) : Intrinsic → Action Outcome
  | .abort => return .aborted
  | .throwing => return .threw (← c.eval s (← c.arg 0))
  | .marker => return .returnedVoid
  | .copy => do
    copyBlock s c name
    return .returnedVoid
  | .fill => do
    fillBlock s c name
    return .returnedVoid

end Machine

end PathSafety
