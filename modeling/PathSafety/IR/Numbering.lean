import PathSafety.IR.Module

/-!
# Numbering unnamed values

Values without a name are called `.1`, `.2`, ... within their function: the arguments first, then the
instructions in order, those without a result included.
-/

namespace PathSafety.IR

/-- A supply of numbers for unnamed values. -/
abbrev Numbering := StateM Nat

/-- The name itself, or the next number. -/
def nameOrNumber (name : String) : Numbering String := do
  if name != "" then return name
  modify (· + 1)
  return s!".{← get}"

/-- The function with a name for every value. -/
def Function.number (f : Function) : Function :=
  let renamed : Numbering Function := do
    let params ← f.params.mapM fun (n, t) => return (← nameOrNumber n, t)
    let blocks ← f.blocks.mapM fun b => do
      let instrs ← b.instrs.mapM fun i => return { i with name := ← nameOrNumber i.name }
      return { b with instrs }
    return { f with params, blocks }
  (renamed.run 0).1

/-- The module with a name for every value. -/
def Module.number (m : Module) : Module := { m with functions := m.functions.map Function.number }

end PathSafety.IR
