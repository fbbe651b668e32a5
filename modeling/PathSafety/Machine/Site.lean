import PathSafety.Machine.Operand

/-!
# Sites

A `Site` is an instruction that is about to be executed, with all that its operands are seen in. A `Call`
is a site whose instruction calls something; a `Hook` stands in for what is called.
-/

namespace PathSafety

open IR

/-- An instruction that is about to be executed. -/
structure Site where
  routine : Routine
  registers : Registers
  block : String
  index : Nat
  /-- The block from which this one was entered. -/
  previous : Option String
  instr : Instr

namespace Site

/-- Where the site is. -/
def location (site : Site) : Location := ⟨site.routine.function.name, site.block, site.index⟩

/-- The text of the instruction. -/
def text (site : Site) : String := site.routine.scope.instrText site.instr

/-- The value of an operand. -/
def eval (s : Setting) (site : Site) (o : Operand) : Action Value :=
  Machine.eval s site.routine.module site.registers o

/-- The values of operands, evaluated in order. -/
def evalAll (s : Setting) (site : Site) : List Operand → Action (List Value)
  | [] => pure []
  | o :: os => do
    let v ← site.eval s o
    let vs ← evalAll s site os
    return v :: vs

end Site

/-- What a call, or a whole path, comes to. -/
inductive Outcome where
  | returned (v : Value)
  | returnedVoid
  | threw (v : Value)
  | aborted

/-- A call that is about to be made. -/
structure Call where
  site : Site
  callee : Operand
  args : List Operand

/-- What stands in for a called function. -/
abbrev Hook := Setting → Call → Action Outcome

namespace Call

/-- The function that is called, where the instruction names one. -/
def target? (c : Call) : Option Function :=
  match c.callee with
  | .global n =>
    match c.site.routine.scope.module.global? n with
    | some (.code f) => some f
    | _ => none
  | _ => none

/-- The type of what the call returns. -/
def resultType (c : Call) : Ty := c.site.routine.scope.resultType (.call c.callee c.args)

/-- The type of an argument. -/
def typeOf (c : Call) (o : Operand) : Ty := c.site.routine.scope.operandType o

/-- How a callee without a name is written: an instruction in full, anything else with its type. -/
def calleeText (c : Call) : String :=
  let s := c.site.routine.scope
  match c.callee with
  | .register n =>
    let instrs := c.site.routine.function.blocks.flatMap (·.instrs)
    match instrs.find? (·.name == n) with
    | some i => s.instrText i
    | none => s.typed c.callee
  | .assembly (.fn ret _ _) _ _ => ret.text ++ " " ++ s.reference c.callee
  | o => s.typed o

/-- What messages call the callee. -/
def calleeName (c : Call) : String :=
  match c.target? with
  | some f => f.name
  | none => c.calleeText

/-- The value of an operand. -/
def eval (s : Setting) (c : Call) (o : Operand) : Action Value := c.site.eval s o

/-- The argument at a position; one that is not there is a defect. -/
def arg (c : Call) (i : Nat) : Action Operand :=
  match c.args[i]? with
  | some o => pure o
  | none => Machine.defect .missingIndex

end Call

end PathSafety
