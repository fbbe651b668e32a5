import PathSafety.Machine.Instruction
import PathSafety.Machine.Intrinsic
import PathSafety.Path.Basic

/-!
# One step of a path

An instruction is executed in two parts: `Engine.move` works on the machine and says where control goes,
and `State.follow` lets control go there.

Contents:

* `Hooks`, `Monitor`, `Engine` — what a path is executed with;
* `Move`, `Engine.move` — the effect of an instruction;
* `Step`, `Engine.step` — the next state of a path, the arrivals at a fork, or its end.
-/

namespace PathSafety

open IR

/-- Hooks by the names of functions, and one for calls to functions without a body. -/
structure Hooks where
  byName : String → Option Hook := fun _ => none
  default : Option Hook := none

/-- Looks at an instruction before it is executed; its faults end the path. -/
abbrev Monitor := Setting → Site → Action Unit

/-- What the paths of a project are executed with. -/
structure Engine (p : Project) where
  nullChecking : Bool := true
  /-- How often a path may enter one block. -/
  loopBound : Int := 1000
  /-- How many routines may be under way at once. -/
  callDepth : Int := 64
  hooks : Hooks := {}
  monitors : List Monitor := []

/-- Where control goes after an instruction. -/
inductive Move (p : Project) where
  /-- To the next instruction. -/
  | next (result : Option Value)
  /-- To the beginning of a block, and on split off paths to others. -/
  | goto (target : Frame p) (others : List (Machine × Frame p))
  /-- Into a routine. -/
  | enter (callee : Frame p)
  /-- Back to the caller. -/
  | leave (result : Option Value)
  /-- Nowhere. -/
  | finish (outcome : Outcome)

namespace Engine

variable {p : Project} (e : Engine p)

/-- The setting of the machines. -/
def setting : Setting := ⟨p, e.nullChecking⟩

/-- The beginning of a block of the same routine. -/
def jump (f : Frame p) (target : String) : Action (Frame p) :=
  match f.jump? target with
  | some g => pure g
  | none => Machine.defect .missingIndex

/-- The successors whose condition can hold. -/
def feasible : List (Cond × String) → Action (List (Cond × String))
  | [] => pure []
  | (c, target) :: rest => do
    let possible ← Machine.sat [c]
    let rest ← feasible rest
    return if possible then (c, target) :: rest else rest

/-- Splits off a path for each successor. -/
def splitOff (f : Frame p) : List (Cond × String) → Action (List (Machine × Frame p))
  | [] => pure []
  | (c, target) :: rest => do
    let g ← jump f target
    let m ← get
    let others ← splitOff f rest
    return ({ m with condition := m.condition.assume c }, g) :: others

/-- Goes on with the first feasible successor and splits off the others. A path gains a condition only
where there was a choice. -/
def branch (f : Frame p) (successors : List (Cond × String)) : Action (Move p) := do
  match ← feasible successors with
  | [] => Machine.fault (.noSuccessor f.location)
  | [(_, target)] => return .goto (← jump f target) []
  | (c, target) :: others =>
    let others ← splitOff f others
    Machine.assume c
    return .goto (← jump f target) others

/-- The successors of a switch: its cases in order, then the default. -/
def switch (f : Frame p) (site : Site) (v : Operand) (default : String)
    (cases : List (Operand × String)) : Action (Move p) := do
  let v ← site.eval e.setting v
  let rec arms : List (Operand × String) → Action (List (Cond × String))
    | [] => pure []
    | (o, target) :: rest => do
      let k := (← site.eval e.setting o).resize v.width
      let c ← Machine.valueOr (v.cmp .eq k)
      return (c, target) :: (← arms rest)
  let arms ← arms cases
  let none := Term.mkAll (arms.map fun (c, _) => c.mkNot)
  branch f (arms ++ [(none, default)])

/-- What an outcome of a call means for the caller. -/
def resume : Outcome → Move p
  | .returned v => .next (some v)
  | .returnedVoid => .next none
  | o => .finish o

/-- Enters the routine of a called function. -/
def inline (st : State p) (c : Call) (f : Function) : Action (Move p) := do
  if (st.callers.length : Int) + 1 ≥ e.callDepth then Machine.fault (.callDepth e.callDepth f.name)
  let args ← c.site.evalAll e.setting c.args
  match h : p.routineIn? c.site.routine.module f.name with
  | none => Machine.defect .missingIndex
  | some r =>
    match Frame.call? r (List.mem_of_find?_eq_some h) args with
    | some g => return .enter g
    | none => Machine.defect .missingIndex

/-- The hook that a call to a named function goes to. -/
def hookOf? (f : Function) : Option Hook :=
  match e.hooks.byName f.name with
  | some hook => some hook
  | none => if f.isDeclaration then e.hooks.default else none

/-- A call: to an intrinsic, else to a hook, else into the called routine. -/
def call (st : State p) (c : Call) : Action (Move p) := do
  match c.target? with
  | none =>
    match e.hooks.default with
    | some hook => return resume (← hook e.setting c)
    | none => Machine.fault (.indirectCall c.site.text)
  | some f =>
    match Intrinsic.ofName? f.name with
    | some i => return resume (← Machine.intrinsic e.setting c f.name i)
    | none =>
      match e.hookOf? f with
      | some hook => return resume (← hook e.setting c)
      | none =>
        if f.isDeclaration then Machine.fault (.undefinedCallee f.name)
        e.inline st c f

/-- What the instruction at a site does. -/
def move (st : State p) (site : Site) : Action (Move p) := do
  let s := e.setting
  let f := st.frame
  let bind (v : Value) : Move p := .next (some v)
  match site.instr.op with
  | .arith op _ a b => return bind (← Machine.arith s site op a b)
  | .icmp p a b => return bind (← Machine.compare s site p a b)
  | .cast op v target => return bind (← Machine.cast s site op v target)
  | .alloca t n => return bind (← Machine.alloca s site t n)
  | .load a t => return bind (← Machine.load s site a t)
  | .store v a => do
    Machine.store s site v a
    return .next none
  | .gep _ a t is => return bind (← Machine.gep s site a t is)
  | .select c a b => return bind (← Machine.select s site c a b)
  | .phi _ incoming => return bind (← Machine.phi s site incoming)
  | .call callee args => e.call st ⟨site, callee, args⟩
  | .br target => return .goto (← jump f target) []
  | .condBr c yes no => do
    let c ← site.eval s c
    branch f [(c.equals 1, yes), (c.equals 0, no)]
  | .switch v default cases => e.switch f site v default cases
  | .ret none => return .leave none
  | .ret (some v) => return .leave (some (← site.eval s v))
  | .unreachable => Machine.fault (.unreachable site.location)
  | .unmodeled u => Machine.fault (.unsupportedInstruction u.keyword site.text)

/-- Lets the monitors see a site, one after another. -/
def watch (site : Site) : List Monitor → Action Unit
  | [] => pure ()
  | m :: ms => do
    m e.setting site
    watch site ms

end Engine

/-- What becomes of a path by one instruction. -/
inductive Step (p : Project) where
  | proceed (next : State p)
  | arrive (here : Arrival p) (others : List (Arrival p))
  | finish (path : Path)

namespace State

variable {p : Project}

/-- Lets control go where an instruction sends it. -/
def follow (st : State p) (machine : Machine) : Move p → Step p
  | .next result => .proceed { st with machine, frame := st.frame.finish result }
  | .goto target others =>
    let origin := some st.frame.location
    .arrive ⟨{ st with machine, frame := target }, origin⟩
      (others.map fun (m, g) => ⟨{ st with machine := m, frame := g, executed := [] }, origin⟩)
  | .enter callee =>
    .arrive ⟨{ st with machine, frame := callee, callers := st.frame :: st.callers },
      some st.frame.location⟩ []
  | .leave result =>
    match st.callers with
    | [] =>
      .finish (st.finish machine (.outcome (match result with
        | some v => .returned v
        | none => .returnedVoid)))
    | caller :: callers => .proceed { st with machine, frame := caller.finish result, callers }
  | .finish outcome => .finish (st.finish machine (.outcome outcome))

end State

namespace Engine

variable {p : Project} (e : Engine p)

/-- Executes the next instruction of a path. -/
def step (st : State p) : Step p :=
  match st.frame.instr? with
  | none => .finish (st.finish st.machine (.defect .missingIndex))
  | some i =>
    let site := st.frame.site i
    let st := st.note site.location
    let act : Action (Move p) := do
      e.watch site e.monitors
      e.move st site
    match act st.machine with
    | .ok m machine => st.follow machine m
    | .error failure machine => .finish (st.finish machine failure.ending)

end Engine

end PathSafety
