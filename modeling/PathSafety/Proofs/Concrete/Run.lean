import PathSafety.Check.Checker
import PathSafety.Machine.Intrinsic
import PathSafety.Proofs.Concrete.Operand

/-!
# Concrete runs

A plain interpreter: registers hold words, memory gives every address a byte, global values stand where a
placement puts them and allocations where a list of addresses says. Block and call structure are those of
the project; no condition, symbol or solver is in sight.

Contents:

* `Activation`, `Config` — where a run is;
* `Concrete.step`, `Concrete.after` — one step of a run, and several;
* `Concrete.Commits` — that a run is about to commit a violation;
* `Concrete.Passes` — runs that commit none.

The phis of a block all take their values from the registers as they were when the block was entered.
-/

namespace PathSafety.Concrete

open IR Machine

/-- A routine that is running or waits for a call to come back. -/
structure Activation where
  routine : Routine
  block : Block
  index : Nat := 0
  previous : Option String := none
  registers : Registers := fun _ => none
  /-- The registers as they were when the block was entered; none while that is still to be done. -/
  entry : Option Registers := none

namespace Activation

/-- The block that the activation is in. -/
def id (a : Activation) : BlockId := ⟨a.routine.function.name, a.block.name⟩

/-- The next instruction. -/
def instr? (a : Activation) : Option Instr := a.block.instrs[a.index]?

/-- The activation after its instruction, with the result that the instruction had. -/
def finish (a : Activation) (result : Option Word) : Activation :=
  { a with
    index := a.index + 1
    registers := match a.instr?, result with
      | some i, some v => a.registers.set i.name v
      | _, _ => a.registers }

/-- The activation about to enter another block. -/
def jump? (a : Activation) (target : String) : Option Activation :=
  (a.routine.function.block? target).map fun b =>
    { a with block := b, index := 0, previous := some a.block.name, entry := none }

/-- The registers of a call: the parameters in order, as far as there are arguments. -/
def bind (params : List (String × Ty)) (args : List Word) : Registers :=
  (params.zip args).foldl (fun rs x => rs.set x.1.1 x.2) fun _ => none

/-- An activation about to enter a routine. -/
def start? (r : Routine) (args : List Word) : Option Activation :=
  r.function.blocks.head?.map fun b =>
    { routine := r, block := b, registers := bind r.function.params args }

end Activation

/-- Where a run is. -/
structure Config where
  current : Activation
  callers : List Activation := []
  memory : Bytes
  /-- Where the allocations to come are put. -/
  stack : List Nat
  /-- The blocks that were entered, the last one first. -/
  trail : Trail := []

/-- How a run ends. -/
inductive Halt where
  | returned (v : Word)
  | returnedVoid
  | threw (v : Word)
  | aborted
  deriving DecidableEq

/-- What a step of a run comes to. -/
inductive Next where
  | go (c : Config)
  | halt (h : Halt)

namespace Config

variable (c : Config)

/-- The run after the instruction, with the result that it had. -/
def finish (result : Option Word) : Next := .go { c with current := c.current.finish result }

/-- The run about to enter another block. -/
def jump (target : String) : Option Next :=
  (c.current.jump? target).map fun a => .go { c with current := a }

/-- The run back at the caller; without one it ends. -/
def leave (result : Option Word) : Next :=
  match c.callers with
  | [] => .halt (match result with
    | some v => .returned v
    | none => .returnedVoid)
  | caller :: callers => .go { c with current := caller.finish result, callers }

end Config

section Step

variable (p : Project) (place : Placement)

/-- The value of an operand in a run. -/
def Config.eval (c : Config) (o : Operand) : Option Word := operand p place c.current.registers o

/-- The type that a pointer operation of the running routine works on. -/
def Config.accessType (c : Config) (pointer : Operand) (written : Option Ty) : Ty :=
  c.current.routine.scope.accessType pointer written

/-- The size in bits of a type that has values. -/
def bits? (t : Ty) : Option Nat :=
  match p.layout.bits? t with
  | none | some 0 => none
  | some n => some n

/-- Whether two words compare. -/
def compare (q : IntPredicate) (a b : Word) : Option Bool :=
  match q with
  | .eq => a.compare .eq b
  | .ne => (a.compare .eq b).map not
  | .ugt => b.compare .ult a
  | .uge => b.compare .ule a
  | .ult => a.compare .ult b
  | .ule => a.compare .ule b
  | .sgt => b.compare .slt a
  | .sge => b.compare .sle a
  | .slt => a.compare .slt b
  | .sle => a.compare .sle b

/-- The first target whose case is the value, or else the default. -/
def switchTarget (c : Config) (v : Word) (default : String) : List (Operand × String) → Option String
  | [] => some default
  | (o, target) :: rest => do
    if v = (← c.eval p place o).resize v.width then some target else switchTarget c v default rest

/-- The function that an operand names. -/
def Config.target? (c : Config) : Operand → Option Function
  | .global n =>
    match c.current.routine.scope.module.global? n with
    | some (.code f) => some f
    | _ => none
  | _ => none

/-- The value of an argument. -/
def Config.arg (c : Config) (args : List Operand) (k : Nat) : Option Word := do
  c.eval p place (← args[k]?)

/-- What an intrinsic does. A block is read whole before it is written. -/
def intrinsic (c : Config) (args : List Operand) : Intrinsic → Option Next
  | .abort => some (.halt .aborted)
  | .throwing => do return .halt (.threw (← c.arg p place args 0))
  | .marker => some (c.finish none)
  | .copy => do
    let dest ← c.arg p place args 0
    let length ← c.arg p place args 2
    if length.toNat = 0 then return c.finish none
    else
      let source ← c.arg p place args 1
      let block := Word.load c.memory source.toNat (8 * length.toNat)
      return { c with memory := block.store c.memory dest.toNat }.finish none
  | .fill => do
    let dest ← c.arg p place args 0
    let length ← c.arg p place args 2
    if length.toNat = 0 then return c.finish none
    else
      let byte := (← c.arg p place args 1).resize 8
      let block := Word.concat (List.replicate length.toNat byte)
      return { c with memory := block.store c.memory dest.toNat }.finish none

/-- A call: of an intrinsic, else into the called routine. -/
def call (c : Config) (callee : Operand) (args : List Operand) : Option Next := do
  let f ← c.target? callee
  match Intrinsic.ofName? f.name with
  | some k => intrinsic p place c args k
  | none =>
    let args ← args.mapM (c.eval p place)
    let a ← Activation.start? (← p.routineIn? c.current.routine.module f.name) args
    return .go { c with current := a, callers := c.current :: c.callers }

/-- What the next instruction does; `entry` are the registers from which phis take their values. -/
def exec (c : Config) (entry : Registers) : Op → Option Next
  | .arith op _ a b => do
    return c.finish (← Word.arith op (← c.eval p place a) (← c.eval p place b))
  | .icmp q a b => do
    return c.finish (some ⟨BitVec.ofBool (← compare q (← c.eval p place a) (← c.eval p place b))⟩)
  | .cast op v target => do
    let v ← c.eval p place v
    let bits ← bits? p target
    return c.finish (some (if op = .sext then v.signedResize bits else v.resize bits))
  | .alloca _ _ =>
    match c.stack with
    | [] => none
    | a :: stack => some ({ c with stack }.finish (some (.ofNat p.layout.pointerBits a)))
  | .load pointer written => do
    let bits ← bits? p (c.accessType pointer written)
    return c.finish (some (.load c.memory (← c.eval p place pointer).toNat bits))
  | .store v pointer => do
    let a ← c.eval p place pointer
    return { c with memory := (← c.eval p place v).store c.memory a.toNat }.finish none
  | .gep _ pointer written indices => do
    let base ← c.eval p place pointer
    let o ← offset p.layout (c.eval p place) base.width (c.accessType pointer written) indices
    return c.finish (some ⟨base.bits + o⟩)
  | .select condition a b => do
    let condition ← c.eval p place condition
    let a ← c.eval p place a
    let b ← c.eval p place b
    return c.finish (some (if condition.toNat = 1 then a else b))
  | .phi _ incoming => do
    let (v, _) ← incoming.find? fun (_, block) => c.current.previous == some block
    return c.finish (some (← operand p place entry v))
  | .call callee args => call p place c callee args
  | .br target => c.jump target
  | .condBr condition yes no => do
    c.jump (if (← c.eval p place condition).toNat = 1 then yes else no)
  | .switch v default cases => do
    c.jump (← switchTarget p place c (← c.eval p place v) default cases)
  | .ret none => some (c.leave none)
  | .ret (some v) => do return c.leave (some (← c.eval p place v))
  | .unreachable | .unmodeled _ => none

/-- One step of a run: entering a block, or executing an instruction. A run that cannot go on has none. -/
def step (c : Config) : Option Next :=
  match c.current.entry with
  | none => some (.go { c with
      current := { c.current with entry := some c.current.registers }
      trail := c.current.id :: c.trail })
  | some entry => do exec p place c entry (← c.current.instr?).op

/-- The run after some steps, if it has not ended before. -/
def after : Nat → Config → Option Config
  | 0, c => some c
  | n + 1, c =>
    match step p place c with
    | some (.go c') => after n c'
    | _ => none

/-! ## Violations -/

/-- The addresses that an instruction is about to load from or store to. -/
def accessed (c : Config) : Op → List Word
  | .load pointer _ | .store _ pointer => (c.eval p place pointer).toList
  | .call callee args =>
    match (c.target? callee).bind fun f => Intrinsic.ofName? f.name with
    | some .copy =>
      if (c.arg p place args 2).any (·.toNat ≠ 0) then
        (c.arg p place args 0).toList ++ (c.arg p place args 1).toList
      else []
    | some .fill =>
      if (c.arg p place args 2).any (·.toNat ≠ 0) then (c.arg p place args 0).toList else []
    | _ => []
  | _ => []

/-- That executing an operation commits a violation: access at address zero, division by zero, or an
address computation that leaves the object that it is said to stay in. -/
def Violates (c : Config) (op : Op) : Checker → Prop
  | .nullDereference => ∃ a ∈ accessed p place c op, a.toNat = 0
  | .divisionByZero =>
    match op with
    | .arith op _ _ divisor => Value.divides op ∧ ∃ v, c.eval p place divisor = some v ∧ v.toNat = 0
    | _ => False
  | .outOfBounds =>
    match op with
    | .gep true pointer written indices =>
      let object := c.accessType pointer written
      ∃ o n, offset p.layout (c.eval p place) p.layout.pointerBits object indices = some o ∧
        size? p.layout object = some n ∧ n ≤ o.toNat
    | _ => False

/-- That a run commits a violation with its next step. -/
def Commits (c : Config) (k : Checker) : Prop :=
  ∃ i, c.current.entry.isSome ∧ c.current.instr? = some i ∧ Violates p place c i.op k

/-! ## Runs without violations -/

/-- That a run gets from one place to another, and commits no violation of some kinds on the way. -/
inductive Passes (ks : Checker → Prop) : Config → Config → Prop
  | refl (c : Config) : Passes ks c c
  | go {c c₁ c₂ : Config} (safe : ∀ k, ks k → ¬ Commits p place c k) (step : step p place c = some (.go c₁))
    (rest : Passes ks c₁ c₂) : Passes ks c c₂

variable {p place} {ks : Checker → Prop} {c c₁ c₂ : Config}

theorem Passes.trans (h₁ : Passes p place ks c c₁) (h₂ : Passes p place ks c₁ c₂) :
    Passes p place ks c c₂ := by
  induction h₁ with
  | refl => exact h₂
  | go safe step _ ih => exact .go safe step (ih h₂)

/-- A run that gets somewhere does so after some number of steps. -/
theorem Passes.after (h : Passes p place ks c c₁) :
    ∃ n, after p place n c = some c₁ ∧
      ∀ j < n, ∀ d, after p place j c = some d → ∀ k, ks k → ¬ Commits p place d k := by
  induction h with
  | refl c => exact ⟨0, rfl, fun j hj => absurd hj (Nat.not_lt_zero j)⟩
  | go safe step _ ih =>
    obtain ⟨n, hn, hsafe⟩ := ih
    refine ⟨n + 1, ?_, fun j hj d hd => ?_⟩
    · unfold Concrete.after
      rw [step]
      exact hn
    · cases j with
      | zero =>
        obtain rfl := Option.some.inj hd
        exact safe
      | succ j =>
        unfold Concrete.after at hd
        rw [step] at hd
        exact hsafe j (by omega) d hd

/-- A run that ends has no more places to be. -/
theorem after_of_halt {n j : Nat} {h : Halt} (hn : Concrete.after p place n c = some c₁)
    (hstep : step p place c₁ = some (.halt h)) (hj : n < j) : Concrete.after p place j c = none := by
  induction n generalizing c j with
  | zero =>
    obtain rfl := Option.some.inj hn
    obtain ⟨j, rfl⟩ : ∃ k, j = k + 1 := ⟨j - 1, by omega⟩
    unfold Concrete.after
    rw [hstep]
  | succ n ih =>
    obtain ⟨j, rfl⟩ : ∃ k, j = k + 1 := ⟨j - 1, by omega⟩
    unfold Concrete.after at hn ⊢
    split at hn
    · exact ih hn (by omega)
    · cases hn

end Step

end PathSafety.Concrete
