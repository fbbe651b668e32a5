import PathSafety.Proofs.IR.Fits
import PathSafety.Proofs.IR.Operands

/-!
# Static single assignment

A register of a function has a value wherever control gets to if it is a parameter, or if every way there goes through
an instruction that assigns it. That all registers are used in such places only is what it means for a function to be
in the form of static single assignment.

Contents:

* `Function.Walk`, `Function.Dominates` — the ways that control can take through a function, and the instructions that
  stand on all ways to a place;
* `Routine.Available`, `Routine.Valued` — registers and operands that have values at a place;
* `Routine.Ssa`, `Project.Ssa` — that all uses of registers are in such places.
-/

namespace PathSafety.IR

/-- Whether a type is that of nothing. -/
def Ty.isVoid : Ty → Bool
  | .void => true
  | _ => false

/-- Whether an operation leaves a value in its register. -/
def Scope.hasResult (s : Scope) (o : Op) : Bool :=
  match o with
  | .store .. | .br _ | .condBr .. | .switch .. | .ret _ | .unreachable | .unmodeled (.fence _) => false
  | .call .. => !(s.resultType o).isVoid
  | _ => true

/-- The names of the blocks that an operation can send control to. -/
def Op.targets : Op → List String
  | .br target => [target]
  | .condBr _ yes no => [yes, no]
  | .switch _ default cases => cases.map (·.2) ++ [default]
  | _ => []

/-! ## Ways through a function -/

/-- The instructions of a function. -/
def Function.instrs (f : Function) : List Instr := f.blocks.flatMap (·.instrs)

/-- That control can get to an instruction of a block, and the instructions that it executes on the way, the last one
first. -/
inductive Function.Walk (f : Function) : Block → Nat → List Instr → Prop
  | entry {b : Block} {bs : List Block} (h : f.blocks = b :: bs) : Walk f b 0 []
  | next {b : Block} {k : Nat} {done : List Instr} {i : Instr} (rest : Walk f b k done)
    (hi : b.instrs[k]? = some i) (h : Fits.ends i.op = false) : Walk f b (k + 1) (i :: done)
  | jump {b c : Block} {k : Nat} {done : List Instr} {i : Instr} {target : String} (rest : Walk f b k done)
    (hi : b.instrs[k]? = some i) (htarget : target ∈ i.op.targets) (hc : f.block? target = some c) :
    Walk f c 0 (i :: done)

/-- That an instruction stands on all ways to a place. -/
def Function.Dominates (f : Function) (d : Instr) (b : Block) (k : Nat) : Prop := ∀ done, f.Walk b k done → d ∈ done

/-- That an instruction of a block can send control to another block. -/
def Function.Edge (f : Function) (b : Block) (k : Nat) (c : Block) : Prop :=
  ∃ i target, b.instrs[k]? = some i ∧ target ∈ i.op.targets ∧ f.block? target = some c

/-- Control stays within the blocks of a function. -/
theorem Function.Walk.mem {f : Function} {b : Block} {k : Nat} {done : List Instr} (h : f.Walk b k done) :
    b ∈ f.blocks := by
  induction h with
  | entry h => exact h ▸ List.mem_cons_self
  | next _ _ _ ih => exact ih
  | jump _ _ _ hc => exact List.mem_of_find?_eq_some hc

/-- What is executed are instructions of the function. -/
theorem Function.Walk.subset {f : Function} {b : Block} {k : Nat} {done : List Instr} (h : f.Walk b k done) :
    ∀ i ∈ done, i ∈ f.instrs := by
  induction h with
  | entry => exact List.forall_mem_nil _
  | next rest hi _ ih | jump rest hi _ _ ih =>
    exact List.forall_mem_cons.mpr ⟨List.mem_flatMap.mpr ⟨_, rest.mem, List.mem_of_getElem? hi⟩, ih⟩

/-! ## Registers and operands with values -/

/-- That a register is assigned on all ways to a place: it is a parameter, or the result of an instruction that stands
on all of them. -/
def Routine.Available (r : Routine) (b : Block) (k : Nat) (n : String) : Prop :=
  n ∈ r.function.params.map (·.1) ∨
    ∃ d ∈ r.function.instrs, d.name = n ∧ r.scope.hasResult d.op = true ∧ r.function.Dominates d b k

/-- That a register, a global name or assembly has a value at a place. -/
def Routine.Valued (p : Project) (r : Routine) (b : Block) (k : Nat) : Operand → Prop
  | .register n => r.Available b k n
  | .global n => (p.globalIn? r.module n).isSome = true
  | .assembly .. => False
  | .constant .. => True

/-- That a function is in the form of static single assignment, seen in a project. -/
structure Routine.Ssa (p : Project) (r : Routine) : Prop where
  /-- Every use of a register is dominated by its definition. -/
  uses : ∀ b ∈ r.function.blocks, ∀ k i, b.instrs[k]? = some i → ∀ o ∈ i.op.operands, ∀ l ∈ o.leaves, r.Valued p b k l
  /-- Every phi lists every predecessor of its block, with something that has a value at the end of that one. -/
  incoming : ∀ b ∈ r.function.blocks, ∀ i ∈ b.instrs, ∀ t incoming, i.op = .phi t incoming →
    ∀ a ∈ r.function.blocks, ∀ k, r.function.Edge a k b →
      (∃ x ∈ incoming, x.2 = a.name) ∧ ∀ x ∈ incoming, x.2 = a.name → ∀ l ∈ x.1.leaves, r.Valued p a k l
  /-- There are no phis in the entry block. -/
  entry : ∀ b bs, r.function.blocks = b :: bs → ∀ i ∈ b.instrs, Fits.isPhi i.op = false
  /-- Calls pass an argument for every parameter. -/
  arguments : ∀ b ∈ r.function.blocks, ∀ i ∈ b.instrs, ∀ callee args, i.op = .call callee args →
    ∀ f, Fits.target? r callee = some f → f.params.length ≤ args.length
  /-- What is modeled by itself returns nothing. -/
  intrinsics : ∀ b ∈ r.function.blocks, ∀ i ∈ b.instrs, ∀ callee args, i.op = .call callee args →
    ∀ f, Fits.target? r callee = some f → (Intrinsic.ofName? f.name).isSome = true → f.ret.isVoid = true
  /-- A function that returns something does so wherever it returns. -/
  returns : r.function.ret.isVoid = false → ∀ b ∈ r.function.blocks, ∀ i ∈ b.instrs, ∀ v, i.op = .ret v → v.isSome = true

/-- That all functions of a project are in the form of static single assignment, and the initial values of its
variables name only what is there. -/
structure Project.Ssa (p : Project) : Prop where
  routines : ∀ r ∈ p.routines, r.Ssa p
  initials : ∀ j m, p.modules[j]? = some m → ∀ g ∈ m.globals, ∀ init, g.init = some init →
    ∀ l ∈ init.leaves, ∃ n, l = .global n ∧ (p.globalIn? j n).isSome = true

end PathSafety.IR
