import PathSafety.Machine.Site

/-!
# Paths under way

The control side of a path: which routine is running, where, and who called it.

Contents:

* `BlockId`, `Trail` — a block by name, and the blocks that a path went through;
* `Frame` — a routine that is running or waits for a call to come back;
* `State` — a path under way; `Arrival` — one that is about to enter a block;
* `Path` — a finished path;
* `room`, `State.remaining` — what is left to do before a path must end.

Frames keep the fact that they belong to the project. Every block that is entered uses up room, and every
other step leaves fewer instructions to execute.
-/

namespace PathSafety

open IR

/-- A block of a function, by their names. -/
structure BlockId where
  function : String
  block : String
  deriving DecidableEq, Repr

/-- How a block is written. -/
def BlockId.text (b : BlockId) : String := s!"{b.function}:{b.block}"

/-- Blocks that a path entered, the last one first. -/
abbrev Trail := List BlockId

/-- The blocks of a project. -/
def IR.Project.blockIds (p : Project) : List BlockId :=
  p.routines.flatMap fun r => r.function.blocks.map fun b => ⟨r.function.name, b.name⟩

/-- A routine of a project at some instruction of one of its blocks. -/
structure Frame (p : Project) where
  routine : Routine
  block : Block
  index : Nat := 0
  previous : Option String := none
  registers : Registers := ∅
  routine_mem : routine ∈ p.routines
  block_mem : block ∈ routine.function.blocks

namespace Frame

variable {p : Project}

/-- The block that the frame is in. -/
def id (f : Frame p) : BlockId := ⟨f.routine.function.name, f.block.name⟩

theorem id_mem (f : Frame p) : f.id ∈ p.blockIds :=
  List.mem_flatMap.mpr ⟨f.routine, f.routine_mem, List.mem_map.mpr ⟨f.block, f.block_mem, rfl⟩⟩

/-- Where the frame is. -/
def location (f : Frame p) : Location := ⟨f.routine.function.name, f.block.name, f.index⟩

/-- The next instruction. -/
def instr? (f : Frame p) : Option Instr := f.block.instrs[f.index]?

/-- How many instructions of the block are left. -/
def remaining (f : Frame p) : Nat := f.block.instrs.length - f.index

/-- The site of the next instruction. -/
def site (f : Frame p) (i : Instr) : Site :=
  ⟨f.routine, f.registers, f.block.name, f.index, f.previous, i⟩

/-- The frame after its instruction, with the result that the instruction had. -/
def finish (f : Frame p) (result : Option Value) : Frame p :=
  { f with
    index := f.index + 1
    registers := match f.instr?, result with
      | some i, some v => f.registers.insert i.name v
      | _, _ => f.registers }

/-- The frame at the beginning of another block of its routine. -/
def jump? (f : Frame p) (target : String) : Option (Frame p) :=
  match h : f.routine.function.block? target with
  | some b =>
    some { f with
      block := b, index := 0, previous := some f.block.name
      block_mem := List.mem_of_find?_eq_some h }
  | none => none

/-- A frame at the entry of a routine, its parameters bound in order as far as there are arguments. -/
def call? (r : Routine) (h : r ∈ p.routines) (args : List Value) : Option (Frame p) :=
  match hb : r.function.blocks with
  | [] => none
  | b :: _ =>
    let bind (rs : Registers) (param : (String × Ty) × Value) : Registers :=
      rs.insert param.1.1 param.2
    some {
      routine := r
      block := b
      registers := (r.function.params.zip args).foldl bind ∅
      routine_mem := h
      block_mem := hb ▸ List.mem_cons_self }

end Frame

/-- A path under way. The callers, innermost first, each stand at the call that they wait for; `executed`
lists the instructions since the path was last split off, the newest first. -/
structure State (p : Project) where
  machine : Machine
  frame : Frame p
  callers : List (Frame p) := []
  trail : Trail := []
  executed : List Location := []

/-- A path that is about to enter the block at whose beginning its frame stands, coming from `origin`. -/
structure Arrival (p : Project) where
  state : State p
  origin : Option Location := none

/-- How a path ended. -/
inductive Ending where
  | outcome (o : Outcome)
  | fault (f : Fault)
  /-- The analysis as a whole has failed. -/
  | defect (d : Defect)

/-- A finished path. -/
structure Path where
  machine : Machine
  trail : Trail
  place : Option Location
  executed : List Location
  ending : Ending

namespace Path

/-- The blocks that a path went through, in order. -/
def blocks (path : Path) : List BlockId := path.trail.reverse

/-- The instructions that a path executed since it was split off, in order. -/
def trace (path : Path) : List Location := path.executed.reverse

end Path

/-- How a failed action ends a path. -/
def Failure.ending : Failure → Ending
  | .fault f => .fault f
  | .defect d => .defect d

/-- How often the blocks of a list can still be entered. -/
def room (bound : Nat) (trail : Trail) : List BlockId → Nat
  | [] => 0
  | b :: ids => bound - trail.count b + room bound trail ids

theorem room_cons_le (bound : Nat) (trail : Trail) (b : BlockId) (ids : List BlockId) :
    room bound (b :: trail) ids ≤ room bound trail ids := by
  induction ids with
  | nil => exact Nat.le_refl _
  | cons c ids ih =>
    simp only [room] at ih ⊢
    have := List.count_le_count_cons (a := c) (b := b) (l := trail)
    omega

/-- Entering a block uses up room. -/
theorem room_cons_lt {bound : Nat} {trail : Trail} {b : BlockId} {ids : List BlockId} (hb : b ∈ ids)
    (h : trail.count b < bound) : room bound (b :: trail) ids < room bound trail ids := by
  induction ids with
  | nil => simp at hb
  | cons c ids ih =>
    have hle := room_cons_le bound trail b ids
    simp only [room] at ih hle ⊢
    have hc := List.count_le_count_cons (a := c) (b := b) (l := trail)
    by_cases hbc : b = c
    · subst hbc
      rw [List.count_cons_self] at hc ⊢
      omega
    · have := ih ((List.mem_cons.mp hb).resolve_left hbc)
      omega

namespace State

variable {p : Project}

/-- How many instructions routines have left in their blocks. -/
def totalRemaining : List (Frame p) → Nat
  | [] => 0
  | f :: fs => f.remaining + totalRemaining fs

/-- How many instructions the running routine and its callers have left in their blocks. -/
def remaining (st : State p) : Nat := totalRemaining (st.frame :: st.callers)

/-- The path with one more instruction executed. -/
def note (st : State p) (l : Location) : State p := { st with executed := l :: st.executed }

/-- A path that ends where it is. -/
def finish (st : State p) (machine : Machine) (ending : Ending) : Path :=
  ⟨machine, st.trail, some st.frame.location, st.executed, ending⟩

end State

namespace Arrival

variable {p : Project}

/-- Enters the block, unless the path has been there as often as it may. -/
def enter (a : Arrival p) (bound : Int) : Except Path (State p) :=
  let id := a.state.frame.id
  if a.state.trail.count id < bound then .ok { a.state with trail := id :: a.state.trail }
  else
    .error ⟨a.state.machine, a.state.trail, a.origin, a.state.executed,
      .fault (.loopBound id.function id.block bound)⟩

/-- Entering a block uses up room. -/
theorem room_of_enter {a : Arrival p} {bound : Int} {st : State p} (h : a.enter bound = .ok st) :
    room bound.toNat st.trail p.blockIds < room bound.toNat a.state.trail p.blockIds := by
  simp only [enter] at h
  split at h
  · rename_i hlt
    obtain rfl := Except.ok.inj h
    exact room_cons_lt a.state.frame.id_mem (by omega)
  · cases h

end Arrival

end PathSafety
