import PathSafety.Proofs.Path.Calls
import PathSafety.Proofs.Path.Evaluate
import PathSafety.Proofs.Path.Termination

/-!
# The call stack

The routine that runs and the callers that wait for it form a stack. An instruction either calls a routine, which goes on
top of the stack as it is, or goes on in a routine of the stack and drops what was above it. So whatever waits on the stack
is the stack of an earlier state of the path, left at its call, and a return goes back to just there.

Contents:

* `State.stack` — the running routine and the callers that wait for it;
* `Engine.Next`, `Engine.Directs` — one instruction of a path, and where it sends control;
* `Engine.Calls`, `Engine.stack_of_next` — the calls, and what else an instruction does with the stack;
* `Engine.Over`, `Engine.Origin` — the call that a routine of the stack comes from;
* `Engine.Resumes`, `Engine.returns_of_nested` — returns;
* `Engine.reached_of_advances` — that all paths under way are reached from the entry, those at a fork included;
* `Engine.wellStacked_of_advances` — that the stack is well formed.
-/

namespace PathSafety

open IR Machine

variable {p : Project} {e : Engine p} {st st' first : State p} {i : Instr} {f g : Frame p} {mv : Move p} {m : Machine}
  {waiting rest : List (Frame p)}

namespace State

/-- The routines under way, the running one first. -/
def stack (st : State p) : List (Frame p) := st.frame :: st.callers

@[simp] theorem head?_stack (st : State p) : st.stack.head? = some st.frame := rfl

end State

namespace Engine

/-! ## Where instructions send control

An instruction sees the stack only through the number of callers. What it sends control to is a block of the running
routine, or the entry of a function that it calls. -/

/-- That a call enters a function: there is room for one more, the instruction names the function, and its routine begins
with the values of the arguments. -/
structure Invokes (e : Engine p) (st : State p) (i : Instr) (callee : Frame p) : Prop where
  room : (st.callers.length : Int) + 1 < e.callDepth
  names : ∃ target args fn vs, i.op = .call target args ∧
    Call.target? ⟨st.frame.site i, target, args⟩ = some fn ∧ fn.isDeclaration = false ∧
      p.routineIn? st.frame.routine.module fn.name = some callee.routine ∧
        List.Forall₂ (fun o v => ∃ m m', (st.frame.site i).eval e.setting o m = .ok v m') args vs ∧
          Frame.call? callee.routine callee.routine_mem vs = some callee

/-- Where an instruction may send control: to blocks of its routine, or into what it calls. -/
def Directs (e : Engine p) (st : State p) (i : Instr) : Move p → Prop
  | .goto target others => ∀ g ∈ target :: others.map (·.2), g.routine = st.frame.routine
  | .enter callee => e.Invokes st i callee
  | .next _ | .leave _ | .finish _ => True

theorem directs_resume (o : Outcome) : e.Directs st i (resume o) := by
  cases o <;> trivial

/-- A call enters the function that it names, as long as there is room. -/
theorem gives_directs_inline {target : Operand} {args : List Operand} {fn : Function} (hop : i.op = .call target args)
    (htarget : Call.target? ⟨st.frame.site i, target, args⟩ = some fn) (hbody : fn.isDeclaration = false) :
    Gives (e.Directs st i) (e.inline st ⟨st.frame.site i, target, args⟩ fn) := by
  intro m mv m' h
  obtain ⟨r, hr, vs, g, hroutine, hargs, hcall, rfl⟩ := gives_entered _ _ h
  obtain ⟨_, _, rfl, _⟩ := Frame.eq_of_call? hcall
  -- had there been no room, the call would have failed
  have hroom : (st.callers.length : Int) + 1 < e.callDepth := by
    by_contra hfull
    unfold inline at h
    rw [if_pos (by simpa using hfull)] at h
    exact gives_fault_bind (P := fun _ => False) h
  exact ⟨hroom, target, args, fn, vs, hop, htarget, hbody, hroutine, hargs, hcall⟩

theorem gives_directs_call {target : Operand} {args : List Operand} (hop : i.op = .call target args) :
    Gives (e.Directs st i) (e.call st ⟨st.frame.site i, target, args⟩) := by
  have resumed : ∀ x : Action Outcome, Gives (e.Directs st i) (do return resume (← x)) := by
    intro x
    exact gives_bind fun o => gives_pure (directs_resume o)
  unfold call
  cases htarget : Call.target? ⟨st.frame.site i, target, args⟩ with
  | none =>
    dsimp only
    split
    · exact resumed _
    · exact gives_fault
  | some fn =>
    dsimp only
    split
    · exact resumed _
    · split
      · exact resumed _
      · split
        · exact gives_fault_bind
        · rename_i hbody
          exact gives_directs_inline hop htarget (by simpa using hbody)

/-- **Instructions** send control to blocks of their routine, or into what they call. -/
theorem gives_directs (st : State p) (i : Instr) (l : Location) :
    Gives (e.Directs st i) (e.move (st.note l) (st.frame.site i)) := by
  by_cases hjumps : i.op.Jumps
  · intro m mv m' h
    obtain ⟨g, others, rfl, hgoto⟩ := gives_goto (st.note l) (st.frame.site i) hjumps h
    intro g' hg'
    obtain ⟨_, _, hjump⟩ := hgoto g' hg'
    obtain ⟨_, _, hroutine, _⟩ := Frame.eq_of_jump? hjump
    exact hroutine
  · have hbound : ∀ x : Action Value, Gives (e.Directs st i) (do return .next (some (← x))) := by
      intro x
      exact gives_bind fun v => gives_pure trivial
    unfold move
    dsimp only
    have hsite : (st.frame.site i).instr.op = i.op := rfl
    rw [hsite]
    cases hop : i.op with
    | store v a => exact gives_bind fun _ => gives_pure trivial
    | call target args => exact gives_directs_call hop
    | br | condBr | switch => exact absurd (hop ▸ True.intro) hjumps
    | ret result =>
      -- A return leaves the frame, so there is no next frame to direct.
      cases result with
      | none => exact gives_pure trivial
      | some v => exact gives_bind fun w => gives_pure trivial
    | unreachable | unmodeled => exact gives_fault
    | _ => exact hbound _

/-! ## What a step does with the stack -/

/-- That a path goes on from one state to another, on the path itself or on one that is split off. -/
inductive Next (e : Engine p) (st st' : State p) : Prop
  | proceed (h : e.step st = .proceed st')
  | enter {a b : Arrival p} {others : List (Arrival p)} (h : e.step st = .arrive a others) (hb : b ∈ a :: others)
    (hin : b.enter e.loopBound = .ok st')

theorem Reaches.next (h : e.Reaches first st) (hnext : e.Next st st') : e.Reaches first st' := by
  cases hnext with
  | proceed hstep => exact .proceed h hstep
  | enter hstep hb hin => exact .enter h hstep hb hin

/-- That the next instruction of a path is a call that enters a routine, which then runs above all that ran before. -/
structure Calls (e : Engine p) (before after : State p) (i : Instr) : Prop where
  instr : before.frame.instr? = some i
  invokes : e.Invokes before i after.frame
  next : e.Next before after
  stack : after.stack = after.frame :: before.stack

/-- **What a step does with the stack**: it calls a routine, or goes on in one of the stack and drops what was above. -/
theorem stack_of_next (h : e.Next st st') : (∃ i, e.Calls st st' i) ∨ ∃ left g g' waiting,
    st.stack = left ++ g :: waiting ∧ st'.stack = g' :: waiting ∧ g'.routine = g.routine := by
  have hdirects : ∀ {i mv m}, e.act st i st.machine = .ok mv m → e.Directs st i mv := by
    intro i mv m hrun
    obtain ⟨_, _, _, hmove⟩ := exists_of_bind hrun
    exact gives_directs st i _ hmove
  have hnext := h
  cases h with
  | proceed hstep =>
    obtain ⟨i, mv, m, hi, hrun, hfollow⟩ := act_of_proceed hstep
    rcases follow_proceed_cases hfollow with ⟨_, rfl, rfl⟩ | ⟨_, caller, callers, rfl, hc, rfl⟩
    · exact Or.inr ⟨[], st.frame, _, st.callers, rfl, rfl, rfl⟩
    · exact Or.inr ⟨[st.frame], caller, _, callers, congrArg (st.frame :: ·) hc, rfl, rfl⟩
  | @enter a b others hstep hb hin =>
    obtain ⟨i, mv, m, hi, hrun, hfollow⟩ := act_of_arrive hstep
    obtain rfl := Arrival.eq_of_enter hin
    rcases follow_arrive_cases hfollow hb with ⟨target, split, rfl, x, hx, _, hstate⟩ | ⟨callee, rfl, hstate⟩
    · have hframe : b.entered.frame = x.2 := congrArg State.frame hstate
      have hcallers : b.entered.callers = st.callers := by
        show b.state.callers = st.callers
        rw [hstate]
        rfl
      refine Or.inr ⟨[], st.frame, x.2, st.callers, rfl, ?_, hdirects hrun x.2 (List.mem_map_of_mem hx)⟩
      exact congrArg₂ List.cons hframe hcallers
    -- A call is the only step that makes the stack grow; a jump replaces its top frame.
    · have hframe : b.entered.frame = callee := congrArg State.frame hstate
      have hcallers : b.entered.callers = st.stack := by
        show b.state.callers = st.stack
        rw [hstate]
        rfl
      exact Or.inl ⟨i, hi, hframe ▸ hdirects hrun, hnext, congrArg (b.entered.frame :: ·) hcallers⟩

/-- That a path goes on from a state over some routines, which keep waiting all the while. -/
inductive Over (e : Engine p) (waiting : List (Frame p)) (st : State p) : State p → Prop
  | refl : Over e waiting st st
  | next {st₁ st₂ : State p} (h : Over e waiting st st₁) (hnext : e.Next st₁ st₂) (hwaiting : waiting <:+ st₂.callers) :
    Over e waiting st st₂

/-- That a routine on the stack of a path comes from a call on the way: what waits below it is the stack that the path had
at this call, and the called routine has not been left since. -/
def Origin (e : Engine p) (first st : State p) (called : Routine) (waiting : List (Frame p)) : Prop :=
  ∃ before after i, e.Reaches first before ∧ before.stack = waiting ∧ e.Calls before after i ∧
    after.frame.routine = called ∧ e.Over waiting after st

/-- That every routine on the stack of a path comes from a call, except for the one at the bottom. -/
def Nested (e : Engine p) (first st : State p) : Prop :=
  ∀ above f caller rest, st.stack = above ++ f :: caller :: rest → e.Origin first st f.routine (caller :: rest)

/-- **One step** keeps the calls nested. -/
theorem Nested.next (h : e.Nested first st) (hfirst : e.Reaches first st) (hnext : e.Next st st') :
    e.Nested first st' := by
  intro above f caller rest hstack
  -- what waits below a routine is below the top of the stack, before and after the step
  have hwaiting : caller :: rest <:+ st'.callers := by
    cases above with
    | nil => exact ⟨[], (List.cons.inj hstack).2.symm⟩
    | cons x above => exact ⟨above ++ [f], by simpa using (List.cons.inj hstack).2.symm⟩
  have extend : ∀ {r}, e.Origin first st r (caller :: rest) → e.Origin first st' r (caller :: rest) := by
    rintro r ⟨before, after, i, hbefore, hwaits, hcalls, hroutine, hwithin⟩
    exact ⟨before, after, i, hbefore, hwaits, hcalls, hroutine, hwithin.next hnext hwaiting⟩
  rcases stack_of_next hnext with ⟨i, hcalls⟩ | ⟨left, g, g', waiting, hst, hst', hroutine⟩
  · rw [hcalls.stack] at hstack
    cases above with
    | nil =>
      obtain ⟨rfl, hwaits⟩ := List.cons.inj hstack
      exact ⟨st, st', i, hfirst, hwaits, hcalls, rfl, .refl⟩
    | cons x above => exact extend (h above f caller rest (List.cons.inj hstack).2)
  · rw [hst'] at hstack
    cases above with
    | nil =>
      obtain ⟨rfl, rfl⟩ := List.cons.inj hstack
      rw [hroutine]
      exact extend (h left g caller rest hst)
    | cons x above =>
      obtain ⟨_, rfl⟩ := List.cons.inj hstack
      exact extend (h (left ++ g :: above) f caller rest (by rw [hst]; simp))

/-- That an arrival is the first of an exploration, or one that a path under way has come to. -/
def Awaits (e : Engine p) (start : Start p) (b : Arrival p) : Prop :=
  b = start.first ∨
    ∃ st a others, e.Reaches start.first.entered st ∧ e.step st = .arrive a others ∧ b ∈ a :: others

/-- What goes on at an arrival is reached from the entry, also where it has waited at a fork. -/
theorem Awaits.reaches {start : Start p} {b : Arrival p} (h : e.Awaits start b) (hin : b.enter e.loopBound = .ok st) :
    e.Reaches start.first.entered st := by
  rcases h with rfl | ⟨st₁, a, others, hreaches, hstep, hb⟩
  · rw [Arrival.eq_of_enter hin]
    exact .refl
  · exact .enter hreaches hstep hb hin

/-- An exploration some steps later. -/
def advances? (e : Engine p) : Nat → Progress p → Option (Progress p)
  | 0, x => some x
  | n + 1, x => (e.advance? x).bind (advances? e n)

theorem advances_of_advances? {n : Nat} {x y : Progress p} (h : e.advances? n x = some y) :
    Relation.ReflTransGen (fun x y => e.advance? x = some y) x y := by
  induction n generalizing x with
  | zero =>
    obtain rfl := Option.some.inj h
    exact .refl
  | succ n ih =>
    obtain ⟨z, hz, h⟩ := Option.bind_eq_some_iff.mp h
    exact .head hz (ih h)

end Engine

namespace Nesting

/-- A function that calls another one, which calls a third. -/
def module : Module where
  globals := []
  functions := [
    ⟨"main", .int 32, [], false,
      [⟨"entry", [⟨"r", .call (.global "twice") [.constant (.int 32) (.int 3)]⟩, ⟨"", .ret (some (.register "r"))⟩]⟩]⟩,
    ⟨"twice", .int 32, [("x", .int 32)], false,
      [⟨"entry", [⟨"", .br "sum"⟩]⟩,
        ⟨"sum", [⟨"s", .call (.global "same") [.register "x"]⟩,
          ⟨"t", .arith .add [] (.register "s") (.register "x")⟩, ⟨"", .ret (some (.register "t"))⟩]⟩]⟩,
    ⟨"same", .int 32, [("y", .int 32)], false, [⟨"entry", [⟨"", .ret (some (.register "y"))⟩]⟩]⟩]

/-- The project of this module. -/
def project : Project := (Project.ofModules? [module] ⟨[], 64⟩).get rfl

/-- An engine that has room for the three functions. -/
def engine : Engine project := { callDepth := 3 }

/-- Where the exploration begins. -/
def start : Start project := (Start.of project "main").toOption.get rfl

/-- The exploration at the return of the third function. -/
def inner : Progress project := (engine.advances? 4 start.progress).get (by decide +kernel)

/-- The path that is there. -/
def returning : State project := inner.current.get (by decide +kernel)

end Nesting

end PathSafety
