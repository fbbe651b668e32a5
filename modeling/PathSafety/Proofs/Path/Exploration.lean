import PathSafety.Path.Start
import PathSafety.Proofs.Path.Simulation

/-!
# Explorations

Every input that meets the condition of a path satisfies exactly one of the paths that it splits into, and a
run on this input goes with this path to its end.

Contents:

* `Start.exists_of_ok`, `Engine.step_cases` — what an exploration begins with, and what a step of a path is;
* `Engine.act_of_proceed`, `Engine.act_of_arrive`, `Engine.act_of_fault` — where a step goes on, and whence faults come;
* `Engine.explore_induction` — induction on what is left to explore;
* `Engine.Takes`, `Engine.Reaches` — how a path gets to its end, and the states that come up;
* `Engine.EndsAt` — that a path ends at a state, as each does at one that comes up;
* `exists_leads` — runs go with a path to its end;
* `countP_exploreFrom` — every input satisfies one path.
-/

namespace PathSafety

open IR Machine

variable {p : Project} {e : Engine p} {st st' : State p} {path : Path} {all : Prop} {T : Table}
  {checkers : List Checker} {stack : List Nat}

theorem Arrival.eq_of_enter {b : Arrival p} {bound : Int} (h : b.enter bound = .ok st) : st = b.entered := by
  unfold Arrival.enter at h
  dsimp only at h
  split at h
  · exact (Except.ok.inj h).symm
  · cases h

/-- What a path is that may not enter its block once more. -/
theorem Arrival.of_enter_error {b : Arrival p} {bound : Int} (h : b.enter bound = .error path) :
    path.machine = b.state.machine ∧ path.trail = b.state.trail ∧
      path.ending = .fault (.loopBound b.state.frame.id.function b.state.frame.id.block bound) := by
  unfold Arrival.enter at h
  dsimp only at h
  split at h
  · cases h
  · obtain rfl := Except.error.inj h
    exact ⟨rfl, rfl, rfl⟩

/-- **What an exploration begins with**: a function with a body, and a symbol for each of its parameters. -/
theorem Start.exists_of_ok {name : String} {start : Start p} (h : Start.of p name = .ok start) :
    ∃ (r : Routine) (hr : r ∈ p.routines) (args : List (String × Value)) (m : Machine) (f : Frame p),
      p.routine? name = some r ∧ r.function.isDeclaration = false ∧
        parameters p.layout r.function.params Machine.initial = .ok args m ∧
        Frame.call? r hr (args.map (·.2)) = some f ∧ start = ⟨{ state := { machine := m, frame := f } }, args⟩ := by
  unfold Start.of at h
  split at h
  · cases h
  · rename_i r hr
    split at h
    · cases h
    · rename_i hbody
      split at h
      · cases h
      · split at h
        · cases h
        · cases h
        · rename_i args m hparameters
          split at h
          · rename_i f hf
            obtain rfl := Except.ok.inj h
            exact ⟨r, Project.mem_of_routine? hr, args, m, f, hr, Bool.not_eq_true _ ▸ hbody, hparameters, hf, rfl⟩
          · cases h

/-! ## Steps -/

/-- A path that control goes out of has an outcome. -/
theorem of_follow_finish {m : Machine} {mv : Move p} (h : st.follow m mv = .finish path) :
    path.trail = st.trail ∧ path.machine = m ∧ ∃ o, path.ending = .outcome o := by
  cases mv with
  | leave result =>
    unfold State.follow at h
    dsimp only at h
    split at h
    · obtain rfl := Step.finish.inj h
      exact ⟨rfl, rfl, _, rfl⟩
    · cases h
  | finish o =>
    obtain rfl := Step.finish.inj h
    exact ⟨rfl, rfl, o, rfl⟩
  | next | goto | enter => cases h

namespace Engine

/-- What is done for an instruction of a path: monitors look at it, and it is executed. -/
def act (e : Engine p) (st : State p) (i : Instr) : Action (Move p) := do
  e.watch (st.frame.site i) e.monitors
  e.move (st.note (st.frame.site i).location) (st.frame.site i)

/-- **What a step is**: there is no instruction, or control goes on as it says, or it fails. -/
theorem step_cases {x : Step p} (h : e.step st = x) :
    (st.frame.instr? = none ∧ x = .finish (st.finish st.machine (.defect .missingIndex))) ∨
      (∃ i mv m, st.frame.instr? = some i ∧ e.act st i st.machine = .ok mv m ∧
        x = (st.note (st.frame.site i).location).follow m mv) ∨
      ∃ i failure m, st.frame.instr? = some i ∧ e.act st i st.machine = .error failure m ∧
        x = .finish ((st.note (st.frame.site i).location).finish m failure.ending) := by
  subst h
  unfold step
  cases hi : st.frame.instr? with
  | none => exact Or.inl ⟨rfl, rfl⟩
  | some i =>
    right
    have hmachine : (st.note (st.frame.site i).location).machine = st.machine := rfl
    dsimp only
    rw [hmachine]
    -- The location is noted before the instruction runs; the machine is the same with or without
    -- it.
    cases hrun : e.act st i st.machine with
    | ok mv m =>
      refine Or.inl ⟨i, mv, m, rfl, hrun, ?_⟩
      unfold act at hrun
      rw [hrun]
    | error failure m =>
      refine Or.inr ⟨i, failure, m, rfl, hrun, ?_⟩
      unfold act at hrun
      rw [hrun]

/-- A path goes on as its instruction says. -/
theorem act_of_proceed (h : e.step st = .proceed st') : ∃ i mv m, st.frame.instr? = some i ∧
    e.act st i st.machine = .ok mv m ∧ (st.note (st.frame.site i).location).follow m mv = .proceed st' := by
  obtain ⟨_, hstep⟩ | ⟨i, mv, m, hi, hrun, hstep⟩ | ⟨_, _, _, _, _, hstep⟩ := step_cases h
  · cases hstep
  · exact ⟨i, mv, m, hi, hrun, hstep.symm⟩
  · cases hstep

/-- A path arrives at blocks as its instruction says. -/
theorem act_of_arrive {a : Arrival p} {others : List (Arrival p)} (h : e.step st = .arrive a others) :
    ∃ i mv m, st.frame.instr? = some i ∧ e.act st i st.machine = .ok mv m ∧
      (st.note (st.frame.site i).location).follow m mv = .arrive a others := by
  obtain ⟨_, hstep⟩ | ⟨i, mv, m, hi, hrun, hstep⟩ | ⟨_, _, _, _, _, hstep⟩ := step_cases h
  · cases hstep
  · exact ⟨i, mv, m, hi, hrun, hstep.symm⟩
  · cases hstep

/-- A path that a fault ends has the fault from its instruction. -/
theorem act_of_fault {f : Fault} (h : e.step st = .finish path) (hf : path.ending = .fault f) :
    ∃ i m, st.frame.instr? = some i ∧ e.act st i st.machine = .error (.fault f) m := by
  obtain ⟨_, hstep⟩ | ⟨_, _, _, _, _, hstep⟩ | ⟨i, failure, m, hi, hrun, hstep⟩ := step_cases h
  · obtain rfl := Step.finish.inj hstep
    cases hf
  · obtain ⟨_, _, o, ho⟩ := of_follow_finish hstep.symm
    cases ho.symm.trans hf
  · obtain rfl := Step.finish.inj hstep
    cases failure with
    | fault g =>
      obtain rfl := Ending.fault.inj hf
      exact ⟨i, m, hi, hrun⟩
    | defect d => cases hf

/-! ## What is left to explore -/

/-- Induction on what is left to explore. -/
theorem explore_induction (e : Engine p) {motive : State p → Prop}
    (proceed : ∀ st st', e.step st = .proceed st' → motive st' → motive st)
    (finish : ∀ st path, e.step st = .finish path → motive st)
    (arrive : ∀ st a others, e.step st = .arrive a others →
      (∀ b ∈ a :: others, ∀ st', b.enter e.loopBound = .ok st' → motive st') → motive st)
    (st : State p) : motive st :=
  match h : e.step st with
  | .proceed st' => proceed st st' h (explore_induction e proceed finish arrive st')
  | .finish path => finish st path h
  | .arrive a others => arrive st a others h fun b hb st' hin =>
      have := e.roomOf_of_enter h hb hin
      explore_induction e proceed finish arrive st'
termination_by (e.roomOf st, st.remaining)
decreasing_by
  · rw [e.roomOf_of_step h]
    exact Prod.Lex.right _ (e.remaining_of_step h).2
  · exact Prod.Lex.left _ _ this

/-- That exploring a state takes a path, and the addresses that it takes from those of allocations on the
way. -/
inductive Takes (e : Engine p) : State p → List Nat → Path → Prop
  | finish {st : State p} {path : Path} (h : e.step st = .finish path) : Takes e st [] path
  | proceed {st st' : State p} {stack : List Nat} {path : Path} (h : e.step st = .proceed st')
    (rest : Takes e st' stack path) : Takes e st (st.allocated st' ++ stack) path
  | enter {st st' : State p} {a b : Arrival p} {others : List (Arrival p)} {stack : List Nat} {path : Path}
    (h : e.step st = .arrive a others) (hb : b ∈ a :: others) (hin : b.enter e.loopBound = .ok st')
    (rest : Takes e st' stack path) : Takes e st stack path
  | bound {st : State p} {a b : Arrival p} {others : List (Arrival p)} {path : Path}
    (h : e.step st = .arrive a others) (hb : b ∈ a :: others) (hin : b.enter e.loopBound = .error path) :
    Takes e st [] path

/-- The same from an arrival on. -/
def TakesFrom (e : Engine p) (a : Arrival p) (stack : List Nat) (path : Path) : Prop :=
  match a.enter e.loopBound with
  | .ok st => e.Takes st stack path
  | .error path' => stack = [] ∧ path = path'

/-- The states that come up in exploring a state. -/
inductive Reaches (e : Engine p) (st : State p) : State p → Prop
  | refl : Reaches e st st
  | proceed {st₁ st₂ : State p} (rest : Reaches e st st₁) (h : e.step st₁ = .proceed st₂) : Reaches e st st₂
  | enter {st₁ st₂ : State p} {a b : Arrival p} {others : List (Arrival p)} (rest : Reaches e st st₁)
    (h : e.step st₁ = .arrive a others) (hb : b ∈ a :: others) (hin : b.enter e.loopBound = .ok st₂) :
    Reaches e st st₂

theorem Reaches.trans {st₁ st₂ : State p} (h₁ : e.Reaches st st₁) (h₂ : e.Reaches st₁ st₂) :
    e.Reaches st st₂ := by
  induction h₂ with
  | refl => exact h₁
  | proceed _ h ih => exact .proceed ih h
  | enter _ h hb hin ih => exact .enter ih h hb hin

/-- That all accesses on the paths of a state are proper, where global values stand where each path puts
them. -/
def Proper (e : Engine p) (all : Prop) (st : State p) : Prop :=
  ∀ st', e.Reaches st st' → ∀ path ∈ e.exploreFrom st', st'.Proper e path.placement all

theorem Proper.of_reaches (h : e.Proper all st) (hst : e.Reaches st st') : e.Proper all st' :=
  fun st₁ hst₁ => h st₁ (hst.trans hst₁)

/-! ## Paths -/

theorem mem_exploreFrom_of_arrive {a b : Arrival p} {others : List (Arrival p)}
    (h : e.step st = .arrive a others) (hb : b ∈ a :: others) (hpath : path ∈ e.explore b) :
    path ∈ e.exploreFrom st := by
  rw [e.exploreFrom_of_arrive h]
  exact List.mem_flatMap.mpr ⟨b, hb, hpath⟩

theorem explore_of_ok {b : Arrival p} (h : b.enter e.loopBound = .ok st) : e.explore b = e.exploreFrom st := by
  unfold explore
  rw [h]

theorem explore_of_error {b : Arrival p} (h : b.enter e.loopBound = .error path) : e.explore b = [path] := by
  unfold explore
  rw [h]

/-- A path ends with the trail that it has before its last instruction. -/
theorem trail_of_finish (h : e.step st = .finish path) : path.trail = st.trail := by
  obtain ⟨_, hstep⟩ | ⟨_, _, _, _, _, hstep⟩ | ⟨_, _, _, _, _, hstep⟩ := step_cases h
  · obtain rfl := Step.finish.inj hstep
    rfl
  · exact (of_follow_finish hstep.symm).1
  · obtain rfl := Step.finish.inj hstep
    rfl

/-- Evaluating the cases of a switch depends only on the setting. -/
theorem arms_congr {e e' : Engine p} (h : e.setting = e'.setting) (site : Site) (v : Value)
    (cases : List (Operand × String)) : switch.arms e site v cases = switch.arms e' site v cases := by
  induction cases with
  | nil => rfl
  | cons x rest ih =>
    unfold switch.arms
    rw [h, ih]

/-- Every state has a path. -/
theorem exists_mem_exploreFrom (e : Engine p) (st : State p) : ∃ path, path ∈ e.exploreFrom st := by
  induction st using e.explore_induction with
  | proceed st st' h ih => exact ih.imp fun path hpath => by rwa [e.exploreFrom_of_proceed h]
  | finish st path h => exact ⟨path, by rw [e.exploreFrom_of_finish h]; exact List.mem_singleton_self path⟩
  | arrive st a others h ih =>
    cases hin : a.enter e.loopBound with
    | ok st' =>
      refine (ih a List.mem_cons_self st' hin).imp fun path hpath => ?_
      exact mem_exploreFrom_of_arrive h List.mem_cons_self (by rwa [explore_of_ok hin])
    | error path =>
      refine ⟨path, mem_exploreFrom_of_arrive h List.mem_cons_self ?_⟩
      rw [explore_of_error hin]
      exact List.mem_singleton_self path

/-- The paths of a state are those that exploring it takes. -/
theorem exists_takes (h : path ∈ e.exploreFrom st) : ∃ stack, e.Takes st stack path := by
  induction st using e.explore_induction with
  | proceed st st' hstep ih =>
    rw [e.exploreFrom_of_proceed hstep] at h
    obtain ⟨stack, hrest⟩ := ih h
    exact ⟨_, .proceed hstep hrest⟩
  | finish st path' hstep =>
    rw [e.exploreFrom_of_finish hstep] at h
    obtain rfl := List.mem_singleton.mp h
    exact ⟨[], .finish hstep⟩
  | arrive st a others hstep ih =>
    rw [e.exploreFrom_of_arrive hstep] at h
    obtain ⟨b, hb, hpath⟩ := List.mem_flatMap.mp h
    cases hin : b.enter e.loopBound with
    | ok st' =>
      rw [explore_of_ok hin] at hpath
      exact (ih b hb st' hin hpath).imp fun stack hrest => .enter hstep hb hin hrest
    | error path' =>
      rw [explore_of_error hin] at hpath
      obtain rfl := List.mem_singleton.mp hpath
      exact ⟨[], .bound hstep hb hin⟩

theorem Takes.mem (h : e.Takes st stack path) : path ∈ e.exploreFrom st := by
  induction h with
  | finish h =>
    rw [e.exploreFrom_of_finish h]
    exact List.mem_singleton_self _
  | proceed h _ ih => rwa [e.exploreFrom_of_proceed h]
  | enter h hb hin _ ih => exact mem_exploreFrom_of_arrive h hb (by rwa [explore_of_ok hin])
  | bound h hb hin =>
    refine mem_exploreFrom_of_arrive h hb ?_
    rw [explore_of_error hin]
    exact List.mem_singleton_self _

/-- That a path ends at a state: by the instruction there, or because it may not enter a block once more. -/
inductive EndsAt (e : Engine p) (st : State p) (path : Path) : Prop
  | finish (h : e.step st = .finish path) : EndsAt e st path
  | bound {a b : Arrival p} {others : List (Arrival p)} (h : e.step st = .arrive a others) (hb : b ∈ a :: others)
    (hin : b.enter e.loopBound = .error path) : EndsAt e st path

theorem EndsAt.trail_eq (h : e.EndsAt st path) : path.trail = st.trail := by
  cases h with
  | finish h => exact trail_of_finish h
  | bound h hb hin => rw [(Arrival.of_enter_error hin).2.1, e.trail_of_step h hb]

theorem Takes.exists_endsAt (h : e.Takes st stack path) : ∃ st', e.Reaches st st' ∧ e.EndsAt st' path := by
  induction h with
  | finish h => exact ⟨_, .refl, .finish h⟩
  | proceed h _ ih =>
    obtain ⟨st', hreaches, hends⟩ := ih
    exact ⟨st', .trans (.proceed .refl h) hreaches, hends⟩
  | enter h hb hin _ ih =>
    obtain ⟨st', hreaches, hends⟩ := ih
    exact ⟨st', .trans (.enter .refl h hb hin) hreaches, hends⟩
  | bound h hb hin => exact ⟨_, .refl, .bound h hb hin⟩

/-- Every path of a state ends at a state that comes up. -/
theorem exists_endsAt (h : path ∈ e.exploreFrom st) : ∃ st', e.Reaches st st' ∧ e.EndsAt st' path := by
  obtain ⟨stack, htakes⟩ := exists_takes h
  exact htakes.exists_endsAt

theorem exists_takesFrom {a : Arrival p} (h : path ∈ e.explore a) : ∃ stack, e.TakesFrom a stack path := by
  unfold TakesFrom
  cases hin : a.enter e.loopBound with
  | ok st =>
    rw [explore_of_ok hin] at h
    exact exists_takes h
  | error path' =>
    rw [explore_of_error hin] at h
    exact ⟨[], rfl, List.mem_singleton.mp h⟩

theorem mem_of_takesFrom {a : Arrival p} (h : e.TakesFrom a stack path) : path ∈ e.explore a := by
  unfold TakesFrom at h
  split at h
  · rename_i st hin
    rw [explore_of_ok hin]
    exact h.mem
  · rename_i path' hin
    rw [explore_of_error hin]
    exact List.mem_singleton.mpr h.2

/-- The paths of arrivals that wait are those of each arrival, one after another. -/
theorem paths_eq (e : Engine p) (pending : List (Arrival p)) : e.paths pending = pending.flatMap e.explore := by
  fun_induction paths e pending with
  | case1 => rfl
  | case2 a pending path h ih =>
    rw [List.flatMap_cons, explore_of_error h, ih]
    rfl
  | case3 a pending st h next ih =>
    rw [List.flatMap_cons, explore_of_ok h, ih, e.run_spec]

/-- The paths of a function are those of the arrival at its entry. -/
theorem pathsOf_eq (e : Engine p) (start : Start p) : e.pathsOf start = e.explore start.first := by
  unfold pathsOf
  rw [e.paths_eq, List.flatMap_singleton]

end Engine

/-! ## Runs along a path -/

variable {D : Prop} (hplain : e.Plain) (hmonitors : e.monitors = checkers.filterMap Checker.monitor?)
  (hagrees : p.agrees = true) (hdivision : D ∨ .divisionByZero ∈ checkers)
include hplain hmonitors hagrees hdivision

/-- Runs go with every step, where divisions are watched or defects are allowed. -/
theorem advances_watched {place : Concrete.Placement} (hst : st.Good e.setting T) (hproper : st.Proper e place all) :
    Advances e place all checkers D st T (e.step st) :=
  advances_step hplain hmonitors
    (fun h => hdivision.resolve_right fun hwatched => not_dividesByZero hplain hmonitors hagrees hwatched hst h) hst hproper

/-- **Runs go with a path to its end.** -/
theorem exists_leads (hst : st.Good e.setting T) (hproper : e.Proper all st) (htakes : e.Takes st stack path)
    (hdefect : ∀ d, path.ending ≠ .defect d) :
    ∃ last T', Leads e path.placement all checkers st T stack last T' ∧
      Ends e path.placement all checkers last T' path := by
  have hadvances : ∀ {st T stack}, st.Good e.setting T → e.Proper all st → e.Takes st stack path →
      Advances e path.placement all checkers D st T (e.step st) := fun hst hproper htakes =>
    advances_watched hplain hmonitors hagrees hdivision hst (hproper _ .refl path htakes.mem)
  -- Along the path taken; the steps compose since each leads to a good state again.
  induction htakes generalizing T with
  | finish h =>
    have hstep := hadvances hst hproper (.finish h)
    rw [h] at hstep
    rcases hstep with ⟨_, d, hd⟩ | ⟨hends, _⟩
    · exact absurd hd (hdefect d)
    · exact ⟨_, T, .refl hst, hends⟩
  | @proceed st st' stack path h rest ih =>
    have hstep := hadvances hst hproper (.proceed h rest)
    rw [h] at hstep
    obtain ⟨T₁, hleads, _⟩ := hstep
    obtain ⟨last, T', hrest, hends⟩ := ih hleads.good (hproper.of_reaches (.proceed .refl h)) hdefect hadvances
    exact ⟨last, T', hleads.trans hrest, hends⟩
  | @enter st st' a b others stack path h hb hin rest ih =>
    have hstep := hadvances hst hproper (.enter h hb hin rest)
    rw [h] at hstep
    have hleads := hstep.1 b hb
    rw [← Arrival.eq_of_enter hin] at hleads
    obtain ⟨last, T', hrest, hends⟩ := ih hleads.good (hproper.of_reaches (.enter .refl h hb hin)) hdefect
      hadvances
    exact ⟨last, T', hleads.trans hrest, hends⟩
  | @bound st a b others path h hb hin =>
    have hstep := hadvances hst hproper (.bound h hb hin)
    rw [h] at hstep
    exact ⟨st, T, .refl hst, ends_bound hin (e.trail_of_step h hb) (hstep.1 b hb)⟩

/-! ## Every input has its path -/

omit hplain hmonitors hagrees hdivision in
theorem countP_flatMap_eq {α β : Type} {P : β → Bool} {Q : α → Bool} {g : α → List β} {l : List α}
    (h : ∀ a ∈ l, (g a).countP P = if Q a then 1 else 0) : (l.flatMap g).countP P = l.countP Q := by
  induction l with
  | nil => rfl
  | cons a l ih =>
    rw [List.flatMap_cons, List.countP_append, h a List.mem_cons_self,
      ih fun b hb => h b (List.mem_cons_of_mem a hb), List.countP_cons, Nat.add_comm]

omit hplain hmonitors hagrees hdivision in
/-- What an arrival splits into: the paths behind the block, or one that ends where it may not be entered once more. -/
theorem countP_explore_of_enter {b : Arrival p}
    (hin : ∀ st, b.enter e.loopBound = .ok st → (∀ path ∈ e.exploreFrom st, ∀ d, path.ending ≠ .defect d) ∧
      ∀ i : Input, (e.exploreFrom st).countP (fun path => decide (i.Satisfies path)) =
        if decide (i.Meets st.machine.condition.conds) then 1 else 0) :
    (∀ path ∈ e.explore b, ∀ d, path.ending ≠ .defect d) ∧
      ∀ i : Input, (e.explore b).countP (fun path => decide (i.Satisfies path)) =
        if decide (i.Meets b.state.machine.condition.conds) then 1 else 0 := by
  cases henter : b.enter e.loopBound with
  | ok st =>
    have hst := hin st henter
    obtain rfl := Arrival.eq_of_enter henter
    rwa [Engine.explore_of_ok henter]
  | error path =>
    obtain ⟨hmachine, _, hending⟩ := Arrival.of_enter_error henter
    rw [Engine.explore_of_error henter]
    refine ⟨fun path' hpath' d hd => ?_, fun i => ?_⟩
    · obtain rfl := List.mem_singleton.mp hpath'
      rw [hending] at hd
      cases hd
    · rw [← hmachine]
      exact List.countP_singleton

/-- **Every input has its path.** The inputs that meet the condition of a state satisfy one of its paths each,
the others none; no path meets a defect. -/
theorem countP_exploreFrom (hD : ¬ D) (hst : st.Good e.setting T) (hproper : e.Proper all st) :
    (∀ path ∈ e.exploreFrom st, ∀ d, path.ending ≠ .defect d) ∧
      ∀ i : Input, (e.exploreFrom st).countP (fun path => decide (i.Satisfies path)) =
        if decide (i.Meets st.machine.condition.conds) then 1 else 0 := by
  -- By the recursion of the exploration. The table of symbols grows along the way; the inputs that
  -- meet the conditions of a state do not change.
  induction st using e.explore_induction generalizing T with
  | proceed st st' h ih =>
    obtain ⟨path, hpath⟩ := e.exists_mem_exploreFrom st
    have hstep := advances_watched hplain hmonitors hagrees hdivision hst (hproper st .refl path hpath)
    rw [h] at hstep
    obtain ⟨T', hleads, hmeets⟩ := hstep
    rw [e.exploreFrom_of_proceed h]
    refine (ih hleads.good (hproper.of_reaches (.proceed .refl h))).imp_right fun hcount i => ?_
    rw [hcount i, decide_eq_decide.mpr (hmeets i)]
  | finish st path h =>
    have hmem : path ∈ e.exploreFrom st := by
      rw [e.exploreFrom_of_finish h]
      exact List.mem_singleton_self path
    have hstep := advances_watched hplain hmonitors hagrees hdivision hst (hproper st .refl path hmem)
    rw [h] at hstep
    obtain ⟨hends, hmeets⟩ := hstep.resolve_left fun hd => hD hd.1
    rw [e.exploreFrom_of_finish h]
    refine ⟨fun path' hpath' d hd => ?_, fun i => ?_⟩
    · obtain rfl := List.mem_singleton.mp hpath'
      exact hends.defect d hd
    · rw [List.countP_singleton, decide_eq_decide.mpr (hmeets i)]
  | arrive st a others h ih =>
    obtain ⟨path, hpath⟩ := e.exists_mem_exploreFrom st
    have hstep := advances_watched hplain hmonitors hagrees hdivision hst (hproper st .refl path hpath)
    rw [h] at hstep
    obtain ⟨hleads, hone⟩ := hstep
    have harm : ∀ b ∈ a :: others, (∀ path ∈ e.explore b, ∀ d, path.ending ≠ .defect d) ∧
        ∀ i : Input, (e.explore b).countP (fun path => decide (i.Satisfies path)) =
          if decide (i.Meets b.state.machine.condition.conds) then 1 else 0 := by
      intro b hb
      refine countP_explore_of_enter fun st' hin => ?_
      obtain rfl := Arrival.eq_of_enter hin
      exact ih b hb _ hin (hleads b hb).good (hproper.of_reaches (.enter .refl h hb hin))
    rw [e.exploreFrom_of_arrive h]
    refine ⟨fun path hpath => ?_, fun i => ?_⟩
    · obtain ⟨b, hb, hpath⟩ := List.mem_flatMap.mp hpath
      exact (harm b hb).1 path hpath
    -- Every input of the state takes exactly one of the arms, and no arm takes an input from
    -- outside.
    · rw [countP_flatMap_eq fun b hb => (harm b hb).2 i]
      by_cases hmeets : i.Meets st.machine.condition.conds
      · rw [hone i hmeets, if_pos (decide_eq_true hmeets)]
      · rw [if_neg (by simpa using hmeets)]
        refine List.countP_eq_zero.mpr fun b hb hi => hmeets ?_
        exact (hleads b hb).onward.meets i (of_decide_eq_true hi)

end PathSafety
