import PathSafety.Proofs.Path.State

/-!
# Runs go with paths

A run on an input of a path is where the path is: at the same instruction of the same block, with the words of
the values in its registers and in memory, and with the same callers. Each step of a path is one step of the
run, or two where a block is entered.

Contents:

* `State.Tracks` — that a run is where a path is;
* `State.Proper`, `State.allocated` — what the next instruction of a path accesses and takes from the stack;
* `Engine.DividesByZero` — that a path is about to divide constants by zero;
* `Leads`, `Ends` — that runs go with a path from one place to another, and end as it ends;
* `not_dividesByZero` — where divisions are watched, no constants are divided by zero;
* `advances_step` — every step of a path is of this kind, unless it divides constants by zero.
-/

namespace PathSafety

open IR Machine

variable {place : Concrete.Placement} {all : Prop} {T T₁ T₂ : Table} {p : Project} {f g : Frame p}
  {m m₁ m' : Machine} {D : Prop}

/-! ## Where a run is -/

/-- That frames stand for activations, one for one. -/
inductive Frame.MatchesAll (i : Input) : List (Frame p) → List Concrete.Activation → Prop
  | nil : MatchesAll i [] []
  | cons {f : Frame p} {a : Concrete.Activation} {fs : List (Frame p)} {as : List Concrete.Activation}
    (head : f.Matches i a) (tail : MatchesAll i fs as) : MatchesAll i (f :: fs) (a :: as)

/-- That a run on an input is where a path is; `stack` are the addresses of the allocations to come. -/
structure State.Tracks (i : Input) (st : State p) (stack : List Nat) (c : Concrete.Config) : Prop where
  current : st.frame.Matches i c.current
  callers : Frame.MatchesAll i st.callers c.callers
  entered : ∀ a ∈ c.current :: c.callers, a.Entered
  memory : c.memory = st.machine.memory.byteAt i
  stack : c.stack = stack
  trail : c.trail = st.trail

namespace State.Tracks

variable {i : Input} {st : State p} {stack : List Nat} {c : Concrete.Config} {instr : Instr}

/-- What the run does next. -/
theorem step (h : st.Tracks i stack c) (place : Concrete.Placement) (hi : st.frame.instr? = some instr) :
    ∃ entry, c.current.entry = some entry ∧
      Concrete.step p place c = Concrete.exec p place c entry instr.op := by
  obtain ⟨entry, hentry, _⟩ := h.entered c.current List.mem_cons_self
  refine ⟨entry, hentry, ?_⟩
  unfold Concrete.step
  rw [hentry, h.current.instr?, hi]
  rfl

theorem holds (h : st.Tracks i stack c) (instr : Instr) : (st.frame.site instr).Holds i c :=
  h.current.holds rfl instr

/-- A run commits a violation where its next instruction does. -/
theorem commits_iff (h : st.Tracks i stack c) (hi : st.frame.instr? = some instr) (k : Checker) :
    Concrete.Commits p place c k ↔ Concrete.Violates p place c instr.op k := by
  obtain ⟨entry, hentry, _⟩ := h.entered c.current List.mem_cons_self
  have hinstr : c.current.instr? = some instr := h.current.instr?.trans hi
  constructor
  · rintro ⟨j, _, hj, hviolates⟩
    obtain rfl := Option.some.inj (hinstr.symm.trans hj)
    exact hviolates
  · exact fun hviolates => ⟨instr, by rw [hentry]; rfl, hinstr, hviolates⟩

end State.Tracks

/-- Which kinds of violations an engine with the monitors of some checkers finds. -/
def Engine.Detects (e : Engine p) (checkers : List Checker) : Checker → Prop
  | .nullDereference => e.nullChecking = true
  | k => k ∈ checkers

/-- A run commits no violation that is found with an instruction that passes the monitors and accesses no
null pointer. -/
theorem State.Tracks.not_commits {e : Engine p} {checkers : List Checker} {i : Input} {st : State p}
    {stack : List Nat} {c : Concrete.Config} {instr : Instr} (h : st.Tracks i stack c)
    (hi : st.frame.instr? = some instr) (hcovers : Covers e.setting place m₁) (hmeets : i.Meets m₁.condition.conds)
    (hspares : ∀ k ∈ checkers, k ≠ .nullDereference → Spares e.setting (st.frame.site instr) m₁ k)
    (hnull : e.nullChecking = true → ∀ a ∈ Concrete.accessed p place c instr.op, a.toNat ≠ 0)
    {k : Checker} (hk : e.Detects checkers k) : ¬ Concrete.Commits p place c k := by
  rw [h.commits_iff hi]
  intro hviolates
  cases k with
  | nullDereference =>
    obtain ⟨a, ha, hzero⟩ := hviolates
    exact hnull hk a ha hzero
  | divisionByZero =>
    exact hspares _ hk (fun h => nomatch h) i place c hcovers hmeets (h.holds instr) hviolates
  | outOfBounds =>
    exact hspares _ hk (fun h => nomatch h) i place c hcovers hmeets (h.holds instr) hviolates

theorem State.Tracks.not_commits_of_silent {e : Engine p} {checkers : List Checker} {i : Input} {st : State p}
    {stack : List Nat} {c : Concrete.Config} {instr : Instr} (h : st.Tracks i stack c)
    (hi : st.frame.instr? = some instr) (hcovers : Covers e.setting place m₁) (hmeets : i.Meets m₁.condition.conds)
    (hspares : ∀ k ∈ checkers, k ≠ .nullDereference → Spares e.setting (st.frame.site instr) m₁ k)
    (hsilent : Silent e.setting place (st.frame.site instr)) {k : Checker} (hk : e.Detects checkers k) :
    ¬ Concrete.Commits p place c k := by
  refine h.not_commits hi hcovers hmeets hspares (fun _ a ha => ?_) hk
  rw [show Concrete.accessed p place c instr.op = [] from hsilent i c (h.holds instr)] at ha
  exact absurd ha List.not_mem_nil

/-! ## Entering a block -/

/-- A run that enters its block. -/
def Concrete.Config.entered (c : Concrete.Config) : Concrete.Config :=
  { c with
    current := { c.current with entry := some c.current.registers }
    trail := c.current.id :: c.trail }

/-- Entering a block commits no violation. -/
theorem passes_entered {ks : Checker → Prop} {c : Concrete.Config} (h : c.current.entry = none) :
    Concrete.Passes p place ks c c.entered := by
  refine .go (fun k _ hcommits => ?_) ?_ (.refl _)
  · obtain ⟨_, hsome, _⟩ := hcommits
    rw [h] at hsome
    cases hsome
  · unfold Concrete.step
    rw [h]
    rfl

/-- At the beginning of a block all phis are left. -/
theorem Frame.Matches.entered {e : Engine p} (hfit : Fit e.setting) {i : Input} {a : Concrete.Activation}
    (h : g.Matches i a) (hindex : g.index = 0) :
    g.Matches i { a with entry := some a.registers } ∧
      Concrete.Activation.Entered { a with entry := some a.registers } := by
  refine ⟨⟨h.routine, h.block, h.index, h.previous, h.registers⟩, a.registers, rfl, ?_⟩
  refine Concrete.phisFrom_of_phis ?_
  show Fits.phis [] (a.block.instrs.drop a.index) = true
  rw [h.block, h.index, hindex, List.drop_zero]
  exact (hfit.block g.routine_mem g.block_mem).2.2

/-! ## Steps of a path -/

/-- That the next instruction of a path accesses what it may, once the monitors have let it pass. -/
def State.Proper (e : Engine p) (place : Concrete.Placement) (all : Prop) (st : State p) : Prop :=
  ∀ i, st.frame.instr? = some i → ∀ m, e.watch (st.frame.site i) e.monitors st.machine = .ok () m →
    Machine.Proper e.setting place all (st.frame.site i) m

/-- That the next instruction of a path divides one constant by another that is zero, and the monitors let it pass. -/
def Engine.DividesByZero (e : Engine p) (st : State p) : Prop :=
  ∃ i m, st.frame.instr? = some i ∧ e.watch (st.frame.site i) e.monitors st.machine = .ok () m ∧
    (st.frame.site i).DividesByZero e.setting m

/-- The addresses that a path takes from those of allocations by going on to the next instruction. -/
def State.allocated (st st' : State p) : List Nat :=
  match st.frame.instr? with
  | some i => Machine.allocated i.op (st'.frame.registers.get? i.name)
  | none => []

section Steps

variable (e : Engine p) (place : Concrete.Placement) (all : Prop) (checkers : List Checker)

/-- That runs go with a path from one place to another, taking some addresses from the stack. -/
structure Leads (st : State p) (T : Table) (stack : List Nat) (st' : State p) (T' : Table) : Prop where
  good : st'.Good e.setting T'
  onward : Onward e.setting place all T st.machine T' st'.machine
  run : ∀ (i : Input) (c : Concrete.Config) (rest : List Nat), Covers e.setting place st'.machine → i.Loads p place →
    i.Meets st'.machine.condition.conds → Pristine e.setting i place st.machine →
    st.Tracks i (stack ++ rest) c →
    ∃ c', Concrete.Passes p place (e.Detects checkers) c c' ∧ st'.Tracks i rest c'

/-- That a path ends behind a state as runs do. It ends by a violation only where some run commits it, or
numbers exceed what pointers hold. -/
structure Ends (st : State p) (T : Table) (path : Path) : Prop where
  trail : path.trail = st.trail
  meets : ∀ i : Input, i.Satisfies path → i.Meets st.machine.condition.conds
  addresses : ∀ n v, st.machine.addresses.get? n = some v → path.machine.addresses.get? n = some v
  next : st.machine.nextAddress ≤ path.machine.nextAddress
  outcome : ∀ o, path.ending = .outcome o → Sound e.setting T path.machine ∧
    ∀ i c rest, Covers e.setting place path.machine → i.Satisfies path → st.Tracks i rest c →
      Concrete.step p place c = some (.halt (o.halt i)) ∧
        ∀ k, e.Detects checkers k → ¬ Concrete.Commits p place c k
  fault : ∀ f k, path.ending = .fault f → f.violation? = some k →
    (∃ i, st.frame.instr? = some i ∧ Exceeds e.setting (st.frame.site i) path.machine) ∨
      ∃ T', Steps e.setting place all T st.machine T' path.machine ∧ ∃ c : Cond, c.Known T' ∧
        (∃ ν, Term.AllHold ν path.machine.condition.conds ∧ c.Holds ν) ∧
        ∀ i cfg rest, Covers e.setting place path.machine → c.meaning i.reading = 1#1 → st.Tracks i rest cfg →
          Concrete.Commits p place cfg k
  defect : ∀ d, path.ending ≠ .defect d

/-- The path that has entered its block. -/
def Arrival.entered (a : Arrival p) : State p :=
  { a.state with trail := a.state.frame.id :: a.state.trail }

/-- That runs go with every step of a path. -/
def Advances (D : Prop) (st : State p) (T : Table) : Step p → Prop
  | .proceed st' => ∃ T', Leads e place all checkers st T (st.allocated st') st' T' ∧
      ∀ i : Input, i.Meets st'.machine.condition.conds ↔ i.Meets st.machine.condition.conds
  | .arrive a others =>
    (∀ b ∈ a :: others, Leads e place all checkers st T [] b.entered T) ∧
      ∀ i : Input, i.Meets st.machine.condition.conds →
        (a :: others).countP (fun b => decide (i.Meets b.state.machine.condition.conds)) = 1
  | .finish path => (D ∧ ∃ d, path.ending = .defect d) ∨ Ends e place all checkers st T path ∧
      ∀ i : Input, i.Satisfies path ↔ i.Meets st.machine.condition.conds

end Steps

/-! ### Runs from one state to another -/

section Runs

variable {e : Engine p} {checkers : List Checker} {st st₁ st₂ : State p} {stack stack₁ stack₂ : List Nat}

theorem Leads.refl (h : st.Good e.setting T) : Leads e place all checkers st T [] st T where
  good := h
  onward := .refl h.sound
  run _ c _ _ _ _ _ htracks := ⟨c, .refl c, htracks⟩

theorem Leads.trans (h₁ : Leads e place all checkers st T stack₁ st₁ T₁)
    (h₂ : Leads e place all checkers st₁ T₁ stack₂ st₂ T₂) :
    Leads e place all checkers st T (stack₁ ++ stack₂) st₂ T₂ where
  good := h₂.good
  onward := h₁.onward.trans h₂.onward
  run := by
    intro i c rest hcovers hloads hmeets hpristine htracks
    have hcovers₁ := hcovers.of_addresses h₂.onward.addresses
    have hmeets₁ := h₂.onward.meets i hmeets
    rw [List.append_assoc] at htracks
    obtain ⟨c₁, hpasses₁, htracks₁⟩ := h₁.run i c _ hcovers₁ hloads hmeets₁ hpristine htracks
    obtain ⟨c₂, hpasses₂, htracks₂⟩ := h₂.run i c₁ rest hcovers hloads hmeets
      (h₁.onward.pristine i hcovers₁ hloads hmeets₁ hpristine) htracks₁
    exact ⟨c₂, hpasses₁.trans hpasses₂, htracks₂⟩

end Runs

/-! ### One step -/

section Step

variable {e : Engine p} {checkers : List Checker} {st st' : State p} {instr : Instr} {result : Option Value}

theorem allocated_of_ends {op : Op} (h : Fits.ends op = true) (r : Option Value) : allocated op r = [] := by
  cases op with
  | alloca => cases h
  | _ => rfl

theorem allocated_finish (hi : st.frame.instr? = some instr)
    (hnamed : result = none → ∀ r, allocated instr.op r = []) (hst' : st'.frame = st.frame.finish result) :
    st.allocated st' = allocated instr.op result := by
  unfold State.allocated
  rw [hst', hi]
  cases result with
  | none => exact (hnamed rfl _).trans (hnamed rfl none).symm
  | some v =>
    show allocated instr.op ((st.frame.finish (some v)).registers.get? instr.name) = _
    rw [Frame.get?_finish hi, if_pos rfl]

/-- What is left to be read by phis stays so behind an instruction. -/
theorem State.Tracks.entered_finish {i : Input} {stack : List Nat} {c : Concrete.Config}
    (h : st.Tracks i stack c) (hi : st.frame.instr? = some instr) (w : Option Word) :
    ∀ a ∈ c.current.finish w :: c.callers, a.Entered :=
  List.forall_mem_cons.mpr
    ⟨(h.entered c.current List.mem_cons_self).finish (h.current.instr?.trans hi) w,
      fun a ha => h.entered a (List.mem_cons_of_mem _ ha)⟩

variable (hplain : e.Plain) (hst : st.Good e.setting T) (hi : st.frame.instr? = some instr)
  (hwatch : Quiet e.setting T st.machine m₁)
  (hspares : ∀ k ∈ checkers, k ≠ .nullDereference → Spares e.setting (st.frame.site instr) m₁ k)
include hplain hst hi hwatch hspares

/-- To the next instruction. -/
theorem leads_next (hends : Fits.ends instr.op = false)
    (hnamed : result = none → ∀ r, allocated instr.op r = [])
    (heffect : Effect e.setting place all (st.frame.site instr) T m₁ result T₁ m') (hst' : st' = { st with
      machine := m', frame := st.frame.finish result, executed := st'.executed }) :
    Leads e place all checkers st T (st.allocated st') st' T₁ := by
  have honward : Onward e.setting place all T st.machine T₁ m' :=
    hwatch.steps.onward.trans heffect.steps.onward
  have hgood := hst.next hplain.fit hi hends heffect honward hst'
  rw [allocated_finish hi hnamed (by rw [hst'])]
  rw [hst'] at hgood ⊢
  refine ⟨hgood, honward, fun i c rest hcovers hloads hmeets hpristine htracks => ?_⟩
  have hcovers₁ := hcovers.of_addresses heffect.steps.addresses
  have hmeets₁ := (heffect.steps.meets i).mp hmeets
  -- The effect was proved for the machine after the monitors; the concrete run is tracked from the
  -- one before them.
  obtain ⟨entry, hentry, hstep⟩ := htracks.step place hi
  have hexec := heffect.exec i c entry rest hcovers hloads (hwatch.pristine hcovers₁ hloads hpristine) hmeets₁
    (htracks.holds instr) htracks.current.previous
    (htracks.memory.trans (hwatch.bytes i place hcovers₁ hloads hpristine).symm) htracks.stack
    fun t incoming hop x hx => (htracks.entered c.current List.mem_cons_self).operand hentry
      (htracks.current.instr?.trans hi) hop hx
  refine ⟨_, .go (fun k hk => htracks.not_commits hi hcovers₁ hmeets₁ hspares ?_ hk) (hstep.trans hexec)
    (.refl _), ?_⟩
  · exact fun hs => heffect.safe hs i c hcovers hmeets₁ (htracks.holds instr)
  · exact {
      current := htracks.current.finish result
      callers := htracks.callers
      entered := htracks.entered_finish hi _
      memory := rfl
      stack := rfl
      trail := htracks.trail }

/-- To the beginning of a block. -/
theorem leads_goto {arms : List (Machine × Frame p)}
    (hsplits : Splits e.setting place st.frame (st.frame.site instr) T m₁ arms) {y : Machine × Frame p}
    (hy : y ∈ arms) (hst' : st' = { st with
      machine := y.1, frame := y.2, trail := y.2.id :: st.trail, executed := st'.executed }) :
    Leads e place all checkers st T [] st' T := by
  obtain ⟨m₂, target, hquiet, hnarrowed, hjump, hexec⟩ := hsplits.arm y hy
  have honward : Onward e.setting place all T st.machine T y.1 :=
    (hwatch.trans hquiet).steps.onward.trans hnarrowed.onward
  have hgood : st'.Good e.setting T := hst.goto hplain.fit hjump honward (by rw [hst'])
  rw [hst'] at hgood ⊢
  refine ⟨hgood, honward, fun i c rest hcovers hloads hmeets hpristine htracks => ?_⟩
  have hcovers₂ := hcovers.of_addresses fun n v hn => by rwa [hnarrowed.addresses]
  have hcovers₁ := hcovers₂.of_addresses hquiet.addresses
  have hmeets₁ : i.Meets m₁.condition.conds := by
    rw [← hquiet.conds]
    exact hnarrowed.meets i hmeets
  -- The arm's condition holds of the input, so the concrete branch takes the same target.
  obtain ⟨entry, hentry, hstep⟩ := htracks.step place hi
  obtain ⟨a, ha, hmatches, hnone⟩ := htracks.current.jump hjump
  have hgo : Concrete.step p place c = some (.go { c with current := a }) := by
    refine (hstep.trans (hexec i c entry hcovers₂ hmeets (htracks.holds instr))).trans ?_
    unfold Concrete.Config.jump
    rw [ha]
    rfl
  obtain ⟨_, _, _, _, hindex, _, _⟩ := Frame.eq_of_jump? hjump
  obtain ⟨hentered, hphis⟩ := hmatches.entered hplain.fit hindex
  refine ⟨_, .go (fun k => htracks.not_commits_of_silent hi hcovers₁ hmeets₁ hspares hsplits.silent) hgo
    (passes_entered hnone), ?_⟩
  exact {
    current := hentered
    callers := htracks.callers
    entered := List.forall_mem_cons.mpr
      ⟨hphis, fun b hb => htracks.entered b (List.mem_cons_of_mem _ hb)⟩
    memory := by
      show c.memory = y.1.memory.byteAt i
      rw [hnarrowed.memory, (hwatch.trans hquiet).bytes i place hcovers₂ hloads hpristine]
      exact htracks.memory
    stack := htracks.stack
    trail := by
      show a.id :: c.trail = _
      rw [hmatches.id, htracks.trail] }

/-- Into a function. -/
theorem leads_enter (henters : Enters e.setting place (st.frame.site instr) T m₁ g m') (hst' : st' = { st with
      machine := m', frame := g, callers := st.frame :: st.callers, trail := g.id :: st.trail,
      executed := st'.executed }) :
    Leads e place all checkers st T [] st' T := by
  have hquiet := hwatch.trans henters.quiet
  have honward : Onward e.setting place all T st.machine T m' := hquiet.steps.onward
  have hgood : st'.Good e.setting T := hst.enter hi henters honward (by rw [hst'])
  rw [hst'] at hgood ⊢
  refine ⟨hgood, honward, fun i c rest hcovers hloads hmeets hpristine htracks => ?_⟩
  have hcovers₁ := hcovers.of_addresses henters.quiet.addresses
  have hmeets₁ : i.Meets m₁.condition.conds := by rwa [← henters.quiet.conds]
  obtain ⟨entry, hentry, hstep⟩ := htracks.step place hi
  -- The callee's frame is built from the same arguments on both sides.
  obtain ⟨a, hmatches, hnone, hexec⟩ := henters.exec i c entry hcovers (htracks.holds instr)
  obtain ⟨hentered, hphis⟩ := hmatches.entered hplain.fit henters.index
  refine ⟨_, .go (fun k => htracks.not_commits_of_silent hi hcovers₁ hmeets₁ hspares henters.silent)
    (hstep.trans hexec) (passes_entered hnone), ?_⟩
  exact {
    current := hentered
    callers := .cons htracks.current htracks.callers
    entered := List.forall_mem_cons.mpr ⟨hphis, htracks.entered⟩
    memory := htracks.memory.trans (hquiet.bytes i place hcovers hloads hpristine).symm
    stack := htracks.stack
    trail := by
      show a.id :: c.trail = _
      rw [hmatches.id, htracks.trail] }

/-- Back to the caller. -/
theorem leads_leave {caller : Frame p} {callers : List (Frame p)} (hcallers : st.callers = caller :: callers)
    (hleaves : Leaves e.setting place (st.frame.site instr) T m₁ result m') (hst' : st' = { st with
      machine := m', frame := caller.finish result, callers, executed := st'.executed }) :
    Leads e place all checkers st T [] st' T := by
  have hquiet := hwatch.trans hleaves.quiet
  have honward : Onward e.setting place all T st.machine T m' := hquiet.steps.onward
  have hgood : st'.Good e.setting T := hst.leave hplain.fit hcallers hleaves honward hst'
  obtain ⟨⟨j, hj, _⟩, _⟩ : Waits st.frame.routine.function (caller :: callers) := hcallers ▸ hst.waits
  rw [hst'] at hgood ⊢
  refine ⟨hgood, honward, fun i c rest hcovers hloads hmeets hpristine htracks => ?_⟩
  have hcovers₁ := hcovers.of_addresses hleaves.quiet.addresses
  have hmeets₁ : i.Meets m₁.condition.conds := by rwa [← hleaves.quiet.conds]
  obtain ⟨entry, hentry, hstep⟩ := htracks.step place hi
  have hexec := hleaves.exec i c entry hcovers (htracks.holds instr)
  -- the run has the callers that the path has
  have hall := htracks.callers
  have hphis := htracks.entered
  rw [hcallers] at hall
  unfold Concrete.Config.leave at hexec
  cases hc : c.callers with
  | nil =>
    rw [hc] at hall
    cases hall
  | cons a as =>
    rw [hc] at hall hexec hphis
    obtain ⟨hhead, htail⟩ : caller.Matches i a ∧ Frame.MatchesAll i callers as := by
      cases hall with
      | cons head tail => exact ⟨head, tail⟩
    refine ⟨_, .go (fun k => htracks.not_commits_of_silent hi hcovers₁ hmeets₁ hspares hleaves.silent)
      (hstep.trans hexec) (.refl _), ?_⟩
    exact {
      current := hhead.finish result
      callers := htail
      entered := List.forall_mem_cons.mpr
        ⟨(hphis a (List.mem_cons_of_mem _ List.mem_cons_self)).finish (hhead.instr?.trans hj) _,
          fun b hb => hphis b (List.mem_cons_of_mem _ (List.mem_cons_of_mem _ hb))⟩
      memory := htracks.memory.trans (hquiet.bytes i place hcovers hloads hpristine).symm
      stack := htracks.stack
      trail := htracks.trail }

omit hplain hst in
/-- The end of the program. -/
theorem ends_outcome {path : Path} {o : Outcome} (hsilent : Silent e.setting place (st.frame.site instr))
    (hquiet : Quiet e.setting T m₁ path.machine) (htrail : path.trail = st.trail)
    (hending : path.ending = .outcome o)
    (hexec : ∀ i c entry rest, Covers e.setting place path.machine → st.Tracks i rest c →
      Concrete.exec p place c entry instr.op = some (.halt (o.halt i))) :
    Ends e place all checkers st T path where
  trail := htrail
  meets i hi := by
    rw [← (hwatch.trans hquiet).conds]
    exact hi
  addresses := (hwatch.trans hquiet).addresses
  next := (hwatch.trans hquiet).next
  outcome := by
    intro o' ho
    obtain rfl := Ending.outcome.inj (hending.symm.trans ho)
    -- A path that ends well halts the concrete run with the outcome's meaning, and no checker has
    -- fired.
    refine ⟨hquiet.sound, fun i c rest hcovers hmeets htracks => ?_⟩
    have hmeets₁ : i.Meets m₁.condition.conds := by
      rw [← hquiet.conds]
      exact hmeets
    obtain ⟨entry, _, hstep⟩ := htracks.step place hi
    exact ⟨hstep.trans (hexec i c entry rest hcovers htracks), fun k =>
      htracks.not_commits_of_silent hi (hcovers.of_addresses hquiet.addresses) hmeets₁ hspares hsilent⟩
  fault f k hf := by
    rw [hending] at hf
    cases hf
  defect d hd := by
    rw [hending] at hd
    cases hd

omit hplain hst hwatch hspares in
/-- A fault. -/
theorem ends_fault {path : Path} {f : Fault}
    (hhalts : Halts e.setting place all (st.frame.site instr) T st.machine f path.machine)
    (htrail : path.trail = st.trail) (hending : path.ending = .fault f) :
    Ends e place all checkers st T path where
  trail := htrail
  meets i := (hhalts.meets i).mp
  addresses := hhalts.addresses
  next := hhalts.next
  outcome o ho := by
    rw [hending] at ho
    cases ho
  fault := by
    intro f' k hf hk
    obtain rfl := Ending.fault.inj (hending.symm.trans hf)
    rcases hhalts.violation k hk with hexceeds | ⟨T', hsteps, c, hknown, hholds, hviolates⟩
    · exact Or.inl ⟨instr, hi, hexceeds⟩
    · refine Or.inr ⟨T', hsteps, c, hknown, hholds, fun i cfg rest hcovers hc htracks => ?_⟩
      exact (htracks.commits_iff hi k).mpr (hviolates i cfg hcovers (htracks.holds instr) hc)
  defect d hd := by
    rw [hending] at hd
    cases hd

omit hplain hst hi hwatch hspares in
/-- The end of a path that may not enter its block once more. -/
theorem ends_bound {b : Arrival p} {bound : Int} {path : Path} (hb : b.enter bound = .error path)
    (htrail : b.state.trail = st.trail) (hleads : Leads e place all checkers st T [] b.entered T) :
    Ends e place all checkers st T path := by
  unfold Arrival.enter at hb
  dsimp only at hb
  split at hb
  · cases hb
  · obtain rfl := Except.error.inj hb
    exact {
      trail := htrail
      meets := hleads.onward.meets
      addresses := hleads.onward.addresses
      next := hleads.onward.next
      outcome := fun o ho => nomatch ho
      fault := fun f k hf hk => by
        obtain rfl := Ending.fault.inj hf
        cases hk
      defect := fun d hd => nomatch hd }

end Step

/-! ### Every step -/

section Every

variable {e : Engine p} {checkers : List Checker} {st : State p} {instr : Instr} {mv : Move p}

/-- A run without callers ends where the explored function is left. -/
theorem State.Tracks.leave {i : Input} {stack : List Nat} {c : Concrete.Config} (h : st.Tracks i stack c)
    (hcallers : st.callers = []) (result : Option Value) :
    c.leave (result.map (Value.word i)) = .halt (Outcome.halt i (match result with
      | some v => .returned v
      | none => .returnedVoid)) := by
  have hall := h.callers
  rw [hcallers] at hall
  unfold Concrete.Config.leave
  cases hc : c.callers with
  | nil => cases result <;> rfl
  | cons a as =>
    rw [hc] at hall
    cases hall

/-- Where a call is left, runs go back to the caller, or end with the explored function. -/
theorem advances_leave {result : Option Value} (hplain : e.Plain) (hst : st.Good e.setting T)
    (hi : st.frame.instr? = some instr) (hwatch : Quiet e.setting T st.machine m₁)
    (hspares : ∀ k ∈ checkers, k ≠ .nullDereference → Spares e.setting (st.frame.site instr) m₁ k)
    (hleaves : Leaves e.setting place (st.frame.site instr) T m₁ result m') (l : Location) :
    Advances e place all checkers D st T ((st.note l).follow m' (.leave result)) := by
  have hquiet := hwatch.trans hleaves.quiet
  unfold State.follow
  -- With no caller left the path ends with the value returned.
  cases hcallers : st.callers with
  | nil =>
    rw [show (st.note l).callers = [] from hcallers]
    refine Or.inr ⟨ends_outcome hi hwatch hspares hleaves.silent hleaves.quiet rfl rfl
      fun i c entry rest hcovers htracks => ?_, fun i => ?_⟩
    · exact (hleaves.exec i c entry hcovers (htracks.holds instr)).trans
        (congrArg some (htracks.leave hcallers result))
    · show i.Meets m'.condition.conds ↔ _
      rw [hquiet.conds]
  | cons caller callers =>
    rw [show (st.note l).callers = caller :: callers from hcallers]
    refine ⟨T, ?_, fun i => ?_⟩
    · have hnone : st.allocated { st.note l with machine := m', frame := caller.finish result, callers } = [] := by
        unfold State.allocated
        rw [hi]
        exact allocated_of_ends hleaves.ends _
      rw [hnone]
      exact leads_leave hplain hst hi hwatch hspares hcallers hleaves rfl
    · show i.Meets m'.condition.conds ↔ _
      rw [hquiet.conds]

/-- Where an instruction sends control, runs go. -/
theorem advances_follow (hplain : e.Plain) (hst : st.Good e.setting T) (hi : st.frame.instr? = some instr)
    (hwatch : Quiet e.setting T st.machine m₁)
    (hspares : ∀ k ∈ checkers, k ≠ .nullDereference → Spares e.setting (st.frame.site instr) m₁ k)
    (hmoves : Moves e.setting place all st.frame (st.frame.site instr) T m₁ mv m') (l : Location) :
    Advances e place all checkers D st T ((st.note l).follow m' mv) := by
  -- One case per kind of move; the inputs that get through stay the same unless the move forks.
  cases hmoves with
  | next hends hnamed heffect =>
    refine ⟨_, leads_next hplain hst hi hwatch hspares hends hnamed heffect rfl, fun i => ?_⟩
    show i.Meets m'.condition.conds ↔ _
    rw [heffect.steps.meets i, hwatch.conds]
  | @goto g others _ hsplits =>
    refine ⟨fun b hb => ?_, fun i hmeets => ?_⟩
    · rcases List.mem_cons.mp hb with rfl | hb
      · exact leads_goto hplain hst hi hwatch hspares hsplits List.mem_cons_self rfl
      · obtain ⟨y, hy, rfl⟩ := List.mem_map.mp hb
        exact leads_goto hplain hst hi hwatch hspares hsplits (List.mem_cons_of_mem _ hy) rfl
    · have hone := hsplits.one i (by rwa [hwatch.conds])
      rw [List.countP_cons] at hone ⊢
      rw [List.countP_map]
      exact hone
  | enter henters =>
    refine ⟨fun b hb => ?_, fun i hmeets => ?_⟩
    · obtain rfl := List.mem_singleton.mp hb
      exact leads_enter hplain hst hi hwatch hspares henters rfl
    · rw [List.countP_cons_of_pos]
      · rfl
      · refine decide_eq_true ?_
        show i.Meets m'.condition.conds
        rwa [henters.quiet.conds, hwatch.conds]
  | leave hleaves => exact advances_leave hplain hst hi hwatch hspares hleaves l
  | finish hfinishes =>
    refine Or.inr ⟨ends_outcome hi hwatch hspares hfinishes.silent hfinishes.quiet rfl rfl
      fun i c entry rest hcovers htracks => hfinishes.exec i c entry hcovers (htracks.holds instr),
      fun i => ?_⟩
    show i.Meets m'.condition.conds ↔ _
    rw [(hwatch.trans hfinishes.quiet).conds]

/-- Monitors of divisors let no division of constants by zero pass. -/
theorem not_dividesByZero (hplain : e.Plain) (hmonitors : e.monitors = checkers.filterMap Checker.monitor?)
    (hagrees : p.agrees = true) (hdivision : .divisionByZero ∈ checkers) (hst : st.Good e.setting T) :
    ¬ e.DividesByZero st := by
  rintro ⟨instr, m, hi, hwatch, hdivides⟩
  have hsite := hst.site hplain.fit hi
  rw [hmonitors] at hwatch
  have hwatches : Does False (e.watch (st.frame.site instr) (checkers.filterMap Checker.monitor?)) st.machine _
      (Halts e.setting (fun _ => none) False (st.frame.site instr) T st.machine) :=
    does_watch e hplain.fit hsite hst.sound checkers
  obtain ⟨hquiet, hspares⟩ := hwatches.of_ok hwatch
  exact (hspares _ hdivision fun h => nomatch h).not_dividesByZero hplain.fit
    ⟨hsite.fits, hsite.typed, hsite.agrees⟩ hquiet.sound hagrees hdivides

/-- **Runs go with every step of a path**, unless it divides constants by zero. -/
theorem advances_step (hplain : e.Plain) (hmonitors : e.monitors = checkers.filterMap Checker.monitor?)
    (hdivision : e.DividesByZero st → D) (hst : st.Good e.setting T) (hproper : st.Proper e place all) :
    Advances e place all checkers D st T (e.step st) := by
  obtain ⟨instr, hi⟩ := hst.exists_instr
  have hsite := hst.site hplain.fit hi
  let st' := st.note (st.frame.site instr).location
  -- The monitors run first. What they leave is quiet, so the instruction is judged on the machine
  -- after them.
  have hact : Does D (do
        e.watch (st.frame.site instr) e.monitors
        e.move st' (st.frame.site instr)) st'.machine
      (fun mv m' => ∃ m₁, Quiet e.setting T st.machine m₁ ∧
        (∀ k ∈ checkers, k ≠ .nullDereference → Spares e.setting (st.frame.site instr) m₁ k) ∧
        Moves e.setting place all st.frame (st.frame.site instr) T m₁ mv m')
      (Halts e.setting place all (st.frame.site instr) T st.machine) := by
    have hproper := hproper instr hi
    rw [hmonitors] at hproper ⊢
    refine does_bind ((does_watch e hplain.fit hsite hst.sound checkers).and_eq.mono ?_ fun _ _ h => h)
    rintro _ m₁ ⟨hrun, hquiet, hspares⟩
    refine Does.mono (does_move hplain ⟨hsite.fits, hsite.typed, hsite.agrees⟩ hquiet.sound rfl st.frame.routine_mem
      (hproper m₁ (hmonitors ▸ hrun)) fun h => hdivision ⟨instr, m₁, hi, hmonitors ▸ hrun, h⟩) ?_ fun f m' hf => ?_
    · exact fun mv m' hmoves => ⟨m₁, hquiet, hspares, hmoves⟩
    · exact hquiet.steps.halts hf
  unfold Engine.step
  rw [hi]
  dsimp only
  unfold Does at hact
  split at hact
  · rename_i mv m' hrun
    obtain ⟨m₁, hwatch, hspares, hmoves⟩ := hact
    rw [hrun]
    exact advances_follow hplain hst hi hwatch hspares hmoves _
  -- A fault ends the path for its own reason; a defect can arise only where `D` holds.
  · rename_i f m' hrun
    rw [hrun]
    exact Or.inr ⟨ends_fault hi hact rfl rfl, hact.meets⟩
  · rename_i d m' hrun
    rw [hrun]
    exact Or.inl ⟨hact, d, rfl⟩

end Every

end PathSafety
