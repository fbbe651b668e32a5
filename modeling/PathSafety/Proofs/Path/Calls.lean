import PathSafety.Proofs.IR.Dominance
import PathSafety.Proofs.Path.Copies

/-!
# What calls under way keep

On a path the calls under way wait for one another: each stands at an instruction that goes on with what the call above
it returns. A property of calls that instructions keep, whether they go on, jump, enter a function or leave one, is a
property of all calls in all states that come up.

Contents:

* `Start.forall₂_parameters` — what an exploration begins with;
* `Engine.gives_goto`, `Engine.gives_entered` — where jumps and calls send control;
* `Convention`, `Convention.Kept` — what calls keep, and what they expect of the calls above them;
* `Convention.Sends` — that an instruction keeps it;
* `Convention.kept_of_step`, `Convention.kept_of_reaches` — then so do steps and paths.
-/

namespace PathSafety

open IR Machine

variable {p : Project} {e : Engine p} {f g : Frame p} {i : Instr} {st st' : State p} {site : Site} {m m' : Machine}
  {mv : Move p}

/-! ## Where control goes -/

theorem gives_bind_of {α β : Type} {P : β → Prop} {x : Action α} {f : α → Action β}
    (hf : ∀ m a m', x m = .ok a m' → Gives P (f a)) : Gives P (x >>= f) := by
  intro m b m' h
  obtain ⟨a, m₁, hx, hb⟩ := exists_of_bind h
  exact hf m a m₁ hx hb

/-- What a call of a named function returns is of the type that the function declares. -/
theorem Call.resultType_of_target? {c : Call} {fn : Function} (h : c.target? = some fn) : c.resultType = fn.ret := by
  obtain ⟨n, hcallee, hglobal⟩ : ∃ n, c.callee = .global n ∧ c.site.routine.scope.module.global? n = some (.code fn) :=
    Fits.exists_global_of_target? h
  have htype : c.site.routine.scope.operandType c.callee = .ptrTo fn.ty 0 := by
    rw [hcallee]
    simp only [Scope.operandType, hglobal]
    rfl
  simp only [resultType, Scope.resultType, Scope.calleeType, htype, Function.ty]

/-- An exploration begins with a symbol for each parameter, as wide as its type. -/
theorem Start.forall₂_parameters {l : Layout} {params : List (String × Ty)} {args : List (String × Value)}
    (h : parameters l params m = .ok args m') :
    List.Forall₂ (fun x a => ∃ n m₁ m₂, l.bits? x.2 = some n ∧ fresh ("arg_" ++ x.1) n m₁ = .ok a.2 m₂) params args := by
  induction params generalizing m args m' with
  | nil =>
    obtain ⟨rfl, _⟩ := of_pure h
    exact .nil
  | cons x params ih =>
    unfold parameters at h
    cases hbits : l.bits? x.2 with
    | none =>
      rw [hbits] at h
      exact absurd h not_fault
    | some n =>
      rw [hbits] at h
      obtain ⟨v, m₁, hv, h⟩ := exists_of_bind h
      obtain ⟨vs, m₂, hvs, h⟩ := exists_of_bind h
      obtain ⟨rfl, _⟩ := of_pure h
      exact .cons ⟨n, m, m₁, hbits, hv⟩ (ih hvs)

/-- Whether an instruction jumps, to a block that it names or to one of several that it chooses among. -/
def IR.Op.Jumps : Op → Prop
  | .br .. | .condBr .. | .switch .. => True
  | _ => False

namespace Engine

theorem jump?_of_jump {target : String} (h : jump f target m = .ok g m') : f.jump? target = some g := by
  unfold jump at h
  cases hg : f.jump? target with
  | none =>
    rw [hg] at h
    exact absurd h not_defect
  | some g' =>
    rw [hg] at h
    rw [(of_pure h).1]

/-- A fork goes to blocks of its successors. -/
theorem exists_jump?_of_branch {ss : List (Cond × String)} (h : branch f ss m = .ok mv m') :
    ∃ g others, mv = .goto g others ∧ ∀ g' ∈ g :: others.map (·.2), ∃ y ∈ ss, f.jump? y.2 = some g' := by
  obtain ⟨r, m₁, _, hselects⟩ := selects_possible 0 ss m
  obtain ⟨_, _, _, hfailed⟩ | ⟨copies, g, others, m₂, hcopies, hbranch, hmap⟩ := branch_of_selects hselects
  · cases hfailed.symm.trans h
  · obtain ⟨rfl, _⟩ := EStateM.Result.ok.inj (hbranch.symm.trans h)
    refine ⟨g, others, rfl, fun g' hg' => ?_⟩
    have hframes : g :: others.map (·.2) = (copies.map (·.2)).map (·.2) := by
      rw [hmap]
      rfl
    rw [hframes, List.map_map] at hg'
    obtain ⟨x, hx, rfl⟩ := List.mem_map.mp hg'
    obtain ⟨y, hy, hjump, _⟩ := (of_copies? hcopies).2 x hx
    exact ⟨y, List.mem_of_getElem? ((hselects.mem _ y).mp hy).2.1, hjump⟩

theorem map_arms {v : Value} {cases : List (Operand × String)} {arms : List (Cond × String)}
    (h : switch.arms e site v cases m = .ok arms m') : arms.map (·.2) = cases.map (·.2) := by
  induction cases generalizing m arms m' with
  | nil =>
    obtain ⟨rfl, _⟩ := of_pure h
    rfl
  | cons x rest ih =>
    obtain ⟨_, m₁, _, h⟩ := exists_of_bind h
    obtain ⟨_, m₂, _, h⟩ := exists_of_bind h
    obtain ⟨arms', m₃, hrest, h⟩ := exists_of_bind h
    obtain ⟨rfl, _⟩ := of_pure h
    rw [List.map_cons, List.map_cons, ih hrest]

/-- The successors of an instruction are its targets. -/
theorem mem_targets_of_successors? {successors : Action (List (Cond × String))} {ss : List (Cond × String)}
    (h : e.successors? site = some successors) (hss : successors m = .ok ss m') :
    ∀ y ∈ ss, y.2 ∈ site.instr.op.targets := by
  rcases cases_of_successors? h hss with
    ⟨c, yes, no, v, hop, _, rfl⟩ | ⟨v, default, cases, w, m₁, arms, hop, _, harms, rfl⟩
  · simp [hop, Op.targets]
  · intro y hy
    rw [hop, Op.targets, ← map_arms harms]
    rcases List.mem_append.mp hy with hy | hy
    · exact List.mem_append_left _ (List.mem_map.mpr ⟨y, hy, rfl⟩)
    · obtain rfl := List.mem_singleton.mp hy
      exact List.mem_append_right _ (List.mem_singleton_self _)

/-- **Jumps** go to blocks that the instruction names, with what they split off. -/
theorem gives_goto (st : State p) (site : Site) (hjumps : site.instr.op.Jumps) :
    Gives (fun mv : Move p => ∃ g others, mv = .goto g others ∧ ∀ g' ∈ g :: others.map (·.2),
      ∃ name ∈ site.instr.op.targets, st.frame.jump? name = some g') (e.move st site) := by
  -- A branch on a condition goes through its feasible successors, a plain one straight to its
  -- target.
  by_cases hforks : site.instr.op.Forks
  · intro m mv m' h
    obtain ⟨successors, hsuccessors⟩ := e.exists_successors? hforks
    rw [move_of_successors? hsuccessors] at h
    obtain ⟨ss, m₁, hss, h⟩ := exists_of_bind h
    obtain ⟨g, others, rfl, hframes⟩ := exists_jump?_of_branch h
    refine ⟨g, others, rfl, fun g' hg' => ?_⟩
    obtain ⟨y, hy, hjump⟩ := hframes g' hg'
    exact ⟨y.2, mem_targets_of_successors? hsuccessors hss y hy, hjump⟩
  · unfold move
    dsimp only
    cases hop : site.instr.op with
    | br target =>
      intro m mv m' h
      obtain ⟨g, m₁, hg, h⟩ := exists_of_bind h
      obtain ⟨rfl, _⟩ := of_pure h
      exact ⟨g, [], rfl, List.forall_mem_singleton.mpr ⟨target, by simp [Op.targets], jump?_of_jump hg⟩⟩
    | condBr | switch => exact absurd (hop ▸ True.intro) hforks
    | _ =>
      rw [hop] at hjumps
      exact hjumps.elim

/-- Several operands have the values that each of them has. -/
theorem forall₂_evalAll {s : Setting} {os : List Operand} {vs : List Value} (h : site.evalAll s os m = .ok vs m') :
    List.Forall₂ (fun o v => ∃ m₁ m₂, site.eval s o m₁ = .ok v m₂) os vs := by
  induction os generalizing m vs m' with
  | nil =>
    obtain ⟨rfl, _⟩ := of_pure h
    exact .nil
  | cons o os ih =>
    obtain ⟨v, m₁, hv, h⟩ := exists_of_bind h
    obtain ⟨vs', m₂, hvs, h⟩ := exists_of_bind h
    obtain ⟨rfl, _⟩ := of_pure h
    exact .cons ⟨m, m₁, hv⟩ (ih hvs)

/-- What is entered is the routine of the called function, with the values of the arguments. -/
theorem gives_entered (c : Call) (fn : Function) : Gives (fun mv => ∃ (r : Routine) (hr : r ∈ p.routines)
    (vs : List Value) (g : Frame p), p.routineIn? c.site.routine.module fn.name = some r ∧
      List.Forall₂ (fun o v => ∃ m₁ m₂, c.eval e.setting o m₁ = .ok v m₂) c.args vs ∧
      Frame.call? r hr vs = some g ∧ mv = .enter g) (e.inline st c fn) := by
  unfold inline
  dsimp only
  split
  · exact gives_fault_bind
  · refine gives_bind_of fun m vs m' hvs => ?_
    split
    · exact gives_defect
    · rename_i r hr
      split
      · rename_i g hg
        exact gives_pure ⟨r, _, vs, g, hr, forall₂_evalAll hvs, hg, rfl⟩
      · exact gives_defect

end Engine

/-! ## Conventions -/

/-- What calls under way keep: each call by itself, and what one that waits at an instruction expects of the routine that
runs above it. -/
structure Convention (p : Project) where
  holds : Frame p → Prop
  expects : Frame p → Instr → Routine → Prop

namespace Convention

variable {k : Convention p}

/-- That calls wait for one another with what they expect. -/
def Awaited (k : Convention p) : Frame p → List (Frame p) → Prop
  | _, [] => True
  | f, g :: gs => (∃ i, g.instr? = some i ∧ k.expects g i f.routine) ∧ k.Awaited g gs

/-- That all calls of a state keep a convention. -/
structure Kept (k : Convention p) (st : State p) : Prop where
  frames : ∀ f ∈ st.frame :: st.callers, k.holds f
  awaited : k.Awaited st.frame st.callers

/-- That a convention is kept where an instruction sends control. A call that is left does not know its caller, so this
is for all that wait for it. -/
def Sends (k : Convention p) (f : Frame p) (i : Instr) : Move p → Prop
  | .next result => k.holds (f.finish result)
  | .goto target others => ∀ g ∈ target :: others.map (·.2), g.routine = f.routine ∧ k.holds g
  | .enter callee => k.holds callee ∧ k.expects f i callee.routine
  | .leave result => ∀ g j, k.holds g → g.instr? = some j → k.expects g j f.routine → k.holds (g.finish result)
  | .finish _ => True

/-- What waits expects something of the routine above, whatever this one does. -/
theorem Awaited.of_routine {fs : List (Frame p)} (h : k.Awaited f fs) (hg : g.routine = f.routine) :
    k.Awaited g fs := by
  cases fs with
  | nil => trivial
  | cons c cs =>
    refine ⟨?_, h.2⟩
    rw [hg]
    exact h.1

theorem Kept.of_frame (h : k.Kept st) (hg : k.holds g) (hroutine : g.routine = st.frame.routine) {trail : Trail}
    {executed : List Location} : k.Kept ⟨m, g, st.callers, trail, executed⟩ where
  frames := List.forall_mem_cons.mpr ⟨hg, fun f hf => h.frames f (List.mem_cons_of_mem _ hf)⟩
  awaited := h.awaited.of_routine hroutine

/-- Going on. -/
theorem Kept.proceed (h : k.Kept st) (hsends : k.Sends st.frame i mv)
    (hstep : (st.note (st.frame.site i).location).follow m mv = .proceed st') : k.Kept st' := by
  rcases Engine.follow_proceed_cases hstep with ⟨_, rfl, rfl⟩ | ⟨_, caller, callers, rfl, hc, rfl⟩
  · exact h.of_frame hsends rfl
  · have hc : st.callers = caller :: callers := hc
    have hawaited := h.awaited
    have hframes := h.frames
    rw [hc] at hawaited hframes
    obtain ⟨⟨j, hj, hexpects⟩, hrest⟩ := hawaited
    obtain ⟨hcaller, hcallers⟩ := List.forall_mem_cons.mp (List.forall_mem_cons.mp hframes).2
    constructor
    · exact List.forall_mem_cons.mpr ⟨hsends caller j hcaller hj hexpects, hcallers⟩
    · exact hrest.of_routine rfl

/-- Arriving at blocks. -/
theorem Kept.arrive (h : k.Kept st) (hi : st.frame.instr? = some i) (hsends : k.Sends st.frame i mv) {a : Arrival p}
    {others : List (Arrival p)} (hstep : (st.note (st.frame.site i).location).follow m mv = .arrive a others) :
    ∀ b ∈ a :: others, k.Kept b.state := by
  intro b hb
  rcases Engine.follow_arrive_cases hstep hb with ⟨target, split, rfl, x, hx, _, hstate⟩ | ⟨callee, rfl, hstate⟩
  · obtain ⟨hroutine, hg⟩ := hsends x.2 (List.mem_map_of_mem hx)
    rw [hstate]
    exact h.of_frame hg hroutine
  · rw [hstate]
    constructor
    · exact List.forall_mem_cons.mpr ⟨hsends.1, h.frames⟩
    · exact ⟨⟨i, hi, hsends.2⟩, h.awaited⟩

theorem Kept.enter {b : Arrival p} (h : k.Kept b.state) {bound : Int} (hin : b.enter bound = .ok st) : k.Kept st := by
  obtain rfl := Arrival.eq_of_enter hin
  exact ⟨h.frames, h.awaited⟩

/-- **One step** keeps what the next instruction keeps. -/
theorem kept_of_step (hst : k.Kept st)
    (hsends : ∀ i, st.frame.instr? = some i → Gives (k.Sends st.frame i) (e.move (st.note (st.frame.site i).location)
      (st.frame.site i))) :
    (∀ st', e.step st = .proceed st' → k.Kept st') ∧
      ∀ a others, e.step st = .arrive a others → ∀ b ∈ a :: others, k.Kept b.state := by
  have hact : ∀ {i mv m}, st.frame.instr? = some i → e.act st i st.machine = .ok mv m → k.Sends st.frame i mv := by
    intro i mv m hi hrun
    obtain ⟨_, _, _, hmove⟩ := exists_of_bind hrun
    exact hsends i hi hmove
  refine ⟨fun st' h => ?_, fun a others h => ?_⟩
  · obtain ⟨i, mv, m, hi, hrun, hfollow⟩ := Engine.act_of_proceed h
    exact hst.proceed (hact hi hrun) hfollow
  · obtain ⟨i, mv, m, hi, hrun, hfollow⟩ := Engine.act_of_arrive h
    exact hst.arrive hi (hact hi hrun) hfollow

/-- **In all states that come up** calls keep what instructions keep. -/
theorem kept_of_reaches
    (hsends : ∀ st : State p, k.Kept st → ∀ i, st.frame.instr? = some i →
      Gives (k.Sends st.frame i) (e.move (st.note (st.frame.site i).location) (st.frame.site i)))
    (h : e.Reaches st st') (hst : k.Kept st) : k.Kept st' := by
  induction h with
  | refl => exact hst
  | proceed _ hstep ih => exact (kept_of_step ih (hsends _ ih)).1 _ hstep
  | enter _ hstep hb hin ih => exact ((kept_of_step ih (hsends _ ih)).2 _ _ hstep _ hb).enter hin

end Convention

end PathSafety
