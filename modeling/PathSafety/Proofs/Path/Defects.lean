import PathSafety.Proofs.Path.Divisors

/-!
# Where paths end in defects

A path goes on only where its condition can hold: a fork takes possible successors, and an address is settled on a
possible value. So a path that is explored has an answer to all that it asks, and it ends in a defect only by an
operation: a division of constants by zero, operands that do not fit, or something that is not there. In well-typed
projects the last two do not occur.

Contents:

* `Machine.RobustMove`, `Engine.robust_move` — instructions and forks;
* `Engine.robust_step` — what one step of a path comes to;
* `Engine.feasible_of_reaches`, `Engine.exists_of_defect` — what exploring comes to;
* `Engine.divisionByZero_of_defect` — where well-typed projects have defects.
-/

namespace PathSafety

open IR Machine

variable {p : Project} {e : Engine p} {D : Defect → Prop} {α : Type} {site : Site} {m m' : Machine} {f : Frame p}
  {st st' : State p} {path : Path} {d : Defect}

/-! ## Divisions -/

/-- Only a division of constants by zero fails for zero. -/
theorem Value.of_arith_divisionByZero {op : ArithOp} {u v : Value} (h : arith op u v = .error .divisionByZero) :
    divides op = true ∧ u.isSymbolic = false ∧ v.term.isZero = true ∧ v.width = u.width := by
  unfold arith at h
  split at h
  · rename_i hcond
    simp only [Bool.and_eq_true, Bool.not_eq_true', beq_iff_eq] at hcond
    exact ⟨hcond.1.1.1, hcond.1.1.2, hcond.1.2, hcond.2.symm⟩
  · exact absurd h (Value.aligned_ne_divisionByZero u v _)

namespace Machine

/-- That a move comes to a later machine, a fault, or a defect that is allowed, and the conditions of the paths that
it splits off can hold. -/
structure RobustMove (D : Defect → Prop) (x : Action (Move p)) (m : Machine) : Prop where
  robust : RobustAt D x m
  split : ∀ mv m', x m = .ok mv m' → ∀ y ∈ mv.split, y.1.condition.Feasible

theorem RobustMove.bind {x : Action α} {g : α → Action (Move p)} (hx : RobustAt D x m)
    (hg : ∀ a m₁, x m = .ok a m₁ → RobustMove D (g a) m₁) : RobustMove D (x >>= g) m where
  robust := hx.bind fun a m₁ h => (hg a m₁ h).robust
  split mv m' h := by
    obtain ⟨a, m₁, hx', h⟩ := exists_of_bind h
    exact (hg a m₁ hx').split mv m' h

/-- Where nothing is split off. -/
theorem RobustMove.of_gives {x : Action (Move p)} (hx : RobustAt D x m) (hgives : Gives (fun mv => mv.split = []) x) :
    RobustMove D x m where
  robust := hx
  split _ _ h _ hy := absurd (hgives h ▸ hy) List.not_mem_nil

end Machine

namespace Engine

section Moves

variable (hmismatch : D .widthMismatch) (hmissing : D .missingIndex)
include hmismatch hmissing

/-- **Arithmetic**, as far as dividing constants by zero is allowed. -/
theorem robust_arith {s : Setting} (hm : m.condition.Feasible) {op : ArithOp} {flags : List String} {a b : Operand}
    (hop : site.instr.op = .arith op flags a b) (hdivision : site.DividesByZero s m → D .divisionByZero) :
    RobustAt D (arith s site op a b) m := by
  have heval := robust_siteEval hmismatch hmissing s site
  have ha := heval a m hm (ready_globalCount s m)
  refine ha.bind fun u m₁ hu => ?_
  have hb := heval b m₁ (ha.later u m₁ hu).feasible (ready_globalCount s m₁)
  refine hb.bind fun v m₂ hv => ?_
  cases hr : Value.arith op u v with
  | ok r => exact .of_ok rfl (.refl (hb.later v m₂ hv).feasible)
  | error err =>
    cases err with
    | widthMismatch => exact .defect (hb.later v m₂ hv).feasible hmismatch
    | divisionByZero =>
      -- symbolic operands divide by zero without failing
      obtain ⟨hdivides, hconst, hzero, hwidth⟩ := Value.of_arith_divisionByZero hr
      have hbyZero := hdivision (.constants hop hdivides hu hv hconst (Value.isZero_iff.mp hzero) hwidth)
      exact .defect (hb.later v m₂ hv).feasible hbyZero

omit hmismatch hmissing in
/-- The possible successors are those whose conditions can hold. -/
theorem exists_feasible (ss : List (Cond × String)) (m : Machine) : ∃ r m₁, feasible ss m = .ok r m₁ ∧ Asked m m₁ ∧
    ∀ x ∈ r, ∃ ν, Term.AllHold ν m₁.condition.conds ∧ x.1.Holds ν := by
  have h := does_feasible (D := False) (m := m) (E := fun _ _ => False) ss
  unfold Does at h
  split at h
  · rename_i r m₁ hr
    obtain ⟨hasked, hmem, _⟩ := h
    refine ⟨r, m₁, hr, hasked, fun x hx => ?_⟩
    rw [hasked.conds]
    exact (hmem x hx).2
  · exact h.elim
  · exact h.elim

omit hmismatch in
theorem robust_jump (target : String) (hm : m.condition.Feasible) : RobustAt D (jump f target) m := by
  unfold jump
  split
  · exact .of_ok rfl (.refl hm)
  · exact .defect hm hmissing

omit hmismatch in
theorem robust_splitOff (ss : List (Cond × String)) (hm : m.condition.Feasible) : RobustAt D (splitOff f ss) m := by
  induction ss with
  | nil => exact .of_ok rfl (.refl hm)
  | cons x ss ih =>
    refine (robust_jump hmissing x.2 hm).bind fun g m₁ hg => ?_
    obtain rfl := of_jump hg
    refine .bind_of_ok (a := m) rfl (.refl hm) ?_
    exact ih.bind fun others m₂ h => .of_ok rfl (.refl (ih.later others m₂ h).feasible)

omit hmismatch in
/-- **Forks.** -/
theorem robust_branch (ss : List (Cond × String)) (hm : m.condition.Feasible) : RobustMove D (branch f ss) m := by
  obtain ⟨r, m₁, hr, hasked, hholds⟩ := exists_feasible ss m
  have hm₁ : m₁.condition.Feasible := by
    unfold PathCondition.Feasible
    rwa [hasked.conds]
  have hlater : Later m m₁ := by
    obtain ⟨q, _, rfl⟩ := hasked
    exact ⟨hm₁, fun _ _ hn => hn⟩
  have hassume : ∀ x ∈ r, Later m₁ { m₁ with condition := m₁.condition.assume x.1 } := fun x hx =>
    later_assume (hholds x hx)
  unfold branch
  refine RobustMove.bind (.of_ok hr hlater) fun r' m₂ h => ?_
  obtain ⟨rfl, rfl⟩ := EStateM.Result.ok.inj (hr.symm.trans h)
  rcases r with _ | ⟨x, _ | ⟨x', others⟩⟩
  · exact .of_gives (.fault hm₁ _) gives_fault
  · -- the only possible successor
    refine .of_gives ((robust_jump hmissing x.2 hm₁).bind fun g m₂ hg => ?_) (gives_bind fun g => gives_pure rfl)
    exact .of_ok rfl (.refl ((robust_jump hmissing x.2 hm₁).later g m₂ hg).feasible)
  · -- a fork
    have hx := hassume x List.mem_cons_self
    refine RobustMove.bind (robust_splitOff hmissing (x' :: others) hm₁) fun arms m₂ h => ?_
    obtain ⟨rfl, harms⟩ := of_splitOff h
    refine RobustMove.bind (.of_ok rfl hx) fun _ m₂ h => ?_
    obtain ⟨_, rfl⟩ := EStateM.Result.ok.inj h
    refine RobustMove.bind (robust_jump hmissing x.2 hx.feasible) fun g m₂ hg => ?_
    refine ⟨.of_ok rfl (.refl ((robust_jump hmissing x.2 hx.feasible).later g m₂ hg).feasible), fun mv m' h y hy => ?_⟩
    obtain ⟨rfl, _⟩ := of_pure h
    obtain ⟨z, hz, heq⟩ := harms y hy
    rw [heq]
    exact (hassume z (List.mem_cons_of_mem x hz)).feasible

/-- What an instruction chooses among. -/
theorem robust_successors {successors : Action (List (Cond × String))} (h : e.successors? site = some successors) :
    Robust e.setting (globalCount e.setting.project + 1) D (List (Cond × String)) successors :=
  (prepares_robust hmismatch hmissing).successors
    (fun o _ => robust_siteEval hmismatch hmissing e.setting site o) h

/-- **Instructions**, as far as dividing constants by zero is allowed. -/
theorem robust_move (hbuiltin : e.BuiltIn) (st : State p) (hm : m.condition.Feasible)
    (hdivision : site.DividesByZero e.setting m → D .divisionByZero) : RobustMove D (e.move st site) m := by
  have hQ : Composes e.setting (Robust e.setting (globalCount e.setting.project + 1) D) :=
    composes_robust hmismatch hmissing
  have hread : ∀ address bits, Robust e.setting (globalCount e.setting.project + 1) D Value
      (read e.setting address bits) := robust_read hmismatch hmissing
  have hready : ∀ m, Ready e.setting (globalCount e.setting.project + 1) m := ready_globalCount e.setting
  have heval := robust_siteEval hmismatch hmissing e.setting site
  have hhook : ∀ callee args (h : Hook), h.BuiltIn e.setting →
      Robust e.setting (globalCount e.setting.project + 1) D Outcome (h e.setting ⟨site, callee, args⟩) :=
    fun callee args h hh => hQ.builtIn hread ⟨site, callee, args⟩ (fun o _ => heval o) hh robust_fault
  cases hsuccessors : e.successors? site with
  | some successors =>
    -- a fork
    rw [move_of_successors? hsuccessors]
    have hss := robust_successors hmismatch hmissing hsuccessors m hm (hready m)
    exact .bind hss fun ss m₁ h => robust_branch hmissing ss (hss.later ss m₁ h).feasible
  | none =>
    have hsplit : ¬ site.instr.op.Forks := fun h => by
      obtain ⟨successors, hsome⟩ := e.exists_successors? h
      cases hsuccessors.symm.trans hsome
    refine .of_gives ?_ (gives_move st hsplit)
    by_cases harith : ∃ op flags a b, site.instr.op = .arith op flags a b
    · obtain ⟨op, flags, a, b, hop⟩ := harith
      unfold move
      rw [hop]
      have hr := robust_arith hmismatch hmissing hm hop hdivision
      exact hr.bind fun v m₁ hv => .of_ok rfl (.refl (hr.later v m₁ hv).feasible)
    · refine hQ.move hread (fun o _ => heval o) (fun o _ => robust_bind (heval o) robust_evalNat)
        (fun t incoming _ => Queries.phi (fun x _ => heval x.1) fun block => robust_fault _)
        (fun callee args _ h hh => hhook callee args h ?_) st (fun successors h => ?_)
        (fun op flags a b hop => absurd ⟨op, flags, a, b, hop⟩ harith) m hm (hready m)
      · exact hh.elim (fun ⟨n, hn⟩ => hbuiltin.byName n h hn) (hbuiltin.default h)
      · cases hsuccessors.symm.trans h

end Moves

/-! ## Steps -/

/-- The monitors of checkers are robust, one after another. -/
theorem robust_watch (hbuiltin : e.BuiltIn) (hmismatch : D .widthMismatch) (hmissing : D .missingIndex) (site : Site) :
    Robust e.setting (globalCount e.setting.project + 1) D Unit (e.watch site e.monitors) := by
  refine (prepares_robust hmismatch hmissing).watch fun monitor hmonitor => ?_
  obtain ⟨k, hk⟩ := hbuiltin.monitors monitor hmonitor
  exact robust_monitor hmismatch hmissing e.setting _ hk

/-- What passes the monitors is robust, and the monitors are. -/
theorem robust_act (hbuiltin : e.BuiltIn) (hmismatch : D .widthMismatch) (hmissing : D .missingIndex)
    {i : Instr} (hi : st.frame.instr? = some i) (hst : st.machine.condition.Feasible)
    (hdivision : e.DividesByZero st → D .divisionByZero) : RobustMove D (e.act st i) st.machine := by
  have hwatched := robust_watch hbuiltin hmismatch hmissing (st.frame.site i) st.machine hst
    (ready_globalCount e.setting st.machine)
  refine .bind hwatched fun _ m hm => ?_
  exact robust_move hmismatch hmissing hbuiltin _ (hwatched.later _ m hm).feasible fun h => hdivision ⟨i, m, hi, hm, h⟩

/-- That one step of a path leaves conditions that can hold, be it that the path goes on, arrives at blocks or ends; and
that it ends in a defect only if this is one of an operation. -/
structure RobustStep (e : Engine p) (st : State p) : Prop where
  proceed : ∀ st', e.step st = .proceed st' → st'.machine.condition.Feasible
  arrive : ∀ a others, e.step st = .arrive a others → ∀ b ∈ a :: others, b.state.machine.condition.Feasible
  finish : ∀ path, e.step st = .finish path → path.machine.condition.Feasible
  defects : ∀ path d, e.step st = .finish path → path.ending = .defect d →
    d.isOperation = true ∧ (d = .divisionByZero → e.DividesByZero st)

/-- **One step** of a path whose condition can hold. -/
theorem robust_step (hbuiltin : e.BuiltIn) (hst : st.machine.condition.Feasible) : e.RobustStep st := by
  -- All four parts follow from one fact about the instruction at hand.
  have hact : ∀ {i}, st.frame.instr? = some i →
      RobustMove (fun d => d.isOperation = true ∧ (d = .divisionByZero → e.DividesByZero st)) (e.act st i) st.machine :=
    fun hi => robust_act hbuiltin ⟨rfl, fun h => nomatch h⟩ ⟨rfl, fun h => nomatch h⟩ hi hst fun h => ⟨rfl, fun _ => h⟩
  refine ⟨fun st' h => ?_, fun a others h b hb => ?_, fun path h => ?_, fun path d h hd => ?_⟩
  · obtain ⟨i, mv, m', hi, hrun, hfollow⟩ := act_of_proceed h
    rw [(of_follow_proceed hfollow).1]
    exact ((hact hi).robust.later mv m' hrun).feasible
  · obtain ⟨i, mv, m', hi, hrun, hfollow⟩ := act_of_arrive h
    rcases of_follow_arrive hfollow b hb with hb | ⟨y, hy, hb⟩
    · rw [hb]
      exact ((hact hi).robust.later mv m' hrun).feasible
    · rw [hb]
      exact (hact hi).split mv m' hrun y hy
  · obtain ⟨_, hstep⟩ | ⟨i, mv, m', hi, hrun, hstep⟩ | ⟨i, failure, m', hi, hrun, hstep⟩ := step_cases h
    · obtain rfl := Step.finish.inj hstep
      exact hst
    · rw [(of_follow_finish hstep.symm).2.1]
      exact ((hact hi).robust.later mv m' hrun).feasible
    · obtain rfl := Step.finish.inj hstep
      exact (hact hi).robust.failed failure m' hrun
  · obtain ⟨_, hstep⟩ | ⟨_, _, _, _, _, hstep⟩ | ⟨i, failure, m', hi, hrun, hstep⟩ := step_cases h
    · obtain rfl := Step.finish.inj hstep
      obtain rfl := Ending.defect.inj hd
      exact ⟨rfl, fun h => nomatch h⟩
    · obtain ⟨_, _, o, ho⟩ := of_follow_finish hstep.symm
      cases ho.symm.trans hd
    · obtain rfl := Step.finish.inj hstep
      cases failure with
      | fault g => cases hd
      | defect d' =>
        obtain rfl := Ending.defect.inj hd
        exact (hact hi).robust.defects d' m' hrun

/-! ## Explorations -/

end Engine

namespace Start

theorem robust_parameters {s : Setting} {depth : Nat} (l : Layout) (params : List (String × Ty)) :
    Robust s depth (fun _ => True) (List (String × Value)) (parameters l params) := by
  induction params with
  | nil => exact robust_pure []
  | cons x params ih =>
    unfold parameters
    split
    · exact robust_fault _
    · refine robust_bind ((prepares_robust trivial trivial).fresh _ _) fun v => ?_
      exact robust_bind ih fun vs => robust_pure _

/-- The condition of a beginning can hold. -/
theorem feasible_first (h : Start.of p name = .ok start) : start.first.state.machine.condition.Feasible := by
  obtain ⟨_, _, args, m, _, _, _, hparameters, _, rfl⟩ := exists_of_ok h
  have hinitial : Machine.initial.condition.Feasible := ⟨fun _ => 0, fun c hc => absurd hc List.not_mem_nil⟩
  have hready := ready_globalCount (Setting.mk p true) .initial
  exact ((robust_parameters p.layout _ _ hinitial hready).later args m hparameters).feasible

end Start

namespace Engine

/-- The conditions of all states that come up can hold. -/
theorem feasible_of_reaches (hbuiltin : e.BuiltIn) (h : e.Reaches st st') (hst : st.machine.condition.Feasible) :
    st'.machine.condition.Feasible := by
  induction h with
  | refl => exact hst
  | proceed _ hstep ih => exact (robust_step hbuiltin ih).proceed _ hstep
  | enter _ hstep hb hin ih =>
    rw [Arrival.eq_of_enter hin]
    exact (robust_step hbuiltin ih).arrive _ _ hstep _ hb

/-- **Defects** end paths by operations only, and that of a division by zero where constants are divided that are not
watched. -/
theorem exists_of_defect (hbuiltin : e.BuiltIn) (hst : st.machine.condition.Feasible) (hpath : path ∈ e.exploreFrom st)
    (hd : path.ending = .defect d) : ∃ st', e.Reaches st st' ∧ e.step st' = .finish path ∧ d.isOperation = true ∧
      (d = .divisionByZero → e.DividesByZero st' ∧ Checker.watchDivision ∉ e.monitors) := by
  obtain ⟨st', hreaches, hends⟩ := exists_endsAt hpath
  cases hends with
  | finish hfinish =>
    have hst' := feasible_of_reaches hbuiltin hreaches hst
    obtain ⟨hoperation, hdivides⟩ := (robust_step hbuiltin hst').defects path d hfinish hd
    refine ⟨st', hreaches, hfinish, hoperation, fun hd => ⟨hdivides hd, fun hwatched => ?_⟩⟩
    exact not_dividesByZero_of_feasible hbuiltin hwatched hst' (hdivides hd)
  | bound _ _ hin =>
    rw [(Arrival.of_enter_error hin).2.2] at hd
    cases hd

/-! ## Well-typed projects -/

/-- Dividing constants by zero is a defect. -/
theorem ending_of_dividesByZero (h : e.DividesByZero st) (hfinish : e.step st = .finish path) :
    path.ending = .defect .divisionByZero := by
  obtain ⟨i, m, hi, hwatch, @⟨op, flags, a, b, u, v, m₁, m₂, hop, hdivides, ha, hb, hu, hv, hwidth⟩⟩ := h
  -- Only a constant divided by the constant zero fails; a symbolic dividend leaves it to the solver.
  have herror : Value.arith op u v = .error .divisionByZero := by
    unfold Value.arith
    rw [if_pos]
    simp only [Bool.and_eq_true, Bool.not_eq_true', beq_iff_eq]
    exact ⟨⟨⟨hdivides, hu⟩, Value.isZero_iff.mpr hv⟩, hwidth.symm⟩
  have hmove : e.move (st.note (st.frame.site i).location) (st.frame.site i) m =
      .error (.defect .divisionByZero) m₂ := by
    unfold move
    dsimp only
    rw [hop]
    have harith : arith e.setting (st.frame.site i) op a b m = .error (.defect .divisionByZero) m₂ := by
      unfold arith
      rw [bind_of_ok ha, bind_of_ok hb, herror]
      rfl
    simp only [bind, EStateM.bind, harith]
  unfold step at hfinish
  rw [hi] at hfinish
  dsimp only at hfinish
  rw [show (st.note (st.frame.site i).location).machine = st.machine from rfl, bind_of_ok hwatch, hmove] at hfinish
  obtain rfl := Step.finish.inj hfinish
  rfl

variable {checkers : List Checker} {T : Table} {all : Prop} (hplain : e.Plain)
  (hmonitors : e.monitors = checkers.filterMap Checker.monitor?) (hst : st.Good e.setting T)
  (hproper : e.Proper all st)
include hplain hmonitors hst hproper

/-- All states that come up are good. -/
theorem good_of_reaches (h : e.Reaches st st') : ∃ T', st'.Good e.setting T' := by
  induction h with
  | refl => exact ⟨T, hst⟩
  | @proceed st₁ st₂ hreaches hstep ih =>
    obtain ⟨T₁, hgood⟩ := ih
    obtain ⟨path, hpath⟩ := e.exists_mem_exploreFrom st₁
    have hadvances := advances_step (D := True) hplain hmonitors (fun _ => trivial) hgood (hproper st₁ hreaches path hpath)
    rw [hstep] at hadvances
    obtain ⟨T₂, hleads, _⟩ := hadvances
    exact ⟨T₂, hleads.good⟩
  | @enter st₁ st₂ a b others hreaches hstep hb hin ih =>
    obtain ⟨T₁, hgood⟩ := ih
    obtain ⟨path, hpath⟩ := e.exists_mem_exploreFrom st₁
    have hadvances := advances_step (D := True) hplain hmonitors (fun _ => trivial) hgood (hproper st₁ hreaches path hpath)
    rw [hstep] at hadvances
    rw [Arrival.eq_of_enter hin]
    exact ⟨T₁, (hadvances.1 b hb).good⟩

/-- **In well-typed projects** with proper accesses, a path ends in a defect only where it divides constants by zero. -/
theorem divisionByZero_of_defect (hreaches : e.Reaches st st') (hfinish : e.step st' = .finish path)
    (hd : path.ending = .defect d) : d = .divisionByZero := by
  obtain ⟨T', hgood⟩ := good_of_reaches hplain hmonitors hst hproper hreaches
  have hmem : path ∈ e.exploreFrom st' := by
    rw [e.exploreFrom_of_finish hfinish]
    exact List.mem_singleton_self path
  have hadvances := advances_step (D := e.DividesByZero st') hplain hmonitors id hgood (hproper st' hreaches path hmem)
  rw [hfinish] at hadvances
  rcases hadvances with ⟨hdivides, _⟩ | ⟨hends, _⟩
  · exact Ending.defect.inj (hd.symm.trans (ending_of_dividesByZero hdivides hfinish))
  · exact absurd hd (hends.defect d)

end Engine

end PathSafety
