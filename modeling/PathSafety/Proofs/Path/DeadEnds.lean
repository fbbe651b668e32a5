import PathSafety.Proofs.Machine.Faults
import PathSafety.Proofs.Path.Bits
import PathSafety.Proofs.Path.Termination

/-!
# No dead ends

A fork goes on with the successors that are possible. One of them always is: the path condition can hold with some input,
and of the successors of a switch, or of a branch that tests a single bit, one holds with every input. So no path of a
well-typed project ends for lack of a successor, and whatever path is followed or waits is one that an input takes.

Contents:

* `Engine.Lively` — hooks and monitors that leave it so;
* `Engine.testsBit_of_holdsBits`, `Engine.not_isDeadEnd_of_finish` — forks;
* `State.Alive`, `Progress.Alive` — states that inputs get to, and explorations of such;
* `Engine.alive_of_advance?`, `Engine.alive_of_advances` — that explorations stay so;
* `Engine.alive_progress` — that they begin so.
-/

namespace PathSafety

open IR Machine

variable {p : Project} {e : Engine p} {i : Instr} {st st' : State p} {path : Path} {f : Fault}
  {bits : Routine → List String}

/-- That hooks and monitors neither settle conditions on what cannot be, nor return something else than single bits where
those are expected, nor fail for lack of a successor. -/
structure Engine.Lively (e : Engine p) : Prop where
  builtIn : e.BuiltIn
  bits : e.ReturnsBits
  hooks : e.Hooked (Faults (fun f => f.isDeadEnd = false) Outcome)
  monitors : ∀ monitor ∈ e.monitors, ∀ site, Faults (fun f => f.isDeadEnd = false) Unit (monitor e.setting site)

theorem Fault.isDeadEnd_reject {f : Fault} (h : f.isDeadEnd = false) : f.reject.isDeadEnd = false := by
  unfold reject
  split
  · exact h
  · rfl

/-- That inputs get to a state: its condition can hold, and the registers that are single bits by their types hold one
bit. -/
structure State.Alive (bits : Routine → List String) (st : State p) : Prop where
  feasible : st.machine.condition.Feasible
  kept : (Convention.singleBits bits).Kept st

/-- That an input takes a path to its end, which is not one for lack of a successor. -/
structure Path.Alive (path : Path) : Prop where
  feasible : path.machine.condition.Feasible
  successor : ∀ l, path.ending ≠ .fault (.noSuccessor l)

/-- That inputs get to the states of an exploration, and take the paths that it has found. -/
structure Progress.Alive (bits : Routine → List String) (x : Progress p) : Prop where
  current : ∀ st ∈ x.current, st.Alive bits
  waiting : ∀ a ∈ x.waiting, a.state.Alive bits
  finished : ∀ path ∈ x.finished, path.Alive

namespace Engine

variable {modules : List Module} {layout : Layout} (hp : Project.ofModules? modules layout = some p)
  (htypes : p.TypesBits bits) (he : e.Lively)

/-! ## Forks -/

include htypes in
/-- What a conditional branch tests is a single bit. -/
theorem testsBit_of_holdsBits (hframe : st.frame.HoldsBits (bits st.frame.routine)) (hi : st.frame.instr? = some i)
    (m : Machine) : e.TestsBit (st.frame.site i) m := by
  intro c yes no v m' hop hv
  obtain ⟨_, htakes⟩ := Routine.typesBits_instr (htypes st.frame.routine st.frame.routine_mem) st.frame.block_mem
    (List.mem_of_getElem? hi)
  have hop : i.op = .condBr c yes no := hop
  rw [hop] at htakes
  have hgives : Gives (fun v => v.width = 1) ((st.frame.site i).eval e.setting c) := gives_bit_eval htakes hframe
  exact hgives hv

/-- A fork has a successor if its condition can hold and one of the successors always does. -/
theorem not_isDeadEnd_of_branch {m m' : Machine} {g : Frame p} {ss : List (Cond × String)}
    (hm : m.condition.Feasible) (hexhaustive : ∀ ν, ∃ y ∈ ss, y.1.Holds ν)
    (h : branch g ss m = .error (.fault f) m') : f.isDeadEnd = false := by
  obtain ⟨r, m₁, _, hselects⟩ := selects_possible 0 ss m
  obtain ⟨failure, m₂, hcopies, hbranch⟩ | ⟨_, _, _, _, _, hbranch, _⟩ := branch_of_selects (f := g) hselects
  · obtain ⟨rfl, rfl⟩ := EStateM.Result.error.inj (hbranch.symm.trans h)
    -- with some input the condition and one of the successors hold, so this successor is a possible one
    obtain ⟨ν, hν⟩ := hm
    obtain ⟨y, hy, hholds⟩ := hexhaustive ν
    obtain ⟨n, hn⟩ := List.getElem?_of_mem hy
    have hmem : (n, y) ∈ r := (hselects.mem n y).mpr ⟨Nat.zero_le n, hn, ν, hν, hholds⟩
    unfold copies? at hcopies
    rw [if_neg (by simpa using List.ne_nil_of_mem hmem)] at hcopies
    split at hcopies <;> cases hcopies
  · cases hbranch.symm.trans h

include htypes he

/-- **No step ends a path for lack of a successor**, if an input gets to where it is done. -/
theorem not_isDeadEnd_of_finish (hst : st.Alive bits) (h : e.step st = .finish path) (hf : path.ending = .fault f) :
    f.isDeadEnd = false := by
  have hplain : ∀ f : Fault, f.isPlain = true → f.isDeadEnd = false := fun _ => Fault.isDeadEnd_of_isPlain
  have hreject : ∀ f : Fault, f.isDeadEnd = false → f.reject.isDeadEnd = false := fun _ => Fault.isDeadEnd_reject
  have heval : ∀ (site : Site) o, Faults (fun f => f.isDeadEnd = false) Value (site.eval e.setting o) :=
    faults_siteEval hplain rfl
  have hwatch : ∀ site, Faults (fun f => f.isDeadEnd = false) Unit (e.watch site e.monitors) := fun site =>
    (queries_faults hplain).watch fun monitor hmonitor => he.monitors monitor hmonitor site
  obtain ⟨i, m, hi, hrun⟩ := act_of_fault h hf
  cases hsuccessors : e.successors? (st.frame.site i) with
  | none =>
    -- no other instruction chooses among successors
    refine faults_bind (hwatch _) (fun _ => ?_) _ _ _ hrun
    refine faults_move hplain hreject (fun o _ => heval _ o) (fun t incoming _ => ?_) (fun _ _ _ h hh => ?_) _
      fun successors h => ?_
    · exact Queries.phi (fun x _ => heval _ x.1) fun block => faults_fault rfl
    · exact he.hooks.of_hasHook hh _
    · cases hsuccessors.symm.trans h
  | some successors =>
    rw [act_of_successors? hsuccessors] at hrun
    rcases error_of_bind hrun with hrun | ⟨ss, m₁, hss, hbranch⟩
    · refine faults_bind (hwatch _) (fun _ => ?_) _ _ _ hrun
      exact (queries_faults hplain).successors (fun o _ => heval _ o) hsuccessors
    · have hrobust := robust_bind (robust_watch (D := fun _ => True) he.builtIn trivial trivial (st.frame.site i))
        fun _ => robust_successors trivial trivial hsuccessors
      have hlater := (hrobust st.machine hst.feasible (ready_globalCount _ _)).later ss m₁ hss
      obtain ⟨_, m₀, _, hss⟩ := exists_of_bind hss
      have hbit := testsBit_of_holdsBits (e := e) htypes (hst.kept.frames _ List.mem_cons_self) hi m₀
      exact not_isDeadEnd_of_branch hlater.feasible (exhaustive_successors hsuccessors hss hbit) hbranch

include hp

/-- One step leaves states that inputs get to, or ends a path that an input takes. -/
theorem alive_of_step (hst : st.Alive bits) : (∀ st', e.step st = .proceed st' → st'.Alive bits) ∧
    (∀ a others, e.step st = .arrive a others → ∀ b ∈ a :: others, b.state.Alive bits) ∧
      ∀ path, e.step st = .finish path → path.Alive := by
  have hrobust := robust_step he.builtIn hst.feasible
  have hkept := Convention.kept_of_step (e := e) hst.kept fun i hi => by
    have hframe := hst.kept.frames _ List.mem_cons_self
    exact bits_move hp htypes he.bits hframe hi
  refine ⟨fun st' h => ⟨hrobust.proceed st' h, hkept.1 st' h⟩, fun a others h b hb => ?_, fun path h => ?_⟩
  · exact ⟨hrobust.arrive a others h b hb, hkept.2 a others h b hb⟩
  · refine ⟨hrobust.finish path h, fun l hl => ?_⟩
    have hdead := not_isDeadEnd_of_finish htypes he hst h hl
    cases hdead

/-! ## Explorations -/

omit hp htypes he in
/-- Taking up an arrival that inputs get to. -/
theorem alive_take {a : Arrival p} {waiting : List (Arrival p)} {finished : List Path} (ha : a.state.Alive bits)
    (hwaiting : ∀ b ∈ waiting, b.state.Alive bits) (hfinished : ∀ path ∈ finished, path.Alive) :
    (e.take a waiting finished).Alive bits := by
  unfold take
  cases hin : a.enter e.loopBound with
  | ok st =>
    obtain rfl := Arrival.eq_of_enter hin
    refine ⟨fun st hst => ?_, hwaiting, hfinished⟩
    obtain rfl := Option.some.inj hst
    exact ⟨ha.feasible, ha.kept.enter hin⟩
  | error path =>
    refine ⟨nofun, hwaiting, List.forall_mem_cons.mpr ⟨?_, hfinished⟩⟩
    obtain ⟨hmachine, _, hending⟩ := Arrival.of_enter_error hin
    constructor
    · rw [hmachine]
      exact ha.feasible
    · intro l hl
      cases hending.symm.trans hl

/-- **One step of an exploration** leaves only states that inputs get to, and paths that inputs take. -/
theorem alive_of_advance? {x y : Progress p} (h : e.advance? x = some y) (hx : x.Alive bits) : y.Alive bits := by
  cases progresses_of_advance? h with
  | @proceed st st' _ _ hstep =>
    refine ⟨fun st'' hst'' => ?_, hx.waiting, hx.finished⟩
    obtain rfl := Option.some.inj hst''
    exact (alive_of_step hp htypes he (hx.current st rfl)).1 _ hstep
  | @arrive st a others _ _ hstep =>
    have halive := (alive_of_step hp htypes he (hx.current st rfl)).2.1 a others hstep
    obtain ⟨ha, hothers⟩ := List.forall_mem_cons.mp halive
    exact alive_take ha (List.forall_mem_append.mpr ⟨hothers, hx.waiting⟩) hx.finished
  | @finish st path _ _ hstep =>
    have halive := (alive_of_step hp htypes he (hx.current st rfl)).2.2 path hstep
    exact ⟨nofun, hx.waiting, List.forall_mem_cons.mpr ⟨halive, hx.finished⟩⟩
  | resume =>
    obtain ⟨ha, hwaiting⟩ := List.forall_mem_cons.mp hx.waiting
    exact alive_take ha hwaiting hx.finished

/-- **All situations of an exploration** are such. -/
theorem alive_of_advances {x y : Progress p} (h : Relation.ReflTransGen (fun x y => e.advance? x = some y) x y)
    (hx : x.Alive bits) : y.Alive bits := by
  induction h with
  | refl => exact hx
  | tail _ hstep ih => exact alive_of_advance? hp htypes he hstep ih

omit hp he in
/-- An exploration begins where inputs get to. -/
theorem alive_progress {name : String} {start : Start p} (h : Start.of p name = .ok start) :
    start.progress.Alive bits := by
  refine ⟨nofun, List.forall_mem_singleton.mpr ⟨Start.feasible_first h, ?_⟩, List.forall_mem_nil _⟩
  obtain ⟨r, hr, args, m, f, _, _, hparameters, hcall, rfl⟩ := Start.exists_of_ok h
  obtain ⟨_, _, hroutine, _⟩ := Frame.eq_of_call? hcall
  refine ⟨List.forall_mem_singleton.mpr ?_, trivial⟩
  show f.HoldsBits (bits f.routine)
  rw [hroutine]
  exact Frame.holdsBits_call hcall (htypes r hr) (Start.width_of_parameters hparameters)

end Engine

end PathSafety
