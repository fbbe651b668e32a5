import Mathlib.Data.List.Flatten
import PathSafety.Proofs.Analysis.Evaluate
import PathSafety.Proofs.Hooks.BuiltIn

/-!
# Raising the bounds

The loop bound and the bound on the depth of calls only cut paths off. Where one exploration has larger bounds
than another, it follows every path that the other does not cut off to the same end, and in the same order; in
the place of a path that is cut off it has those that the path goes on to split into.

Contents:

* `Fault.isCut` — whether a path was cut off by a bound;
* `Engine.Within` — that an engine differs from another in having smaller bounds;
* `Engine.Within.step_eq` — a step is the same, or cuts the path off;
* `Engine.Within.sublist_pathsOf` — the paths of explorations;
* `Context.sublist_paths_of_within` — what is explored and reported;
* `Context.exists_isCut_of_branchesTo`, `exists_violation_of_branchesTo` — functions that are seen to be cut off on one
  path, and to divide by zero on another.
-/

namespace PathSafety

open IR Machine

/-- Whether a fault says that a bound of the exploration was reached. -/
def Fault.isCut : Fault → Bool
  | .loopBound .. | .callDepth .. => true
  | _ => false

namespace Arrival

variable {p : Project} {a : Arrival p} {bound bound' : Int}

/-- What may be entered under a bound may be entered under a larger one. -/
theorem enter_of_le (hle : bound ≤ bound') {st : State p} (h : a.enter bound = .ok st) :
    a.enter bound' = .ok st := by
  unfold enter at h ⊢
  dsimp only at h ⊢
  split at h
  · rename_i hlt
    rw [if_pos (Int.lt_of_lt_of_le hlt hle)]
    exact h
  · cases h

theorem isCut_of_enter {path : Path} (h : a.enter bound = .error path) : path.ending.isFault Fault.isCut = true := by
  rw [(Arrival.of_enter_error h).2.2]
  rfl

end Arrival

namespace Engine

variable {p : Project} {e e' : Engine p} {st : State p}

/-- That an engine differs from another in nothing but smaller bounds. -/
structure Within (e e' : Engine p) : Prop where
  nullChecking : e.nullChecking = e'.nullChecking
  hooks : e.hooks = e'.hooks
  monitors : e.monitors = e'.monitors
  loopBound : e.loopBound ≤ e'.loopBound
  callDepth : e.callDepth ≤ e'.callDepth

namespace Within

variable (h : e.Within e')
include h

theorem setting_eq : e.setting = e'.setting := by
  unfold setting
  rw [h.nullChecking]

/-! ## Instructions -/

theorem watch_eq (site : Site) (monitors : List Monitor) : e.watch site monitors = e'.watch site monitors := by
  induction monitors with
  | nil => rfl
  | cons monitor rest ih =>
    unfold watch
    rw [h.setting_eq, ih]

/-- Entering a routine is the same, unless the smaller bound is reached. -/
theorem inline_eq (st : State p) (c : Call) (f : Function) :
    e.inline st c f = e'.inline st c f ∨ e.inline st c f = Machine.fault (.callDepth e.callDepth f.name) := by
  unfold inline
  dsimp only
  by_cases hdepth : (st.callers.length : Int) + 1 ≥ e.callDepth
  · right
    rw [if_pos hdepth]
    rfl
  · left
    have hdepth' : ¬ (st.callers.length : Int) + 1 ≥ e'.callDepth := by
      have := h.callDepth
      omega
    rw [if_neg hdepth, if_neg hdepth', h.setting_eq]

theorem call_eq (st : State p) (c : Call) :
    e.call st c = e'.call st c ∨ ∃ name, e.call st c = Machine.fault (.callDepth e.callDepth name) := by
  have hhook : e.hookOf? = e'.hookOf? := by
    funext f
    unfold hookOf?
    rw [h.hooks]
  unfold call
  rw [h.setting_eq, h.hooks, hhook]
  cases c.target? with
  | none => exact Or.inl rfl
  | some f =>
    dsimp only
    cases Intrinsic.ofName? f.name with
    | some i => exact Or.inl rfl
    | none =>
      dsimp only
      cases e'.hookOf? f with
      | some hook => exact Or.inl rfl
      | none =>
        dsimp only
        -- The two engines differ in their bounds alone, and of those only the call depth is looked
        -- at here.
        by_cases hbody : f.isDeclaration = true
        · rw [if_pos hbody, if_pos hbody]
          exact Or.inl rfl
        · rw [if_neg hbody, if_neg hbody]
          exact (h.inline_eq st c f).imp_right fun hfault => ⟨f.name, hfault⟩

/-- What an instruction does is the same, unless it is a call that the smaller bound forbids. -/
theorem move_eq (st : State p) (site : Site) :
    e.move st site = e'.move st site ∨ ∃ name, e.move st site = Machine.fault (.callDepth e.callDepth name) := by
  unfold move
  dsimp only
  rw [h.setting_eq]
  cases site.instr.op with
  | call callee args => exact h.call_eq st ⟨site, callee, args⟩
  | switch v default cases =>
    left
    dsimp only
    unfold switch
    rw [h.setting_eq]
    simp only [arms_congr h.setting_eq]
  | ret v => cases v <;> exact Or.inl rfl
  | _ => exact Or.inl rfl

/-- **A step** is the same, or the smaller bound on the depth of calls cuts the path off. -/
theorem step_eq (st : State p) :
    e.step st = e'.step st ∨ ∃ path, e.step st = .finish path ∧ path.ending.isFault Fault.isCut = true := by
  unfold step
  cases st.frame.instr? with
  | none => exact Or.inl rfl
  | some i =>
    dsimp only
    rcases h.move_eq (st.note (st.frame.site i).location) (st.frame.site i) with hmove | ⟨name, hmove⟩
    · left
      rw [h.watch_eq, h.monitors, hmove]
    · rw [hmove, h.watch_eq, h.monitors]
      cases hwatch : e'.watch (st.frame.site i) e'.monitors
          (st.note (st.frame.site i).location).machine with
      | ok u m =>
        right
        rw [bind_of_ok hwatch]
        exact ⟨_, rfl, rfl⟩
      | error g m =>
        -- a monitor has ended the path before the call is made
        left
        have hend : ∀ x : Action (Move p), (e'.watch (st.frame.site i) e'.monitors >>= fun _ => x)
            (st.note (st.frame.site i).location).machine = .error g m := by
          intro x
          simp only [bind, EStateM.bind, hwatch]
        rw [hend, hend]

/-! ## Explorations -/

/-- The paths of a state that are not cut off are paths of the state under larger bounds. -/
theorem sublist_exploreFrom (st : State p) :
    ((e.exploreFrom st).filter fun path => !path.ending.isFault Fault.isCut).Sublist (e'.exploreFrom st) := by
  induction st using e.explore_induction with
  | proceed st st' hstep ih =>
    rcases h.step_eq st with heq | ⟨path, hpath, _⟩
    · rw [e.exploreFrom_of_proceed hstep, e'.exploreFrom_of_proceed (heq.symm.trans hstep)]
      exact ih
    · rw [hstep] at hpath
      cases hpath
  | finish st path hstep =>
    rw [e.exploreFrom_of_finish hstep]
    rcases h.step_eq st with heq | ⟨path', hpath, hcut⟩
    · rw [e'.exploreFrom_of_finish (heq.symm.trans hstep)]
      exact List.filter_sublist
    · obtain rfl := Step.finish.inj (hstep.symm.trans hpath)
      rw [List.filter_cons_of_neg (by simp [hcut]), List.filter_nil]
      exact List.nil_sublist _
  | arrive st a others hstep ih =>
    rcases h.step_eq st with heq | ⟨path, hpath, _⟩
    · rw [e.exploreFrom_of_arrive hstep, e'.exploreFrom_of_arrive (heq.symm.trans hstep), List.filter_flatMap]
      -- arrival by arrival: one that may not enter its block is cut off
      refine List.Sublist.flatMap_right _ fun b hb => ?_
      cases hin : b.enter e.loopBound with
      | ok st' =>
        rw [explore_of_ok hin, explore_of_ok (Arrival.enter_of_le h.loopBound hin)]
        exact ih b hb st' hin
      | error path =>
        rw [explore_of_error hin, List.filter_cons_of_neg (by simp [Arrival.isCut_of_enter hin]), List.filter_nil]
        exact List.nil_sublist _
    · rw [hstep] at hpath
      cases hpath

/-- **Explorations.** The paths that are not cut off are paths under larger bounds, in the same order. -/
theorem sublist_pathsOf (start : Start p) :
    ((e.pathsOf start).filter fun path => !path.ending.isFault Fault.isCut).Sublist (e'.pathsOf start) := by
  rw [e.pathsOf_eq, e'.pathsOf_eq]
  cases hin : start.first.enter e.loopBound with
  | ok st =>
    rw [explore_of_ok hin, explore_of_ok (Arrival.enter_of_le h.loopBound hin)]
    exact h.sublist_exploreFrom st
  | error path =>
    rw [explore_of_error hin, List.filter_cons_of_neg (by simp [Arrival.isCut_of_enter hin]), List.filter_nil]
    exact List.nil_sublist _

end Within

end Engine

/-! ## Analyses -/

/-- What is said of a path, wherever it stands among the paths. -/
def PathReport.content (r : PathReport) : String × List String × Verdict × Bool :=
  (r.result, r.blocks, r.verdict, r.aborted)

/-- What is said of an explored path. -/
def Explored.content (checkers : List Checker) (x : Explored) : String × List String × Verdict × Bool :=
  (PathReport.of checkers 0 x.result x.path.blocks).content

/-- Filtering and mapping a list by what does not depend on indices. -/
theorem map_filter_mapIdx {α β γ : Type} {f : Nat → α → β} {P : β → Bool} {P' : α → Bool} {g : β → γ} {g' : α → γ}
    (hP : ∀ i a, P (f i a) = P' a) (hg : ∀ i a, g (f i a) = g' a) (l : List α) :
    ((l.mapIdx f).filter P).map g = (l.filter P').map g' := by
  induction l generalizing f with
  | nil => rfl
  | cons a l ih =>
    have hrest := ih (fun i => hP (i + 1)) fun i => hg (i + 1)
    rw [List.mapIdx_cons]
    by_cases ha : P' a = true
    · rw [List.filter_cons_of_pos (by rw [hP, ha]), List.filter_cons_of_pos ha, List.map_cons, List.map_cons, hg,
        hrest]
    · rw [List.filter_cons_of_neg (by rw [hP]; exact ha), List.filter_cons_of_neg ha, hrest]

/-- No checker finds a violation in a path that was cut off. -/
theorem Checker.passed_of_isCut (checkers : List Checker) {r : Result} (h : r.isFault Fault.isCut = true) :
    (verdict checkers r).passed = true := by
  have hjudge : ∀ f : Fault, f.isCut = true → ∀ k : Checker, k.judge f = none := by
    intro f hf k
    cases f <;> first
      | (cases k <;> rfl)
      | cases hf
  obtain ⟨f, hf, hcut⟩ := (Option.any_eq_true _ _).mp h
  have hnone : (checkers.findSome? fun c => (r.fault?.bind c.judge).map fun m => (⟨some c, m⟩ : Verdict)) = none := by
    refine List.findSome?_eq_none_iff.mpr fun k _ => ?_
    rw [hf, Option.bind_some, hjudge f hcut k, Option.map_none]
  unfold verdict
  rw [hnone]
  rfl

namespace Context

variable {project : Project} {config : Config} {registry : Registry Hook} {c c' : Context} {loopBound callDepth : Int}
  {name : String} {a a' : Analysis}

/-- What a report says of the paths with violations. -/
theorem content_violations (c : Context) (name : String) (x : Exploration) :
    (c.report name x).violations.map PathReport.content =
      (x.paths.filter fun y => !(Checker.verdict c.checkers y.result).passed).map (Explored.content c.checkers) := by
  let f (i : Nat) (y : Explored) : PathReport := .of c.checkers i y.result y.path.blocks
  let failed (r : PathReport) : Bool := !r.verdict.passed
  have hfailed : ∀ i y, failed (f i y) = !(Checker.verdict c.checkers y.result).passed := fun _ _ => rfl
  have hcontent : ∀ i y, (f i y).content = y.content c.checkers := fun _ _ => rfl
  exact map_filter_mapIdx hfailed hcontent x.paths

/-- **Raising the bounds loses nothing.** Where a function is analyzed twice and the second time with bounds at
least as large, all paths that the first analysis does not cut off come up in the second one, with the same blocks
and the same results and in the same order. So all violations that are reported the first time are reported again. -/
theorem sublist_paths_of_within (hc : make project config registry = .ok c)
    (hc' : make project { config with loopBound, callDepth } registry = .ok c') (hloop : config.loopBound ≤ loopBound)
    (hdepth : config.callDepth ≤ callDepth) (ha : c.analyze name = .ok a) (ha' : c'.analyze name = .ok a') :
    a.exploration.fault = a'.exploration.fault ∧
      (a.exploration.paths.filter fun x => !x.result.isFault Fault.isCut).Sublist a'.exploration.paths ∧
      (a.report.violations.map PathReport.content).Sublist (a'.report.violations.map PathReport.content) := by
  obtain ⟨checkers, hselect, rfl⟩ := exists_of_make hc
  obtain ⟨checkers', hselect', rfl⟩ := exists_of_make hc'
  obtain rfl : checkers = checkers' := Except.ok.inj (hselect.symm.trans hselect')
  obtain ⟨x, hx, ha⟩ := exists_ok_of_bind ha
  obtain rfl := Except.ok.inj ha
  obtain ⟨x', hx', ha'⟩ := exists_ok_of_bind ha'
  obtain rfl := Except.ok.inj ha'
  have hpaths : x.fault = x'.fault ∧ (x.paths.filter fun y => !y.result.isFault Fault.isCut).Sublist x'.paths := by
    refine sublist_paths_of_pathsOf hx hx' fun start _ => Engine.Within.sublist_pathsOf ?_ start
    exact ⟨rfl, rfl, rfl, hloop, hdepth⟩
  refine ⟨hpaths.1, hpaths.2, ?_⟩
  rw [content_violations, content_violations]
  -- A path cut off by a bound violates nothing, so leaving these out loses no violation.
  have hfilter : ∀ ys : List Explored, ys.filter (fun y => !(Checker.verdict checkers y.result).passed) =
      (ys.filter fun y => !y.result.isFault Fault.isCut).filter fun y => !(Checker.verdict checkers y.result).passed := by
    intro ys
    rw [List.filter_filter]
    refine List.filter_congr fun y _ => ?_
    cases hcut : y.result.isFault Fault.isCut with
    | false => simp
    | true => simp [Checker.passed_of_isCut checkers hcut]
  rw [hfilter x.paths]
  exact (hpaths.2.filter _).map _

end Context

/-! ### A loop that is cut off -/

/-- Whether a block begins with a division by zero. -/
def Frame.beginsByZero {p : Project} (f : Frame p) : Bool :=
  match f.instr? with
  | some ⟨_, .arith .udiv _ _ (.constant (.int 32) (.int 0))⟩ => true
  | _ => false

theorem State.divisor?_of_beginsByZero {p : Project} {e : Engine p} {st : State p} (h : st.frame.beginsByZero = true) :
    st.divisor? e = some (.ofInt 32 0, st.machine) := by
  unfold Frame.beginsByZero at h
  split at h
  · rename_i hi
    unfold divisor?
    rw [hi]
    rfl
  · cases h

namespace Context

variable {c : Context} {name : String} {a : Analysis} {ν : Valuation} {n : Nat}

/-- A path that comes back to a block which it may not enter once more is cut off. -/
theorem exists_isCut_of_branchesTo
    (h : c.branchesTo ν (fun trail f => decide (c.engine.loopBound ≤ trail.count f.id)) n name = true)
    (ha : c.analyze name = .ok a) : ∃ x ∈ a.exploration.paths, x.result.isFault Fault.isCut = true := by
  obtain ⟨b, htest, _, hpaths⟩ := exists_arrival_of_branchesTo h ha
  have hle := of_decide_eq_true htest
  obtain ⟨path, hin⟩ : ∃ path, b.enter c.engine.loopBound = .error path := by
    unfold Arrival.enter
    rw [if_neg (Int.not_lt.mpr hle)]
    exact ⟨_, rfl⟩
  obtain ⟨x, hx, rfl, hfaithful⟩ := hpaths path (by rw [Engine.explore_of_error hin]; exact List.mem_singleton_self _)
  refine ⟨x, hx, ?_⟩
  rw [hfaithful.result_of_fault (Arrival.of_enter_error hin).2.2]
  rfl

/-- The division by zero at which a block begins is reported. -/
theorem exists_violation_of_branchesTo {ms : List Monitor}
    (h : c.branchesTo ν (fun trail f => decide (trail.count f.id < c.engine.loopBound) && f.beginsByZero) n name = true)
    (ha : c.analyze name = .ok a) (hmonitors : c.engine.monitors = Checker.watchDivision :: ms)
    (hcheckers : c.checkers = Checker.all) :
    ∃ q ∈ a.report.violations, q.verdict.kind = some .divisionByZero := by
  obtain ⟨b, htest, hν, hpaths⟩ := exists_arrival_of_branchesTo h ha
  obtain ⟨hlt, hzero⟩ := Bool.and_eq_true_iff.mp htest
  have hin : b.enter c.engine.loopBound = .ok b.entered := by
    unfold Arrival.enter
    rw [if_pos (of_decide_eq_true hlt)]
    rfl
  have hdivisor : b.entered.divisor? c.engine = some (.ofInt 32 0, b.entered.machine) :=
    State.divisor?_of_beginsByZero hzero
  obtain ⟨path, l, t, hstep, hending, _⟩ := State.step_of_divisor? hdivisor (ν := ν) rfl hν hmonitors
  obtain ⟨x, hx, rfl, hfaithful⟩ := hpaths path (by
    rw [Engine.explore_of_ok hin, c.engine.exploreFrom_of_finish hstep]
    exact List.mem_singleton_self _)
  have hresult : x.result = .fault (.divisor l t) := hfaithful.result_of_fault hending
  obtain ⟨j, hj, rfl⟩ := List.mem_iff_getElem.mp hx
  have hmem : PathReport.of c.checkers j (.fault (.divisor l t)) a.exploration.paths[j].path.blocks ∈ a.report.paths := by
    rw [(of_analyze ha).2]
    exact List.mem_mapIdx.mpr ⟨j, hj, by rw [hresult]⟩
  rw [hcheckers] at hmem
  exact ⟨_, List.mem_filter.mpr ⟨hmem, rfl⟩, rfl⟩

/-- A function that goes round a loop once more if it is told to, and then divides by zero. -/
def lingering : Module :=
  ⟨[], [⟨"main", .int 32, [("c", .int 1)], false, [
    ⟨"entry", [⟨"", .br "loop"⟩]⟩,
    ⟨"loop", [
      ⟨"again", .phi (.int 1) [(.register "c", "entry"), (.constant (.int 1) (.int 0), "loop")]⟩,
      ⟨"", .condBr (.register "again") "loop" "done"⟩]⟩,
    ⟨"done", [
      ⟨"q", .arith .udiv [] (.constant (.int 32) (.int 7)) (.constant (.int 32) (.int 0))⟩,
      ⟨"", .ret (some (.register "q"))⟩]⟩]⟩]⟩

/-- The function can be analyzed, as it has no operation that fails. -/
theorem exists_analyze_lingering {config : Config} (hmake : make (projectOf lingering) config Registry.sandbox = .ok c)
    (hchecked : .divisionByZero ∈ c.checkers) : ∃ a, c.analyze "main" = .ok a := by
  have hplain : c.Plain := plain_of_make hmake (by decide +kernel) (by decide +kernel)
  obtain ⟨checkers, _, rfl⟩ := exists_of_make hmake
  obtain ⟨r, hr, hbody⟩ : ∃ r, (projectOf lingering).routine? "main" = some r ∧ r.function.isDeclaration = false :=
    ⟨_, rfl, rfl⟩
  have hagrees : (projectOf lingering).agrees = true := by decide +kernel
  have hquiet : ((projectOf lingering).routines.all fun r => r.function.blocks.all fun b =>
    b.instrs.all fun i => !mayAccess i.op) = true := by decide +kernel
  obtain ⟨x, hx, _⟩ :=
    exists_explored hplain hagrees hchecked ⟨hr, hbody⟩ (careful_of_not_mayAccess hquiet : Careful _ False _)
  exact ⟨⟨x, _⟩, by unfold analyze; rw [hx]; rfl⟩

/-- Where the loop may be entered once, the path that goes round again is cut off. The division by zero of the other path
is reported then, and again where the loop may be entered twice. -/
theorem reported_lingering : ∃ a a', (bounded lingering 1 64).analyze "main" = .ok a ∧
    (bounded lingering 2 64).analyze "main" = .ok a' ∧
      (∃ x ∈ a.exploration.paths, x.result.isFault Fault.isCut = true) ∧
        ∃ q ∈ a.report.violations, q.verdict.kind = some .divisionByZero ∧
          ∃ q' ∈ a'.report.violations, q'.content = q.content := by
  obtain ⟨a, ha⟩ := exists_analyze_lingering (make_bounded lingering 1 64) (by decide)
  obtain ⟨a', ha'⟩ := exists_analyze_lingering (make_bounded lingering 2 64) (by decide)
  have hcut := exists_isCut_of_branchesTo (ν := fun _ => 1) (n := 2) (by decide +kernel) ha
  obtain ⟨q, hq, hkind⟩ := exists_violation_of_branchesTo (ν := fun _ => 0) (n := 2) (by decide +kernel) ha rfl rfl
  obtain ⟨_, _, hviolations⟩ := sublist_paths_of_within (make_bounded lingering 1 64) (make_bounded lingering 2 64)
    (by decide) (by decide) ha ha'
  obtain ⟨q', hq', hcontent⟩ := List.mem_map.mp (hviolations.subset (List.mem_map_of_mem hq))
  exact ⟨a, a', ha, ha', hcut, q, hq, hkind, q', hq', hcontent⟩

end Context

end PathSafety
