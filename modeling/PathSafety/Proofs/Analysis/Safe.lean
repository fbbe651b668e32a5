import PathSafety.Command.Run
import PathSafety.Proofs.Analysis.Exact

/-!
# Functions without findings

A function in whose analysis nothing is found commits no violation, whatever it is given and whatever is in memory
at first: the path of an input has an outcome, and the run that follows it passes every instruction that is
watched.

Contents:

* `Report.Clean` — reports of functions in which nothing was found;
* `Context.exists_outcome_of_clean` — the paths of these functions have outcomes;
* `never_commits_of_clean` — their runs commit no violation;
* `Context.commitsWithin`, `exists_commits_of_within` — runs that are seen to commit one.
-/

namespace PathSafety

open IR Machine

/-! ## Reports -/

/-- That nothing was found: there is a verdict about every path, and it is that the path is safe. -/
def Report.Clean (r : Report) : Prop := r.errors = [] ∧ r.violations = [] ∧ r.aborted = []

instance (r : Report) : Decidable r.Clean :=
  inferInstanceAs (Decidable (r.errors = [] ∧ r.violations = [] ∧ r.aborted = []))

/-- The command says by its exit code that nothing was found. -/
theorem Report.clean_iff_exitCode {r : Report} : Command.Options.exitCode [r] = 0 ↔ r.Clean := by
  unfold Command.Options.exitCode Clean hasViolations Command.Options.failed
  simp only [List.any_cons, List.any_nil, Bool.or_false, Bool.or_eq_true, Bool.not_eq_true', List.isEmpty_eq_false_iff]
  by_cases herrors : r.errors = [] <;> by_cases haborted : r.aborted = [] <;>
    by_cases hviolations : r.violations = [] <;> simp [herrors, haborted, hviolations]

namespace Context

variable {c : Context} {name : String} {r : Routine} {a : Analysis}

/-- Where nothing was found, every path has an outcome. -/
theorem exists_outcome_of_clean {x : Exploration} (hclean : (c.report name x).Clean) {e : Explored}
    (he : e ∈ x.paths) (hfaithful : e.Faithful) : ∃ o, e.path.ending = .outcome o := by
  obtain ⟨_, hviolations, haborted⟩ := hclean
  obtain ⟨j, hj, rfl⟩ := List.mem_iff_getElem.mp he
  have hmem : PathReport.of c.checkers j x.paths[j].result x.paths[j].path.blocks ∈ (c.report name x).paths :=
    List.mem_mapIdx.mpr ⟨j, hj, rfl⟩
  have hpassed := List.filter_eq_nil_iff.mp hviolations _ hmem
  have hnot := List.filter_eq_nil_iff.mp haborted _ hmem
  rcases hfaithful with ⟨o, ho, _⟩ | ⟨f, _, hf⟩
  · exact ⟨o, ho⟩
  · simp [PathReport.of, hf, Result.fault?] at hpassed hnot
    exact absurd (hpassed.symm.trans hnot) (by decide)

/-! ## Runs without violations -/

/-- **Functions without findings** commit no violation: where their analysis finds nothing, the run on every input
along its path commits none at any of its steps. -/
theorem never_commits_of_clean (hc : c.Plain) (hagrees : c.project.agrees = true) (hall : ∀ k, k ∈ c.checkers)
    (hnull : c.config.nullChecking = true) (hdefines : c.Defines name r) (hcareful : c.Careful False name)
    (ha : c.analyze name = .ok a) (hclean : a.report.Clean) :
    Command.Options.exitCode [a.report] = 0 ∧ ∀ i : Input, ∃ e,
      a.exploration.paths.filter (fun e => decide (i.Satisfies e.path)) = [e] ∧ (∃ stack, c.Takes name stack e.path) ∧
        ∀ stack, c.Takes name stack e.path → i.Loads c.project e.path.placement →
          ∃ c₀, i.start? c.project.layout r stack = some c₀ ∧
            ∀ n d, Concrete.after c.project e.path.placement n c₀ = some d →
              ∀ k, ¬ Concrete.Commits c.project e.path.placement d k := by
  refine ⟨Report.clean_iff_exitCode.mpr hclean, fun i => ?_⟩
  obtain ⟨hexplore, hreport⟩ := of_analyze ha
  obtain ⟨x, hx, _, hinputs⟩ := exists_explored hc hagrees (hall _) hdefines hcareful
  obtain rfl := Except.ok.inj (hexplore.symm.trans hx)
  obtain ⟨e, he, hstack⟩ := hinputs i
  refine ⟨e, he, hstack, fun stack htakes hloads => ?_⟩
  obtain ⟨hmem, hi⟩ := Explored.of_filter_eq_singleton he
  obtain ⟨c₀, c₁, hstart, harrives⟩ := exists_arrives hc hagrees (hall _) hdefines hcareful htakes hi hloads
  refine ⟨c₀, hstart, fun n d hd k => ?_⟩
  have hdetects : c.engine.Detects c.checkers k := by
    obtain ⟨config, registry, hmake⟩ := hc.made
    cases k with
    | nullDereference => exact (nullChecking_of_make hmake).trans hnull
    | divisionByZero => exact hall _
    | outOfBounds => exact hall _
  have hfaithful : e.Faithful := by
    obtain ⟨start, hstart', _⟩ := htakes
    exact (Explored.all_eq (all_of_explore hstart' hexplore).1).2 e hmem
  obtain ⟨o, ho⟩ := exists_outcome_of_clean (hreport ▸ hclean) hmem hfaithful
  obtain ⟨hhalts, hlast⟩ := harrives.halts o ho
  obtain ⟨m, hm, hsafe⟩ := harrives.passes.after
  -- the run is before the end of the path, there, or has ended
  rcases Nat.lt_trichotomy n m with hlt | rfl | hgt
  · exact hsafe n hlt d hd k hdetects
  · obtain rfl := Option.some.inj (hm.symm.trans hd)
    exact hlast k hdetects
  · rw [Concrete.after_of_halt hm hhalts hgt] at hd
    cases hd

/-! ### A function that divides by a variable -/

/-- A function that divides what it is given by what a variable holds, which it finds through a converted address, and
keeps the quotient in an array. -/
def quotient : Module :=
  ⟨[⟨"g", .int 32, some (.constant (.int 32) (.int 7))⟩], [⟨"main", .int 32, [("x", .int 32)], false, [
    ⟨"entry", [
      ⟨"y", .load (.constant (.ptrTo (.int 32) 0) (.expression "bitcast (i32* @\"g\" to i32*)")) (some (.int 32))⟩,
      ⟨"q", .arith .udiv [] (.register "x") (.register "y")⟩,
      ⟨"a", .alloca (.array 2 (.int 32)) none⟩,
      ⟨"p", .gep true (.register "a") (some (.array 2 (.int 32)))
        [.constant (.int 64) (.int 0), .constant (.int 64) (.int 1)]⟩,
      ⟨"", .store (.register "q") (.register "p")⟩,
      ⟨"z", .load (.register "p") (some (.int 32))⟩,
      ⟨"", .ret (some (.register "z"))⟩]⟩]⟩]⟩

/-- Nothing is found in the function, and none of its runs commits a violation. -/
theorem never_commits_quotient : (ofModule quotient).Plain ∧ (ofModule quotient).project.agrees = true ∧
    (∀ k, k ∈ (ofModule quotient).checkers) ∧ (ofModule quotient).config.nullChecking = true ∧
    (ofModule quotient).Careful False "main" ∧
    ∃ r a, (ofModule quotient).Defines "main" r ∧ (ofModule quotient).analyze "main" = .ok a ∧ a.report.Clean ∧
      ∀ i : Input, ∃ e ∈ a.exploration.paths, ∀ stack, (ofModule quotient).Takes "main" stack e.path →
        i.Loads (ofModule quotient).project e.path.placement →
          ∃ c₀, i.start? (ofModule quotient).project.layout r stack = some c₀ ∧
            ∀ n d, Concrete.after (ofModule quotient).project e.path.placement n c₀ = some d →
              ∀ k, ¬ Concrete.Commits (ofModule quotient).project e.path.placement d k := by
  have hplain : (ofModule quotient).Plain := plain_ofModule (by decide +kernel) (by decide +kernel)
  have hagrees : (ofModule quotient).project.agrees = true := by decide +kernel
  have hall := mem_checkers_ofModule quotient
  have hcareful : (ofModule quotient).Careful False "main" := careful_of_checkWithin (n := 10) (by decide +kernel)
  have hdefined : ∃ r, (ofModule quotient).Defines "main" r := exists_defines (by decide +kernel)
  obtain ⟨r, hr⟩ := hdefined
  obtain ⟨q, hq, hclean⟩ := (Option.any_eq_true _ _).mp
    (show (((ofModule quotient).reportWithin 10 "main").any fun q => decide q.Clean) = true by decide +kernel)
  obtain ⟨a, _, ha, rfl, _⟩ := analyze_of_reportWithin hq
  have hclean := of_decide_eq_true hclean
  refine ⟨hplain, hagrees, hall, rfl, hcareful, r, a, hr, ha, hclean, fun i => ?_⟩
  obtain ⟨e, he, _, hsafe⟩ := (never_commits_of_clean hplain hagrees hall rfl hr hcareful ha hclean).2 i
  exact ⟨e, (Explored.of_filter_eq_singleton he).1, hsafe⟩

/-! ### A divisor that is met late -/

/-- Whether a function has one path only, and its run on an input of this path commits a violation. -/
def commitsWithin (c : Context) (i : Input) (k : Checker) (n : Nat) (name : String) : Bool :=
  (c.onlyPath? n name).any fun x =>
    i.loads c.project x.2.placement && decide (i.Satisfies x.2) &&
      ((c.project.routine? name).bind fun r => i.start? c.project.layout r x.1).any fun c₀ =>
        (List.range n).any fun j => (Concrete.after c.project x.2.placement j c₀).any fun d =>
          decide (Concrete.Commits c.project x.2.placement d k)

/-- A run that is seen to commit a violation commits it along the path of its input. -/
theorem exists_commits_of_within {i : Input} {k : Checker} {n : Nat} (h : c.commitsWithin i k n name = true)
    (hdefines : c.Defines name r) (ha : c.analyze name = .ok a) : ∃ e ∈ a.exploration.paths, ∃ stack c₀ j d,
      i.Satisfies e.path ∧ c.Takes name stack e.path ∧ i.Loads c.project e.path.placement ∧
        i.start? c.project.layout r stack = some c₀ ∧ Concrete.after c.project e.path.placement j c₀ = some d ∧
          Concrete.Commits c.project e.path.placement d k := by
  obtain ⟨x, honly, hfacts⟩ := (Option.any_eq_true _ _).mp h
  simp only [Bool.and_eq_true, decide_eq_true_iff, hdefines.routine, Option.bind_some] at hfacts
  obtain ⟨⟨hloads, hi⟩, hruns⟩ := hfacts
  obtain ⟨c₀, hstart, hruns⟩ := (Option.any_eq_true _ _).mp hruns
  obtain ⟨j, _, hruns⟩ := List.any_eq_true.mp hruns
  obtain ⟨d, hd, hcommits⟩ := (Option.any_eq_true _ _).mp hruns
  obtain ⟨htakes, hpaths⟩ := of_onlyPath? honly
  have hmem : x.2 ∈ a.exploration.paths.map (·.path) := by
    rw [hpaths _ (of_analyze ha).1]
    exact List.mem_singleton_self _
  obtain ⟨e, he, hpath⟩ := List.mem_map.mp hmem
  rw [← hpath] at hi hloads htakes hd hcommits
  exact ⟨e, he, x.1, c₀, j, d, hi, htakes, Input.loads_of_check hloads, hstart, hd, of_decide_eq_true hcommits⟩

/-- A function that divides by what the variable holds: zero, but one at first. -/
def dividing : Module :=
  late 1 0 [⟨"q", .arith .udiv [] (.constant (.int 32) (.int 1)) (.register "x")⟩, ⟨"", .ret (some (.register "q"))⟩]

/-- Nothing is found in the function, though its run divides by zero. -/
theorem clean_dividing : (ofModule dividing).Plain ∧ (∀ k, k ∈ (ofModule dividing).checkers) ∧
    (ofModule dividing).config.nullChecking = true ∧ (ofModule dividing).Settled "main" ∧
    ∃ r a, (ofModule dividing).Defines "main" r ∧ (ofModule dividing).analyze "main" = .ok a ∧ a.report.Clean ∧
      ∃ (i : Input), ∃ e ∈ a.exploration.paths, ∃ stack c₀ j d, i.Satisfies e.path ∧
        (ofModule dividing).Takes "main" stack e.path ∧ i.Loads (ofModule dividing).project e.path.placement ∧
          i.start? (ofModule dividing).project.layout r stack = some c₀ ∧
            Concrete.after (ofModule dividing).project e.path.placement j c₀ = some d ∧
              Concrete.Commits (ofModule dividing).project e.path.placement d .divisionByZero := by
  have hplain : (ofModule dividing).Plain := plain_ofModule (by decide +kernel) (by decide +kernel)
  have hsettled : (ofModule dividing).Settled "main" := settled_of_checkWithin (n := 10) (by decide +kernel)
  have hdefined : ∃ r, (ofModule dividing).Defines "main" r := exists_defines (by decide +kernel)
  obtain ⟨r, hr⟩ := hdefined
  obtain ⟨q, hq, hclean⟩ := (Option.any_eq_true _ _).mp
    (show (((ofModule dividing).reportWithin 10 "main").any fun q => decide q.Clean) = true by decide +kernel)
  obtain ⟨a, _, ha, rfl, _⟩ := analyze_of_reportWithin hq
  exact ⟨hplain, mem_checkers_ofModule dividing, rfl, hsettled, r, a, hr, ha, of_decide_eq_true hclean, lateInput 1,
    exists_commits_of_within (n := 10) (by decide +kernel) hr ha⟩

end Context

end PathSafety
