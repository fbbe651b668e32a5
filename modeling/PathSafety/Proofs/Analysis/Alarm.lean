import PathSafety.Proofs.Analysis.Safe

/-!
# Reported violations

A violation that is reported of a path happens on some input of the path: the run goes through the blocks of the
path, and commits the violation before it enters another one.

Contents:

* `exists_of_verdict` — the violation of a path is the one that is reported, whichever checkers are asked;
* `Context.Roomy` — functions whose numbers stay within those that pointers hold;
* `exists_run_of_violation` — a reported violation happens;
* `Context.typesFit`, `roomy_of_dividesAfter` — functions that are seen to be roomy.

Reading from a variable that the path meets later makes a difference as well: what is read is unknown to the path, but
in a run it is the initial value.
-/

namespace PathSafety

open IR Machine

/-! ## Verdicts -/

namespace Fault

variable {f : Fault} {k : Checker} {message : String}

theorem judge_null_eq_none (h : f.kind = .divisionByZero ∨ f.kind = .outOfBounds) :
    Checker.nullDereference.judge f = none := by
  unfold Checker.judge
  split
  · rcases h with h | h <;> cases h
  · rw [if_neg (by rcases h with h | h <;> rw [h] <;> decide)]
  all_goals contradiction

theorem judge_division (f : Fault) :
    Checker.divisionByZero.judge f = if f.kind = .divisionByZero then some f.message else none := by
  cases f <;> rfl

theorem judge_outOfBounds (f : Fault) :
    Checker.outOfBounds.judge f = if f.kind = .outOfBounds then some f.message else none := by
  cases f <;> rfl

/-- Only one checker finds a violation in a fault. -/
theorem violation?_of_judge (h : k.judge f = some message) : f.violation? = some k := by
  unfold violation? Checker.verdict Checker.all
  simp only [List.findSome?_cons, Result.fault?, Option.bind_some]
  cases k with
  | nullDereference =>
    rw [h]
    rfl
  | divisionByZero =>
    have hkind : f.kind = .divisionByZero := by
      rw [judge_division] at h
      exact Decidable.byContradiction fun hne =>
        Option.some_ne_none message ((if_neg hne).symm.trans h).symm
    rw [judge_null_eq_none (Or.inl hkind), h]
    rfl
  | outOfBounds =>
    have hkind : f.kind = .outOfBounds := by
      rw [judge_outOfBounds] at h
      exact Decidable.byContradiction fun hne =>
        Option.some_ne_none message ((if_neg hne).symm.trans h).symm
    rw [judge_null_eq_none (Or.inr hkind), judge_division, if_neg (by rw [hkind]; decide), h]
    rfl

/-- The violation that is reported of a result is that of its fault, whichever checkers are asked. -/
theorem exists_of_verdict {checkers : List Checker} {r : Result} (h : (Checker.verdict checkers r).kind = some k) :
    ∃ f, r = .fault f ∧ f.violation? = some k := by
  unfold Checker.verdict at h
  cases hfound : checkers.findSome? fun c => (r.fault?.bind c.judge).map fun m => (⟨some c, m⟩ : Verdict) with
  | none =>
    rw [hfound] at h
    cases h
  | some v =>
    rw [hfound] at h
    obtain ⟨c, _, hc⟩ := List.exists_of_findSome?_eq_some hfound
    obtain ⟨message, hjudge, rfl⟩ := Option.map_eq_some_iff.mp hc
    obtain rfl := Option.some.inj h
    obtain ⟨f, hf, hjudge⟩ := Option.bind_eq_some_iff.mp hjudge
    cases r with
    | fault g =>
      obtain rfl := Option.some.inj hf
      exact ⟨g, rfl, violation?_of_judge hjudge⟩
    | _ => cases hf

end Fault

namespace Context

variable {c : Context} {name : String} {r : Routine} {a : Analysis}

/-! ## Reported violations -/

/-- That numbers stay within those that pointers hold: addresses do not run out on the paths of a function, and no
type of an address computation is larger than memory. -/
structure Roomy (c : Context) (name : String) : Prop where
  next : ∀ x, c.explore name = .ok x → ∀ e ∈ x.paths,
    e.path.machine.nextAddress ≤ 2 ^ c.project.layout.pointerBits
  sizes : ∀ r ∈ c.project.routines, ∀ b ∈ r.function.blocks, ∀ i ∈ b.instrs, ∀ pointer written indices n,
    i.op = .gep true pointer written indices →
      Concrete.size? c.project.layout (r.scope.accessType pointer written) = some n →
        n < 2 ^ c.project.layout.pointerBits

/-- **Reported violations** happen: some input of the path has a run that goes through the blocks of the report and
commits the violation before it enters another one. -/
theorem exists_run_of_violation (hc : c.Plain) (hagrees : c.project.agrees = true) (hdefines : c.Defines name r)
    (hcareful : c.Careful True name) (hroomy : c.Roomy name) (ha : c.analyze name = .ok a) {q : PathReport}
    (hq : q ∈ a.report.paths) {k : Checker} (hk : q.verdict.kind = some k) :
    ∃ e ∈ a.exploration.paths, q.blocks = e.path.blocks.map BlockId.text ∧ (∃ stack, c.Takes name stack e.path) ∧
      ∀ stack, c.Takes name stack e.path → ∃ (i : Input) (c₀ c₁ : Concrete.Config) (n : Nat),
        i.Satisfies e.path ∧ i.Loads c.project e.path.placement ∧ i.start? c.project.layout r stack = some c₀ ∧
          Concrete.after c.project e.path.placement n c₀ = some c₁ ∧ c₁.trail.reverse = e.path.blocks ∧
            Concrete.Commits c.project e.path.placement c₁ k := by
  obtain ⟨hexplore, hreport⟩ := of_analyze ha
  obtain ⟨start, T, hstart, hbegins⟩ := exists_start hc.engine hc.machine hdefines.routine hdefines.body
  rw [hreport] at hq
  obtain ⟨j, hj, rfl⟩ := List.mem_mapIdx.mp hq
  have hmem : a.exploration.paths[j] ∈ a.exploration.paths := List.getElem_mem hj
  obtain ⟨hpaths, hfaithful⟩ := Explored.all_eq (all_of_explore hstart hexplore).1
  -- The verdict names a checker only for a fault, so the path ends in one that this checker
  -- reports.
  obtain ⟨f, hf, hviolation⟩ := Fault.exists_of_verdict hk
  have hending : a.exploration.paths[j].path.ending = .fault f := by
    rcases hfaithful _ hmem with ⟨o, _, ho⟩ | ⟨g, hg, hgf⟩
    · rw [hf] at ho
      cases o <;> cases ho
    · rw [hf] at hgf
      exact hg.trans (congrArg Ending.fault (Result.fault.inj hgf).symm)
  refine ⟨_, hmem, rfl, ?_, fun stack htakes => ?_⟩
  · have hpath : a.exploration.paths[j].path ∈ c.engine.explore start.first := by
      rw [← hpaths]
      exact List.mem_map_of_mem hmem
    obtain ⟨stack, htakes⟩ := Engine.exists_takesFrom hpath
    exact ⟨stack, start, hstart, htakes⟩
  · obtain ⟨start', hstart', htakes⟩ := htakes
    obtain rfl := Except.ok.inj (hstart'.symm.trans hstart)
    obtain ⟨i, c₀, c₁, hi, hloads, hbegin, harrives, hcommits⟩ := exists_alarmed (D := True) hc.engine hc.monitors
      hagrees (Or.inl trivial) hbegins (hcareful start' hstart') htakes hending hviolation (hroomy.next _ hexplore _ hmem)
      hroomy.sizes
    obtain ⟨n, hn, _⟩ := harrives.passes.after
    exact ⟨i, c₀, c₁, n, hi, hloads, hbegin, hn, congrArg List.reverse harrives.trail, hcommits⟩

/-! ### A function that divides by what it is given -/

/-- Whether no type of an address computation of a project is larger than memory. -/
def typesFit (p : Project) : Bool :=
  p.routines.all fun r => r.function.blocks.all fun b => b.instrs.all fun i =>
    match i.op with
    | .gep true pointer written _ =>
      (Concrete.size? p.layout (r.scope.accessType pointer written)).all fun n =>
        decide (n < 2 ^ p.layout.pointerBits)
    | _ => true

variable {check : Access → Machine → Bool} {ν : Valuation} {ms : List Monitor} {n : Nat}

/-- A function that divides by zero is roomy if there is room until then. -/
theorem roomy_of_dividesAfter
    (h : c.dividesAfter check (fun m => decide (m.nextAddress ≤ 2 ^ c.project.layout.pointerBits)) ν n name = true)
    (hmonitors : c.engine.monitors = Checker.watchDivision :: ms) (htypes : typesFit c.project = true) :
    c.Roomy name where
  next x hx e he := by
    obtain ⟨start, _, path, m, _, _, hstart, _, hexplore, _, _, hnext, htest, _⟩ :=
      exists_path_of_dividesAfter h hmonitors
    have hmem : e.path ∈ x.paths.map (·.path) := List.mem_map_of_mem he
    rw [(Explored.all_eq (all_of_explore hstart hx).1).1, hexplore, List.mem_singleton] at hmem
    rw [hmem, hnext]
    exact of_decide_eq_true htest
  sizes r hr b hb i hi pointer written indices n hop hn := by
    have hfits := List.all_eq_true.mp (List.all_eq_true.mp (List.all_eq_true.mp htypes r hr) b hb) i hi
    rw [hop] at hfits
    dsimp only at hfits
    rw [hn, Option.all_some] at hfits
    exact of_decide_eq_true hfits

/-- Functions that divide by zero are careful if their accesses until then are whole. -/
theorem careful_of_dividesAfter {test : Machine → Bool}
    (h : c.dividesAfter (fun x m => metAll c.project m && x.whole m) test ν n name = true)
    (hmonitors : c.engine.monitors = Checker.watchDivision :: ms) {all : Prop} : c.Careful all name := by
  obtain ⟨start, st, _, _, _, _, hstart, hin, _, _, _, _, _, hchecks⟩ := exists_path_of_dividesAfter h hmonitors
  intro start' hstart' st' hin' st₁ hst₁ path _ i hi m hwatch l m' hl x hx
  obtain rfl := Except.ok.inj (hstart'.symm.trans hstart)
  obtain rfl := Except.ok.inj (hin'.symm.trans hin)
  obtain ⟨hmet, hwhole⟩ := Bool.and_eq_true_iff.mp (hchecks st₁ hst₁ i hi m hwatch l m' hl x hx)
  exact Access.proper_of_whole hmet hwhole

/-- A function that divides what a variable holds, which it finds through a converted address, by what it is given. -/
def zeroDivisor : Module :=
  ⟨[⟨"g", .int 32, some (.constant (.int 32) (.int 7))⟩], [⟨"main", .int 32, [("x", .int 32)], false, [
    ⟨"entry", [
      ⟨"y", .load (.constant (.ptrTo (.int 32) 0) (.expression "bitcast (i32* @\"g\" to i32*)")) (some (.int 32))⟩,
      ⟨"q", .arith .udiv [] (.register "y") (.register "x")⟩,
      ⟨"", .ret (some (.register "q"))⟩]⟩]⟩]⟩

/-- A division by zero is reported of the function, and a run makes it. -/
theorem exists_run_zeroDivisor : (ofModule zeroDivisor).Plain ∧ (ofModule zeroDivisor).project.agrees = true ∧
    (ofModule zeroDivisor).Careful True "main" ∧ (ofModule zeroDivisor).Roomy "main" ∧
    ∃ r a q, (ofModule zeroDivisor).Defines "main" r ∧
      (ofModule zeroDivisor).analyze "main" = .ok a ∧ q ∈ a.report.paths ∧ q.verdict.kind = some .divisionByZero ∧
        ∃ e ∈ a.exploration.paths, ∀ stack, (ofModule zeroDivisor).Takes "main" stack e.path →
          ∃ (i : Input) (c₀ c₁ : Concrete.Config) (n : Nat), i.Satisfies e.path ∧
            i.start? (ofModule zeroDivisor).project.layout r stack = some c₀ ∧
              Concrete.after (ofModule zeroDivisor).project e.path.placement n c₀ = some c₁ ∧
                c₁.trail.reverse = e.path.blocks ∧
                  Concrete.Commits (ofModule zeroDivisor).project e.path.placement c₁ .divisionByZero := by
  have hplain : (ofModule zeroDivisor).Plain := plain_ofModule (by decide +kernel) (by decide +kernel)
  have hagrees : (ofModule zeroDivisor).project.agrees = true := by decide +kernel
  have hdefined : ∃ r, (ofModule zeroDivisor).Defines "main" r := exists_defines (by decide +kernel)
  obtain ⟨r, hr⟩ := hdefined
  have hdivides : (ofModule zeroDivisor).dividesAfter
      (fun x m => metAll (ofModule zeroDivisor).project m && x.whole m)
      (fun m => decide (m.nextAddress ≤ 2 ^ (ofModule zeroDivisor).project.layout.pointerBits))
      (fun _ => 0) 1 "main" = true := by decide +kernel
  have hcareful : (ofModule zeroDivisor).Careful True "main" := careful_of_dividesAfter hdivides rfl
  have hroomy := roomy_of_dividesAfter hdivides rfl (by decide +kernel)
  obtain ⟨a, _, _, ha, _, _, _, _, q, hq, hkind⟩ := exists_report_of_dividesAfter hdivides rfl rfl
  obtain ⟨e, he, _, _, hruns⟩ := exists_run_of_violation hplain hagrees hr hcareful hroomy ha hq hkind
  refine ⟨hplain, hagrees, hcareful, hroomy, r, a, q, hr, ha, hq, hkind, e, he, fun stack htakes => ?_⟩
  obtain ⟨i, c₀, c₁, n, hi, _, hstart, hafter, htrail, hcommits⟩ := hruns stack htakes
  exact ⟨i, c₀, c₁, n, hi, hstart, hafter, htrail, hcommits⟩

/-! ### A divisor that is met late -/

/-- Functions that divide by zero are settled if their accesses until then go to constant addresses. -/
theorem settled_of_dividesAfter {test : Machine → Bool}
    (h : c.dividesAfter (fun x _ => x.constant) test ν n name = true)
    (hmonitors : c.engine.monitors = Checker.watchDivision :: ms) : c.Settled name := by
  obtain ⟨start, st, _, _, _, _, hstart, hin, _, _, _, _, _, hchecks⟩ := exists_path_of_dividesAfter h hmonitors
  intro start' hstart' st' hin' st₁ hst₁ i hi m hwatch l m' hl x hx
  obtain rfl := Except.ok.inj (hstart'.symm.trans hstart)
  obtain rfl := Except.ok.inj (hin'.symm.trans hin)
  have hsingle := Access.single_of_constant (m := m') (hchecks st₁ hst₁ i hi m hwatch l m' hl x hx)
  exact ⟨fun _ => hsingle, fun _ => hsingle.near⟩

/-- A function that divides by what the variable holds: one, but zero at first. -/
def spared : Module :=
  late 0 1 [⟨"q", .arith .udiv [] (.constant (.int 32) (.int 1)) (.register "x")⟩, ⟨"", .ret (some (.register "q"))⟩]

/-- Where the analysis puts the variable. -/
def atStart : Concrete.Placement := fun n => if n = "g" then some 268435456 else none

/-- The function stores at this address. -/
theorem operand_stored (rs : Concrete.Registers) : Concrete.operand (projectOf spared) atStart rs
    (.constant (.ptrTo (.int 32) 0) (.expression "inttoptr (i64 268435456 to i32*)")) = some (.ofNat 64 268435456) := by
  have hnumber : Concrete.expression (projectOf spared) atStart 33 "inttoptr (i64 268435456 to i32*)".toList 64 =
    some (.ofNat 64 268435456) := by decide +kernel
  exact hnumber

/-- The runs of the function do not divide by zero, whatever is in memory at first. -/
theorem sparesWithin_spared {i : Input} {stack : List Nat} {c₀ : Concrete.Config}
    (hr : (projectOf spared).routine? "main" = some r) (hstart : i.start? (projectOf spared).layout r stack = some c₀) :
    Concrete.sparesWithin (projectOf spared) atStart .divisionByZero 5 c₀ = true := by
  obtain rfl := Option.some.inj hr
  obtain rfl := Option.some.inj hstart
  -- the block is entered, and its four instructions follow
  refine Concrete.sparesWithin_of_go rfl rfl ?_
  refine Concrete.sparesWithin_of_go rfl (Concrete.step_store rfl rfl rfl rfl (operand_stored _)) ?_
  refine Concrete.sparesWithin_of_go rfl rfl ?_
  refine Concrete.sparesWithin_of_go rfl rfl ?_
  exact Concrete.sparesWithin_of_halt rfl rfl

/-- A division by zero is reported, but no run makes it. -/
theorem reported_spared : (ofModule spared).Plain ∧ (ofModule spared).Settled "main" ∧
    ∃ r a q, (ofModule spared).Defines "main" r ∧ (ofModule spared).analyze "main" = .ok a ∧ q ∈ a.report.paths ∧
      q.verdict.kind = some .divisionByZero ∧ ∀ e ∈ a.exploration.paths, ∀ (i : Input) stack c₀ n d,
        i.start? (ofModule spared).project.layout r stack = some c₀ →
          Concrete.after (ofModule spared).project e.path.placement n c₀ = some d →
            ¬ Concrete.Commits (ofModule spared).project e.path.placement d .divisionByZero := by
  have hplain : (ofModule spared).Plain := plain_ofModule (by decide +kernel) (by decide +kernel)
  have hdefined : ∃ r, (ofModule spared).Defines "main" r := exists_defines (by decide +kernel)
  obtain ⟨r, hr⟩ := hdefined
  have hdivides : (ofModule spared).dividesAfter (fun x _ => x.constant)
      (fun m => decide (m.addresses.keys = ["g"]) &&
        decide ((m.addresses.get? "g").bind Value.const? = some 268435456)) (fun _ => 0) 2 "main" = true := by
    decide +kernel
  -- The alarm is raised on the one path there is, whose placement is the one the concrete run was
  -- checked under.
  obtain ⟨a, path, m, ha, hpaths, haddresses, _, htest, q, hq, hkind⟩ := exists_report_of_dividesAfter hdivides rfl rfl
  rw [Bool.and_eq_true, decide_eq_true_iff, decide_eq_true_iff, ← haddresses] at htest
  refine ⟨hplain, settled_of_dividesAfter hdivides rfl, r, a, q, hr, ha, hq, hkind, fun e he i stack c₀ n d hstart hd => ?_⟩
  have hmem : e.path ∈ a.exploration.paths.map (·.path) := List.mem_map_of_mem he
  rw [hpaths, List.mem_singleton] at hmem
  rw [hmem, Path.placement_eq htest.1 htest.2] at hd ⊢
  exact Concrete.not_commits_of_sparesWithin (sparesWithin_spared hr.routine hstart) hd

end Context

end PathSafety
