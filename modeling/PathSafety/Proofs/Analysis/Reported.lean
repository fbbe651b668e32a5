import PathSafety.Proofs.Analysis.Evaluate
import PathSafety.Proofs.Path.Defects

/-!
# Every path has its report

A path is reported with how it ended itself: where an instruction fails, this is the result of its path and of no
other one. Only a defect has no place in a report, and the analysis of the function ends with it. All that is left are
those of operations: that of a division where constants are divided by zero and divisions are not checked, and in a
well-typed project with proper accesses no other one.

Contents:

* `Context.ReportsEach`, `Context.Reports` — reports in which each path has its own result;
* `Context.StopsAt` — that exploring a function comes upon a defect;
* `Context.reports_or_stops` — one of both is the case.
-/

namespace PathSafety

open IR Machine

/-! ## Beginnings -/

namespace Start

variable {p : Project} {name : String} {start : Start p}

/-- Pointers of a machine are no reason not to explore. -/
theorem of_ne_pointerWidth (hmachine : (Setting.mk p true).hasMachine = true) (n : Nat) :
    Start.of p name ≠ .error (.pointerWidth n) := by
  intro h
  unfold Start.of at h
  split at h
  · cases h
  · simp only [hmachine, Bool.not_true, Bool.false_eq_true, if_false] at h
    split at h
    · cases h
    · split at h
      · cases h
      · cases h
      · split at h
        · cases h
        · cases h

end Start

/-! ## Reports -/

/-- The analysis ends with the defect of a path. -/
theorem Explored.exists_of_all_error {paths : List Path} {d : Defect} (h : all paths = .error d) :
    ∃ path ∈ paths, path.ending = .defect d := by
  induction paths with
  | nil => cases h
  | cons path paths ih =>
    unfold all at h
    cases hending : path.ending with
    | defect d' =>
      rw [hending] at h
      obtain rfl := Except.error.inj h
      exact ⟨path, List.mem_cons_self, hending⟩
    | outcome o | fault f =>
      rw [hending] at h
      cases hall : all paths with
      | error d' =>
        rw [hall] at h
        obtain rfl := Except.error.inj h
        exact (ih hall).imp fun q hq => ⟨List.mem_cons_of_mem _ hq.1, hq.2⟩
      | ok xs =>
        rw [hall] at h
        cases h

namespace Context

/-- That a report has each of some paths in its place, with how this path ended. A fault makes it a violation or has
aborted it. -/
structure ReportsEach (c : Context) (paths : List Path) (r : Report) : Prop where
  length : r.paths.length = paths.length
  own : ∀ (i : Nat) (path : Path), paths[i]? = some path → ∃ x, path.ending.result? = some x ∧
    r.paths[i]? = some (.of c.checkers i x path.blocks)
  failed : ∀ (i : Nat) (path : Path) (f : Fault), paths[i]? = some path → path.ending = .fault f →
    ∃ q, r.paths[i]? = some q ∧ (q ∈ r.violations ∨ q ∈ r.aborted)

/-- That a report says why a function could not be explored, or has each of its paths. -/
inductive Reports (c : Context) (name : String) (r : Report) : Prop
  | unexplored {f : Fault} (hstart : Start.of c.project name = .error (.fault f)) (errors : r.errors = [f.message])
    (paths : r.paths = []) : Reports c name r
  | explored {start : Start c.project} (hstart : Start.of c.project name = .ok start) (errors : r.errors = [])
    (each : c.ReportsEach (c.engine.pathsOf start) r) : Reports c name r

/-- That exploring a function comes to a state whose path ends in a defect. -/
def StopsAt (c : Context) (name : String) (d : Defect) (st : State c.project) : Prop :=
  ∃ start first path, Start.of c.project name = .ok start ∧ start.first.enter c.engine.loopBound = .ok first ∧
    c.engine.Reaches first st ∧ c.engine.step st = .finish path ∧ path.ending = .defect d

variable {project : Project} {config : Config} {c : Context} {name : String} {start : Start c.project} {d : Defect}

/-- A path that ended by a fault is reported as a violation or as aborted. -/
theorem passed_or_aborted (checkers : List Checker) (i : Nat) (f : Fault) (blocks : List BlockId) :
    (PathReport.of checkers i (.fault f) blocks).verdict.passed = false ∨
      (PathReport.of checkers i (.fault f) blocks).aborted = true := by
  cases hpassed : (Checker.verdict checkers (.fault f)).passed with
  | false => exact Or.inl hpassed
  | true => exact Or.inr (Bool.and_eq_true_iff.mpr ⟨hpassed, rfl⟩)

/-- What was explored is reported path by path. -/
theorem reportsEach_of_all {xs : List Explored} {x : Exploration} {paths : List Path} (hall : Explored.all paths = .ok xs)
    (hx : x.paths = xs) : c.ReportsEach paths (c.report name x) := by
  obtain ⟨rfl, hfaithful⟩ := Explored.all_eq hall
  -- The report numbers the paths in the order of the exploration and drops none.
  have hreport : ∀ (i : Nat) (y : Explored), xs[i]? = some y →
      (c.report name x).paths[i]? = some (.of c.checkers i y.result y.path.blocks) := by
    intro i y hy
    unfold report
    dsimp only
    rw [hx, List.getElem?_mapIdx, hy, Option.map_some]
  refine ⟨?_, fun i path hpath => ?_, fun i path f hpath hf => ?_⟩
  · unfold report
    dsimp only
    rw [hx, List.length_mapIdx, List.length_map]
  · rw [List.getElem?_map] at hpath
    obtain ⟨y, hy, rfl⟩ := Option.map_eq_some_iff.mp hpath
    refine ⟨y.result, ?_, hreport i y hy⟩
    rcases hfaithful y (List.mem_of_getElem? hy) with ⟨o, ho, hr⟩ | ⟨f, hf, hr⟩
    · rw [ho, hr]
      rfl
    · rw [hf, hr]
      rfl
  · rw [List.getElem?_map] at hpath
    obtain ⟨y, hy, rfl⟩ := Option.map_eq_some_iff.mp hpath
    refine ⟨_, hreport i y hy, ?_⟩
    have hmem := List.mem_of_getElem? (hreport i y hy)
    have hresult : y.result = .fault f := (hfaithful y (List.mem_of_getElem? hy)).result_of_fault hf
    rw [hresult] at hmem ⊢
    rcases passed_or_aborted c.checkers i f y.path.blocks with hpassed | haborted
    · exact Or.inl (List.mem_filter.mpr ⟨hmem, by rw [hpassed]; rfl⟩)
    · exact Or.inr (List.mem_filter.mpr ⟨hmem, haborted⟩)

/-- **Every path has its report**, or exploring the function comes upon a defect: that of an operation, and if it is
that of a division, constants are divided by zero and divisions are not checked. In a well-typed project with proper
accesses there is no other defect. -/
theorem reports_or_stops (hmake : make project config Registry.sandbox = .ok c)
    (hmachine : c.engine.setting.hasMachine = true) (name : String) :
    (∃ a, c.analyze name = .ok a ∧ c.Reports name a.report) ∨
      ∃ d st, c.analyze name = .error (.defect d) ∧ c.StopsAt name d st ∧ d.isOperation = true ∧
        (d = .divisionByZero → c.engine.DividesByZero st ∧ .divisionByZero ∉ c.checkers) ∧
        (c.Plain → c.Careful False name → d = .divisionByZero) := by
  have hbuiltin : c.engine.BuiltIn := builtIn_of_make Registry.builtIn_sandbox hmake
  cases hstart : Start.of c.project name with
  | error err =>
    cases err with
    | pointerWidth n => exact absurd hstart (Start.of_ne_pointerWidth hmachine n)
    | fault f =>
      refine Or.inl ⟨⟨{ fault := some f }, c.report name { fault := some f }⟩, ?_, .unexplored hstart rfl rfl⟩
      unfold analyze explore
      rw [hstart]
      rfl
  | ok start =>
    cases hall : Explored.all (c.engine.explore start.first) with
    | ok xs =>
      -- no path ended in a defect
      let x : Exploration := { args := start.args, paths := xs }
      refine Or.inl ⟨⟨x, c.report name x⟩, ?_, .explored hstart rfl ?_⟩
      · unfold analyze
        rw [explore_eq hstart, hall]
        rfl
      · rw [Engine.pathsOf_eq]
        exact reportsEach_of_all hall rfl
    | error d =>
      obtain ⟨path, hpath, hd⟩ := Explored.exists_of_all_error hall
      cases hin : start.first.enter c.engine.loopBound with
      | error path' =>
        -- not even the entry may be entered, which is a fault
        rw [Engine.explore_of_error hin] at hpath
        obtain rfl := List.mem_singleton.mp hpath
        rw [(Arrival.of_enter_error hin).2.2] at hd
        cases hd
      | ok first =>
        rw [Engine.explore_of_ok hin] at hpath
        have hfirst : first.machine.condition.Feasible := by
          rw [Arrival.eq_of_enter hin]
          exact Start.feasible_first hstart
        obtain ⟨st, hreaches, hfinish, hoperation, hdivides⟩ := Engine.exists_of_defect hbuiltin hfirst hpath hd
        refine Or.inr ⟨d, st, ?_, ⟨start, first, path, hstart, hin, hreaches, hfinish, hd⟩, hoperation, ?_, ?_⟩
        · unfold analyze
          rw [explore_eq hstart, hall]
          rfl
        · intro hd
          refine ⟨(hdivides hd).1, fun hchecked => (hdivides hd).2 ?_⟩
          rw [monitors_of_make hmake]
          exact List.mem_filterMap.mpr ⟨.divisionByZero, hchecked, rfl⟩
        · -- a well-typed project: the states that come up are good, so nothing but a division is left
          intro hplain hcareful
          obtain ⟨r, _, _, _, _, hr, hbody, _⟩ := Start.exists_of_ok hstart
          obtain ⟨start', T, hstart', hbegins⟩ := exists_start hplain.engine hplain.machine hr hbody
          obtain rfl := Except.ok.inj (hstart'.symm.trans hstart)
          have hgood := hbegins.good
          rw [← Arrival.eq_of_enter hin] at hgood
          exact Engine.divisionByZero_of_defect hplain.engine hplain.monitors hgood (hcareful start' hstart first hin)
            hreaches hfinish hd

/-! ### A function that divides one by zero -/

/-- The defect of a function, if all of its paths end within some steps. -/
def defectWithin (c : Context) (n : Nat) (name : String) : Option Defect :=
  (c.pathsWithin n name).bind fun l =>
    match Explored.all (l.map (·.2)) with
    | .ok _ => none
    | .error d => some d

/-- What is computed is the defect that the analysis ends with. -/
theorem analyze_of_defectWithin {n : Nat} (h : c.defectWithin n name = some d) :
    c.analyze name = .error (.defect d) := by
  obtain ⟨l, hl, h⟩ := Option.bind_eq_some_iff.mp h
  obtain ⟨start, hstart, hpaths, _⟩ := paths_of_pathsWithin hl
  split at h
  · cases h
  · rename_i d' hd
    obtain rfl := Option.some.inj h
    unfold analyze
    rw [explore_eq hstart, hpaths, hd]
    rfl

/-- A block that divides one by zero. -/
def byZero : Block :=
  ⟨"yes", [
    ⟨"q", .arith .udiv [] (.constant (.int 32) (.int 1)) (.constant (.int 32) (.int 0))⟩,
    ⟨"", .ret (some (.register "q"))⟩]⟩

/-- A function that divides one by zero if it is told to. -/
def perhapsByZero : Module :=
  ⟨[], [⟨"main", .int 32, [("x", .int 1)], false, [
    ⟨"entry", [⟨"", .condBr (.register "x") "yes" "no"⟩]⟩,
    byZero,
    ⟨"no", [⟨"", .ret (some (.constant (.int 32) (.int 0)))⟩]⟩]⟩]⟩

/-- Where divisions are watched, both paths of the function are reported. -/
theorem reports_perhapsByZero : (ofModule perhapsByZero).engine.setting.hasMachine = true ∧
    ∃ a, (ofModule perhapsByZero).analyze "main" = .ok a ∧ (ofModule perhapsByZero).Reports "main" a.report := by
  have hplain : (ofModule perhapsByZero).Plain := plain_ofModule (by decide +kernel) (by decide +kernel)
  have hcareful : (ofModule perhapsByZero).Careful False "main" := careful_of_not_mayAccess (by decide +kernel)
  refine ⟨rfl, ?_⟩
  rcases reports_or_stops (make_ofModule perhapsByZero) rfl "main" with h | ⟨d, st, _, _, _, hdivides, hwelltyped⟩
  · exact h
  · obtain ⟨_, hunchecked⟩ := hdivides (hwelltyped hplain hcareful)
    exact absurd (mem_checkers_ofModule perhapsByZero .divisionByZero) hunchecked

/-- A function that divides one by zero. -/
def alwaysByZero : Module := ⟨[], [⟨"main", .int 32, [], false, [byZero]⟩]⟩

/-- Where divisions are not watched, the function has no report. -/
theorem analyze_unchecked_alwaysByZero :
    (unchecked alwaysByZero).analyze "main" = .error (.defect .divisionByZero) :=
  analyze_of_defectWithin (n := 3) (by decide +kernel)

end Context

end PathSafety
