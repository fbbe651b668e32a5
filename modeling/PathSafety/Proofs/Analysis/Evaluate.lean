import PathSafety.Proofs.Analysis.Basic
import PathSafety.Proofs.Concrete.Evaluate
import PathSafety.Proofs.Path.Evaluate

/-!
# Analyses that can be computed

Where the paths of a function end within a known number of steps, its report can be computed, and that its
accesses are proper.

Contents:

* `Context.ofModule`, `bounded`, `unchecked` — what a module is analyzed with, unless something else is asked for;
* `Context.pathsWithin`, `Context.reportWithin` — the paths of a function and the report of its analysis;
* `Context.onlyPath?` — the path of a function that has one only;
* `Context.checkWithin` — checks of all accesses on the paths of a function;
* `Context.dividesAfter`, `exists_report_of_dividesAfter` — functions that are seen to divide by zero;
* `Context.branchesTo`, `exists_arrival_of_branchesTo` — functions that are seen to branch.
-/

namespace PathSafety

open IR Machine

/-- Where a path put the only global value that it met. -/
theorem Path.placement_eq {path : Path} {name : String} {a : Nat} (hkeys : path.machine.addresses.keys = [name])
    (hname : path.placement name = some a) : path.placement = fun n => if n = name then some a else none := by
  funext n
  by_cases hn : n = name
  · rw [hn, if_pos rfl, hname]
  · rw [if_neg hn]
    have hnot : n ∉ path.machine.addresses := by
      rw [← Std.TreeMap.mem_keys, hkeys, List.mem_singleton]
      exact hn
    unfold Path.placement
    rw [Std.TreeMap.get?_eq_getElem?, Std.TreeMap.getElem?_eq_none hnot]
    rfl

/-- How the runs on an input end that follow a path, if the path has an outcome. -/
def Path.halt? (i : Input) (path : Path) : Option Concrete.Halt :=
  match path.ending with
  | .outcome o => some (o.halt i)
  | _ => none

namespace Context

variable {c : Context} {name : String} {n : Nat}

/-- The project of one module, where pointers have 64 bits. -/
def projectOf (m : Module) : Project := (Project.ofModules? [m] ⟨[], 64⟩).get rfl

/-- The context of a module where nothing else is asked for. -/
def ofModule (m : Module) : Context where
  project := projectOf m
  config := {}
  checkers := Checker.all
  engine :=
    { hooks := Registry.sandbox.hooks (projectOf m), monitors := Checker.all.filterMap Checker.monitor? }

theorem make_ofModule (m : Module) : make (projectOf m) {} Registry.sandbox = .ok (ofModule m) := by
  have hselect : Checker.select ({} : Config).checkers = .ok Checker.all := rfl
  unfold make
  rw [hselect]
  rfl

/-- The context of a module where only the bounds are asked for. -/
def bounded (m : Module) (loopBound callDepth : Int) : Context :=
  let engine : Engine (projectOf m) := { (ofModule m).engine with loopBound, callDepth }
  { project := projectOf m, config := { loopBound, callDepth }, checkers := Checker.all, engine }

theorem make_bounded (m : Module) (loopBound callDepth : Int) :
    make (projectOf m) { loopBound, callDepth } Registry.sandbox = .ok (bounded m loopBound callDepth) := by
  have hselect : Checker.select ({} : Config).checkers = .ok Checker.all := rfl
  unfold make
  dsimp only
  rw [hselect]
  rfl

/-- The context of a module where nothing is watched. -/
def unchecked (m : Module) : Context where
  project := projectOf m
  config := { checkers := [] }
  checkers := []
  engine := { (ofModule m).engine with monitors := [] }

theorem make_unchecked (m : Module) :
    make (projectOf m) { checkers := [] } Registry.sandbox = .ok (unchecked m) := by
  have hselect : Checker.select [] = .ok [] := rfl
  unfold make
  dsimp only
  rw [hselect]
  rfl

theorem mem_checkers_ofModule (m : Module) (k : Checker) : k ∈ (ofModule m).checkers := by
  have hall : ∀ k, k ∈ Checker.all := by
    intro k
    cases k <;> decide
  exact hall k

/-- What a well-typed module is analyzed with is plain if no function with a body is hooked. -/
theorem plain_of_make {m : Module} {config : Config} {c : Context}
    (hmake : make (projectOf m) config Registry.sandbox = .ok c) (hfits : (projectOf m).fits = true)
    (hhooks : ((projectOf m).routines.all fun r =>
      r.function.isDeclaration || ((Registry.sandbox.hooks (projectOf m)).byName r.function.name).isNone) = true) :
    c.Plain := by
  obtain ⟨checkers, _, rfl⟩ := exists_of_make hmake
  refine ⟨⟨[m], ⟨[], 64⟩, rfl⟩, ⟨_, _, hmake⟩, hfits, rfl, fun r hr hbody => ?_⟩
  have := List.all_eq_true.mp hhooks r hr
  rw [hbody, Bool.false_or] at this
  exact Option.isNone_iff_eq_none.mp this

theorem plain_ofModule {m : Module} (hfits : (projectOf m).fits = true)
    (hhooks : ((projectOf m).routines.all fun r =>
      r.function.isDeclaration || ((Registry.sandbox.hooks (projectOf m)).byName r.function.name).isNone) = true) :
    (ofModule m).Plain := plain_of_make (make_ofModule m) hfits hhooks

/-- A function with a body is the one that is explored. -/
theorem exists_defines (h : (c.project.routine? name).any (fun r => !r.function.isDeclaration) = true) :
    ∃ r, c.Defines name r := by
  obtain ⟨r, hr, hbody⟩ := (Option.any_eq_true _ _).mp h
  exact ⟨r, hr, by simpa using hbody⟩

/-! ## Reports -/

/-- The paths of a function with the addresses that they take, if all of them end within some steps. -/
def pathsWithin (c : Context) (n : Nat) (name : String) : Option (List (List Nat × Path)) :=
  match Start.of c.project name with
  | .error _ => none
  | .ok start =>
    match start.first.enter c.engine.loopBound with
    | .ok st => c.engine.exploreWithin n st
    | .error path => some [([], path)]

/-- What is computed are the paths of a function. -/
theorem paths_of_pathsWithin {l : List (List Nat × Path)} (h : c.pathsWithin n name = some l) :
    ∃ start, Start.of c.project name = .ok start ∧ c.engine.explore start.first = l.map (·.2) ∧
      ∀ x ∈ l, c.Takes name x.1 x.2 := by
  unfold pathsWithin at h
  split at h
  · cases h
  · rename_i start hstart
    refine ⟨start, hstart, ?_⟩
    split at h
    · rename_i st hin
      refine ⟨(Engine.explore_of_ok hin).trans (Engine.exploreWithin_eq h).symm, fun x hx => ⟨start, hstart, ?_⟩⟩
      unfold Engine.TakesFrom
      rw [hin]
      exact Engine.takes_of_exploreWithin h hx
    · rename_i path hin
      obtain rfl := Option.some.inj h
      refine ⟨Engine.explore_of_error hin, fun x hx => ⟨start, hstart, ?_⟩⟩
      obtain rfl := List.mem_singleton.mp hx
      unfold Engine.TakesFrom
      rw [hin]
      exact ⟨rfl, rfl⟩

/-- The path of a function with the addresses that it takes, if it is the only one and ends within some steps. -/
def onlyPath? (c : Context) (n : Nat) (name : String) : Option (List Nat × Path) :=
  match c.pathsWithin n name with
  | some [x] => some x
  | _ => none

theorem of_onlyPath? {x : List Nat × Path} (h : c.onlyPath? n name = some x) :
    c.Takes name x.1 x.2 ∧ ∀ y, c.explore name = .ok y → y.paths.map (·.path) = [x.2] := by
  unfold onlyPath? at h
  split at h
  · rename_i x' hpaths
    obtain rfl := Option.some.inj h
    obtain ⟨start, hstart, hexplore, htakes⟩ := paths_of_pathsWithin hpaths
    refine ⟨htakes _ List.mem_cons_self, fun y hy => ?_⟩
    have hall := (Explored.all_eq (all_of_explore hstart hy).1).1
    exact hall.trans hexplore
  · cases h

/-- The report of a function, if all of its paths end within some steps. -/
def reportWithin (c : Context) (n : Nat) (name : String) : Option Report :=
  (c.pathsWithin n name).bind fun l =>
    match Explored.all (l.map (·.2)) with
    | .ok paths => some (c.report name { paths })
    | .error _ => none

/-- What is computed is the report of the analysis. -/
theorem analyze_of_reportWithin {q : Report} (h : c.reportWithin n name = some q) :
    ∃ a l, c.analyze name = .ok a ∧ a.report = q ∧ c.pathsWithin n name = some l ∧
      a.exploration.paths.map (·.path) = l.map (·.2) := by
  obtain ⟨l, hl, h⟩ := Option.bind_eq_some_iff.mp h
  obtain ⟨start, hstart, hpaths, _⟩ := paths_of_pathsWithin hl
  split at h
  · rename_i xs hxs
    have hexplore : c.explore name = .ok { args := start.args, paths := xs } := by
      rw [explore_eq hstart, hpaths, hxs]
    refine ⟨⟨{ args := start.args, paths := xs }, _⟩, l, ?_, Option.some.inj h, hl, (Explored.all_eq hxs).1⟩
    unfold analyze
    rw [hexplore]
    rfl
  · cases h

/-! ## Accesses -/

/-- Whether a check passes all accesses on the paths of a function, which are followed for some steps. -/
def checkWithin (c : Context) (check : Access → Machine → Bool) (n : Nat) (name : String) : Bool :=
  match Start.of c.project name with
  | .error _ => true
  | .ok start =>
    match start.first.enter c.engine.loopBound with
    | .ok st => c.engine.checkWithin check n st
    | .error _ => true

theorem engine_checkWithin {check : Access → Machine → Bool} (h : c.checkWithin check n name = true)
    {start : Start c.project} (hstart : Start.of c.project name = .ok start) {st : State c.project}
    (hin : start.first.enter c.engine.loopBound = .ok st) : c.engine.checkWithin check n st = true := by
  unfold checkWithin at h
  rw [hstart] at h
  dsimp only at h
  rwa [hin] at h

/-- Functions whose accesses are whole are careful where nothing is left to be met. -/
theorem careful_of_checkWithin {all : Prop}
    (h : c.checkWithin (fun x m => metAll c.project m && x.whole m) n name = true) : c.Careful all name :=
  fun _ hstart _ hin => Engine.proper_of_checkWithin (engine_checkWithin h hstart hin)

/-- Whether an operation may read or write memory. -/
def mayAccess : Op → Bool
  | .load .. | .store .. | .call .. => true
  | _ => false

/-- Functions of projects without accesses are careful. -/
theorem careful_of_not_mayAccess {all : Prop} (h : (c.project.routines.all fun r => r.function.blocks.all fun b =>
    b.instrs.all fun i => !mayAccess i.op) = true) : c.Careful all name := by
  intro start _ st _ st' _ path _ i hi m _ l m' hl x hx
  have hblocks := List.all_eq_true.mp h _ st'.frame.routine_mem
  have hinstrs := List.all_eq_true.mp hblocks _ st'.frame.block_mem
  have hop := List.all_eq_true.mp hinstrs i (List.mem_of_getElem? hi)
  have hinstr : (st'.frame.site i).instr = i := rfl
  unfold accesses at hl
  rw [hinstr] at hl
  cases hcase : i.op with
  | load | store | call =>
    rw [hcase] at hop
    cases hop
  | _ =>
    rw [hcase] at hl
    obtain ⟨rfl, _⟩ := of_pure hl
    exact absurd hx List.not_mem_nil

/-- Functions that access constant addresses only are settled. -/
theorem settled_of_checkWithin (h : c.checkWithin (fun x _ => x.constant) n name = true) : c.Settled name := by
  intro start hstart st hin st' hst' i hi m hwatch l m' hl x hx
  have hconstant := State.of_checkAccesses
    (Engine.checkAccesses_of_checkWithin (engine_checkWithin h hstart hin) hst') hi hwatch hl hx
  exact ⟨fun _ => Access.single_of_constant hconstant, fun _ => (Access.single_of_constant hconstant).near⟩

/-! ## Divisions by zero -/

/-- Whether a function has one path, which is about to divide by zero after some steps. One check passes all
accesses until then, the other one the machine. -/
def dividesAfter (c : Context) (check : Access → Machine → Bool) (test : Machine → Bool) (ν : Valuation) (n : Nat)
    (name : String) : Bool :=
  match Start.of c.project name with
  | .error _ => false
  | .ok start =>
    match start.first.enter c.engine.loopBound with
    | .error _ => false
    | .ok st =>
      ((List.range n).all fun k => (c.engine.stateAfter? k st).all (State.checkAccesses c.engine check)) &&
        ((c.engine.stateAfter? n st).bind (State.divisor? c.engine)).any fun x =>
          decide ((x.1.term.denote ν).toNat = 0 ∧ Term.AllHold ν x.2.condition.conds) && test x.2

variable {check : Access → Machine → Bool} {test : Machine → Bool} {ν : Valuation} {ms : List Monitor}

/-- The only path of such a function ends before its division by zero. -/
theorem exists_path_of_dividesAfter (h : c.dividesAfter check test ν n name = true)
    (hmonitors : c.engine.monitors = Checker.watchDivision :: ms) : ∃ start st path m l t,
      Start.of c.project name = .ok start ∧ start.first.enter c.engine.loopBound = .ok st ∧
        c.engine.explore start.first = [path] ∧ path.ending = .fault (.divisor l t) ∧
          path.machine.addresses = m.addresses ∧ path.machine.nextAddress = m.nextAddress ∧ test m = true ∧
            ∀ st', c.engine.Reaches st st' → ∀ i, st'.frame.instr? = some i →
              ∀ m, c.engine.watch (st'.frame.site i) c.engine.monitors st'.machine = .ok () m →
                ∀ l m', accesses c.engine.setting (st'.frame.site i) m = .ok l m' → ∀ x ∈ l, check x m' = true := by
  unfold dividesAfter at h
  split at h
  · cases h
  · rename_i start hstart
    split at h
    · cases h
    · rename_i st hin
      obtain ⟨hchecks, hdivides⟩ := Bool.and_eq_true_iff.mp h
      obtain ⟨⟨v, m⟩, hthere, htests⟩ := (Option.any_eq_true _ _).mp hdivides
      obtain ⟨st₁, hafter, hdivisor⟩ := Option.bind_eq_some_iff.mp hthere
      obtain ⟨hν, htest⟩ := Bool.and_eq_true_iff.mp htests
      obtain ⟨hzero, hν⟩ := of_decide_eq_true hν
      obtain ⟨path, l, t, hstep, hending, haddresses, hnext⟩ := State.step_of_divisor? hdivisor hzero hν hmonitors
      have hexplore : c.engine.explore start.first = [path] := by
        rw [Engine.explore_of_ok hin, Engine.exploreFrom_of_stateAfter? hafter, c.engine.exploreFrom_of_finish hstep]
      refine ⟨start, st, path, m, l, t, hstart, hin, hexplore, hending, haddresses, hnext, htest, ?_⟩
      intro st' hst' i hi m' hwatch l' m'' hl x hx
      obtain ⟨k, hk, hst'⟩ := Engine.exists_stateAfter?_of_reaches hafter hstep hst'
      rcases Nat.lt_or_eq_of_le hk with hlt | rfl
      · have hpass := List.all_eq_true.mp hchecks k (List.mem_range.mpr hlt)
        rw [hst', Option.all_some] at hpass
        exact State.of_checkAccesses hpass hi hwatch hl hx
      · -- the division itself is not let through
        obtain rfl := Option.some.inj (hafter.symm.trans hst')
        exact nomatch hwatch.symm.trans (State.watch_of_divisor? hi hdivisor hzero hν hmonitors)

/-- The division by zero is reported of the only path. -/
theorem exists_report_of_dividesAfter (h : c.dividesAfter check test ν n name = true)
    (hmonitors : c.engine.monitors = Checker.watchDivision :: ms) (hcheckers : c.checkers = Checker.all) :
    ∃ a path m, c.analyze name = .ok a ∧ a.exploration.paths.map (·.path) = [path] ∧
      path.machine.addresses = m.addresses ∧ path.machine.nextAddress = m.nextAddress ∧ test m = true ∧
        ∃ q ∈ a.report.paths, q.verdict.kind = some .divisionByZero := by
  obtain ⟨start, _, path, m, l, t, hstart, _, hexplore, hending, haddresses, hnext, htest, _⟩ :=
    exists_path_of_dividesAfter h hmonitors
  have hall : Explored.all [path] = .ok [⟨path, .fault (.divisor l t)⟩] := by
    unfold Explored.all
    rw [hending]
    rfl
  obtain ⟨x, hx, hpaths⟩ : ∃ x, c.explore name = .ok x ∧ x.paths = [⟨path, .fault (.divisor l t)⟩] :=
    ⟨{ args := start.args, paths := [⟨path, .fault (.divisor l t)⟩] }, by rw [explore_eq hstart, hexplore, hall], rfl⟩
  have ha : c.analyze name = .ok ⟨x, c.report name x⟩ := by
    unfold analyze
    rw [hx]
    rfl
  refine ⟨_, path, m, ha, by rw [hpaths]; rfl, haddresses, hnext, htest,
    PathReport.of c.checkers 0 (.fault (.divisor l t)) path.blocks, ?_, ?_⟩
  · unfold report
    rw [hpaths]
    exact List.mem_cons_self
  · unfold PathReport.of
    rw [hcheckers]
    rfl

/-! ## Branches -/

/-- Whether a function branches after some steps and goes from there, with the values of a valuation, to a block that
passes a test. -/
def branchesTo (c : Context) (ν : Valuation) (test : Trail → Frame c.project → Bool) (n : Nat) (name : String) : Bool :=
  match Start.of c.project name with
  | .error _ => false
  | .ok start =>
    match start.first.enter c.engine.loopBound with
    | .error _ => false
    | .ok st => (c.engine.firstAfter? n st).any (c.engine.branchesTo ν test)

/-- The paths of the arrival at this block are explored. -/
theorem exists_arrival_of_branchesTo {test : Trail → Frame c.project → Bool} {a : Analysis}
    (h : c.branchesTo ν test n name = true) (ha : c.analyze name = .ok a) : ∃ b : Arrival c.project,
      test b.state.trail b.state.frame = true ∧ Term.AllHold ν b.state.machine.condition.conds ∧
        ∀ path ∈ c.engine.explore b, ∃ x ∈ a.exploration.paths, x.path = path ∧ x.Faithful := by
  unfold branchesTo at h
  split at h
  · cases h
  · rename_i start hstart
    split at h
    · cases h
    · rename_i st hin
      obtain ⟨st', hafter, hbranches⟩ := (Option.any_eq_true _ _).mp h
      obtain ⟨a', others, b, hstep, hb, htest, hmeets⟩ := Engine.exists_arrival_of_branchesTo hbranches
      refine ⟨b, htest, hmeets, fun path hpath => ?_⟩
      have hmem : path ∈ c.engine.explore start.first := by
        rw [Engine.explore_of_ok hin]
        exact Engine.mem_exploreFrom_of_firstAfter? hafter (Engine.mem_exploreFrom_of_arrive hstep hb hpath)
      obtain ⟨hpaths, hfaithful⟩ := Explored.all_eq (all_of_explore hstart (of_analyze ha).1).1
      obtain ⟨x, hx, hpath⟩ := List.mem_map.mp (hpaths ▸ hmem)
      exact ⟨x, hx, hpath, hfaithful x hx⟩

end Context

end PathSafety
