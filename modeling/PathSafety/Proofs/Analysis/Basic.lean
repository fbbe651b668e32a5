import PathSafety.Proofs.Analysis.Made
import PathSafety.Proofs.Path.Run

/-!
# Analyses of well-typed projects

What the theorems about analyses have in common: which analyses they are about, and how the paths that were
explored come from the engine.

Contents:

* `Context.Plain` — analyses of well-typed projects without hooked functions;
* `Context.Defines`, `Context.Takes` — the functions that are explored, and their paths;
* `Context.Careful`, `Context.Settled` — that the accesses on the paths of a function are proper, and that their
  addresses are settled;
* `explore_eq`, `Explored.all_eq` — what is explored;
* `exists_explored`, `exists_arrives` — the path of an input, and the run on it.
-/

namespace PathSafety

open IR Machine

/-! ## Faults of paths -/

/-- Whether a result is a fault of some sort. -/
def Result.isFault (r : Result) (sort : Fault → Bool) : Bool := r.fault?.any sort

/-- Whether a path ended by a fault of some sort. -/
def Ending.isFault (ending : Ending) (sort : Fault → Bool) : Bool := ending.result?.any fun r => r.isFault sort

/-! ## Explored paths -/

namespace Explored

/-- That the result of a path is how the path ended. -/
def Faithful (x : Explored) : Prop :=
  (∃ o, x.path.ending = .outcome o ∧ x.result = o.result) ∨ ∃ f, x.path.ending = .fault f ∧ x.result = .fault f

/-- A path that ended by a fault has this result. -/
theorem Faithful.result_of_fault {x : Explored} {f : Fault} (h : x.Faithful) (hf : x.path.ending = .fault f) :
    x.result = .fault f := by
  rcases h with ⟨o, ho, _⟩ | ⟨g, hg, hresult⟩
  · cases ho.symm.trans hf
  · rw [hresult, Ending.fault.inj (hg.symm.trans hf)]

/-- **Explored paths** are the paths, each with how it ended. -/
theorem all_eq {paths : List Path} {xs : List Explored} (h : all paths = .ok xs) :
    xs.map (·.path) = paths ∧ ∀ x ∈ xs, x.Faithful := by
  induction paths generalizing xs with
  | nil =>
    obtain rfl := Except.ok.inj h
    exact ⟨rfl, fun x hx => absurd hx List.not_mem_nil⟩
  | cons path paths ih =>
    unfold all at h
    cases hending : path.ending with
    | defect d =>
      rw [hending] at h
      cases h
    | outcome o | fault f =>
      rw [hending] at h
      cases hall : all paths with
      | error d =>
        rw [hall] at h
        cases h
      | ok ys =>
        rw [hall] at h
        obtain rfl := Except.ok.inj h
        obtain ⟨hmap, hfaithful⟩ := ih hall
        refine ⟨by rw [List.map_cons, hmap], List.forall_mem_cons.mpr ⟨?_, hfaithful⟩⟩
        -- The two kinds of ending differ only in the result they are read as.
        first
          | exact Or.inl ⟨_, hending, rfl⟩
          | exact Or.inr ⟨_, hending, rfl⟩

theorem exists_all {paths : List Path} (h : ∀ path ∈ paths, ∀ d, path.ending ≠ .defect d) :
    ∃ xs, all paths = .ok xs := by
  induction paths with
  | nil => exact ⟨[], rfl⟩
  | cons path paths ih =>
    obtain ⟨xs, hxs⟩ := ih fun q hq => h q (List.mem_cons_of_mem _ hq)
    unfold all
    rw [hxs]
    cases hending : path.ending with
    | outcome o => exact ⟨_, rfl⟩
    | fault f => exact ⟨_, rfl⟩
    | defect d => exact absurd hending (h path List.mem_cons_self d)

/-- A path with its result, if it has one. -/
def of? (path : Path) : Option Explored := path.ending.result?.map fun r => ⟨path, r⟩

theorem eq_filterMap_of_all {paths : List Path} {xs : List Explored} (h : all paths = .ok xs) :
    xs = paths.filterMap of? := by
  obtain ⟨rfl, hfaithful⟩ := all_eq h
  clear h
  induction xs with
  | nil => rfl
  | cons x xs ih =>
    obtain ⟨hx, hrest⟩ := List.forall_mem_cons.mp hfaithful
    have hof : of? x.path = some x := by
      rcases hx with ⟨o, ho, hr⟩ | ⟨f, hf, hr⟩
      · rw [of?, ho, Ending.result?, Option.map_some, ← hr]
      · rw [of?, hf, Ending.result?, Option.map_some, ← hr]
    rw [List.map_cons, List.filterMap_cons_some hof, ← ih hrest]

/-- Leaving out faults of some sort leaves out the paths that end by them. -/
theorem filter_filterMap_of? (sort : Fault → Bool) (paths : List Path) :
    (paths.filterMap of?).filter (fun x => !x.result.isFault sort) =
      (paths.filter fun path => !path.ending.isFault sort).filterMap of? := by
  induction paths with
  | nil => rfl
  | cons path paths ih =>
    cases hr : path.ending.result? with
    | none =>
      have hof : of? path = none := by rw [of?, hr, Option.map_none]
      have hsort : path.ending.isFault sort = false := by rw [Ending.isFault, hr, Option.any_none]
      rw [List.filterMap_cons_none hof, List.filter_cons_of_pos (by simp [hsort]), List.filterMap_cons_none hof, ih]
    | some r =>
      have hof : of? path = some ⟨path, r⟩ := by rw [of?, hr, Option.map_some]
      have hsort : path.ending.isFault sort = r.isFault sort := by rw [Ending.isFault, hr, Option.any_some]
      rw [List.filterMap_cons_some hof]
      by_cases hc : r.isFault sort = true
      · rw [List.filter_cons_of_neg (by simp [hc]), List.filter_cons_of_neg (by simp [hsort, hc]), ih]
      · rw [List.filter_cons_of_pos (by simp [hc]), List.filter_cons_of_pos (by simp [hsort, hc]),
          List.filterMap_cons_some hof, ih]

/-- The only one whose condition an input satisfies is one of those that were explored. -/
theorem of_filter_eq_singleton {xs : List Explored} {x : Explored} {i : Input}
    (h : xs.filter (fun x => decide (i.Satisfies x.path)) = [x]) : x ∈ xs ∧ i.Satisfies x.path := by
  have hmem : x ∈ xs.filter fun x => decide (i.Satisfies x.path) := by
    rw [h]
    exact List.mem_singleton_self x
  rw [List.mem_filter, decide_eq_true_iff] at hmem
  exact hmem

end Explored

namespace Context

/-- That an analysis is made of a well-typed project with pointers of a machine, and no function with a body is
hooked. -/
structure Plain (c : Context) : Prop where
  project : ∃ modules layout, Project.ofModules? modules layout = some c.project
  made : ∃ config registry, make c.project config registry = .ok c
  fits : c.project.fits = true
  machine : c.engine.setting.hasMachine = true
  unhooked : ∀ r ∈ c.project.routines, r.function.isDeclaration = false →
    c.engine.hooks.byName r.function.name = none

/-- That a name is that of a function with a body, which is the one that an analysis explores. -/
structure Defines (c : Context) (name : String) (r : Routine) : Prop where
  routine : c.project.routine? name = some r
  body : r.function.isDeclaration = false

/-- That the exploration of a function takes a path, and the addresses that it takes from those of
allocations. -/
def Takes (c : Context) (name : String) (stack : List Nat) (path : Path) : Prop :=
  ∃ start, Start.of c.project name = .ok start ∧ c.engine.TakesFrom start.first stack path

/-- That the accesses on the paths of a function are proper. -/
def Careful (c : Context) (all : Prop) (name : String) : Prop :=
  ∀ start, Start.of c.project name = .ok start → c.engine.ProperFrom all start.first

/-- That no address of an access on the paths of a function has to be picked among several: one that is written
has one possible value, and those that are read are near one another. -/
def Settled (c : Context) (name : String) : Prop :=
  ∀ start, Start.of c.project name = .ok start → ∀ st, start.first.enter c.engine.loopBound = .ok st →
    ∀ st', c.engine.Reaches st st' → ∀ i, st'.frame.instr? = some i →
      ∀ m, c.engine.watch (st'.frame.site i) c.engine.monitors st'.machine = .ok () m →
        ∀ l m', accesses c.engine.setting (st'.frame.site i) m = .ok l m' → ∀ x ∈ l,
          (x.writes = true → Single x.address m') ∧ (x.writes = false → Near x.address m')

variable {c : Context} {name : String} {start : Start c.project}

theorem Plain.engine (h : c.Plain) : c.engine.Plain where
  fit := ⟨h.fits, fun hzero => by
    have := h.machine
    unfold Setting.hasMachine at this
    rw [hzero] at this
    cases this⟩
  modules := h.project
  unhooked := h.unhooked

theorem Plain.monitors (h : c.Plain) : c.engine.monitors = c.checkers.filterMap Checker.monitor? := by
  obtain ⟨config, registry, hmake⟩ := h.made
  exact monitors_of_make hmake

/-! ## What is explored -/

/-- An analysis is the report of what is explored. -/
theorem of_analyze {a : Analysis} (h : c.analyze name = .ok a) :
    c.explore name = .ok a.exploration ∧ a.report = c.report name a.exploration := by
  unfold analyze at h
  cases hx : c.explore name with
  | error e =>
    rw [hx] at h
    cases h
  | ok x =>
    rw [hx] at h
    obtain rfl := Except.ok.inj h
    exact ⟨rfl, rfl⟩

/-- The paths of a function are those of the arrival at its entry. -/
theorem explore_eq (h : Start.of c.project name = .ok start) :
    c.explore name = match Explored.all (c.engine.explore start.first) with
      | .error d => .error (.defect d)
      | .ok paths => .ok { args := start.args, paths } := by
  unfold explore
  cases hall : Explored.all (c.engine.explore start.first) <;> simp only [h, Engine.pathsOf_eq, hall]

/-- Where a function can be explored, what was explored are its paths with their results. -/
theorem all_of_explore {x : Exploration} (h : Start.of c.project name = .ok start)
    (hx : c.explore name = .ok x) :
    Explored.all (c.engine.explore start.first) = .ok x.paths ∧ x.fault = none := by
  rw [explore_eq h] at hx
  split at hx
  · cases hx
  · rename_i paths hpaths
    obtain rfl := Except.ok.inj hx
    exact ⟨hpaths, rfl⟩

/-- What was explored are the paths of the function with their results, if it can be explored at all. -/
theorem paths_of_explore {x : Exploration} (hx : c.explore name = .ok x) :
    (∃ f, Start.of c.project name = .error (.fault f) ∧ x.fault = some f ∧ x.paths = []) ∨
      ∃ start, Start.of c.project name = .ok start ∧ x.fault = none ∧
        x.paths = (c.engine.pathsOf start).filterMap Explored.of? := by
  unfold explore at hx
  cases hstart : Start.of c.project name with
  | error err =>
    rw [hstart] at hx
    cases err with
    | pointerWidth n => cases hx
    | fault f =>
      obtain rfl := Except.ok.inj hx
      exact Or.inl ⟨f, rfl, rfl, rfl⟩
  | ok start =>
    rw [hstart] at hx
    dsimp only at hx
    split at hx
    · cases hx
    · rename_i xs hxs
      obtain rfl := Except.ok.inj hx
      exact Or.inr ⟨start, rfl, rfl, Explored.eq_filterMap_of_all hxs⟩

/-- Where one engine finds the paths that another finds, but for faults of some sort, its exploration has them. -/
theorem sublist_paths_of_pathsOf {project : Project} {config config' : Config} {checkers checkers' : List Checker}
    {e e' : Engine project} {sort : Fault → Bool} {x x' : Exploration}
    (hx : explore ⟨project, config, checkers, e⟩ name = .ok x)
    (hx' : explore ⟨project, config', checkers', e'⟩ name = .ok x')
    (h : ∀ start, Start.of project name = .ok start →
      ((e.pathsOf start).filter fun path => !path.ending.isFault sort).Sublist (e'.pathsOf start)) :
    x.fault = x'.fault ∧ (x.paths.filter fun y => !y.result.isFault sort).Sublist x'.paths := by
  rcases paths_of_explore hx with ⟨f, hstart, hfault, hpaths⟩ | ⟨start, hstart, hfault, hpaths⟩
  · rcases paths_of_explore hx' with ⟨f', hstart', hfault', _⟩ | ⟨_, hstart', _⟩
    · obtain ⟨rfl⟩ := StartError.fault.inj (Except.error.inj (hstart.symm.trans hstart'))
      rw [hpaths]
      exact ⟨hfault.trans hfault'.symm, List.nil_sublist _⟩
    · cases hstart.symm.trans hstart'
  · rcases paths_of_explore hx' with ⟨_, hstart', _⟩ | ⟨start', hstart', hfault', hpaths'⟩
    · cases hstart.symm.trans hstart'
    · obtain rfl := Except.ok.inj (hstart.symm.trans hstart')
      rw [hpaths, hpaths', Explored.filter_filterMap_of?]
      exact ⟨hfault.trans hfault'.symm, (h start hstart).filterMap _⟩

/-! ## Paths and runs -/

variable {r : Routine} {path : Path} {stack : List Nat} {all : Prop} (hc : c.Plain)
  (hagrees : c.project.agrees = true) (hdivision : .divisionByZero ∈ c.checkers) (hdefines : c.Defines name r)
include hc hagrees hdivision hdefines

/-- **Every input has its path** among those that are explored. -/
theorem exists_explored (hcareful : c.Careful all name) :
    ∃ x, c.explore name = .ok x ∧ x.fault = none ∧ ∀ i : Input, ∃ e,
      x.paths.filter (fun e => decide (i.Satisfies e.path)) = [e] ∧ ∃ stack, c.Takes name stack e.path := by
  obtain ⟨start, T, hstart, hbegins⟩ := exists_start hc.engine hc.machine hdefines.routine hdefines.body
  obtain ⟨hdefects, hcount⟩ := countP_explore (D := False) hc.engine hc.monitors hagrees (Or.inr hdivision) hbegins
    (hcareful start hstart) id
  obtain ⟨xs, hxs⟩ := Explored.exists_all hdefects
  refine ⟨{ args := start.args, paths := xs }, by rw [explore_eq hstart, hxs], rfl, fun i => ?_⟩
  have hmap := (Explored.all_eq hxs).1
  have hlength : (xs.filter fun e => decide (i.Satisfies e.path)).length = 1 := by
    have := hcount i
    rw [← hmap, List.countP_map] at this
    rwa [← List.countP_eq_length_filter]
  obtain ⟨e, he⟩ := List.length_eq_one_iff.mp hlength
  obtain ⟨stack, htakes⟩ := Engine.exists_takesFrom (e := c.engine) (a := start.first)
    (hmap ▸ List.mem_map_of_mem (Explored.of_filter_eq_singleton he).1)
  exact ⟨e, he, stack, start, hstart, htakes⟩

/-- **The run on an input of a path** gets to the end of the path. -/
theorem exists_arrives (hcareful : c.Careful all name) (htakes : c.Takes name stack path) {i : Input}
    (hi : i.Satisfies path) (hloads : i.Loads c.project path.placement) :
    ∃ c₀ c₁, i.start? c.project.layout r stack = some c₀ ∧
      Arrives c.project (c.engine.Detects c.checkers) i path c₀ c₁ := by
  obtain ⟨start, T, hstart, hbegins⟩ := exists_start hc.engine hc.machine hdefines.routine hdefines.body
  obtain ⟨start', hstart', htakes⟩ := htakes
  obtain rfl := Except.ok.inj (hstart'.symm.trans hstart)
  have hdefects := (countP_explore (D := False) hc.engine hc.monitors hagrees (Or.inr hdivision) hbegins
    (hcareful start' hstart') id).1
  exact exists_run (D := False) hc.engine hc.monitors hagrees (Or.inr hdivision) hbegins (hcareful start' hstart') htakes
    (hdefects path (Engine.mem_of_takesFrom htakes)) hi hloads

end Context

end PathSafety
