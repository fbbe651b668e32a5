import PathSafety.Proofs.Analysis.Evaluate

/-!
# Explorations are exact

Exploring a function leaves no input out and counts none twice: every choice of arguments and of what is in memory
at first satisfies the condition of exactly one path. The run on it goes through the blocks of this path and ends
as the path ends.

Contents:

* `Input.Follows` — runs that follow a path;
* `Context.Exact` — explorations whose paths are those of all inputs;
* `exact_of_careful` — explorations of functions with proper accesses are exact.

Writing to a variable that the path meets later makes a difference: the machine puts the initial value there when it
meets the variable, which in a run has been there from the beginning.
-/

namespace PathSafety

open IR Machine

/-- That the run of a routine on an input, with the addresses of a path, goes through the blocks of the path and
ends as the path ends. -/
def Input.Follows (i : Input) (p : Project) (r : Routine) (stack : List Nat) (path : Path) : Prop :=
  ∃ c c' n, i.start? p.layout r stack = some c ∧ Concrete.after p path.placement n c = some c' ∧
    c'.trail.reverse = path.blocks ∧
    ∀ o, path.ending = .outcome o → Concrete.step p path.placement c' = some (.halt (o.halt i))

namespace Context

/-- That exploring a function is exact: every input satisfies the condition of one path, and the run on it follows
this path if the variables that the path met have their initial values at first. -/
def Exact (c : Context) (name : String) (r : Routine) : Prop :=
  ∃ x, c.explore name = .ok x ∧ x.fault = none ∧ ∀ i : Input, ∃ e,
    x.paths.filter (fun e => decide (i.Satisfies e.path)) = [e] ∧ (∃ stack, c.Takes name stack e.path) ∧
      ∀ stack, c.Takes name stack e.path → i.Loads c.project e.path.placement →
        i.Follows c.project r stack e.path

variable {c : Context} {name : String} {r : Routine}

/-- **Explorations are exact** where accesses are proper and constants are read as they are written. -/
theorem exact_of_careful (hc : c.Plain) (hagrees : c.project.agrees = true) (hall : ∀ k, k ∈ c.checkers)
    (hdefines : c.Defines name r) (hcareful : c.Careful False name) : c.Exact name r := by
  obtain ⟨x, hx, hfault, hinputs⟩ := exists_explored hc hagrees (hall _) hdefines hcareful
  refine ⟨x, hx, hfault, fun i => ?_⟩
  obtain ⟨e, he, hstack⟩ := hinputs i
  refine ⟨e, he, hstack, fun stack htakes hloads => ?_⟩
  obtain ⟨c₀, c₁, hstart, harrives⟩ := exists_arrives hc hagrees (hall _) hdefines hcareful htakes
    (Explored.of_filter_eq_singleton he).2 hloads
  obtain ⟨n, hn, _⟩ := harrives.passes.after
  exact ⟨c₀, c₁, n, hstart, hn, congrArg List.reverse harrives.trail, fun o ho => (harrives.halts o ho).1⟩

/-! ### A function that adds to a variable -/

/-- A function that adds what it is given, by way of memory, to what a variable holds, whose address is made a number
and an address again. -/
def adding : Module :=
  ⟨[⟨"g", .int 32, some (.constant (.int 32) (.int 7))⟩], [⟨"main", .int 32, [("x", .int 32)], false, [
    ⟨"entry", [
      ⟨"y", .load (.constant (.ptrTo (.int 32) 0)
        (.expression "inttoptr (i64 ptrtoint (i32* @\"g\" to i64) to i32*)")) (some (.int 32))⟩,
      ⟨"a", .alloca (.int 32) none⟩,
      ⟨"", .store (.register "x") (.register "a")⟩,
      ⟨"z", .load (.register "a") (some (.int 32))⟩,
      ⟨"s", .arith .add [] (.register "y") (.register "z")⟩,
      ⟨"", .ret (some (.register "s"))⟩]⟩]⟩]⟩

/-- Exploring the function is exact. -/
theorem exact_adding : (ofModule adding).Plain ∧ (ofModule adding).project.agrees = true ∧
    (∀ k, k ∈ (ofModule adding).checkers) ∧ (ofModule adding).Careful False "main" ∧
    ∃ r, (ofModule adding).Defines "main" r ∧ (ofModule adding).Exact "main" r := by
  have hplain : (ofModule adding).Plain := plain_ofModule (by decide +kernel) (by decide +kernel)
  have hagrees : (ofModule adding).project.agrees = true := by decide +kernel
  have hall := mem_checkers_ofModule adding
  have hcareful : (ofModule adding).Careful False "main" := careful_of_checkWithin (n := 10) (by decide +kernel)
  have hdefined : ∃ r, (ofModule adding).Defines "main" r := exists_defines (by decide +kernel)
  obtain ⟨r, hr⟩ := hdefined
  exact ⟨hplain, hagrees, hall, hcareful, r, hr, exact_of_careful hplain hagrees hall hr hcareful⟩

/-! ### A variable that is met late -/

/-- Whether a function has one path only, and its run on an input ends otherwise than this path. -/
def strays (c : Context) (i : Input) (n : Nat) (name : String) : Bool :=
  (c.onlyPath? n name).any fun x =>
    let run := (c.project.routine? name).bind fun r =>
      (i.start? c.project.layout r x.1).bind (Concrete.haltWithin c.project x.2.placement n)
    i.loads c.project x.2.placement && (x.2.halt? i).isSome && run.isSome && decide (run ≠ x.2.halt? i)

/-- Explorations are not exact where a run strays from the only path. -/
theorem not_exact_of_strays {i : Input} {n : Nat} (h : c.strays i n name = true) (hdefines : c.Defines name r) :
    ¬ c.Exact name r := by
  obtain ⟨x, honly, hfacts⟩ := (Option.any_eq_true _ _).mp h
  simp only [Bool.and_eq_true, decide_eq_true_iff, hdefines.routine, Option.bind_some] at hfacts
  obtain ⟨⟨⟨hloads, hsome⟩, hrun⟩, hne⟩ := hfacts
  obtain ⟨htakes, hpaths⟩ := of_onlyPath? honly
  rintro ⟨y, hy, _, hinputs⟩
  obtain ⟨e, he, _, hfollows⟩ := hinputs i
  have hmem : e.path ∈ y.paths.map (·.path) := List.mem_map_of_mem (Explored.of_filter_eq_singleton he).1
  rw [hpaths y hy, List.mem_singleton] at hmem
  rw [hmem] at hfollows
  obtain ⟨c₀, c₁, j, hstart, hafter, _, hhalts⟩ := hfollows x.1 htakes (Input.loads_of_check hloads)
  rw [hstart, Option.bind_some] at hrun hne
  obtain ⟨halt, hhalt⟩ := Option.isSome_iff_exists.mp hrun
  unfold Path.halt? at hsome hne
  split at hsome
  · rename_i o ho
    rw [hhalt, ho] at hne
    exact hne (congrArg some (Concrete.eq_of_haltWithin hafter (hhalts o ho) hhalt))
  · cases hsome

/-- A function that writes to the storage of a variable before it names the variable, and goes on with what the
variable holds. -/
def late (initial stored : Int) (rest : List Instr) : Module :=
  ⟨[⟨"g", .int 32, some (.constant (.int 32) (.int initial))⟩], [⟨"main", .int 32, [], false, [
    ⟨"entry",
      ⟨"", .store (.constant (.int 32) (.int stored))
        (.constant (.ptrTo (.int 32) 0) (.expression "inttoptr (i64 268435456 to i32*)"))⟩ ::
      ⟨"x", .load (.global "g") (some (.int 32))⟩ :: rest⟩]⟩]⟩

/-- What is in memory at first if the variable is a small number. -/
def lateInput (initial : Nat) : Input where
  arg _ := 0
  byte a := if a = allocationBase then .ofNat 8 initial else 0

/-- A function that returns what the variable holds. -/
def returning : Module := late 7 5 [⟨"", .ret (some (.register "x"))⟩]

/-- The path returns the initial value, the run what was written. -/
theorem not_exact_returning : (ofModule returning).Plain ∧ (∀ k, k ∈ (ofModule returning).checkers) ∧
    (ofModule returning).Settled "main" ∧
    ∃ r, (ofModule returning).Defines "main" r ∧ ¬ (ofModule returning).Exact "main" r := by
  have hplain : (ofModule returning).Plain := plain_ofModule (by decide +kernel) (by decide +kernel)
  have hsettled : (ofModule returning).Settled "main" := settled_of_checkWithin (n := 10) (by decide +kernel)
  have hdefined : ∃ r, (ofModule returning).Defines "main" r := exists_defines (by decide +kernel)
  obtain ⟨r, hr⟩ := hdefined
  refine ⟨hplain, mem_checkers_ofModule returning, hsettled, r, hr, ?_⟩
  exact not_exact_of_strays (i := lateInput 7) (n := 10) (by decide +kernel) hr

end Context

end PathSafety
