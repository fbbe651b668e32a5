import PathSafety.Proofs.Machine.Loading
import PathSafety.Proofs.Path.Start

/-!
# Runs to the end of a path

A run on an input of a path goes with the path from the beginning to its end, and ends as it ends. Where a path
ends by a violation, there is an input of the path whose run is about to commit it.

Contents:

* `Engine.ProperFrom` — that the accesses of a whole exploration are proper;
* `countP_explore` — every input satisfies one path of an exploration;
* `exists_passes` — runs go with paths;
* `exists_run` — the run on an input of a path;
* `exists_alarmed` — the run that commits the violation of a path.
-/

namespace PathSafety

open IR Machine

variable {p : Project} {e : Engine p} {path : Path} {all D : Prop} {T T₁ : Table} {checkers : List Checker}
  {stack : List Nat} {r : Routine} {a : Arrival p}

/-- That the accesses of an exploration are proper. -/
def Engine.ProperFrom (e : Engine p) (all : Prop) (a : Arrival p) : Prop :=
  ∀ st, a.enter e.loopBound = .ok st → e.Proper all st

/-- A path has placed all global values that it met. -/
theorem covers_placement {s : Setting} {m : Machine} (hagrees : s.project.agrees = true) (hm : Sound s T m)
    (haddresses : ∀ n v, m.addresses.get? n = some v → path.machine.addresses.get? n = some v) :
    Covers s path.placement m := by
  obtain ⟨at_, hlaid⟩ := hm.laid
  refine ⟨hagrees, fun n v hn => ?_⟩
  unfold Path.placement
  rw [haddresses n v hn]
  obtain rfl := hlaid.eq n v hn
  exact ⟨rfl, Option.some_ne_none _⟩

/-- That a run on an input gets to the end of a path: it commits no violation of some kinds on the way, has been
in the blocks of the path, and ends as the path ends. -/
structure Arrives (p : Project) (ks : Checker → Prop) (i : Input) (path : Path) (c c' : Concrete.Config) :
    Prop where
  passes : Concrete.Passes p path.placement ks c c'
  trail : c'.trail = path.trail
  halts : ∀ o, path.ending = .outcome o → Concrete.step p path.placement c' = some (.halt (o.halt i)) ∧
    ∀ k, ks k → ¬ Concrete.Commits p path.placement c' k

/-- A run goes with a path up to its last instruction. -/
theorem exists_passes (hagrees : p.agrees = true) (hbegins : Begins e r a T) {last : State p} {T' : Table}
    (hleads : Leads e path.placement all checkers a.entered T stack last T')
    (hends : Ends e path.placement all checkers last T' path) {i : Input} (hi : i.Satisfies path)
    (hloads : i.Loads p path.placement) :
    ∃ c c', i.start? p.layout r stack = some c ∧ Concrete.Passes p path.placement (e.Detects checkers) c c' ∧
      c'.trail = path.trail ∧ last.Tracks i [] c' := by
  obtain ⟨c, hc, hnone, htrail, htracks⟩ := hbegins.run i stack
  have hpristine : Pristine e.setting i path.placement a.entered.machine := fun n b g _ _ _ _ k _ =>
    congrFun (hbegins.memory i) (b + k)
  obtain ⟨c', hpasses, htracks'⟩ := hleads.run i c.entered [] (covers_placement hagrees hleads.good.sound hends.addresses)
    hloads (hends.meets i hi) hpristine (by rwa [List.append_nil])
  exact ⟨c, c', hc, (passes_entered hnone).trans hpasses, htracks'.trail.trans hends.trail.symm, htracks'⟩

/-- A condition that can hold at the end of a path does on some input of the path that has the initial values of global
variables, as long as addresses have not run out. -/
theorem exists_satisfies (hplain : e.Plain) (hagrees : p.agrees = true) (hbegins : Begins e r a T)
    (honward : Onward e.setting path.placement True T a.entered.machine T₁ path.machine)
    (hsound : Sound e.setting T₁ path.machine) (hnext : path.machine.nextAddress ≤ 2 ^ p.layout.pointerBits)
    {cond : Cond} (hknown : cond.Known T₁) (hholds : ∃ ν, Term.AllHold ν path.machine.condition.conds ∧ cond.Holds ν) :
    ∃ i : Input, i.Satisfies path ∧ i.Loads p path.placement ∧ cond.meaning i.reading = 1#1 := by
  obtain ⟨ν, hν, hholds⟩ := hholds
  have hcovers : Covers e.setting path.placement path.machine := covers_placement hagrees hsound fun _ _ h => h
  have hfiled : Filed e.setting path.placement T₁ path.machine := by
    refine honward.filed trivial hcovers ⟨fun n v g hn => ?_, fun b j hmem => ?_⟩
    · rw [show a.entered.machine.addresses.get? n = none from hbegins.unmet n] at hn
      cases hn
    · obtain ⟨name, w, hw⟩ := hbegins.arguments _ hmem
      cases hw
  obtain ⟨byte, hloads⟩ := exists_loads hplain.fit hsound hfiled hnext
  exact ⟨Input.ofValuation T₁ ν byte, meets_ofValuation hsound.apart hsound.conds hν, hloads ν,
    (hknown _ _ (agree_ofValuation hsound.apart)).trans hholds⟩

variable (hplain : e.Plain) (hmonitors : e.monitors = checkers.filterMap Checker.monitor?)
  (hagrees : p.agrees = true) (hdivision : D ∨ .divisionByZero ∈ checkers) (hbegins : Begins e r a T)
  (hproper : e.ProperFrom all a)
include hplain hmonitors hagrees hdivision hbegins hproper

/-- **Every input has its path** in an exploration. -/
theorem countP_explore (hD : ¬ D) :
    (∀ path ∈ e.explore a, ∀ d, path.ending ≠ .defect d) ∧
      ∀ i : Input, (e.explore a).countP (fun path => decide (i.Satisfies path)) = 1 := by
  have hmeets : ∀ i : Input, i.Meets a.state.machine.condition.conds := fun i => by
    rw [hbegins.conds]
    exact fun c hc => absurd hc List.not_mem_nil
  refine (countP_explore_of_enter fun st hin => ?_).imp_right fun hcount i => ?_
  · obtain rfl := Arrival.eq_of_enter hin
    exact countP_exploreFrom hplain hmonitors hagrees hdivision hD hbegins.good (hproper _ hin)
  · rw [hcount i]
    exact if_pos (decide_eq_true (hmeets i))

/-- **The run on an input of a path** gets to the end of the path. -/
theorem exists_run (htakes : e.TakesFrom a stack path) (hdefect : ∀ d, path.ending ≠ .defect d) {i : Input}
    (hi : i.Satisfies path) (hloads : i.Loads p path.placement) :
    ∃ c c', i.start? p.layout r stack = some c ∧ Arrives p (e.Detects checkers) i path c c' := by
  unfold Engine.TakesFrom at htakes
  split at htakes
  · rename_i st hin
    obtain rfl := Arrival.eq_of_enter hin
    obtain ⟨last, T', hleads, hends⟩ :=
      exists_leads hplain hmonitors hagrees hdivision hbegins.good (hproper _ hin) htakes hdefect
    obtain ⟨c, c', hc, hpasses, htrail, htracks⟩ := exists_passes hagrees hbegins hleads hends hi hloads
    refine ⟨c, c', hc, hpasses, htrail, fun o ho => ?_⟩
    obtain ⟨hsound, houtcome⟩ := hends.outcome o ho
    exact houtcome i c' [] (covers_placement hagrees hsound fun _ _ h => h) hi htracks
  · -- the path ends where it begins
    rename_i path' hin
    obtain ⟨rfl, rfl⟩ := htakes
    obtain ⟨_, htrail', hending⟩ := Arrival.of_enter_error hin
    obtain ⟨c, hc, _, htrail, _⟩ := hbegins.run i []
    refine ⟨c, c, hc, .refl c, ?_, fun o ho => ?_⟩
    · rw [htrail, htrail', hbegins.trail]
    · rw [hending] at ho
      cases ho

omit hproper in
/-- **The run that commits the violation of a path**, as long as addresses have not run out and no type of an
address computation is larger than memory. -/
theorem exists_alarmed (hproper : e.ProperFrom True a) (htakes : e.TakesFrom a stack path) {f : Fault}
    {k : Checker} (hending : path.ending = .fault f) (hk : f.violation? = some k)
    (hnext : path.machine.nextAddress ≤ 2 ^ p.layout.pointerBits)
    (hsizes : ∀ r ∈ p.routines, ∀ b ∈ r.function.blocks, ∀ i ∈ b.instrs, ∀ pointer written indices n,
      i.op = .gep true pointer written indices →
        Concrete.size? p.layout (r.scope.accessType pointer written) = some n → n < 2 ^ p.layout.pointerBits) :
    ∃ (i : Input) (c c' : Concrete.Config), i.Satisfies path ∧ i.Loads p path.placement ∧
      i.start? p.layout r stack = some c ∧ Arrives p (e.Detects checkers) i path c c' ∧
      Concrete.Commits p path.placement c' k := by
  have hdefect : ∀ d, path.ending ≠ .defect d := fun d hd => by
    rw [hending] at hd
    cases hd
  unfold Engine.TakesFrom at htakes
  split at htakes
  · rename_i st hin
    obtain rfl := Arrival.eq_of_enter hin
    obtain ⟨last, T', hleads, hends⟩ :=
      exists_leads hplain hmonitors hagrees hdivision hbegins.good (hproper _ hin) htakes hdefect
    rcases hends.fault f k hending hk with ⟨instr, hinstr, hexceeds⟩ | ⟨T₂, hsteps, cond, hknown, hν, hcommits⟩
    · -- numbers do not exceed what pointers hold
      rcases hexceeds with hlt | ⟨pointer, written, indices, n, hop, hn, hle⟩
      · exact absurd hnext (Nat.not_le_of_lt hlt)
      · exact absurd hle (Nat.not_le_of_lt (hsizes last.frame.routine last.frame.routine_mem last.frame.block
          last.frame.block_mem instr (List.mem_of_getElem? hinstr) pointer written indices n hop hn))
    · obtain ⟨i, hi, hloads, hcond⟩ := exists_satisfies hplain hagrees hbegins (hleads.onward.trans hsteps.onward)
        hsteps.sound hnext hknown hν
      obtain ⟨c, c', hc, hpasses, htrail, htracks⟩ := exists_passes hagrees hbegins hleads hends hi hloads
      have hcovers : Covers e.setting path.placement path.machine := covers_placement hagrees hsteps.sound fun _ _ h => h
      refine ⟨i, c, c', hi, hloads, hc, ⟨hpasses, htrail, fun o ho => ?_⟩, hcommits i c' [] hcovers hcond htracks⟩
      rw [hending] at ho
      cases ho
  · rename_i path' hin
    obtain ⟨rfl, rfl⟩ := htakes
    obtain ⟨_, _, hbound⟩ := Arrival.of_enter_error hin
    obtain rfl := Ending.fault.inj (hbound.symm.trans hending)
    cases hk

end PathSafety
