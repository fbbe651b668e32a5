import PathSafety.Proofs.Concrete.Input
import PathSafety.Proofs.IR.Project

/-!
# Runs that can be computed

How a run ends can be computed where it ends within a known number of steps, and so can whether it is about to
commit a violation, and whether the variables of a project have their initial values at first.

Contents:

* `Concrete.haltWithin` — how a run ends, if it ends within some steps;
* `Concrete.violates`, `Concrete.sparesWithin` — whether a step of a run commits a violation, and whether any step
  does;
* `Input.loads` — whether what is in memory at first are the initial values.
-/

namespace PathSafety

open IR

namespace Concrete

variable {p : Project} {place : Placement} {c c₁ : Config} {h h' : Halt}

/-! ## Ends of runs -/

/-- How a run ends, if it ends within some steps. -/
def haltWithin (p : Project) (place : Placement) : Nat → Config → Option Halt
  | 0, _ => none
  | n + 1, c =>
    match step p place c with
    | some (.go c') => haltWithin p place n c'
    | some (.halt h) => some h
    | none => none

/-- A run has one end. -/
theorem eq_of_haltWithin {n k : Nat} (hn : after p place n c = some c₁) (hstep : step p place c₁ = some (.halt h))
    (hk : haltWithin p place k c = some h') : h' = h := by
  induction n generalizing c k with
  | zero =>
    obtain rfl := Option.some.inj hn
    cases k with
    | zero => cases hk
    | succ k =>
      unfold haltWithin at hk
      rw [hstep] at hk
      exact (Option.some.inj hk).symm
  | succ n ih =>
    unfold after at hn
    split at hn
    · rename_i c' hgo
      cases k with
      | zero => cases hk
      | succ k =>
        unfold haltWithin at hk
        rw [hgo] at hk
        exact ih hn hk
    · cases hn

/-! ## Violations -/

/-- Whether executing an operation commits a violation. -/
def violates (p : Project) (place : Placement) (c : Config) (op : Op) : Checker → Bool
  | .nullDereference => (accessed p place c op).any fun a => a.toNat == 0
  | .divisionByZero =>
    match op with
    | .arith op _ _ divisor => Value.divides op && (c.eval p place divisor).any fun v => v.toNat == 0
    | _ => false
  | .outOfBounds =>
    match op with
    | .gep true pointer written indices =>
      let object := c.accessType pointer written
      (offset p.layout (c.eval p place) p.layout.pointerBits object indices).any fun o =>
        (size? p.layout object).any fun n => decide (n ≤ o.toNat)
    | _ => false

theorem violates_iff {op : Op} {k : Checker} : violates p place c op k = true ↔ Violates p place c op k := by
  cases k with
  | nullDereference =>
    show ((accessed p place c op).any fun a => a.toNat == 0) = true ↔ ∃ a ∈ accessed p place c op, a.toNat = 0
    simp only [List.any_eq_true, beq_iff_eq]
  | divisionByZero =>
    cases op with
    | arith op flags a divisor =>
      show (Value.divides op && (c.eval p place divisor).any fun v => v.toNat == 0) = true ↔
        Value.divides op = true ∧ ∃ v, c.eval p place divisor = some v ∧ v.toNat = 0
      simp only [Bool.and_eq_true, Option.any_eq_true, beq_iff_eq]
    | _ => exact iff_of_false Bool.false_ne_true id
  | outOfBounds =>
    cases op with
    | gep inbounds pointer written indices =>
      cases inbounds with
      | false => exact iff_of_false Bool.false_ne_true id
      | true =>
        unfold violates Violates
        simp only [Option.any_eq_true, decide_eq_true_iff]
        exact ⟨fun ⟨o, ho, n, hn, h⟩ => ⟨o, n, ho, hn, h⟩, fun ⟨o, n, ho, hn, h⟩ => ⟨o, ho, n, hn, h⟩⟩
    | _ => exact iff_of_false Bool.false_ne_true id

theorem commits_iff {k : Checker} : Commits p place c k ↔
    c.current.entry.isSome = true ∧ (c.current.instr?.any fun i => violates p place c i.op k) = true := by
  rw [Option.any_eq_true]
  constructor
  · rintro ⟨i, hentry, hi, hviolates⟩
    exact ⟨hentry, i, hi, violates_iff.mpr hviolates⟩
  · rintro ⟨hentry, i, hi, hviolates⟩
    exact ⟨i, hentry, hi, violates_iff.mp hviolates⟩

instance decidableCommits (c : Config) (k : Checker) : Decidable (Commits p place c k) :=
  decidable_of_iff _ commits_iff.symm

/-- Whether a run is over within some steps, and commits no violation of a kind until then. -/
def sparesWithin (p : Project) (place : Placement) (k : Checker) : Nat → Config → Bool
  | 0, _ => false
  | n + 1, c =>
    !decide (Commits p place c k) &&
      match step p place c with
      | some (.go c') => sparesWithin p place k n c'
      | _ => true

variable {k : Checker} {n : Nat}

theorem sparesWithin_of_go (hsafe : (c.current.instr?.any fun i => violates p place c i.op k) = false)
    (hstep : step p place c = some (.go c₁)) (h : sparesWithin p place k n c₁ = true) :
    sparesWithin p place k (n + 1) c = true := by
  unfold sparesWithin
  rw [hstep, Bool.and_eq_true, Bool.not_eq_true', decide_eq_false_iff_not, commits_iff, hsafe]
  exact ⟨fun hcommits => Bool.false_ne_true hcommits.2, h⟩

theorem sparesWithin_of_halt (hsafe : (c.current.instr?.any fun i => violates p place c i.op k) = false)
    (hstep : step p place c = some (.halt h)) : sparesWithin p place k (n + 1) c = true := by
  unfold sparesWithin
  rw [hstep, Bool.and_eq_true, Bool.not_eq_true', decide_eq_false_iff_not, commits_iff, hsafe]
  exact ⟨fun hcommits => Bool.false_ne_true hcommits.2, rfl⟩

/-- A store writes what its operands say, whatever is in memory. -/
theorem step_store {i : Instr} {v pointer : Operand} {a w : Word} (hentry : c.current.entry.isSome = true)
    (hi : c.current.instr? = some i) (hop : i.op = .store v pointer) (hv : c.eval p place v = some w)
    (ha : c.eval p place pointer = some a) :
    step p place c = some ({ c with memory := w.store c.memory a.toNat }.finish none) := by
  obtain ⟨entry, hentry⟩ := Option.isSome_iff_exists.mp hentry
  unfold step
  rw [hentry, hi]
  show exec p place c entry i.op = _
  rw [hop]
  unfold exec
  dsimp only
  rw [ha, hv]
  rfl

/-- A run that is over without a violation commits none. -/
theorem not_commits_of_sparesWithin {j : Nat} {d : Config} (h : sparesWithin p place k n c = true)
    (hd : after p place j c = some d) : ¬ Commits p place d k := by
  induction n generalizing c j with
  | zero => cases h
  | succ n ih =>
    unfold sparesWithin at h
    rw [Bool.and_eq_true, Bool.not_eq_true', decide_eq_false_iff_not] at h
    cases j with
    | zero =>
      obtain rfl := Option.some.inj hd
      exact h.1
    | succ j =>
      unfold after at hd
      split at hd
      · rename_i c' hgo
        rw [hgo] at h
        exact ih h.2 hd
      · cases hd

end Concrete

/-! ## Initial values -/

namespace Input

/-- Whether a variable has its initial value at first. -/
def loadsOne (i : Input) (p : Project) (place : Concrete.Placement) (n : String) (g : Global) : Bool :=
  match place n, g.init.bind (Concrete.operand p place fun _ => none) with
  | some a, some v => (List.range (Machine.byteCount v.width)).all fun k => i.byte (a + k) == v.byte k
  | _, _ => true

/-- Whether what is in memory at first are the initial values of the variables. -/
def loads (i : Input) (p : Project) (place : Concrete.Placement) : Bool :=
  p.modules.all fun m => m.globals.all fun g => i.loadsOne p place g.name g

theorem loads_of_check {i : Input} {p : Project} {place : Concrete.Placement} (h : i.loads p place = true) :
    i.Loads p place := by
  intro module n g a init v hg ha hinit hv k hk
  obtain ⟨m, hm, hglobal⟩ := Option.bind_eq_some_iff.mp hg
  obtain ⟨hmem, rfl⟩ := Module.mem_of_global? hglobal
  have hone := List.all_eq_true.mp (List.all_eq_true.mp h m (List.mem_of_getElem? hm)) g hmem
  unfold loadsOne at hone
  rw [ha, hinit, Option.bind_some, hv] at hone
  exact eq_of_beq (List.all_eq_true.mp hone k (List.mem_range.mpr hk))

end Input

end PathSafety
