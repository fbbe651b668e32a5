import PathSafety.Check.Checker
import PathSafety.Proofs.IR.Agreement
import PathSafety.Proofs.Machine.Bytes
import PathSafety.Proofs.Solver.Queries

/-!
# What the machine keeps

`Machine.Sound` says when a machine stands for concrete runs: its conditions and bytes look only at the
symbols of a table, its path condition can hold, and the global values that were met lie apart. Evaluating
operands changes a machine only in ways that a run does not see (`Machine.Quiet`), because the addresses of
all global values are fixed beforehand in a run and their initial values are in memory from the beginning.

Contents:

* `Does` — what an action does, whether it succeeds, faults or meets a defect;
* `Machine.Sound`, `Machine.Covers`, `Machine.Pristine` — invariants, and what ties a run to a machine;
* `Machine.Quiet`, `Machine.Harmless` — changes that no run sees;
* `Quietly` — actions that change no more.
-/

namespace PathSafety

open IR

/-! ## Actions -/

section Does

variable {α β : Type} {D : Prop} {m : Machine}

/-- What an action comes to on a machine: `Q` where it succeeds, `E` where it faults; `D` says whether it
may meet a defect. -/
def Does (D : Prop) (x : Action α) (m : Machine) (Q : α → Machine → Prop) (E : Fault → Machine → Prop) :
    Prop :=
  match x m with
  | .ok a m' => Q a m'
  | .error (.fault f) m' => E f m'
  | .error (.defect _) _ => D

variable {x : Action α} {f : α → Action β} {Q : α → Machine → Prop} {R : β → Machine → Prop}
  {E : Fault → Machine → Prop}

theorem does_pure {a : α} (h : Q a m) : Does D (pure a : Action α) m Q E := h

theorem does_fault {g : Fault} (h : E g m) : Does D (Machine.fault g : Action α) m Q E := h

theorem does_defect {d : Defect} (h : D) : Does D (Machine.defect d : Action α) m Q E := h

theorem does_get {Q : Machine → Machine → Prop} (h : Q m m) : Does D (get : Action Machine) m Q E := h

theorem does_set {m' : Machine} {Q : Unit → Machine → Prop} (h : Q () m') :
    Does D (set m' : Action Unit) m Q E := h

theorem does_modify {g : Machine → Machine} {Q : Unit → Machine → Prop} (h : Q () (g m)) :
    Does D (modify g : Action Unit) m Q E := h

/-- One action after another. -/
theorem does_bind (h : Does D x m (fun a m' => Does D (f a) m' R E) E) : Does D (x >>= f) m R E := by
  unfold Does at h ⊢
  simp only [bind, EStateM.bind]
  cases hx : x m with
  | ok a m' =>
    rw [hx] at h
    exact h
  | error e m' =>
    rw [hx] at h
    cases e <;> exact h

theorem does_bind_of_ok {a : α} {m' : Machine} (hx : x m = .ok a m') (h : Does D (f a) m' R E) :
    Does D (x >>= f) m R E := by
  unfold Does at h ⊢
  simp only [bind, EStateM.bind, hx]
  exact h

theorem Does.mono (h : Does D x m Q E) {Q' : α → Machine → Prop} {E' : Fault → Machine → Prop}
    (hQ : ∀ a m', Q a m' → Q' a m') (hE : ∀ g m', E g m' → E' g m') : Does D x m Q' E' := by
  unfold Does at h ⊢
  split at h
  · exact hQ _ _ h
  · exact hE _ _ h
  · exact h

theorem Does.of_ok {a : α} {m' : Machine} (h : Does D x m Q E) (hx : x m = .ok a m') : Q a m' := by
  unfold Does at h
  rw [hx] at h
  exact h

/-- What an action gives is its result. -/
theorem Does.and_eq (h : Does D x m Q E) : Does D x m (fun a m' => x m = .ok a m' ∧ Q a m') E := by
  unfold Does at h ⊢
  split at h
  · rename_i hx
    exact ⟨hx, h⟩
  · exact h
  · exact h

theorem does_valueOr {r : Except ValueError α} {a : α} (hr : r = .ok a) (h : Q a m) :
    Does D (Machine.valueOr r) m Q E := by
  subst hr
  exact h

end Does

/-- The violation that the checkers find in a fault. -/
def Fault.violation? (f : Fault) : Option Checker := (Checker.verdict Checker.all (.fault f)).kind

/-- Whether a fault says something else than that a path has been in a block too often. -/
def Fault.isLocal (f : Fault) : Bool := f.kind != .loopBoundExceeded

/-- Whether a fault says that an operand or a phi has no value, be it inside a hook. -/
def Fault.lacksValue : Fault → Bool
  | .unboundOperand | .noIncoming _ _ => true
  | .rejected f => f.lacksValue
  | _ => false

/-- Whether a fault says that a fork has no possible successor. -/
def Fault.isDeadEnd : Fault → Bool
  | .noSuccessor _ => true
  | _ => false

/-- Whether a fault is neither for the loop bound, nor for lack of a value or of a successor. -/
def Fault.isPlain (f : Fault) : Bool := f.isLocal && !f.lacksValue && !f.isDeadEnd

theorem Fault.isLocal_of_isPlain {f : Fault} (h : f.isPlain = true) : f.isLocal = true := by
  simp only [isPlain, Bool.and_eq_true] at h
  exact h.1.1

theorem Fault.lacksValue_of_isPlain {f : Fault} (h : f.isPlain = true) : f.lacksValue = false := by
  simp only [isPlain, Bool.and_eq_true, Bool.not_eq_true'] at h
  exact h.1.2

theorem Fault.isDeadEnd_of_isPlain {f : Fault} (h : f.isPlain = true) : f.isDeadEnd = false := by
  simp only [isPlain, Bool.and_eq_true, Bool.not_eq_true'] at h
  exact h.2

namespace Machine

/-! ## Invariants -/

/-- How many bytes a global value takes, by its name. -/
def extent (p : Project) (name : String) : Nat :=
  match p.globalVariable? name with
  | some g => byteCount ((p.layout.bits? g.ty).getD 0)
  | none => 1

/-- That the global values of some addresses stand one beside another before the next address. As numbers
the addresses are those of `at`, which may be beyond those that pointers hold. -/
structure Laid (s : Setting) (m : Machine) (at_ : String → Nat) : Prop where
  eq : ∀ n v, m.addresses.get? n = some v → v = .ofNat s.pointerBits (at_ n)
  le : ∀ n, m.addresses.get? n ≠ none →
    at_ n + extent s.project n ≤ m.nextAddress ∧ at_ n < m.nextAddress
  apart : ∀ n n', m.addresses.get? n ≠ none → m.addresses.get? n' ≠ none → n ≠ n' →
    at_ n + extent s.project n ≤ at_ n' ∨ at_ n' + extent s.project n' ≤ at_ n

/-- That a machine stands for concrete runs, its symbols being those of a table. -/
structure Sound (s : Setting) (T : Table) (m : Machine) : Prop where
  symbols : m.nextSymbol = T.length
  conds : ∀ c ∈ m.condition.conds, c.Known T
  feasible : m.condition.Feasible
  known : m.memory.Known T
  apart : m.memory.Apart T
  positive : 0 < m.nextAddress
  laid : ∃ at_, Laid s m at_

/-- That runs can stand for a machine: the global values that it has met are where a placement puts them, and the
constants of the project are read as they are written. -/
structure Covers (s : Setting) (place : Concrete.Placement) (m : Machine) : Prop where
  agrees : s.project.agrees = true
  met : ∀ n v, m.addresses.get? n = some v → place n = v.const? ∧ v.const? ≠ none

/-- That the variables that a machine has not met still have what the input has in their place. -/
def Pristine (s : Setting) (i : Input) (place : Concrete.Placement) (m : Machine) : Prop :=
  ∀ n a g, m.addresses.get? n = none → place n = some a → s.project.globalVariable? n = some g →
    g.init.isSome → ∀ k < extent s.project n, m.memory.byteAt i (a + k) = i.byte (a + k)

/-! ## Changes that no run sees -/

/-- What operands do to a machine: they may meet global values. For a run in which these are placed as the
machine finds them, and loaded from the beginning, nothing changes. -/
structure Quiet (s : Setting) (T : Table) (m m' : Machine) : Prop where
  sound : Sound s T m'
  conds : m'.condition.conds = m.condition.conds
  addresses : ∀ n v, m.addresses.get? n = some v → m'.addresses.get? n = some v
  next : m.nextAddress ≤ m'.nextAddress
  stored : ∀ x, m.memory.get? x ≠ none → m'.memory.get? x ≠ none
  initialized : ∀ n v g, m.addresses.get? n = none → m'.addresses.get? n = some v →
    s.project.globalVariable? n = some g → g.init.isSome →
    ∀ a, v.const? = some a → ∀ k < extent s.project n, m'.memory.get? (a + k) ≠ none
  bytes : ∀ i place, Covers s place m' → i.Loads s.project place → Pristine s i place m →
    m'.memory.byteAt i = m.memory.byteAt i

/-- How a machine may be left by a fault that reports no violation of the program. A violation is reported
only where addresses have run out. -/
structure Harmless (s : Setting) (m : Machine) (f : Fault) (m' : Machine) : Prop where
  conds : m'.condition.conds = m.condition.conds
  addresses : ∀ n v, m.addresses.get? n = some v → m'.addresses.get? n = some v
  next : m.nextAddress ≤ m'.nextAddress
  violation : f.violation? = none ∨ 2 ^ s.pointerBits < m'.nextAddress

variable {s : Setting} {T : Table} {m m₁ m₂ : Machine}

theorem Covers.of_addresses {place : Concrete.Placement} (h : Covers s place m₁)
    (hm : ∀ n v, m.addresses.get? n = some v → m₁.addresses.get? n = some v) : Covers s place m :=
  ⟨h.agrees, fun n v hn => h.met n v (hm n v hn)⟩

theorem Covers.of_eq {place : Concrete.Placement} (h : Covers s place m₁) (hm : m₁.addresses = m.addresses) :
    Covers s place m := h.of_addresses fun _ _ hn => by rwa [hm]

theorem unmet_of_addresses (hm : ∀ n v, m.addresses.get? n = some v → m₁.addresses.get? n = some v)
    {n : String} (h : m₁.addresses.get? n = none) : m.addresses.get? n = none := by
  cases hn : m.addresses.get? n with
  | none => rfl
  | some v =>
    rw [hm n v hn] at h
    cases h

theorem Quiet.refl (h : Sound s T m) : Quiet s T m m where
  sound := h
  conds := rfl
  addresses _ _ hn := hn
  next := Nat.le_refl _
  stored _ hx := hx
  initialized n v g hnone hsome := by
    rw [hnone] at hsome
    cases hsome
  bytes _ _ _ _ _ := rfl

/-- What is pristine stays so, as long as nothing that a run sees is changed. -/
theorem Quiet.pristine (h : Quiet s T m m₁) {i : Input} {place : Concrete.Placement}
    (hcovers : Covers s place m₁) (hloads : i.Loads s.project place) (hm : Pristine s i place m) :
    Pristine s i place m₁ := by
  intro n a g hnone hplace hg hinit k hk
  rw [h.bytes i place hcovers hloads hm]
  exact hm n a g (unmet_of_addresses h.addresses hnone) hplace hg hinit k hk

theorem Quiet.trans (h₁ : Quiet s T m m₁) (h₂ : Quiet s T m₁ m₂) : Quiet s T m m₂ where
  sound := h₂.sound
  conds := h₂.conds.trans h₁.conds
  addresses n v hn := h₂.addresses n v (h₁.addresses n v hn)
  next := Nat.le_trans h₁.next h₂.next
  stored x hx := h₂.stored x (h₁.stored x hx)
  initialized := by
    intro n v g hnone hsome hg hinit a ha k hk
    -- A variable is laid out in one of the two halves, which is the one that initializes it.
    cases hn : m₁.addresses.get? n with
    | none => exact h₂.initialized n v g hn hsome hg hinit a ha k hk
    | some v' =>
      obtain rfl := Option.some.inj ((h₂.addresses n v' hn).symm.trans hsome)
      exact h₂.stored _ (h₁.initialized n v' g hnone hn hg hinit a ha k hk)
  bytes := by
    intro i place hcovers hloads hm
    have hcovers₁ := hcovers.of_addresses h₂.addresses
    rw [h₂.bytes i place hcovers hloads (h₁.pristine hcovers₁ hloads hm),
      h₁.bytes i place hcovers₁ hloads hm]

theorem Quiet.harmless (h : Quiet s T m m₁) {f : Fault} (hf : Harmless s m₁ f m₂) : Harmless s m f m₂ where
  conds := hf.conds.trans h.conds
  addresses n v hn := hf.addresses n v (h.addresses n v hn)
  next := Nat.le_trans h.next hf.next
  violation := hf.violation

theorem harmless_refl {f : Fault} (hf : f.violation? = none) : Harmless s m f m where
  conds := rfl
  addresses _ _ hn := hn
  next := Nat.le_refl _
  violation := Or.inl hf

end Machine

open Machine

/-! ## Quiet actions -/

/-- That an action is quiet, and `Q` holds of its result and the machine that it leaves. -/
def Quietly {α : Type} (D : Prop) (s : Setting) (T : Table) (x : Action α) (m : Machine)
    (Q : α → Machine → Prop) : Prop :=
  Does D x m (fun a m' => Quiet s T m m' ∧ Q a m') (Harmless s m)

section Quietly

variable {α β : Type} {D : Prop} {s : Setting} {T : Table} {m : Machine} {x : Action α}
  {f : α → Action β} {Q : α → Machine → Prop} {R : β → Machine → Prop}

theorem quietly_pure (hm : Sound s T m) {a : α} (h : Q a m) : Quietly D s T (pure a) m Q :=
  ⟨.refl hm, h⟩

theorem quietly_fault {g : Fault} (hg : g.violation? = none) : Quietly D s T (fault g : Action α) m Q :=
  harmless_refl hg

/-- Quiet actions one after another are quiet. -/
theorem quietly_bind (h : Quietly D s T x m Q)
    (hf : ∀ a m', Quiet s T m m' → Q a m' → Quietly D s T (f a) m' R) : Quietly D s T (x >>= f) m R := by
  refine does_bind (Does.mono h ?_ fun g m' hg => hg)
  rintro a m' ⟨hquiet, hQ⟩
  refine Does.mono (hf a m' hquiet hQ) ?_ fun g m'' hg => hquiet.harmless hg
  rintro b m'' ⟨hquiet', hR⟩
  exact ⟨hquiet.trans hquiet', hR⟩

theorem Quietly.mono (h : Quietly D s T x m Q) {Q' : α → Machine → Prop}
    (hQ : ∀ a m', Quiet s T m m' → Q a m' → Q' a m') : Quietly D s T x m Q' :=
  Does.mono h (fun a m' ha => ⟨ha.1, hQ a m' ha.1 ha.2⟩) fun _ _ hg => hg

theorem quietly_valueOr (hm : Sound s T m) {r : Except ValueError α} {a : α} (hr : r = .ok a) :
    Quietly D s T (valueOr r) m fun b _ => b = a := by
  subst hr
  exact quietly_pure hm rfl

theorem exists_const?_of_not_isSymbolic {v : Value} (h : ¬ v.isSymbolic = true) : ∃ n, v.const? = some n := by
  simp only [Value.isSymbolic, Bool.not_eq_true', Bool.not_eq_false] at h
  obtain ⟨b, hb⟩ := Option.isSome_iff_exists.mp h
  exact ⟨b.toNat, by unfold Value.const?; rw [hb]; rfl⟩

/-- The number of a constant. -/
theorem quietly_evalNat (hm : Sound s T m) {v : Value} {n : Nat} (hv : v.const? = some n) :
    Quietly D s T (evalNat v) m fun k _ => k = n := by
  obtain ⟨b, hb, rfl⟩ := Option.map_eq_some_iff.mp hv
  unfold evalNat
  refine does_bind (does_get ?_)
  rw [PathCondition.anyValue?_of_const? hb]
  exact quietly_pure hm rfl

end Quietly

end PathSafety
