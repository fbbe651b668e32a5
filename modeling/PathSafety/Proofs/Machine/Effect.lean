import PathSafety.Proofs.Machine.Address

/-!
# Effects of instructions

What an instruction does to a machine, seen from runs with a given placement of the global values. Accesses
must keep away from variables that the path meets only later: their initial values are in a run's memory
from the beginning, but not in the machine's.

Contents:

* `Machine.Clear` — accesses that keep away;
* `Machine.Filed` — that the symbols for memory stand for no initial values;
* `Machine.Steps` — what an instruction does;
* `Site.Holds`, `Machine.Halts` — how an instruction ends a path.
-/

namespace PathSafety

open IR

namespace Machine

/-- That an access to `n` bytes keeps away from the variables that are placed but not met yet and have an
initial value. -/
def Clear (s : Setting) (place : Concrete.Placement) (a : Value) (n : Nat) (m : Machine) : Prop :=
  ∀ x, m.condition.Possible a.term x → ∀ name b g, m.addresses.get? name = none → place name = some b →
    s.project.globalVariable? name = some g → g.init.isSome →
    ∀ k < extent s.project name, ¬ (x ≤ b + k ∧ b + k < x + n)

/-- That initial values have their cells, and that no symbol stands for bytes of them. -/
structure Filed (s : Setting) (place : Concrete.Placement) (T : Table) (m : Machine) : Prop where
  stored : ∀ n v g, m.addresses.get? n = some v → s.project.globalVariable? n = some g → g.init.isSome →
    ∀ a, v.const? = some a → ∀ k < extent s.project n, m.memory.get? (a + k) ≠ none
  separate : ∀ b j, .memory b j ∈ T → ∀ n a g, place n = some a → s.project.globalVariable? n = some g →
    g.init.isSome → ∀ k < extent s.project n, ¬ (b ≤ a + k ∧ a + k < b + j)

/-- What instructions do to a machine. With `all`, reads keep away from variables not met yet as well. -/
structure Steps (s : Setting) (place : Concrete.Placement) (all : Prop) (T : Table) (m : Machine)
    (T' : Table) (m' : Machine) : Prop where
  sound : Sound s T' m'
  table : ∃ new, T' = T ++ new ∧ ∀ o ∈ new, ∃ b j, o = .memory b j
  meets : ∀ i : Input, i.Meets m'.condition.conds ↔ i.Meets m.condition.conds
  addresses : ∀ n v, m.addresses.get? n = some v → m'.addresses.get? n = some v
  next : m.nextAddress ≤ m'.nextAddress
  pristine : ∀ i : Input, Covers s place m' → i.Loads s.project place → i.Meets m.condition.conds →
    Pristine s i place m → Pristine s i place m'
  filed : all → Covers s place m' → Filed s place T m → Filed s place T' m'

variable {s : Setting} {place : Concrete.Placement} {all : Prop} {T T₁ T₂ : Table} {m m₁ m₂ : Machine}

theorem Quiet.steps (h : Quiet s T m m₁) : Steps s place all T m T m₁ where
  sound := h.sound
  table := ⟨[], (List.append_nil T).symm, fun _ ho => absurd ho List.not_mem_nil⟩
  meets i := by rw [h.conds]
  addresses := h.addresses
  next := h.next
  pristine i hcovers hloads _ hm := h.pristine hcovers hloads hm
  filed _ _ hm := {
    stored := by
      intro n v g hn hg hinit a ha k hk
      cases hmet : m.addresses.get? n with
      | none => exact h.initialized n v g hmet hn hg hinit a ha k hk
      | some u =>
        obtain rfl := Option.some.inj ((h.addresses n u hmet).symm.trans hn)
        exact h.stored _ (hm.stored n u g hmet hg hinit a ha k hk)
    separate := hm.separate }

theorem Steps.trans (h₁ : Steps s place all T m T₁ m₁) (h₂ : Steps s place all T₁ m₁ T₂ m₂) :
    Steps s place all T m T₂ m₂ where
  sound := h₂.sound
  table := by
    obtain ⟨new₁, rfl, hnew₁⟩ := h₁.table
    obtain ⟨new₂, rfl, hnew₂⟩ := h₂.table
    exact ⟨new₁ ++ new₂, List.append_assoc T new₁ new₂, fun o ho =>
      (List.mem_append.mp ho).elim (hnew₁ o) (hnew₂ o)⟩
  meets i := (h₂.meets i).trans (h₁.meets i)
  addresses n v hn := h₂.addresses n v (h₁.addresses n v hn)
  next := Nat.le_trans h₁.next h₂.next
  pristine i hcovers hloads hi hm :=
    h₂.pristine i hcovers hloads ((h₁.meets i).mpr hi)
      (h₁.pristine i (hcovers.of_addresses h₂.addresses) hloads hi hm)
  filed hall hcovers hm := h₂.filed hall hcovers (h₁.filed hall (hcovers.of_addresses h₂.addresses) hm)

/-- What accesses do. -/
theorem Touched.steps {R : Nat → Prop} (h : Touched s R T m T₁ m₁)
    (hpristine : ∀ i : Input, i.Meets m.condition.conds → Pristine s i place m → Pristine s i place m₁)
    (hclear : all → ∀ x, R x → ∀ name b g, m.addresses.get? name = none → place name = some b →
      s.project.globalVariable? name = some g → g.init.isSome → ∀ k < extent s.project name, x ≠ b + k) :
    Steps s place all T m T₁ m₁ where
  sound := h.sound
  table := by
    obtain ⟨new, hnew, ho⟩ := h.table
    exact ⟨new, hnew, fun o hmem => (ho o hmem).imp fun b hb => hb.imp fun j hj => hj.1⟩
  meets := h.meets
  addresses n v hn := by rwa [h.addresses]
  next := Nat.le_of_eq h.next.symm
  pristine i _ _ hi hm := hpristine i hi hm
  filed hall hcovers hm := {
    stored := by
      intro n v g hn hg hinit a ha k hk
      rw [h.addresses] at hn
      exact h.stored _ (hm.stored n v g hn hg hinit a ha k hk)
    separate := by
      intro b j hmem n a g hplace hg hinit k hk hin
      obtain ⟨new, rfl, ho⟩ := h.table
      -- Bytes made up before this access were apart already; those made up by it lie in `R`, which
      -- is clear of variables still to be met.
      rcases List.mem_append.mp hmem with hmem | hmem
      · exact hm.separate b j hmem n a g hplace hg hinit k hk hin
      · obtain ⟨b', j', heq, hfresh⟩ := ho _ hmem
        obtain ⟨rfl, rfl⟩ := Origin.memory.inj heq
        obtain ⟨hnone, hR⟩ := hfresh (a + k) hin.1 hin.2
        cases hmet : m.addresses.get? n with
        | none => exact hclear hall _ hR n a g hmet hplace hg hinit k hk rfl
        | some v =>
          have hconst := (hcovers.met n v (by rwa [h.addresses])).1
          exact hm.stored n v g hmet hg hinit a (hconst.symm.trans hplace) k hk hnone }

/-- What a read does. -/
theorem ReadAs.steps {a v : Value} {bits : Nat} (h : ReadAs s a bits T m v T₁ m₁)
    (hclear : all → Clear s place a (byteCount bits) m) : Steps s place all T m T₁ m₁ := by
  refine h.touched.steps (fun i _ hm => ?_) ?_
  · intro n b g hnone hplace hg hinit k hk
    rw [h.bytes i]
    exact hm n b g (by rwa [h.touched.addresses] at hnone) hplace hg hinit k hk
  · rintro hall x ⟨c, hc, hle, hlt⟩ name b g hnone hplace hg hinit k hk rfl
    exact hclear hall c hc name b g hnone hplace hg hinit k hk ⟨hle, hlt⟩

/-- What a write does. -/
theorem Written.steps {a v : Value} (h : Written s a v T m m₁) (hm : Sound s T m) (ha : a.Known T)
    (hclear : Clear s place a (byteCount v.width) m) : Steps s place all T m T m₁ := by
  refine h.touched.steps (fun i hi hpristine => ?_) fun _ x hx => absurd hx id
  intro n b g hnone hplace hg hinit k hk
  rw [h.touched.addresses] at hnone
  have hout := hclear _ (hm.possible ha hi) n b g hnone hplace hg hinit k hk
  rw [h.bytes i hi, Word.store, Value.width_word, if_neg hout]
  exact hpristine n b g hnone hplace hg hinit k hk

end Machine

/-! ## Faults -/

/-- That a run stands at a site, with the words of the registers. -/
structure Site.Holds (site : Site) (i : Input) (c : Concrete.Config) : Prop where
  routine : c.current.routine = site.routine
  registers : Represents i site.registers c.current.registers

namespace Machine

variable {s : Setting} {place : Concrete.Placement} {all : Prop} {T T₁ T₂ : Table} {m m₁ m₂ : Machine}
  {site : Site} {f : Fault}

/-- That a violation is possible: it happens for the inputs that meet one more condition, and some
valuation does. -/
def Alarm (s : Setting) (place : Concrete.Placement) (T : Table) (m : Machine) (site : Site) (k : Checker) :
    Prop :=
  ∃ c : Cond, c.Known T ∧ (∃ ν, Term.AllHold ν m.condition.conds ∧ c.Holds ν) ∧
    ∀ i cfg, Covers s place m → site.Holds i cfg → c.meaning i.reading = 1#1 →
      Concrete.Violates s.project place cfg site.instr.op k

/-- That numbers exceed what pointers hold: addresses have run out, or the instruction is an address
computation in a type that is larger than memory. -/
def Exceeds (s : Setting) (site : Site) (m : Machine) : Prop :=
  2 ^ s.pointerBits < m.nextAddress ∨ ∃ pointer written indices n,
    site.instr.op = .gep true pointer written indices ∧
      Concrete.size? s.project.layout (site.routine.scope.accessType pointer written) = some n ∧
      2 ^ s.pointerBits ≤ n

/-- How a machine is left by a fault. A violation is reported where it is possible, or where numbers exceed
what pointers hold. -/
structure Halts (s : Setting) (place : Concrete.Placement) (all : Prop) (site : Site) (T : Table)
    (m : Machine) (f : Fault) (m' : Machine) : Prop where
  meets : ∀ i : Input, i.Meets m'.condition.conds ↔ i.Meets m.condition.conds
  addresses : ∀ n v, m.addresses.get? n = some v → m'.addresses.get? n = some v
  next : m.nextAddress ≤ m'.nextAddress
  violation : ∀ k, f.violation? = some k → Exceeds s site m' ∨
    ∃ T', Steps s place all T m T' m' ∧ Alarm s place T' m' site k

theorem Harmless.halts (h : Harmless s m f m₁) : Halts s place all site T m f m₁ where
  meets i := by rw [h.conds]
  addresses := h.addresses
  next := h.next
  violation k hk := by
    rcases h.violation with hnone | hlt
    · rw [hk] at hnone
      cases hnone
    · exact Or.inl (Or.inl hlt)

theorem Steps.halts (h : Steps s place all T m T₁ m₁) (hf : Halts s place all site T₁ m₁ f m₂) :
    Halts s place all site T m f m₂ where
  meets i := (hf.meets i).trans (h.meets i)
  addresses n v hn := hf.addresses n v (h.addresses n v hn)
  next := Nat.le_trans h.next hf.next
  violation k hk := by
    rcases hf.violation k hk with hexceeds | ⟨T', hsteps, halarm⟩
    · exact Or.inl hexceeds
    · exact Or.inr ⟨T', h.trans hsteps, halarm⟩

theorem halts_of_violation (hm : Sound s T m) {k : Checker} (hf : f.violation? = some k)
    (hasked : Asked m m₁) (halarm : Alarm s place T m₁ site k) : Halts s place all site T m f m₁ where
  meets i := by rw [hasked.conds]
  addresses := (hasked.quiet hm).addresses
  next := (hasked.quiet hm).next
  violation k' hk' := by
    obtain rfl := Option.some.inj (hf.symm.trans hk')
    exact Or.inr ⟨T, (hasked.quiet hm).steps, halarm⟩

/-- A null pointer is a violation of an instruction that accesses it. -/
theorem NullFault.halts {a : Value} (h : NullFault s a m f m₁) (hm : Sound s T m) (ha : a.Known T)
    (haccessed : ∀ i cfg, Covers s place m → site.Holds i cfg →
      a.word i ∈ Concrete.accessed s.project place cfg site.instr.op) :
    Halts s place all site T m f m₁ := by
  refine halts_of_violation hm h.violation h.asked
    ⟨a.equals 0, Value.known_equals ha 0, ?_, fun i cfg hcovers hsite hzero => ?_⟩
  · obtain ⟨ν, hν, hzero⟩ := h.holds
    exact ⟨ν, by rwa [h.asked.conds], hzero⟩
  · exact ⟨a.word i, haccessed i cfg (hcovers.of_addresses (h.asked.quiet hm).addresses) hsite,
      (Value.meaning_equals (Nat.two_pow_pos _)).mp hzero⟩

end Machine

end PathSafety
