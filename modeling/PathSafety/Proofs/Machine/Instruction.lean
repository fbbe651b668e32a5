import PathSafety.Machine.Instruction
import PathSafety.Machine.Intrinsic
import PathSafety.Proofs.Concrete.Run
import PathSafety.Proofs.Machine.Effect
import PathSafety.Proofs.Machine.Inputs

/-!
# Instructions do what they do in a run

For each instruction that does not end a block: the machine's result is the word that a run computes, and
memory holds the bytes that it holds in the run afterwards.

Contents:

* `Machine.accesses`, `Machine.Proper` — what an instruction is about to access, and that it may;
* `Machine.Effect` — an instruction that does what it does in a run;
* `does_arith`, `does_compare`, ... — the instructions.
-/

namespace PathSafety

open IR

/-- That a site can be executed: its operands have values, and its registers the widths of their types. Its constants
are read as they are written if those of the project are. -/
structure Site.WellTyped (s : Setting) (T : Table) (site : Site) : Prop where
  fits : Fits.op s.project site.routine site.instr.op = true
  typed : Machine.Typed s T site.routine.scope site.registers
  agrees : s.project.agrees = true → site.instr.op.agrees s.project = true

/-- That a site divides one constant by another that is zero. -/
inductive Site.DividesByZero (s : Setting) (site : Site) (m : Machine) : Prop
  | constants {op : ArithOp} {flags : List String} {a b : Operand} {u v : Value} {m₁ m₂ : Machine}
    (hop : site.instr.op = .arith op flags a b) (hdivides : Value.divides op = true)
    (ha : site.eval s a m = .ok u m₁) (hb : site.eval s b m₁ = .ok v m₂) (hu : u.isSymbolic = false)
    (hv : v.const? = some 0) (hwidth : v.width = u.width) : DividesByZero s site m

namespace Machine

/-! ## Accesses -/

/-- A range of memory that is about to be read or written. -/
structure Access where
  address : Value
  bytes : Nat
  writes : Bool

/-- What an instruction is about to access, its operands being evaluated on the way. -/
def accesses (s : Setting) (site : Site) : Action (List Access) := do
  match site.instr.op with
  | .load pointer written => do
    let bits ← sized s (site.routine.scope.accessType pointer written)
    let a ← site.eval s pointer
    return [⟨a, byteCount bits, false⟩]
  | .store v pointer => do
    let a ← site.eval s pointer
    let v ← site.eval s v
    return [⟨a, byteCount v.width, true⟩]
  | .call callee args =>
    let c : Call := ⟨site, callee, args⟩
    match c.target?.map fun f => (f.name, Intrinsic.ofName? f.name) with
    | some (name, some .copy) => do
      let (dest, length) ← blockOperands s c name
      if length = 0 then return []
      let source ← c.eval s (← c.arg 1)
      return [⟨source, length, false⟩, ⟨dest, length, true⟩]
    | some (name, some .fill) => do
      let (dest, length) ← blockOperands s c name
      if length = 0 then return []
      let _ ← c.eval s (← c.arg 1)
      return [⟨dest, length, true⟩]
    | _ => return []
  | _ => return []

/-- That an access goes to addresses that need not be picked among several, reads all of its bytes, and keeps
away from variables that are met later; reads need not keep away, unless `all` do. -/
structure Access.Proper (s : Setting) (place : Concrete.Placement) (all : Prop) (x : Access) (m : Machine) :
    Prop where
  near : x.writes = false → Near x.address m ∧ Whole x.address x.bytes m
  single : x.writes = true → Single x.address m
  clear : x.writes = true ∨ all → Clear s place x.address x.bytes m

/-- That all accesses of an instruction are proper. -/
def Proper (s : Setting) (place : Concrete.Placement) (all : Prop) (site : Site) (m : Machine) : Prop :=
  ∀ l m', accesses s site m = .ok l m' → ∀ x ∈ l, x.Proper s place all m'

/-! ## Effects -/

/-- The addresses that an operation with some result took from those of allocations. -/
def allocated (op : Op) (result : Option Value) : List Nat :=
  match op with
  | .alloca _ _ => (result.bind Value.const?).toList
  | _ => []

/-- That an instruction does what it does in a run, and reports the null pointers that it accesses. -/
structure Effect (s : Setting) (place : Concrete.Placement) (all : Prop) (site : Site) (T : Table)
    (m : Machine) (result : Option Value) (T' : Table) (m' : Machine) : Prop where
  steps : Steps s place all T m T' m'
  typed : ∀ v, result = some v → v.Known T' ∧
    Fits.resultWidth? s.project site.routine site.instr.op = some v.width
  exec : ∀ (i : Input) (c : Concrete.Config) (entry : Concrete.Registers) (stack : List Nat),
    Covers s place m' → i.Loads s.project place → Pristine s i place m → i.Meets m.condition.conds →
    site.Holds i c → c.current.previous = site.previous → c.memory = m.memory.byteAt i →
    c.stack = allocated site.instr.op result ++ stack →
    (∀ t incoming, site.instr.op = .phi t incoming → ∀ x ∈ incoming,
      Concrete.operand s.project place entry x.1 =
        Concrete.operand s.project place c.current.registers x.1) →
    Concrete.exec s.project place c entry site.instr.op =
      some ({ c with memory := m'.memory.byteAt i, stack }.finish (result.map (Value.word i)))
  safe : s.nullChecking = true → ∀ i c, Covers s place m' → i.Meets m.condition.conds → site.Holds i c →
    ∀ a ∈ Concrete.accessed s.project place c site.instr.op, a.toNat ≠ 0

/-- That an instruction accesses no memory. -/
def Silent (s : Setting) (place : Concrete.Placement) (site : Site) : Prop :=
  ∀ i c, site.Holds i c → Concrete.accessed s.project place c site.instr.op = []

variable {s : Setting} {place : Concrete.Placement} {all : Prop} {T : Table} {m m₁ : Machine} {D : Prop}
  {site : Site}

/-- An instruction that computes its result from operands. -/
theorem effect_of_quiet {v : Value} (hm : Quiet s T m m₁) (hv : v.Known T)
    (hwidth : Fits.resultWidth? s.project site.routine site.instr.op = some v.width)
    (hallocated : allocated site.instr.op (some v) = [])
    (haccessed : ∀ c, Concrete.accessed s.project place c site.instr.op = [])
    (hexec : ∀ (i : Input) (c : Concrete.Config) (entry : Concrete.Registers), Covers s place m₁ →
      site.Holds i c → c.current.previous = site.previous →
      (∀ t incoming, site.instr.op = .phi t incoming → ∀ x ∈ incoming,
        Concrete.operand s.project place entry x.1 =
          Concrete.operand s.project place c.current.registers x.1) →
      Concrete.exec s.project place c entry site.instr.op = some (c.finish (some (v.word i)))) :
    Effect s place all site T m (some v) T m₁ where
  steps := hm.steps
  typed := by
    intro u hu
    obtain rfl := Option.some.inj hu
    exact ⟨hv, hwidth⟩
  exec := by
    intro i c entry stack hcovers hloads hpristine _ hsite hprevious hmemory hstack hphi
    rw [hallocated, List.nil_append] at hstack
    rw [hexec i c entry hcovers hsite hprevious hphi, hm.bytes i place hcovers hloads hpristine, ← hmemory,
      ← hstack]
    rfl
  safe := by
    intro _ i c _ _ _ a ha
    rw [haccessed c] at ha
    exact absurd ha List.not_mem_nil

/-! ## Operands of a site -/

theorem quietly_site_eval (hfit : Fit s) (hsite : site.WellTyped s T) {o : Operand} (ho : o ∈ site.instr.op.taken)
    {w : Nat} (hw : Fits.width? s.project site.routine o = some w) (hm : Sound s T m) :
    Quietly D s T (site.eval s o) m fun v m' =>
      v.width = w ∧
        Evaluates s T site.registers (fun place cs => Concrete.operand s.project place cs o) v m' ∧
        ∀ k, Fits.operandNumber? o = some k → v.const? = some k :=
  quietly_eval hfit hsite.typed o hw (fun h => Op.agrees_of_mem (hsite.agrees h) ho) hm

theorem exists_width_of_valued {r : Routine} {o : Operand} (h : Fits.valued s.project r [o] = true) :
    ∃ w, Fits.width? s.project r o = some w := by
  simp only [Fits.valued, List.all_cons, List.all_nil, Bool.and_true] at h
  exact Option.isSome_iff_exists.mp h

/-- Two operands of the same width. -/
theorem quietly_site_eval_pair (hfit : Fit s) (hsite : site.WellTyped s T) {a b : Operand}
    (ha : a ∈ site.instr.op.taken) (hb : b ∈ site.instr.op.taken)
    (hfits : Fits.valued s.project site.routine [a] = true ∧
      Fits.width? s.project site.routine a = Fits.width? s.project site.routine b)
    (hm : Sound s T m) {β : Type} {f : Value → Value → Action β} {Q : β → Machine → Prop}
    {E : Fault → Machine → Prop} (hE : ∀ g m', Harmless s m g m' → E g m')
    (hf : ∀ u v m', Quiet s T m m' → v.width = u.width →
      Fits.width? s.project site.routine a = some u.width →
      Evaluates s T site.registers (fun place cs => Concrete.operand s.project place cs a) u m' →
      Evaluates s T site.registers (fun place cs => Concrete.operand s.project place cs b) v m' →
      (∃ m₁, site.eval s a m = .ok u m₁ ∧ site.eval s b m₁ = .ok v m') → Does D (f u v) m' Q E) :
    Does D (do f (← site.eval s a) (← site.eval s b)) m Q E := by
  obtain ⟨w, hw⟩ := exists_width_of_valued hfits.1
  refine does_bind (Does.mono (quietly_site_eval hfit hsite ha hw hm).and_eq ?_ hE)
  rintro u m₁ ⟨hrun, h₁, hu, hu', _⟩
  refine does_bind (Does.mono (quietly_site_eval hfit hsite hb (hfits.2 ▸ hw) h₁.sound).and_eq ?_
    fun g m' hg => hE g m' (h₁.harmless hg))
  rintro v m₂ ⟨hrun', h₂, hv, hv', _⟩
  exact hf u v m₂ (h₁.trans h₂) (hv.trans hu.symm) (hu ▸ hw) (hu'.quiet h₂) hv' ⟨m₁, hrun, hrun'⟩

/-- There is a run that stands at a site, if constants are read as they are written. -/
theorem exists_holds (hm : Sound s T m) (hagrees : s.project.agrees = true) (site : Site) (i : Input) :
    ∃ place c, Covers s place m ∧ site.Holds i c := by
  refine ⟨fun n => (m.addresses.get? n).bind Value.const?,
    { current := {
        routine := site.routine
        block := ⟨site.block, []⟩
        registers := fun n => (site.registers.get? n).map (Value.word i) }
      memory := i.byte
      stack := [] }, ?_, rfl, ?_⟩
  · obtain ⟨at_, hlaid⟩ := hm.laid
    refine ⟨hagrees, fun n v hn => ?_⟩
    obtain rfl := hlaid.eq n v hn
    rw [hn]
    exact ⟨rfl, Option.some_ne_none _⟩
  · intro n v hn
    dsimp only
    rw [hn]
    rfl

theorem sized_of_scalarBits? (hptr : s.pointerBits ≠ 0) {t : Ty} {w : Nat}
    (h : s.project.layout.scalarBits? t = some w) :
    w ≠ 0 ∧ sized s t = pure w ∧ Concrete.bits? s.project t = some w := by
  have hpos := Layout.ne_zero_of_scalarBits? hptr h
  unfold sized Concrete.bits?
  rw [Layout.bits?_of_scalarBits? h]
  cases w with
  | zero => exact absurd rfl hpos
  | succ n => exact ⟨hpos, rfl, rfl⟩

/-! ## Computations -/

/-- That a site's instruction commits no violation of some kind for any input that meets the condition. -/
def Spares (s : Setting) (site : Site) (m : Machine) (k : Checker) : Prop :=
  ∀ i place c, Covers s place m → i.Meets m.condition.conds → site.Holds i c →
    ¬ Concrete.Violates s.project place c site.instr.op k

theorem Spares.quiet {k : Checker} (h : Spares s site m k) (hm : Quiet s T m m₁) : Spares s site m₁ k :=
  fun i place c hcovers hi => h i place c (hcovers.of_addresses hm.addresses) (by rwa [← hm.conds])

section Computations

variable (hfit : Fit s) (hsite : site.WellTyped s T) (hm : Sound s T m)
include hfit hsite hm

/-- A division of constants by zero is a violation for every input. -/
theorem Spares.not_dividesByZero (hagrees : s.project.agrees = true) (hspares : Spares s site m .divisionByZero) :
    ¬ site.DividesByZero s m := by
  rintro @⟨op, flags, a, b, u, v, m₁, m₂, hop, hdivides, ha, hb, _, hv, _⟩
  have hfits := hsite.fits
  rw [hop] at hfits
  simp only [Fits.op, Bool.and_eq_true, beq_iff_eq] at hfits
  obtain ⟨w, hw⟩ := exists_width_of_valued hfits.1
  obtain ⟨h₁, _⟩ := (quietly_site_eval (D := False) hfit hsite (Op.mem_taken hop List.mem_cons_self) hw hm).of_ok ha
  obtain ⟨h₂, _, hword, _⟩ := (quietly_site_eval (D := False) hfit hsite (Op.mem_taken hop (by simp [Op.operands]))
    (hfits.2 ▸ hw) h₁.sound).of_ok hb
  obtain ⟨i, hi⟩ := exists_meets hm
  obtain ⟨place, c, hcovers, hc⟩ := exists_holds h₂.sound hagrees site i
  refine hspares i place c (hcovers.of_addresses (h₁.trans h₂).addresses) hi hc ?_
  rw [hop]
  exact ⟨hdivides, _, hword.word i place _ hcovers hc.registers, Value.word_of_const? i hv⟩

/-- **Arithmetic.** A division of constants by zero is a defect. -/
theorem does_arith {op : ArithOp} {flags : List String} {a b : Operand}
    (hop : site.instr.op = .arith op flags a b) (hdivision : site.DividesByZero s m → D) :
    Does D (arith s site op a b) m (fun v m' => ∃ T', Effect s place all site T m (some v) T' m')
      (Halts s place all site T m) := by
  have hfits := hsite.fits
  rw [hop] at hfits
  simp only [Fits.op, Bool.and_eq_true, beq_iff_eq] at hfits
  refine quietly_site_eval_pair (f := fun a b => valueOr (Value.arith op a b)) hfit hsite
    (Op.mem_taken hop List.mem_cons_self) (Op.mem_taken hop (by simp [Op.operands])) hfits hm
    (fun g m' hg => hg.halts) fun u v m₁ h₁ hwidth hw hu hv heval => ?_
  rcases Value.exists_arith (T := T) op hwidth with ⟨herror, hdivides, hconst, hzero⟩ |
      ⟨r, hr, hrwidth, hknown, hword⟩
  -- Constant operands with a zero divisor, the one case `hdivision` admits.
  · rw [herror]
    obtain ⟨m₂, ha, hb⟩ := heval
    exact does_defect (hdivision (.constants hop hdivides ha hb hconst (Value.isZero_iff.mp hzero) hwidth))
  · refine does_valueOr hr ⟨T, effect_of_quiet h₁ (hknown hu.known hv.known) ?_ ?_ ?_ ?_⟩
    · rw [hop, hrwidth]
      exact hw
    · rw [hop]
      rfl
    · intro c
      rw [hop]
      rfl
    · intro i c entry hcovers hc _ _
      rw [hop]
      show (do
        let x ← Concrete.operand s.project place c.current.registers a
        let y ← Concrete.operand s.project place c.current.registers b
        return c.finish (← Word.arith op x y)) = _
      rw [hu.word i place _ hcovers hc.registers, hv.word i place _ hcovers hc.registers]
      simp only [Option.bind_eq_bind, Option.bind_some, hword i]
      rfl

/-- **Comparisons.** -/
theorem does_compare {q : IntPredicate} {a b : Operand} (hop : site.instr.op = .icmp q a b) :
    Does D (compare s site q a b) m (fun v m' => ∃ T', Effect s place all site T m (some v) T' m')
      (Halts s place all site T m) := by
  have hfits := hsite.fits
  rw [hop] at hfits
  simp only [Fits.op, Bool.and_eq_true, beq_iff_eq] at hfits
  refine quietly_site_eval_pair (f := fun a b => do
    let c ← valueOr (q.condition a b)
    return Value.mk c) hfit hsite (Op.mem_taken hop List.mem_cons_self) (Op.mem_taken hop (by simp [Op.operands]))
    hfits hm (fun g m' hg => hg.halts) fun u v m₁ h₁ hwidth hw hu hv _ => ?_
  obtain ⟨r, hr, hknown, hword⟩ := Value.exists_condition (T := T) q hwidth
  refine does_bind (does_valueOr hr (does_pure ⟨T, effect_of_quiet h₁ (hknown hu.known hv.known) ?_ ?_ ?_ ?_⟩))
  · rw [hop]
    rfl
  · rw [hop]
    rfl
  · intro c
    rw [hop]
    rfl
  · intro i c entry hcovers hc _ _
    obtain ⟨answer, hanswer, hmeaning⟩ := hword i
    rw [hop]
    show (do
      let x ← Concrete.operand s.project place c.current.registers a
      let y ← Concrete.operand s.project place c.current.registers b
      return c.finish (some ⟨BitVec.ofBool (← Concrete.compare q x y)⟩)) = _
    rw [hu.word i place _ hcovers hc.registers, hv.word i place _ hcovers hc.registers]
    simp only [Option.bind_eq_bind, Option.bind_some, hanswer, ← hmeaning]
    rfl

/-- **Conversions.** -/
theorem does_cast {op : CastOp} {o : Operand} {t : Ty} (hop : site.instr.op = .cast op o t) :
    Does D (cast s site op o t) m (fun v m' => ∃ T', Effect s place all site T m (some v) T' m')
      (Halts s place all site T m) := by
  have hfits := hsite.fits
  rw [hop] at hfits
  simp only [Fits.op, Bool.and_eq_true] at hfits
  obtain ⟨w, hw⟩ := exists_width_of_valued hfits.1
  obtain ⟨bits, hbits⟩ := Option.isSome_iff_exists.mp hfits.2
  obtain ⟨hpos, hsized, hsize⟩ := sized_of_scalarBits? hfit.pointerBits hbits
  refine does_bind (Does.mono (quietly_site_eval hfit hsite (Op.mem_taken hop List.mem_cons_self) hw hm) ?_
    fun g m' hg => hg.halts)
  rintro u m₁ ⟨h₁, _, hu, _⟩
  rw [hsized]
  refine does_bind (does_pure (does_pure ⟨T, effect_of_quiet h₁ ?_ ?_ ?_ ?_ ?_⟩))
  · split
    · exact Value.known_signedResize hu.known bits
    · exact Value.known_resize hu.known bits
  · rw [hop]
    refine hbits.trans (congrArg some ?_)
    split
    · rw [Value.width_signedResize hpos]
    · rw [Value.width_resize hpos]
  · rw [hop]
    rfl
  · intro c
    rw [hop]
    rfl
  · intro i c entry hcovers hc _ _
    rw [hop]
    -- Only a sign extension looks at the operation; every other cast cuts off or fills with zeros.
    show (do
      let v ← Concrete.operand s.project place c.current.registers o
      let bits ← Concrete.bits? s.project t
      return c.finish (some (if op = CastOp.sext then v.signedResize bits else v.resize bits))) = _
    rw [hu.word i place _ hcovers hc.registers, hsize]
    simp only [Option.bind_eq_bind, Option.bind_some]
    split
    · rw [Value.word_signedResize i hpos]
      rfl
    · rw [Value.word_resize i hpos]
      rfl

/-- **Choices.** -/
theorem does_select {o a b : Operand} (hop : site.instr.op = .select o a b) :
    Does D (select s site o a b) m (fun v m' => ∃ T', Effect s place all site T m (some v) T' m')
      (Halts s place all site T m) := by
  have hfits := hsite.fits
  rw [hop] at hfits
  simp only [Fits.op, Bool.and_eq_true, beq_iff_eq] at hfits
  refine does_bind (Does.mono (quietly_site_eval hfit hsite (Op.mem_taken hop List.mem_cons_self) hfits.1.1 hm) ?_
    fun g m' hg => hg.halts)
  rintro t m₁ ⟨h₁, hbit, ht, _⟩
  refine quietly_site_eval_pair (f := fun a b => valueOr (Value.ite (t.equals 1) a b)) hfit hsite
    (Op.mem_taken hop (by simp [Op.operands])) (Op.mem_taken hop (by simp [Op.operands])) ⟨hfits.1.2, hfits.2⟩ h₁.sound
    (fun g m' hg => (h₁.harmless hg).halts) fun u v m₂ h₂ hwidth hw hu hv _ => ?_
  obtain ⟨r, hr, hrwidth, hknown, hword⟩ := Value.exists_ite (T := T) (c := t.equals 1) hwidth
  refine does_valueOr hr ⟨T, effect_of_quiet (h₁.trans h₂)
    (hknown (Value.known_equals ht.known 1) hu.known hv.known) ?_ ?_ ?_ ?_⟩
  · rw [hop, hrwidth]
    exact hw
  · rw [hop]
    rfl
  · intro c
    rw [hop]
    rfl
  · intro i c entry hcovers hc _ _
    -- The condition is one bit wide, so it chooses the first operand exactly if it is one.
    have hone := Value.meaning_equals (v := t) (n := 1) (ρ := i.reading) (by rw [hbit]; decide)
    rw [hop]
    show (do
      let x ← Concrete.operand s.project place c.current.registers o
      let y ← Concrete.operand s.project place c.current.registers a
      let z ← Concrete.operand s.project place c.current.registers b
      return c.finish (some (if x.toNat = 1 then y else z))) = _
    rw [(ht.quiet h₂).word i place _ hcovers hc.registers, hu.word i place _ hcovers hc.registers,
      hv.word i place _ hcovers hc.registers, hword i]
    simp only [Option.bind_eq_bind, Option.bind_some]
    by_cases h : (t.word i).toNat = 1
    · rw [if_pos h, if_pos (hone.mpr h)]
      rfl
    · rw [if_neg h, if_neg (mt hone.mp h)]
      rfl

/-- **Address computations.** -/
theorem does_gep {inbounds : Bool} {pointer : Operand} {written : Option Ty} {indices : List Operand}
    (hop : site.instr.op = .gep inbounds pointer written indices) :
    Does D (gep s site pointer written indices) m
      (fun v m' => ∃ T', Effect s place all site T m (some v) T' m') (Halts s place all site T m) := by
  have hfits := hsite.fits
  rw [hop] at hfits
  simp only [Fits.op, Bool.and_eq_true, beq_iff_eq] at hfits
  refine does_bind (Does.mono (quietly_site_eval hfit hsite (Op.mem_taken hop List.mem_cons_self) hfits.1.1 hm) ?_
    fun g m' hg => hg.halts)
  rintro ⟨base⟩ m₁ ⟨h₁, hwidth, hbase, _⟩
  dsimp only at hwidth
  subst hwidth
  -- The indices go through the general lemma on offsets, which asks nothing of them but to evaluate
  -- quietly.
  have hindices : EvaluatesAll D s T site.registers (globalCount s.project + 1) (site.eval s)
      (fun o place cs => Concrete.operand s.project place cs o) Fits.operandNumber? indices :=
    evaluatesAll_operands hfit hsite.typed (List.all_eq_true.mp hfits.1.2) fun h o ho =>
      Op.agrees_of_mem (hsite.agrees h) (Op.mem_taken hop (List.mem_cons_of_mem _ ho))
  refine does_bind (Does.mono (quietly_offset hfit.pointerBits hindices h₁.sound (ready_globalCount s m₁)
    hfits.2) ?_ fun g m' hg => (h₁.harmless hg).halts)
  rintro _ m₂ ⟨h₂, o, rfl, ho, hoffset⟩
  refine does_valueOr (arith_mk rfl base o) ⟨T, effect_of_quiet (h₁.trans h₂)
    (Term.known_mkArith hbase.known ho) ?_ ?_ ?_ ?_⟩
  · rw [hop]
    rfl
  · rw [hop]
    rfl
  · intro c
    rw [hop]
    rfl
  · intro i c entry hcovers hc _ _
    rw [hop]
    show (do
      let base ← Concrete.operand s.project place c.current.registers pointer
      let o ← Concrete.offset s.project.layout (Concrete.operand s.project place c.current.registers)
        base.width (c.accessType pointer written) indices
      return c.finish (some ⟨base.bits + o⟩)) = _
    rw [(hbase.quiet h₂).word i place _ hcovers hc.registers, Concrete.Config.accessType, hc.routine]
    have hsum := hoffset i place _ hcovers hc.registers
    have hword := congrArg (fun w => some (c.finish (some (Word.mk w))))
      (Term.meaning_mkArith (ρ := i.reading) .add base o)
    simp only [Option.bind_eq_bind, Option.bind_some]
    exact Option.bind_eq_some_iff.mpr ⟨o.meaning i.reading, hsum, hword.symm⟩

/-- **Values that come in.** -/
theorem does_phi {t : Ty} {incoming : List (Operand × String)} (hop : site.instr.op = .phi t incoming) :
    Does D (phi s site incoming) m (fun v m' => ∃ T', Effect s place all site T m (some v) T' m')
      (Halts s place all site T m) := by
  have hfits := hsite.fits
  rw [hop] at hfits
  simp only [Fits.op, Bool.and_eq_true] at hfits
  obtain ⟨w, hw⟩ := Option.isSome_iff_exists.mp hfits.1
  unfold phi
  cases hfind : incoming.find? fun (x : Operand × String) => site.previous == some x.2 with
  | none =>
    exact does_fault (harmless_refl rfl).halts
  | some x =>
    have hmem := List.mem_of_find?_eq_some hfind
    have hx := List.all_eq_true.mp hfits.2 x hmem
    rw [hw] at hx
    have htaken : x.1 ∈ site.instr.op.taken := by
      rw [hop]
      exact List.mem_append_right _ (List.mem_map_of_mem hmem)
    refine Does.mono (quietly_site_eval hfit hsite htaken (eq_of_beq hx) hm) ?_ fun g m' hg => hg.halts
    rintro v m₁ ⟨h₁, hwidth, hv, _⟩
    refine ⟨T, effect_of_quiet h₁ hv.known ?_ ?_ ?_ ?_⟩
    · rw [hop, hwidth]
      exact hw
    · rw [hop]
      rfl
    · intro c
      rw [hop]
      rfl
    · intro i c entry hcovers hc hprevious hphi
      -- The phis of a block read what was bound on entry, which `hphi` says is still bound here.
      have hentry := hphi t incoming hop x hmem
      rw [hop]
      show (do
        let y ← incoming.find? fun (x : Operand × String) => c.current.previous == some x.2
        return c.finish (some (← Concrete.operand s.project place entry y.1))) = _
      rw [hprevious, hfind]
      simp only [Option.bind_eq_bind, Option.bind_some]
      rw [hentry, hv.word i place _ hcovers hc.registers]
      rfl

end Computations

end Machine

end PathSafety
