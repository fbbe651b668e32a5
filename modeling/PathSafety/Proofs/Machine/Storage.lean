import PathSafety.Proofs.Machine.Instruction

/-!
# Storage

Allocations take the addresses that a run is given for them. Loads and stores do what they do in a run as
long as their accesses are proper.

Contents:

* `does_alloca` — allocations;
* `effect_of_read`, `does_load` — loads;
* `effect_of_write`, `does_store` — stores.
-/

namespace PathSafety.Machine

open IR

variable {s : Setting} {place : Concrete.Placement} {all : Prop} {T T₁ : Table} {m m₁ m₂ : Machine}
  {D : Prop} {site : Site}

/-! ## Allocations -/

theorem quiet_allocate (hm : Sound s T m) (n : Nat) :
    Quiet s T m { m with nextAddress := m.nextAddress + n } where
  sound := {
    symbols := hm.symbols
    conds := hm.conds
    feasible := hm.feasible
    known := hm.known
    apart := hm.apart
    positive := Nat.lt_of_lt_of_le hm.positive (Nat.le_add_right _ _)
    laid := hm.laid.imp fun at_ h => ⟨h.eq, fun k hk => by
      have := h.le k hk
      show _ ≤ m.nextAddress + n ∧ _ < m.nextAddress + n
      omega, h.apart⟩ }
  conds := rfl
  addresses _ _ hn := hn
  next := Nat.le_add_right _ _
  stored _ hx := hx
  initialized n v g hnone hsome := by
    rw [hnone] at hsome
    cases hsome
  bytes _ _ _ _ _ := rfl

/-- An allocation takes the next address of a run. -/
theorem effect_of_allocate {t : Ty} {count : Option Operand} (hop : site.instr.op = .alloca t count)
    (hm : Quiet s T m m₁) (x : Nat) : Effect s place all site T m (some (.ofNat s.pointerBits x)) T m₁ where
  steps := hm.steps
  typed := by
    intro u hu
    obtain rfl := Option.some.inj hu
    refine ⟨Value.known_ofNat _ _, ?_⟩
    rw [hop]
    rfl
  exec := by
    intro i c entry stack hcovers hloads hpristine _ hsite _ hmemory hstack _
    rw [hop] at hstack ⊢
    -- The engine's next address may exceed the pointer width; the concrete run takes the value the
    -- pointer holds.
    have hword : Word.ofNat s.pointerBits (BitVec.ofNat s.pointerBits x).toNat =
        Word.ofNat s.pointerBits x := by
      unfold Word.ofNat
      rw [BitVec.ofNat_toNat, BitVec.setWidth_eq]
    unfold Concrete.exec
    rw [hstack, hm.bytes i place hcovers hloads hpristine, ← hmemory]
    show some (Concrete.Config.finish _ (some (Word.ofNat s.pointerBits
      (BitVec.ofNat s.pointerBits x).toNat))) = _
    rw [hword]
    rfl
  safe := by
    intro _ i c _ _ _ a ha
    rw [hop] at ha
    exact absurd ha List.not_mem_nil

/-- **Allocations.** -/
theorem does_alloca (hfit : Fit s) (hsite : site.WellTyped s T) (hm : Sound s T m) {t : Ty}
    {count : Option Operand} (hop : site.instr.op = .alloca t count) :
    Does D (alloca s site t count) m (fun v m' => ∃ T', Effect s place all site T m (some v) T' m')
      (Halts s place all site T m) := by
  have hfits := hsite.fits
  rw [hop] at hfits
  unfold alloca
  have hsized : Quietly D s T (sized s t) m fun _ _ => True := by
    unfold sized
    split
    · exact quietly_fault rfl
    · exact quietly_fault rfl
    · exact quietly_pure hm trivial
  refine does_bind (Does.mono hsized ?_ fun g m' hg => hg.halts)
  rintro bits m₁ ⟨h₁, _⟩
  cases count with
  | none =>
    exact ⟨T, effect_of_allocate hop (h₁.trans (quiet_allocate h₁.sound (stride bits))) m₁.nextAddress⟩
  | some n =>
    obtain ⟨w, hw⟩ := exists_width_of_valued hfits
    refine does_bind (Does.mono (quietly_site_eval hfit hsite (Op.mem_taken hop List.mem_cons_self) hw h₁.sound) ?_
      fun g m' hg => (h₁.harmless hg).halts)
    rintro v m₂ ⟨h₂, _⟩
    -- An array of symbolic length is refused, so the block laid out has a known size.
    by_cases hv : v.isSymbolic = true
    · rw [if_pos hv]
      exact does_bind (does_fault ((h₁.trans h₂).harmless (harmless_refl rfl)).halts)
    · rw [if_neg hv]
      obtain ⟨k, hk⟩ := exists_const?_of_not_isSymbolic hv
      refine does_bind (Does.mono (quietly_evalNat h₂.sound hk) ?_
        fun g m' hg => ((h₁.trans h₂).harmless hg).halts)
      rintro _ m₃ ⟨h₃, rfl⟩
      exact ⟨T, effect_of_allocate hop (((h₁.trans h₂).trans h₃).trans
        (quiet_allocate h₃.sound (stride (bits * _)))) m₃.nextAddress⟩

/-! ## Loads and stores -/

section Pointer

variable {pointer : Operand} {a : Value}

/-- What accesses its pointer accesses where the pointer's value points. -/
theorem accessed_pointer
    (hop : ∀ c, Concrete.accessed s.project place c site.instr.op =
      (Concrete.operand s.project place c.current.registers pointer).toList)
    (ha : Evaluates s T site.registers (fun place cs => Concrete.operand s.project place cs pointer) a m) :
    ∀ i c, Covers s place m → site.Holds i c → Concrete.accessed s.project place c site.instr.op = [a.word i] := by
  intro i c hcovers hc
  rw [hop, ha.word i place _ hcovers hc.registers]
  rfl

/-- The effect of a read is that of a load. -/
theorem effect_of_read {written : Option Ty} (hop : site.instr.op = .load pointer written) {bits : Nat}
    (hbits : s.project.layout.scalarBits? (site.routine.scope.accessType pointer written) = some bits)
    (hsize : Concrete.bits? s.project (site.routine.scope.accessType pointer written) = some bits)
    (h₁ : Quiet s T m m₁)
    (ha : Evaluates s T site.registers (fun place cs => Concrete.operand s.project place cs pointer) a m₁)
    (hclear : all → Clear s place a (byteCount bits) m₁) {v : Value} (h₂ : ReadAs s a bits T m₁ v T₁ m₂) :
    Effect s place all site T m (some v) T₁ m₂ where
  steps := (h₁.steps).trans (h₂.steps hclear)
  typed := by
    intro u hu
    obtain rfl := Option.some.inj hu
    refine ⟨h₂.known, ?_⟩
    rw [hop, h₂.width]
    exact hbits
  exec := by
    intro i c entry stack hcovers hloads hpristine hmeets hc _ hmemory hstack _
    have hcovers₁ : Covers s place m₁ := hcovers.of_eq h₂.touched.addresses
    have hbytes := h₁.bytes i place hcovers₁ hloads hpristine
    rw [hop] at hstack ⊢
    show (do
      let bits ← Concrete.bits? s.project (c.accessType pointer written)
      let a ← Concrete.operand s.project place c.current.registers pointer
      return c.finish (some (.load c.memory a.toNat bits))) = _
    rw [Concrete.Config.accessType, hc.routine, hsize, ha.word i place _ hcovers₁ hc.registers,
      h₂.bytes i, hbytes, ← hmemory]
    -- The word read off the machine is a load from the bytes before the read; these are the
    -- concrete memory.
    have hword := h₂.word i (by rwa [h₁.conds])
    rw [hbytes, ← hmemory] at hword
    show some (c.finish (some (Word.load c.memory (a.word i).toNat bits))) = _
    rw [← hword, show stack = c.stack from hstack.symm]
    rfl
  safe := by
    intro hs i c hcovers hmeets hc b hb
    have hcovers₁ : Covers s place m₁ := hcovers.of_eq h₂.touched.addresses
    rw [accessed_pointer (fun c => by rw [hop]; rfl) ha i c hcovers₁ hc, List.mem_singleton] at hb
    rw [hb]
    exact h₂.notNull hs i (by rwa [h₁.conds])

/-- The effect of a write is that of a store. -/
theorem effect_of_write {o : Operand} (hop : site.instr.op = .store o pointer) (h₁ : Quiet s T m m₁)
    (ha : Evaluates s T site.registers (fun place cs => Concrete.operand s.project place cs pointer) a m₁) {v : Value}
    (hv : Evaluates s T site.registers (fun place cs => Concrete.operand s.project place cs o) v m₁)
    (hclear : Clear s place a (byteCount v.width) m₁) (h₂ : Written s a v T m₁ m₂) :
    Effect s place all site T m none T m₂ where
  steps := h₁.steps.trans (h₂.steps h₁.sound ha.known hclear)
  typed := fun u hu => absurd hu.symm (Option.some_ne_none u)
  exec := by
    intro i c entry stack hcovers hloads hpristine hmeets hc _ hmemory hstack _
    have hcovers₁ : Covers s place m₁ := hcovers.of_eq h₂.touched.addresses
    have hbytes := h₂.bytes i (by rwa [h₁.conds])
    -- Evaluating the operands may have laid out variables, whose initializers the concrete memory
    -- holds from the start.
    rw [h₁.bytes i place hcovers₁ hloads hpristine, ← hmemory] at hbytes
    rw [hop] at hstack ⊢
    show (do
      let a ← Concrete.operand s.project place c.current.registers pointer
      let v ← Concrete.operand s.project place c.current.registers o
      return { c with memory := v.store c.memory a.toNat }.finish none) = _
    rw [ha.word i place _ hcovers₁ hc.registers, hv.word i place _ hcovers₁ hc.registers,
      hbytes, show stack = c.stack from hstack.symm]
    rfl
  safe := by
    intro hs i c hcovers hmeets hc b hb
    have hcovers₁ : Covers s place m₁ := hcovers.of_eq h₂.touched.addresses
    rw [accessed_pointer (fun c => by rw [hop]; rfl) ha i c hcovers₁ hc, List.mem_singleton] at hb
    rw [hb]
    exact h₂.notNull hs i (by rwa [h₁.conds])

end Pointer

/-- **Loads.** -/
theorem does_load (hfit : Fit s) (hsite : site.WellTyped s T) (hm : Sound s T m) {pointer : Operand}
    {written : Option Ty} (hop : site.instr.op = .load pointer written)
    (hproper : Proper s place all site m) :
    Does D (load s site pointer written) m (fun v m' => ∃ T', Effect s place all site T m (some v) T' m')
      (Halts s place all site T m) := by
  have hfits := hsite.fits
  rw [hop] at hfits
  simp only [Fits.op, Bool.and_eq_true] at hfits
  obtain ⟨w, hw⟩ := exists_width_of_valued hfits.1
  obtain ⟨bits, hbits⟩ := Option.isSome_iff_exists.mp hfits.2
  obtain ⟨hpos, hsized, hsize⟩ := sized_of_scalarBits? hfit.pointerBits hbits
  unfold load
  rw [hsized]
  refine does_bind (does_pure (does_bind (Does.mono (quietly_site_eval hfit hsite
    (Op.mem_taken hop List.mem_cons_self) hw hm).and_eq ?_ fun g m' hg => hg.halts)))
  rintro a m₁ ⟨hrun, h₁, _, ha, _⟩
  -- `Proper` speaks of the accesses the instruction is about to make: the one address just
  -- evaluated.
  have haccesses : accesses s site m = .ok [⟨a, byteCount bits, false⟩] m₁ := by
    unfold accesses
    rw [hop]
    dsimp only
    rw [hsized]
    simp only [bind, EStateM.bind, pure, EStateM.pure, hrun]
  have hp := hproper _ _ haccesses _ List.mem_cons_self
  obtain ⟨hnear, hwhole⟩ := hp.near rfl
  refine (does_read _ h₁.sound ha.known hpos hnear hwhole).mono ?_ fun f m' hf => ?_
  · rintro v m₂ ⟨T₂, h₂⟩
    exact ⟨T₂, effect_of_read hop hbits hsize h₁ ha (fun hall => hp.clear (Or.inr hall)) h₂⟩
  · refine (h₁.steps).halts (hf.halts h₁.sound ha.known fun i c hcovers hc => ?_)
    rw [accessed_pointer (fun c => by rw [hop]; rfl) ha i c hcovers hc]
    exact List.mem_singleton_self _

/-- **Stores.** -/
theorem does_store (hfit : Fit s) (hsite : site.WellTyped s T) (hm : Sound s T m) {o pointer : Operand}
    (hop : site.instr.op = .store o pointer) (hproper : Proper s place all site m) :
    Does D (store s site o pointer) m (fun _ m' => ∃ T', Effect s place all site T m none T' m')
      (Halts s place all site T m) := by
  have hfits := hsite.fits
  rw [hop] at hfits
  simp only [Fits.op, Fits.valued, List.all_cons, List.all_nil, Bool.and_true, Bool.and_eq_true] at hfits
  obtain ⟨w, hw⟩ := Option.isSome_iff_exists.mp hfits.1.1
  obtain ⟨w', hw'⟩ := Option.isSome_iff_exists.mp hfits.1.2
  unfold store
  refine does_bind (Does.mono (quietly_site_eval hfit hsite (Op.mem_taken hop (by simp [Op.operands])) hw' hm).and_eq ?_
    fun g m' hg => hg.halts)
  rintro a m₁ ⟨hrun₁, h₁, _, ha, _⟩
  refine does_bind (Does.mono (quietly_site_eval hfit hsite (Op.mem_taken hop List.mem_cons_self) hw h₁.sound).and_eq ?_
    fun g m' hg => (h₁.harmless hg).halts)
  rintro v m₂ ⟨hrun₂, h₂, _, hv, _⟩
  -- The pointer is evaluated before the value, here as in the list of accesses.
  have haccesses : accesses s site m = .ok [⟨a, byteCount v.width, true⟩] m₂ := by
    unfold accesses
    rw [hop]
    simp only [bind, EStateM.bind, pure, EStateM.pure, hrun₁, hrun₂]
  have hp := hproper _ _ haccesses _ List.mem_cons_self
  have hquiet := h₁.trans h₂
  have ha := ha.quiet h₂
  refine (does_write h₂.sound ha.known hv.known (hp.single rfl)).mono ?_ fun f m' hf => ?_
  · exact fun _ m₃ h₃ => ⟨T, effect_of_write hop hquiet ha hv (hp.clear (Or.inl rfl)) h₃⟩
  · refine (hquiet.steps).halts (hf.halts h₂.sound ha.known fun i c hcovers hc => ?_)
    rw [accessed_pointer (fun c => by rw [hop]; rfl) ha i c hcovers hc]
    exact List.mem_singleton_self _

end PathSafety.Machine
