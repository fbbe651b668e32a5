import PathSafety.Check.Checker
import PathSafety.Proofs.Machine.Instruction

/-!
# What monitors see

A monitor ends a path before an instruction that commits a violation for some input, and lets it pass only
if the instruction commits none for any input.

Contents:

* `watches_sat` — what monitors ask for;
* `watches_division`, `watches_offset` — the monitors of the checkers;
* `does_watch` — the monitors of several checkers.
-/

namespace PathSafety

open IR Machine

variable {s : Setting} {place : Concrete.Placement} {all : Prop} {T : Table} {m m₁ : Machine} {D : Prop}
  {site : Site}

namespace Checker

/-- That a monitor of a checker lets only those instructions pass that commit no violation of its kind. -/
def Watches (k : Checker) (monitor : Monitor) (D : Prop) (s : Setting) (place : Concrete.Placement)
    (all : Prop) (site : Site) (T : Table) (m : Machine) : Prop :=
  Does D (monitor s site) m (fun _ m' => Quiet s T m m' ∧ Spares s site m' k) (Halts s place all site T m)

theorem spares_of_not_violates (hm : Sound s T m) {k : Checker}
    (h : ∀ place c, ¬ Concrete.Violates s.project place c site.instr.op k) :
    Quiet s T m m ∧ Spares s site m k := ⟨.refl hm, fun _ place c _ _ _ => h place c⟩

theorem not_violates_division {p : Project} {c : Concrete.Config} {op : Op}
    (h : ∀ o flags a b, op = .arith o flags a b → False) :
    ¬ Concrete.Violates p place c op .divisionByZero := by
  intro hviolates
  cases op with
  | arith o flags a b => exact h o flags a b rfl
  | _ => exact hviolates

theorem not_violates_offset {p : Project} {c : Concrete.Config} {op : Op}
    (h : ∀ pointer written indices, op = .gep true pointer written indices → False) :
    ¬ Concrete.Violates p place c op .outOfBounds := by
  intro hviolates
  cases op with
  | gep inbounds pointer written indices =>
    cases inbounds with
    | true => exact h pointer written indices rfl
    | false => exact hviolates
  | _ => exact hviolates

/-- **Monitors ask** whether a condition can hold, and report it where it can. What passes commits no violation of their
kind if the condition holds where one is committed. -/
theorem watches_sat {k : Checker} {f : Fault} {c : Cond} (hm : Quiet s T m m₁) (hc : c.Known T)
    (hviolates : ∀ i place cfg, Covers s place m₁ → site.Holds i cfg →
      Concrete.Violates s.project place cfg site.instr.op k → c.meaning i.reading = 1#1)
    (hhalts : ∀ m₂, Asked m₁ m₂ → (∃ ν, Term.AllHold ν m₂.condition.conds ∧ c.Holds ν) →
      Halts s place all site T m f m₂) :
    Does D (do if ← sat [c] then fault f) m₁ (fun _ m' => Quiet s T m m' ∧ Spares s site m' k)
      (Halts s place all site T m) := by
  refine does_bind ((does_sat c).mono ?_ fun _ _ h => h)
  rintro b m₂ ⟨hasked, hb⟩
  have hasked' := hasked.quiet hm.sound
  cases b with
  | true =>
    refine does_fault (hhalts m₂ hasked ?_)
    rw [hasked.conds]
    exact hb.mp rfl
  | false =>
    refine does_pure ⟨hm.trans hasked', fun i place cfg hcovers hi hholds h => ?_⟩
    have hmeaning := hviolates i place cfg (hcovers.of_addresses hasked'.addresses) hholds h
    rw [hasked.conds] at hi
    refine Bool.false_ne_true (hb.mpr ⟨i.valuation T, (meets_iff hm.sound.conds i).mp hi, ?_⟩)
    rw [Term.Holds, ← hc.meaning_eq i]
    exact hmeaning

/-- **Divisions by zero.** -/
theorem watches_division (hfit : Fit s) (hsite : site.WellTyped s T) (hm : Sound s T m) :
    Watches .divisionByZero watchDivision D s place all site T m := by
  unfold Watches watchDivision
  have hfits := hsite.fits
  split
  · rename_i op flags a divisor hop
    split
    · rename_i hdivides
      rw [hop] at hfits
      simp only [Fits.op, Bool.and_eq_true, beq_iff_eq] at hfits
      obtain ⟨w, hw⟩ := exists_width_of_valued hfits.1
      refine does_bind (Does.mono (quietly_site_eval hfit hsite (Op.mem_taken hop (by simp [Op.operands]))
        (hfits.2 ▸ hw) hm) ?_ fun g m' hg => hg.halts)
      rintro v m₁ ⟨h₁, _, hv, _⟩
      -- The query asks whether the divisor can be zero, so its answer is read off in both
      -- directions.
      have hzero : ∀ i : Input, (v.equals 0).meaning i.reading = 1#1 ↔ (v.word i).toNat = 0 :=
        fun i => Value.meaning_equals (Nat.two_pow_pos _)
      have hknown := Value.known_equals hv.known 0
      refine watches_sat h₁ hknown (fun i place c hcovers hc hviolates => ?_) fun m₂ hasked hpossible => ?_
      · rw [hop] at hviolates
        obtain ⟨_, x, hx, hx0⟩ := hviolates
        rw [Concrete.Config.eval, hv.word i place _ hcovers hc.registers] at hx
        obtain rfl := Option.some.inj hx
        exact (hzero i).mpr hx0
      · refine (h₁.steps).halts (halts_of_violation h₁.sound rfl hasked
          ⟨v.equals 0, hknown, hpossible, fun i c hcovers hc hholds => ?_⟩)
        rw [hop]
        exact ⟨hdivides, _, hv.word i place _ (hcovers.of_addresses (hasked.quiet h₁.sound).addresses)
          hc.registers, (hzero i).mp hholds⟩
    · rename_i hdivides
      refine does_pure (spares_of_not_violates hm fun place c hviolates => ?_)
      rw [hop] at hviolates
      exact hdivides hviolates.1
  · rename_i hop
    exact does_pure (spares_of_not_violates hm fun place c => not_violates_division hop)

theorem bytes_ofNat_ule {w : Nat} (o : Term w) (size : Nat) (ρ : Reading) :
    (Term.mkCmp .ule (.const (BitVec.ofNat w size)) o).meaning ρ = 1#1 ↔
      size % 2 ^ w ≤ (o.meaning ρ).toNat := by
  rw [Term.meaning_mkCmp, Term.meaning_const, CmpOp.eval, BitVec.ule, BitVec.toNat_ofNat]
  by_cases h : size % 2 ^ w ≤ (o.meaning ρ).toNat <;> simp [h]

/-- **Offsets that leave their objects.** -/
theorem watches_offset (hfit : Fit s) (hsite : site.WellTyped s T) (hm : Sound s T m) :
    Watches .outOfBounds watchOffset D s place all site T m := by
  unfold Watches watchOffset
  have hfits := hsite.fits
  split
  · rename_i pointer written indices hop
    rw [hop] at hfits
    simp only [Fits.op, Bool.and_eq_true, beq_iff_eq] at hfits
    refine does_bind (Does.mono (quietly_sizeInBytes hm _) ?_ fun g m' hg => hg.halts)
    rintro size m₁ ⟨h₁, hsize⟩
    have hindices : EvaluatesAll D s T site.registers (globalCount s.project + 1) (site.eval s)
        (fun o place cs => Concrete.operand s.project place cs o) Fits.operandNumber? indices :=
      evaluatesAll_operands hfit hsite.typed (List.all_eq_true.mp hfits.1.2) fun h o ho =>
        Op.agrees_of_mem (hsite.agrees h) (Op.mem_taken hop (List.mem_cons_of_mem _ ho))
    refine does_bind (Does.mono (quietly_offset hfit.pointerBits hindices h₁.sound
      (ready_globalCount s m₁) hfits.2) ?_ fun g m' hg => (h₁.harmless hg).halts)
    rintro _ m₂ ⟨h₂, o, rfl, ho, hoffset⟩
    have hquiet := h₁.trans h₂
    refine does_bind (does_valueOr (Value.aligned_mk _ _ _) ?_)
    have hknown : (Term.mkCmp .ule (.const (BitVec.ofNat s.pointerBits size)) o).Known T :=
      Term.known_mkCmp (Term.known_const _) ho
    refine watches_sat hquiet hknown (fun i place c hcovers hc hviolates => ?_) fun m₃ hasked hpossible => ?_
    · rw [hop] at hviolates
      obtain ⟨x, n, hx, hn, hle⟩ := hviolates
      rw [Concrete.Config.accessType, hc.routine] at hx hn
      obtain rfl := Option.some.inj (hsize.symm.trans hn)
      obtain rfl := Option.some.inj ((hoffset i place _ hcovers hc.registers).symm.trans hx)
      exact (bytes_ofNat_ule o size i.reading).mpr (Nat.le_trans (Nat.mod_le _ _) hle)
    · have hasked' := hasked.quiet h₂.sound
      refine (hquiet.steps).halts ?_
      -- the size is cut to the width of the offset, where it is compared
      by_cases hlt : size < 2 ^ s.pointerBits
      · refine halts_of_violation h₂.sound rfl hasked ⟨_, hknown, hpossible, fun i c hcovers hc hholds => ?_⟩
        have hle := (bytes_ofNat_ule o size i.reading).mp hholds
        rw [Nat.mod_eq_of_lt hlt] at hle
        rw [hop]
        refine ⟨_, size, ?_, ?_, hle⟩
        · rw [Concrete.Config.accessType, hc.routine]
          exact hoffset i place _ (hcovers.of_addresses hasked'.addresses) hc.registers
        · rw [Concrete.Config.accessType, hc.routine]
          exact hsize
      · exact {
          meets := fun i => by rw [hasked.conds]
          addresses := hasked'.addresses
          next := hasked'.next
          violation := fun _ _ =>
            Or.inl (Or.inr ⟨pointer, written, indices, size, hop, hsize, Nat.le_of_not_lt hlt⟩) }
  · rename_i hop
    exact does_pure (spares_of_not_violates hm fun place c => not_violates_offset hop)

end Checker

/-! ## Several monitors -/

/-- **Monitors.** What passes the monitors of checkers commits no violation of their kinds; null pointers have
no monitor. -/
theorem does_watch {p : Project} (e : Engine p) (hfit : Fit e.setting) (hsite : site.WellTyped e.setting T)
    (hm : Sound e.setting T m) (checkers : List Checker) :
    Does D (e.watch site (checkers.filterMap Checker.monitor?)) m
      (fun _ m' => Quiet e.setting T m m' ∧
        ∀ k ∈ checkers, k ≠ .nullDereference → Spares e.setting site m' k)
      (Halts e.setting place all site T m) := by
  -- On the checkers still to run; every monitor only asks, so what an earlier one has ruled out
  -- stays so.
  induction checkers generalizing m with
  | nil => exact does_pure ⟨.refl hm, fun k hk => absurd hk List.not_mem_nil⟩
  | cons k ks ih =>
    -- The two checkers with a monitor differ only in the specification of that monitor.
    have step : ∀ monitor, Checker.Watches k monitor D e.setting place all site T m →
        Does D (do monitor e.setting site; e.watch site (ks.filterMap Checker.monitor?)) m
          (fun _ m' => Quiet e.setting T m m' ∧
            ∀ j ∈ k :: ks, j ≠ .nullDereference → Spares e.setting site m' j)
          (Halts e.setting place all site T m) := by
      intro monitor hwatches
      refine does_bind (Does.mono hwatches ?_ fun _ _ h => h)
      rintro _ m₁ ⟨h₁, hspares⟩
      refine (ih h₁.sound).mono ?_ fun g m' hg => (h₁.steps).halts hg
      rintro _ m₂ ⟨h₂, hrest⟩
      refine ⟨h₁.trans h₂, fun j hj hne => ?_⟩
      rcases List.mem_cons.mp hj with rfl | hj
      · exact hspares.quiet h₂
      · exact hrest j hj hne
    cases k with
    | nullDereference =>
      refine (ih hm).mono ?_ fun _ _ h => h
      rintro _ m₁ ⟨h₁, hrest⟩
      exact ⟨h₁, fun j hj hne => hrest j ((List.mem_cons.mp hj).resolve_left hne) hne⟩
    | divisionByZero => exact step _ (Checker.watches_division hfit hsite hm)
    | outOfBounds => exact step _ (Checker.watches_offset hfit hsite hm)

end PathSafety
