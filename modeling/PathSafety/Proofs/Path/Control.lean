import PathSafety.Proofs.Path.Branch

/-!
# Control

Branches, switches, jumps and returns send control where a run goes.

Contents:

* `Splits`, `does_condBr`, `does_switch` — the arms of a fork, and that a run on an input of an arm goes with
  it;
* `countP_branchArms`, `target_of_branchArm` — just one of the arms of a branch holds, and leads where the bit does;
* `CasesFit`, `does_arms`, `switchTarget_eq` — the cases of a switch;
* `countP_switchArms`, `target_of_holds` — just one of its arms holds, and leads where the number does;
* `Leaves`, `does_ret` — returns.
-/

namespace PathSafety

open IR Machine

variable {s : Setting} {place : Concrete.Placement} {all : Prop} {T : Table} {p : Project} {f : Frame p}
  {m m₁ : Machine} {D : Prop} {site : Site}

/-- That the arms of a fork go where runs go: every run goes with the one arm whose condition its input
meets. -/
structure Splits (s : Setting) (place : Concrete.Placement) (f : Frame p) (site : Site) (T : Table)
    (m : Machine) (arms : List (Machine × Frame p)) : Prop where
  silent : Silent s place site
  ends : Fits.ends site.instr.op = true
  arm : ∀ y ∈ arms, ∃ m₁ target, Quiet s T m m₁ ∧ Narrowed s T m₁ y.1 ∧ f.jump? target = some y.2 ∧
    ∀ i c entry, Covers s place m₁ → i.Meets y.1.condition.conds → site.Holds i c →
      Concrete.exec s.project place c entry site.instr.op = c.jump target
  one : ∀ i : Input, i.Meets m.condition.conds →
    arms.countP (fun y => decide (i.Meets y.1.condition.conds)) = 1

/-- A fork whose successors are where runs go. -/
theorem Forks.splits {ss : List (Cond × String)} {arms : List (Machine × Frame p)} (hm : Quiet s T m m₁)
    (h : Forks s T f ss m₁ arms) (hsilent : Silent s place site) (hends : Fits.ends site.instr.op = true)
    (hexec : ∀ x ∈ ss, ∀ i c entry, Covers s place m₁ → x.1.meaning i.reading = 1#1 → site.Holds i c →
      Concrete.exec s.project place c entry site.instr.op = c.jump x.2) :
    Splits s place f site T m arms where
  silent := hsilent
  ends := hends
  arm y hy := by
    obtain ⟨hnarrowed, x, hx, hjump, hholds⟩ := h.arm y hy
    exact ⟨m₁, x.2, hm, hnarrowed, hjump, fun i c entry hcovers hi hc =>
      hexec x hx i c entry hcovers (hholds i hi) hc⟩
  one i hi := h.one i (by rwa [hm.conds])

/-- How a fork fails. -/
theorem halts_of_asked {g : Fault} {m' : Machine} (hm : Quiet s T m m₁)
    (h : g.violation? = none ∧ Asked m₁ m') : Halts s place all site T m g m' := by
  have hasked := h.2.quiet hm.sound
  exact (hm.harmless ⟨hasked.conds, hasked.addresses, hasked.next, Or.inl h.1⟩).halts

/-! ## Branches -/

section Bit

variable {v : Value} (hwidth : v.width = 1) (i : Input) {yes no : String}
include hwidth

theorem one_holds_iff : (v.equals 1).meaning i.reading = 1#1 ↔ (v.word i).toNat = 1 :=
  Value.meaning_equals (by rw [hwidth]; decide)

theorem zero_holds_iff : (v.equals 0).meaning i.reading = 1#1 ↔ (v.word i).toNat = 0 :=
  Value.meaning_equals (by rw [hwidth]; decide)

theorem one_or_zero : (v.word i).toNat = 1 ∨ (v.word i).toNat = 0 := by
  have hlt := (v.word i).toNat_lt
  rw [Value.width_word, hwidth] at hlt
  omega

/-- Of the successors of a branch exactly one holds, its condition being one bit wide. -/
theorem countP_branchArms :
    ([(v.equals 1, yes), (v.equals 0, no)].countP fun x => decide (x.1.meaning i.reading = 1#1)) = 1 := by
  have hone := one_holds_iff hwidth i
  have hzero := zero_holds_iff hwidth i
  rcases one_or_zero hwidth i with h | h
  · rw [List.countP_cons_of_pos (by simpa [hone] using h), List.countP_cons_of_neg (by simp [hzero, h])]
    rfl
  · rw [List.countP_cons_of_neg (by simp [hone, h]), List.countP_cons_of_pos (by simpa [hzero] using h)]
    rfl

/-- The successor that holds is the one that a run goes to. -/
theorem target_of_branchArm {x : Cond × String} (hx : x ∈ [(v.equals 1, yes), (v.equals 0, no)])
    (hholds : x.1.meaning i.reading = 1#1) : (if (v.word i).toNat = 1 then yes else no) = x.2 := by
  rcases List.mem_cons.mp hx with rfl | hx
  · exact if_pos ((one_holds_iff hwidth i).mp hholds)
  · obtain rfl := List.mem_singleton.mp hx
    have hzero := (zero_holds_iff hwidth i).mp hholds
    exact if_neg (by omega)

end Bit

section Fork

variable (hfit : Fit s) (hsite : site.WellTyped s T) (hm : Sound s T m) (hroutine : f.routine = site.routine)
include hfit hsite hm hroutine

/-- **Branches.** -/
theorem does_condBr {o : Operand} {yes no : String} (hop : site.instr.op = .condBr o yes no) :
    Does D (do
        let c ← site.eval s o
        Engine.branch f [(c.equals 1, yes), (c.equals 0, no)]) m
      (fun mv m' => ∃ g others, mv = .goto g others ∧ Splits s place f site T m ((m', g) :: others))
      (Halts s place all site T m) := by
  have hfits := hsite.fits
  rw [hop] at hfits
  simp only [Fits.op, Bool.and_eq_true, beq_iff_eq, Fits.leads] at hfits
  refine does_bind (Does.mono (quietly_site_eval hfit hsite (Op.mem_taken hop List.mem_cons_self) hfits.1.1 hm) ?_
    fun g m' hg => hg.halts)
  rintro v m₁ ⟨h₁, hwidth, hv, _⟩
  refine (does_branch h₁.sound ?_ ?_ fun i _ => countP_branchArms hwidth i).mono ?_ fun g m' hg => halts_of_asked h₁ hg
  · exact List.forall_mem_cons.mpr ⟨Value.known_equals hv.known 1,
      List.forall_mem_singleton.mpr (Value.known_equals hv.known 0)⟩
  · rw [hroutine]
    exact List.forall_mem_cons.mpr ⟨hfits.1.2, List.forall_mem_singleton.mpr hfits.2⟩
  · rintro mv m₂ ⟨g, others, rfl, hforks⟩
    refine ⟨g, others, rfl, hforks.splits h₁ (fun _ _ _ => by rw [hop]; rfl) (by rw [hop]; rfl) ?_⟩
    intro x hx i c entry hcovers hholds hc
    rw [hop]
    show (do
      let x ← Concrete.operand s.project place c.current.registers o
      c.jump (if x.toNat = 1 then yes else no)) = _
    rw [hv.word i place _ hcovers hc.registers]
    exact congrArg c.jump (target_of_branchArm hwidth i hx hholds)

end Fork

/-! ## Switches -/

/-- The case operands of a switch, for a value of some width: different numbers of this width. -/
def CasesFit (s : Setting) (r : Routine) (width : Nat) (cases : List (Operand × String)) : Prop :=
  ∀ x ∈ cases, Fits.width? s.project r x.1 = some width ∧ (Fits.operandNumber? x.1).isSome

/-- The cases of a switch that fits compare with values of its operand's width, and lead to blocks. -/
theorem casesFit_of_fits {r : Routine} {o : Operand} {width : Nat} {cases : List (Operand × String)}
    (ho : Fits.width? s.project r o = some width)
    (h : (cases.all fun (o', target) => Fits.width? s.project r o' == Fits.width? s.project r o &&
      (r.function.block? target).isSome && (Fits.operandNumber? o').isSome) = true) :
    CasesFit s r width cases ∧ ∀ x ∈ cases, (r.function.block? x.2).isSome := by
  have hcase : ∀ x ∈ cases, (Fits.width? s.project r x.1 = some width ∧ (r.function.block? x.2).isSome) ∧
      (Fits.operandNumber? x.1).isSome := by
    intro x hx
    have hx := List.all_eq_true.mp h x hx
    simp only [Bool.and_eq_true, beq_iff_eq] at hx
    exact ⟨⟨hx.1.1.trans ho, hx.1.2⟩, hx.2⟩
  exact ⟨fun x hx => ⟨(hcase x hx).1.1, (hcase x hx).2⟩, fun x hx => (hcase x hx).1.2⟩

/-- The conditions of a switch's cases hold for the inputs for which the value is the case's number. -/
theorem does_arms {e : Engine p} (hfit : Fit e.setting) (hsite : site.WellTyped e.setting T)
    (hm : Sound e.setting T m) {v : Value} (hv : v.Known T) (hpos : v.width ≠ 0)
    {cases : List (Operand × String)} (hcases : CasesFit e.setting site.routine v.width cases)
    (htaken : ∀ x ∈ cases, x.1 ∈ site.instr.op.taken) :
    Quietly D e.setting T (Engine.switch.arms e site v cases) m fun as _ =>
      (∀ a ∈ as, a.1.Known T) ∧
        ∀ i : Input, as.map (fun a => (decide (a.1.meaning i.reading = 1#1), a.2)) =
          cases.map fun x => (decide (Fits.operandNumber? x.1 = some (v.word i).toNat), x.2) := by
  induction cases generalizing m with
  | nil => exact quietly_pure hm ⟨fun a ha => absurd ha List.not_mem_nil, fun _ => rfl⟩
  | cons x cases ih =>
    obtain ⟨o, target⟩ := x
    obtain ⟨hw, hnumber⟩ := hcases _ List.mem_cons_self
    obtain ⟨n, hn⟩ := Option.isSome_iff_exists.mp hnumber
    refine quietly_bind (quietly_site_eval hfit hsite (htaken _ List.mem_cons_self) hw hm) fun k m₁ h₁ hk => ?_
    obtain ⟨hwidth, hk, hconst⟩ := hk
    -- A label is compared at the width of the value switched on.
    have hkwidth : (k.resize v.width).width = v.width := Value.width_resize hpos k
    obtain ⟨c, hc, hknown, hmeaning⟩ := Value.exists_cmp_eq (T := T) hkwidth
    refine quietly_bind (quietly_valueOr h₁.sound hc) fun c' m₂ h₂ hc' => ?_
    subst hc'
    refine quietly_bind (ih h₂.sound (fun y hy => hcases y (List.mem_cons_of_mem _ hy)) fun y hy =>
      htaken y (List.mem_cons_of_mem _ hy)) fun as m₃ h₃ has => ?_
    refine quietly_pure h₃.sound ⟨List.forall_mem_cons.mpr
      ⟨hknown hv (Value.known_resize hk.known _), has.1⟩, fun i => ?_⟩
    have hnumber : ((k.resize v.width).word i).toNat = n := by
      rw [Value.word_resize i hpos]
      show ((k.word i).bits.setWidth v.width).toNat = n
      rw [BitVec.toNat_setWidth, ← hwidth]
      show (k.word i).toNat % 2 ^ (k.word i).width = n
      rw [Nat.mod_eq_of_lt (k.word i).toNat_lt, Value.word_of_const? i (hconst n hn)]
    have hiff : c'.meaning i.reading = 1#1 ↔ Fits.operandNumber? o = some (v.word i).toNat := by
      rw [hmeaning i, hnumber, hn, Option.some.injEq, eq_comm]
    rw [List.map_cons, List.map_cons, has.2 i]
    simp only [hiff]

/-- The cases of a switch, as a run sees them: a value goes to the target of its number. -/
theorem switchTarget_eq {c : Concrete.Config} {v : Word} {default : String}
    {cases : List (Operand × String)}
    (hcases : ∀ x ∈ cases, ∃ u, c.eval p place x.1 = some u ∧ u.width = v.width ∧
      Fits.operandNumber? x.1 = some u.toNat) :
    Concrete.switchTarget p place c v default cases =
      some (((cases.find? fun x => decide (Fits.operandNumber? x.1 = some v.toNat)).map (·.2)).getD
        default) := by
  induction cases with
  | nil => rfl
  | cons x cases ih =>
    obtain ⟨u, hu, hwidth, hnumber⟩ := hcases x List.mem_cons_self
    -- The label has the width of the value already, so resizing it does nothing.
    have hresize : u.resize v.width = u := by
      apply Word.ext_toNat
      · exact hwidth.symm
      · show (u.bits.setWidth v.width).toNat = u.toNat
        rw [BitVec.toNat_setWidth, ← hwidth]
        exact Nat.mod_eq_of_lt u.toNat_lt
    have hiff : v = u ↔ Fits.operandNumber? x.1 = some v.toNat := by
      rw [hnumber, Option.some.injEq]
      exact ⟨fun h => by rw [h], fun h => Word.ext_toNat hwidth.symm h.symm⟩
    unfold Concrete.switchTarget
    rw [hu]
    simp only [Option.bind_eq_bind, Option.bind_some, hresize]
    by_cases h : v = u
    · rw [if_pos h, List.find?_cons_of_pos (by simpa using hiff.mp h)]
      rfl
    · rw [if_neg h, List.find?_cons_of_neg (by simpa using mt hiff.mpr h),
        ih fun y hy => hcases y (List.mem_cons_of_mem _ hy)]

/-- The cases of a switch that fits evaluate to the numbers that are compared. -/
theorem CasesFit.switchTarget_eq {r : Routine} {v : Word} {d : String} {cases : List (Operand × String)}
    (h : CasesFit s r v.width cases) (place : Concrete.Placement) (c : Concrete.Config) :
    Concrete.switchTarget s.project place c v d cases =
      some (((cases.find? fun x => decide (Fits.operandNumber? x.1 = some v.toNat)).map (·.2)).getD d) := by
  refine PathSafety.switchTarget_eq fun x hx => ?_
  obtain ⟨hwidth, hnumber⟩ := h x hx
  obtain ⟨u, hu⟩ := Option.isSome_iff_exists.mp hnumber
  obtain ⟨b, n, hconst, rfl⟩ := operandNumber?_eq_some hu
  rw [hconst] at hwidth hu ⊢
  exact ⟨.ofInt b n, rfl, Option.some.inj hwidth, hu⟩

/-- Among cases with different numbers the one with a number is found. -/
theorem find?_case {cases : List (Operand × String)}
    (hnodup : (cases.map fun x => Fits.operandNumber? x.1).Nodup) {x : Operand × String} (hx : x ∈ cases)
    {n : Nat} (hn : Fits.operandNumber? x.1 = some n) :
    cases.find? (fun x => decide (Fits.operandNumber? x.1 = some n)) = some x := by
  induction cases with
  | nil => exact absurd hx List.not_mem_nil
  | cons y cases ih =>
    rw [List.map_cons, List.nodup_cons] at hnodup
    rcases List.mem_cons.mp hx with rfl | hx
    · exact List.find?_cons_of_pos (by simpa using hn)
    · rw [List.find?_cons_of_neg, ih hnodup.2 hx]
      intro hy
      refine hnodup.1 (List.mem_map.mpr ⟨x, hx, ?_⟩)
      rw [hn, of_decide_eq_true hy]

theorem countP_cases_le_one {cases : List (Operand × String)}
    (hnodup : (cases.map fun x => Fits.operandNumber? x.1).Nodup) (n : Nat) :
    cases.countP (fun x => decide (Fits.operandNumber? x.1 = some n)) ≤ 1 := by
  induction cases with
  | nil => exact Nat.zero_le 1
  | cons y cases ih =>
    rw [List.map_cons, List.nodup_cons] at hnodup
    by_cases hy : Fits.operandNumber? y.1 = some n
    · have hzero : cases.countP (fun x => decide (Fits.operandNumber? x.1 = some n)) = 0 := by
        refine List.countP_eq_zero.mpr fun x hx hn => hnodup.1 (List.mem_map.mpr ⟨x, hx, ?_⟩)
        rw [hy, of_decide_eq_true hn]
      have hone : (y :: cases).countP (fun x => decide (Fits.operandNumber? x.1 = some n)) = 1 := by
        rw [List.countP_cons_of_pos (by simpa using hy), hzero]
      exact Nat.le_of_eq hone
    · rw [List.countP_cons_of_neg (by simpa using hy)]
      exact ih hnodup.2

/-! ### Which arm holds -/

/-- The arms of a switch, the default's behind those of its cases. -/
abbrev Engine.switchArms (as : List (Cond × String)) (default : String) : List (Cond × String) :=
  as ++ [(Term.mkAll (as.map fun x => x.1.mkNot), default)]

section Arms

variable {ρ : Reading} {as : List (Cond × String)} {cases : List (Operand × String)} {n : Nat} {default : String}

theorem holds_default_iff : (Term.mkAll (as.map fun x => x.1.mkNot)).meaning ρ = 1#1 ↔
    as.countP (fun a => decide (a.1.meaning ρ = 1#1)) = 0 := by
  rw [Term.meaning_mkAll, List.countP_eq_zero, List.forall_mem_map]
  refine forall_congr' fun a => forall_congr' fun _ => ?_
  rw [Term.meaning_mkNot, decide_eq_true_iff]
  rcases Term.eq_zero_or_one (a.1.meaning ρ) with h | h <;> rw [h] <;> decide

variable (has : as.map (fun a => (decide (a.1.meaning ρ = 1#1), a.2)) =
  cases.map fun x => (decide (Fits.operandNumber? x.1 = some n), x.2))
include has

/-- An arm is that of a case, and holds where the number is that of the case. -/
theorem exists_case_of_mem {a : Cond × String} (ha : a ∈ as) :
    ∃ x ∈ cases, x.2 = a.2 ∧ (a.1.meaning ρ = 1#1 ↔ Fits.operandNumber? x.1 = some n) := by
  have hpair := List.mem_map_of_mem (f := fun a : Cond × String => (decide (a.1.meaning ρ = 1#1), a.2)) ha
  rw [has] at hpair
  obtain ⟨x, hx, heq⟩ := List.mem_map.mp hpair
  obtain ⟨hdecide, htarget⟩ := Prod.mk.inj heq
  exact ⟨x, hx, htarget, (decide_eq_decide.mp hdecide).symm⟩

/-- As many arms hold as cases have the number. -/
theorem countP_eq_countP : as.countP (fun a => decide (a.1.meaning ρ = 1#1)) =
    cases.countP fun x => decide (Fits.operandNumber? x.1 = some n) := by
  have hcount := congrArg (List.countP Prod.fst) has
  rwa [List.countP_map, List.countP_map] at hcount

variable (hnodup : (cases.map fun x => Fits.operandNumber? x.1).Nodup)
include hnodup

/-- Just one arm holds: no two cases have the same number, and the default's holds where none of theirs does. -/
theorem countP_switchArms :
    (Engine.switchArms as default).countP (fun a => decide (a.1.meaning ρ = 1#1)) = 1 := by
  have hle := countP_cases_le_one hnodup n
  rw [← countP_eq_countP has] at hle
  rw [List.countP_append]
  by_cases hzero : as.countP (fun a => decide (a.1.meaning ρ = 1#1)) = 0
  · rw [hzero, List.countP_cons_of_pos (by simpa using holds_default_iff.mpr hzero)]
    rfl
  · rw [List.countP_cons_of_neg (by simpa using mt holds_default_iff.mp hzero), List.countP_nil]
    omega

/-- The arm that holds leads where the number does. -/
theorem target_of_holds {a : Cond × String} (ha : a ∈ Engine.switchArms as default) (hholds : a.1.meaning ρ = 1#1) :
    ((cases.find? fun x => decide (Fits.operandNumber? x.1 = some n)).map (·.2)).getD default = a.2 := by
  rcases List.mem_append.mp ha with ha | ha
  · obtain ⟨x, hx, htarget, hiff⟩ := exists_case_of_mem has ha
    rw [find?_case hnodup hx (hiff.mp hholds), ← htarget]
    rfl
  · obtain rfl := List.mem_singleton.mp ha
    have hzero := holds_default_iff.mp hholds
    rw [countP_eq_countP has, List.countP_eq_zero] at hzero
    rw [List.find?_eq_none.mpr hzero]
    rfl

end Arms

/-- **Switches.** -/
theorem does_switch {e : Engine p} (hfit : Fit e.setting) (hsite : site.WellTyped e.setting T)
    (hm : Sound e.setting T m) (hroutine : f.routine = site.routine) {o : Operand} {default : String}
    {cases : List (Operand × String)} (hop : site.instr.op = .switch o default cases) :
    Does D (e.switch f site o default cases) m
      (fun mv m' => ∃ g others, mv = .goto g others ∧
        Splits e.setting place f site T m ((m', g) :: others))
      (Halts e.setting place all site T m) := by
  have hfits := hsite.fits
  rw [hop] at hfits
  simp only [Fits.op, Bool.and_eq_true, bne_iff_ne, ne_eq, decide_eq_true_iff, Fits.leads] at hfits
  obtain ⟨⟨⟨⟨hvalued, hnonzero⟩, hdefault⟩, hall⟩, hnodup⟩ := hfits
  obtain ⟨w, hw⟩ := exists_width_of_valued hvalued
  refine does_bind (Does.mono (quietly_site_eval hfit hsite (Op.mem_taken hop List.mem_cons_self) hw hm) ?_
    fun g m' hg => hg.halts)
  rintro v m₁ ⟨h₁, hwidth, hv, _⟩
  have hpos : v.width ≠ 0 := fun hzero => hnonzero (by rw [hw, ← hwidth, hzero])
  obtain ⟨hcases, htargets⟩ := casesFit_of_fits (hw.trans (congrArg some hwidth.symm)) hall
  refine does_bind (Does.mono (does_arms hfit hsite h₁.sound hv.known hpos hcases fun x hx =>
    Op.mem_taken hop (List.mem_cons_of_mem _ (List.mem_map_of_mem hx))) ?_ fun g m' hg =>
    (h₁.harmless hg).halts)
  rintro as m₂ ⟨h₂, hknown, has⟩
  have hquiet := h₁.trans h₂
  obtain ⟨i₀, _⟩ := exists_meets hm
  refine (does_branch h₂.sound ?_ ?_ fun i _ => countP_switchArms (has i) hnodup).mono ?_ fun g m' hg =>
    halts_of_asked hquiet hg
  · refine List.forall_mem_append.mpr ⟨hknown, List.forall_mem_singleton.mpr (Term.known_mkAll fun c hc => ?_)⟩
    obtain ⟨a, ha, rfl⟩ := List.mem_map.mp hc
    exact Term.known_mkNot (hknown a ha)
  · rw [hroutine]
    refine List.forall_mem_append.mpr ⟨fun a ha => ?_, List.forall_mem_singleton.mpr hdefault⟩
    obtain ⟨x, hx, htarget, _⟩ := exists_case_of_mem (has i₀) ha
    exact htarget ▸ htargets x hx
  · rintro mv m₃ ⟨g, others, rfl, hforks⟩
    refine ⟨g, others, rfl, hforks.splits hquiet (fun _ _ _ => by rw [hop]; rfl) (by rw [hop]; rfl) ?_⟩
    intro a ha i c entry hcovers hholds hc
    rw [hop]
    show (do
      let x ← Concrete.operand e.setting.project place c.current.registers o
      c.jump (← Concrete.switchTarget e.setting.project place c x default cases)) = _
    rw [(hv.quiet h₂).word i place _ hcovers hc.registers]
    have htarget := hcases.switchTarget_eq place c (v := v.word i) (d := default)
    rw [target_of_holds (has i) hnodup ha hholds] at htarget
    simp only [Option.bind_eq_bind, Option.bind_some, htarget]

/-! ## Jumps -/

/-- **Jumps.** -/
theorem does_br (hsite : site.WellTyped s T) (hm : Sound s T m) (hroutine : f.routine = site.routine)
    {target : String} (hop : site.instr.op = .br target) :
    Does D (Engine.jump f target) m (fun g m' => Splits s place f site T m [(m', g)])
      (Halts s place all site T m) := by
  have hfits := hsite.fits
  rw [hop] at hfits
  refine (does_jump (by rw [hroutine]; exact hfits)).mono ?_ fun _ _ h => h
  rintro g m₁ ⟨rfl, hg⟩
  refine ⟨fun _ _ _ => by rw [hop]; rfl, by rw [hop]; rfl, fun y hy => ?_, fun i hi => ?_⟩
  · obtain rfl := List.mem_singleton.mp hy
    exact ⟨m₁, target, .refl hm, (Asked.refl m₁).narrowed hm, hg, fun i c entry _ _ _ => by rw [hop]; rfl⟩
  · rw [List.countP_cons_of_pos (by simpa using hi)]
    rfl

/-! ## Returns -/

/-- That an instruction goes back to the caller as a run does. -/
structure Leaves (s : Setting) (place : Concrete.Placement) (site : Site) (T : Table) (m : Machine)
    (result : Option Value) (m' : Machine) : Prop where
  silent : Silent s place site
  ends : Fits.ends site.instr.op = true
  quiet : Quiet s T m m'
  typed : ∀ v, result = some v →
    v.Known T ∧ s.project.layout.scalarBits? site.routine.function.ret = some v.width
  exec : ∀ i c entry, Covers s place m' → site.Holds i c →
    Concrete.exec s.project place c entry site.instr.op = some (c.leave (result.map (Value.word i)))

/-- **Returns** without a value. -/
theorem leaves_none (hm : Sound s T m) (hop : site.instr.op = .ret none) :
    Leaves s place site T m none m where
  silent _ _ _ := by rw [hop]; rfl
  ends := by rw [hop]; rfl
  quiet := .refl hm
  typed _ hv := nomatch hv
  exec i c entry _ _ := by rw [hop]; rfl

/-- **Returns** of a value. -/
theorem does_ret (hfit : Fit s) (hsite : site.WellTyped s T) (hm : Sound s T m) {o : Operand}
    (hop : site.instr.op = .ret (some o)) :
    Does D (site.eval s o) m (fun v m' => Leaves s place site T m (some v) m')
      (Halts s place all site T m) := by
  have hfits := hsite.fits
  rw [hop] at hfits
  simp only [Fits.op, Bool.and_eq_true, beq_iff_eq] at hfits
  obtain ⟨w, hw⟩ := exists_width_of_valued hfits.1
  refine Does.mono (quietly_site_eval hfit hsite (Op.mem_taken hop List.mem_cons_self) hw hm) ?_
    fun g m' hg => hg.halts
  rintro v m₁ ⟨h₁, hwidth, hv, _⟩
  refine ⟨fun _ _ _ => by rw [hop]; rfl, by rw [hop]; rfl, h₁, fun u hu => ?_, fun i c entry hcovers hc => ?_⟩
  · obtain rfl := Option.some.inj hu
    exact ⟨hv.known, by rw [← hfits.2, hw, hwidth]⟩
  · rw [hop]
    show (do return c.leave (some (← Concrete.operand s.project place c.current.registers o))) = _
    rw [hv.word i place _ hcovers hc.registers]
    rfl

end PathSafety
