import PathSafety.Proofs.Machine.Composes

/-!
# What a machine can fail with besides faults

As long as the condition of a machine can hold, the solver has an answer to every question, addresses have possible
values, and the initial values of variables refer to one another only as deeply as there are names. So what is left
are operands that do not fit each other and things that are not there, and divisions of constants by zero.

Contents:

* `Defect.isOperation` — the defects that are left;
* `Machine.Later`, `Machine.Robust` — that an action leaves a machine whose condition can hold, and has no defects
  but some;
* `prepares_robust`, `composes_robust`, `robust_read`, `robust_address` — all that a machine does is robust.
-/

namespace PathSafety

open IR

/-- Whether a defect is one of an operation on values, or of looking something up. -/
def Defect.isOperation : Defect → Bool
  | .divisionByZero | .widthMismatch | .missingIndex => true
  | .noValue | .noAddress | .endlessInitializer => false

namespace Machine

variable {s : Setting} {depth : Nat} {D : Defect → Prop} {α β : Type} {m m₁ m₂ : Machine}

/-- That a machine may come after another one: its condition can hold, and names keep their addresses. -/
structure Later (m m' : Machine) : Prop where
  feasible : m'.condition.Feasible
  addresses : ∀ n v, m.addresses.get? n = some v → m'.addresses.get? n = some v

theorem Later.refl (h : m.condition.Feasible) : Later m m := ⟨h, fun _ _ hn => hn⟩

theorem Later.trans (h₁ : Later m m₁) (h₂ : Later m₁ m₂) : Later m m₂ :=
  ⟨h₂.feasible, fun n v hn => h₂.addresses n v (h₁.addresses n v hn)⟩

theorem Later.ready (h : Later m m₁) (hready : Ready s depth m) : Ready s depth m₁ :=
  Nat.lt_of_le_of_lt (unmet_le h.addresses s.project) hready

/-- A condition may be added that can hold together with those before. -/
theorem later_assume {c : Cond} (h : ∃ ν, Term.AllHold ν m.condition.conds ∧ c.Holds ν) :
    Later m { m with condition := m.condition.assume c } where
  feasible := h.imp fun _ hν => List.forall_mem_cons.mpr ⟨hν.2, hν.1⟩
  addresses _ _ hn := hn

/-- An address may be settled on a possible value. -/
theorem later_settle {v : Value} {n : Nat} (h : m.condition.Possible v.term n) :
    Later m { m with condition := m.condition.assume (v.equals n) } := by
  have hlt := h.lt
  obtain ⟨ν, hν, hn⟩ := h
  exact later_assume ⟨ν, hν, (PathCondition.holds_equals hlt).mpr hn⟩

/-- What comes of an action on one machine: a later machine, or a fault or a defect that is allowed, where the condition
can hold as well. -/
structure RobustAt (D : Defect → Prop) (x : Action α) (m : Machine) : Prop where
  later : ∀ a m', x m = .ok a m' → Later m m'
  failed : ∀ failure m', x m = .error failure m' → m'.condition.Feasible
  defects : ∀ d m', x m = .error (.defect d) m' → D d

/-- That an action comes to a later machine, a fault, or a defect that is allowed, on every machine whose condition can
hold and where less than `depth` names are left to be met. -/
def Robust (s : Setting) (depth : Nat) (D : Defect → Prop) (α : Type) (x : Action α) : Prop :=
  ∀ m, m.condition.Feasible → Ready s depth m → RobustAt D x m

/-! ## Basic actions -/

theorem RobustAt.of_ok {x : Action α} {a : α} (h : x m = .ok a m₁) (hlater : Later m m₁) : RobustAt D x m where
  later b m' h' := by
    obtain ⟨rfl, rfl⟩ := EStateM.Result.ok.inj (h.symm.trans h')
    exact hlater
  failed g m' h' := by cases h.symm.trans h'
  defects d m' h' := by cases h.symm.trans h'

theorem RobustAt.fault (hm : m.condition.Feasible) (f : Fault) : RobustAt D (fault f : Action α) m where
  later a m' h := absurd h not_fault
  failed g m' h := by
    cases h
    exact hm
  defects d m' h := by cases h

theorem RobustAt.defect (hm : m.condition.Feasible) {d : Defect} (h : D d) : RobustAt D (defect d : Action α) m where
  later a m' h' := absurd h' not_defect
  failed g m' h' := by
    cases h'
    exact hm
  defects d' m' h' := by
    cases h'
    exact h

theorem RobustAt.bind {x : Action α} {f : α → Action β} (hx : RobustAt D x m)
    (hf : ∀ a m₁, x m = .ok a m₁ → RobustAt D (f a) m₁) : RobustAt D (x >>= f) m where
  later b m' h := by
    obtain ⟨a, m₁, hx', hf'⟩ := exists_of_bind h
    exact (hx.later a m₁ hx').trans ((hf a m₁ hx').later b m' hf')
  failed g m' h := by
    rcases error_of_bind h with hx' | ⟨a, m₁, hx', hf'⟩
    · exact hx.failed g m' hx'
    · exact (hf a m₁ hx').failed g m' hf'
  defects d m' h := by
    rcases error_of_bind h with hx' | ⟨a, m₁, hx', hf'⟩
    · exact hx.defects d m' hx'
    · exact (hf a m₁ hx').defects d m' hf'

theorem RobustAt.bind_of_ok {x : Action α} {f : α → Action β} {a : α} (h : x m = .ok a m₁) (hlater : Later m m₁)
    (hf : RobustAt D (f a) m₁) : RobustAt D (x >>= f) m := by
  refine (RobustAt.of_ok h hlater).bind fun b m' h' => ?_
  obtain ⟨rfl, rfl⟩ := EStateM.Result.ok.inj (h.symm.trans h')
  exact hf

theorem robust_bind {x : Action α} {f : α → Action β} (hx : Robust s depth D α x)
    (hf : ∀ a, Robust s depth D β (f a)) : Robust s depth D β (x >>= f) := by
  intro m hm hready
  refine (hx m hm hready).bind fun a m₁ h => ?_
  have hlater := (hx m hm hready).later a m₁ h
  exact hf a m₁ hlater.feasible (hlater.ready hready)

/-- An action that does not fail is robust if it leaves a later machine. -/
theorem robust_of_ok {x : Action α} (h : ∀ m, m.condition.Feasible → ∃ a m', x m = .ok a m' ∧ Later m m') :
    Robust s depth D α x := by
  intro m hm _
  obtain ⟨a, m', hx, hlater⟩ := h m hm
  exact .of_ok hx hlater

theorem robust_pure (a : α) : Robust s depth D α (pure a) :=
  robust_of_ok fun m hm => ⟨a, m, rfl, .refl hm⟩

theorem robust_fault (f : Fault) : Robust s depth D α (fault f) := fun _ hm _ => .fault hm f

theorem robust_defect {d : Defect} (h : D d) : Robust s depth D α (defect d) := fun _ hm _ => .defect hm h

/-- Looking at the machine. -/
theorem robust_get {f : Machine → Action α}
    (h : ∀ m, m.condition.Feasible → Ready s depth m → RobustAt D (f m) m) :
    Robust s depth D α (get >>= f) := by
  intro m hm hready
  exact .bind_of_ok rfl (.refl hm) (h m hm hready)

theorem robust_modify {f : Machine → Machine} (h : ∀ m, m.condition.Feasible → Later m (f m)) :
    Robust s depth D PUnit (modify f) :=
  robust_of_ok fun m hm => ⟨⟨⟩, f m, rfl, h m hm⟩

theorem robust_sat (extra : List Cond) : Robust s depth D Bool (sat extra) := by
  refine robust_of_ok fun m hm =>
    ⟨(m.condition.sat extra).1, { m with condition := (m.condition.sat extra).2 }, rfl, ?_, fun _ _ hn => hn⟩
  unfold PathCondition.Feasible
  rw [PathCondition.conds_sat]
  exact hm

/-- A value has a number where the condition can hold. -/
theorem robust_evalNat (v : Value) : Robust s depth D Nat (evalNat v) := by
  refine robust_get fun m hm hready => ?_
  obtain ⟨n, hn, _⟩ := PathCondition.exists_anyValue? (t := v.term) hm
  rw [hn]
  exact robust_pure n m hm hready

theorem robust_guarded {x : Action α} (h : Robust s depth D α x) : Robust s depth D α (guarded x) := by
  intro m hm hready
  obtain ⟨hlater, hfailed, hdefects⟩ := h m hm hready
  cases hx : x m with
  | ok b m₁ =>
    refine ⟨fun a m' h' => ?_, fun g m' h' => ?_, fun d m' h' => ?_⟩ <;> rw [guarded_ok hx] at h' <;> cases h'
    exact hlater _ _ hx
  | error g m₁ =>
    cases g with
    | fault f =>
      refine ⟨fun a m' h' => ?_, fun g m' h' => ?_, fun d m' h' => ?_⟩ <;> rw [guarded_fault hx] at h' <;> cases h'
      exact hfailed _ _ hx
    | defect d =>
      refine ⟨fun a m' h' => ?_, fun g m' h' => ?_, fun d m' h' => ?_⟩ <;> rw [guarded_defect hx] at h' <;> cases h'
      · exact hfailed _ _ hx
      · exact hdefects _ _ hx

section Actions

variable (hmismatch : D .widthMismatch) (hmissing : D .missingIndex)
include hmismatch hmissing

/-- What leaves memory alone is robust, if operands that do not fit and things that are not there are allowed. -/
theorem prepares_robust : Prepares s (Robust s depth D) where
  pure := robust_pure
  bind := robust_bind
  fault f _ := robust_fault f
  mismatch := robust_defect hmismatch
  missing := robust_defect hmissing
  allocate bits := robust_of_ok fun _ hm => ⟨_, _, rfl, hm, fun _ _ hn => hn⟩
  fresh name bits := by
    unfold fresh
    split
    · exact robust_bind (robust_fault _) fun _ => robust_of_ok fun _ hm => ⟨_, _, rfl, hm, fun _ _ hn => hn⟩
    · exact robust_of_ok fun _ hm => ⟨_, _, rfl, hm, fun _ _ hn => hn⟩
  sat := robust_sat
  evalNat v _ := robust_evalNat v

/-- A written address has a greatest possible value where the condition can hold. -/
theorem robust_write (address v : Value) : Robust s depth D Unit (write s address v) := by
  have hstore : ∀ a, Robust s depth D Unit (modify fun m =>
      { m with memory := m.memory.store a (v.resize (8 * byteCount v.width)) (byteCount v.width) }) :=
    fun a => robust_modify fun m hm => ⟨hm, fun _ _ hn => hn⟩
  refine robust_bind ((prepares_robust hmismatch hmissing).checkNull address) fun _ => ?_
  dsimp only
  split
  · exact hstore _
  · refine robust_get fun m hm hready => ?_
    obtain ⟨n, hn, hpossible⟩ := PathCondition.exists_greatest? (t := address.term) hm
    rw [hn]
    have hlater := later_settle hpossible
    exact .bind_of_ok rfl hlater (hstore n _ hlater.feasible (hlater.ready hready))

/-- **What a machine does is robust**, if operands that do not fit and things that are not there are allowed. -/
theorem composes_robust : Composes s (Robust s depth D) where
  toPrepares := prepares_robust hmismatch hmissing
  write := robust_write hmismatch hmissing
  guarded := robust_guarded

/-! ## Reading -/

omit hmismatch hmissing in
theorem robust_readBytes (a n : Nat) : Robust s depth D Value (readBytes a n) :=
  robust_of_ok fun _ hm => ⟨_, _, rfl, hm, fun _ _ hn => hn⟩

/-- A read address has possible values where the condition can hold. -/
theorem robust_readBytesAt (address : Value) (n : Nat) : Robust s depth D Value (readBytesAt address n) := by
  unfold readBytesAt
  split
  · exact robust_readBytes _ n
  · refine robust_get fun m hm hready => ?_
    rcases PathCondition.possible_cases hm address.term readSpan with ⟨a, l, hl⟩ | ⟨a, ha, hpossible⟩
    · rw [hl]
      exact (prepares_robust hmismatch hmissing).readAny robust_readBytes address n a l m hm hready
    · rw [ha]
      have hlater := later_settle hpossible
      exact .bind_of_ok rfl hlater (robust_readBytes a n _ hlater.feasible (hlater.ready hready))

theorem robust_read (address : Value) (bits : Nat) : Robust s depth D Value (read s address bits) :=
  (prepares_robust hmismatch hmissing).read (robust_readBytesAt hmismatch hmissing address _)

/-! ## Global names -/

/-- **Global names** get addresses: each variable that waits for its initial value leaves one name less to be met. -/
theorem robust_addressWithin (depth module : Nat) (name : String) :
    Robust s depth D Value (addressWithin s depth module name) := by
  induction depth generalizing module name with
  | zero =>
    -- no machine has less than no names left
    intro m _ hready
    exact absurd hready (Nat.not_lt_zero _)
  | succ depth ih =>
    unfold addressWithin
    refine robust_get fun m hm hready => ?_
    dsimp only
    cases hmet : m.addresses.get? name with
    | some a => exact robust_pure a m hm hready
    | none =>
      have henter : ∀ bits, Later m (entered s m name bits) := fun bits =>
        ⟨hm, fun n v hn => addresses_entered hmet n v hn⟩
      have hrun : ∀ bits, (do
          let a ← allocate s bits
          modify fun m => { m with addresses := m.addresses.insert name a }
          return a : Action Value) m = .ok (.ofNat s.pointerBits m.nextAddress) (entered s m name bits) := fun _ => rfl
      cases hglobal : s.project.globalIn? module name with
      | none => exact robust_fault _ m hm hready
      | some v =>
        cases v with
        | code f => exact .of_ok (hrun 8) (henter 8)
        | data g =>
          -- the name has its address before its initial value is evaluated, so one name less is left for that
          refine .bind_of_ok (hrun _) (henter _) ?_
          have hready' := fun bits => ready_entered bits hready hmet (mem_globalNames hglobal)
          cases g.init with
          | none => exact robust_pure _ _ hm (hready' _)
          | some init =>
            have hinit : Robust s depth D Value (evalWith s (addressWithin s depth) module ∅ init) :=
              (prepares_robust hmismatch hmissing).evalAny (robust_fault _) ih module ∅ init
            refine robust_bind hinit (fun v => ?_) _ hm (hready' _)
            exact robust_bind (robust_write hmismatch hmissing _ v) fun _ => robust_pure _

/-- The address of a global name: there are never more that wait for one another than there are names. -/
theorem robust_address (module : Nat) (name : String) :
    Robust s (globalCount s.project + 1) D Value (address s module name) :=
  robust_addressWithin hmismatch hmissing _ module name

/-! ## Operands and monitors -/

theorem robust_siteEval (s : Setting) (site : Site) (o : Operand) :
    Robust s (globalCount s.project + 1) D Value (site.eval s o) :=
  (prepares_robust hmismatch hmissing).eval (robust_fault _) (robust_address hmismatch hmissing) site o

/-- The monitors of checkers are robust. -/
theorem robust_monitor (s : Setting) (site : Site) {k : Checker} {monitor : Monitor} (hk : k.monitor? = some monitor) :
    Robust s (globalCount s.project + 1) D Unit (monitor s site) :=
  (prepares_robust hmismatch hmissing).checker (fun o _ => robust_siteEval hmismatch hmissing s site o)
    (fun o _ => robust_bind (robust_siteEval hmismatch hmissing s site o) robust_evalNat) hk

end Actions

end Machine

end PathSafety
