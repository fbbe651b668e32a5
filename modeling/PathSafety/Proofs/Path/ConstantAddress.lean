import PathSafety.Proofs.IR.ConstantAddress
import PathSafety.Proofs.Path.Composition

/-!
# Constant addresses mean what instructions mean

A constant address is evaluated from its text, inside out, each nested expression at a width that is found in the text or
at that of pointers. Instructions compute the same address one after another, each at the width of its type. The widths
differ where an address was converted to an integer and back, but what the numbers are does not.

Contents:

* `Machine.offset_map` — indices as constants and as numbers;
* `ConstantAddress.execute`, `execute_eq` — the instructions, and what they do with the address of the variable;
* `ConstantAddress.evalExpression_text` — what evaluating the text does with it;
* `ConstantAddress.eval_operand` — the constant, and the instructions.
-/

namespace PathSafety

open IR Machine

/-! ## Numbers -/

namespace Value

variable {w b n : Nat}

theorem ofNat_mod (w n : Nat) : ofNat w (n % 2 ^ w) = ofNat w n :=
  congrArg (fun b => (⟨.const b⟩ : Value)) (BitVec.eq_of_toNat_eq (by simp))

/-- Numbers that are resized. -/
theorem resize_ofNat (hb : b ≠ 0) : (ofNat w n).resize b = ofNat b (n % 2 ^ w) := by
  refine eq_of_word (isSymbolic_resize b rfl) rfl fun i => ?_
  rw [word_resize i hb]
  show Word.mk ((BitVec.ofNat w n).setWidth b) = Word.mk (BitVec.ofNat b (n % 2 ^ w))
  exact congrArg Word.mk (BitVec.eq_of_toNat_eq (by simp))

/-- A number that fits is the same when it is resized. -/
theorem resize_ofNat_of_lt (hb : b ≠ 0) (hn : n < 2 ^ w) : (ofNat w n).resize b = ofNat b n := by
  rw [resize_ofNat hb, Nat.mod_eq_of_lt hn]

theorem exists_of_isSymbolic {v : Value} (hv : v.isSymbolic = false) : ∃ n < 2 ^ v.width, v = ofNat v.width n := by
  obtain ⟨t⟩ := v
  have ht : t.isConst = true := isSymbolic_eq_false.mp hv
  obtain ⟨b, rfl⟩ := Term.exists_const ht
  exact ⟨b.toNat, b.isLt, by unfold ofNat; rw [BitVec.ofNat_toNat, BitVec.setWidth_eq]⟩

end Value

namespace Machine

variable {s : Setting} {ι κ : Type}

/-! ## Indices -/

theorem innerOffset_map (f : ι → κ) (eval : κ → Action Value) (width : Nat) (t : Ty) (is : List ι) (o : Value) :
    innerOffset s eval width t (is.map f) o = innerOffset s (fun i => eval (f i)) width t is o := by
  induction is generalizing t o with
  | nil => rfl
  | cons i is ih =>
    rw [List.map_cons]
    unfold innerOffset
    simp only [ih]

/-- Offsets of indices that are given as something else. -/
theorem offset_map (f : ι → κ) (eval : κ → Action Value) (width : Nat) (t : Ty) (is : List ι) :
    offset s eval width t (is.map f) = offset s (fun i => eval (f i)) width t is := by
  cases is with
  | nil => rfl
  | cons i is =>
    rw [List.map_cons]
    unfold offset
    simp only [innerOffset_map]

/-! ## Actions that leave the machine alone -/

/-- What comes of two actions depends on the second only where the first leads. -/
theorem bind_congr_of_ok {α β : Type} {x : Action α} {f f' : α → Action β} {m : Machine}
    (h : ∀ a m', x m = .ok a m' → f a m' = f' a m') : (x >>= f) m = (x >>= f') m := by
  simp only [bind, EStateM.bind]
  split
  · rename_i hx
    exact h _ _ hx
  · rfl

theorem bind_congr_left {α β : Type} {x y : Action α} {m : Machine} (h : x m = y m) (f : α → Action β) :
    (x >>= f) m = (y >>= f) m := by
  simp only [bind, EStateM.bind, h]

/-- That an action comes to the same on all machines, and leaves them as they are. -/
def Uniform (α : Type) (x : Action α) : Prop :=
  ∃ r : Except Failure α, ∀ m, x m = match r with
    | .ok a => .ok a m
    | .error f => .error f m

theorem Uniform.again {α : Type} {x : Action α} {m m' n : Machine} {a : α} (hx : Uniform α x) (h : x m = .ok a m') :
    x n = .ok a n := by
  obtain ⟨r, hr⟩ := hx
  rw [hr] at h ⊢
  cases r with
  | ok b =>
    cases h
    rfl
  | error f => cases h

/-- Computing with constants leaves the machine alone. -/
theorem computes_uniform : Computes Uniform where
  pure a := ⟨.ok a, fun _ => rfl⟩
  bind hx hf := by
    obtain ⟨r, hr⟩ := hx
    cases r with
    | error f => exact ⟨.error f, fun m => by simp only [bind, EStateM.bind, hr]⟩
    | ok a =>
      obtain ⟨q, hq⟩ := hf a
      exact ⟨q, fun m => (bind_of_ok (hr m)).trans (hq m)⟩
  fault f _ := ⟨.error (.fault f), fun _ => rfl⟩
  mismatch := ⟨.error (.defect .widthMismatch), fun _ => rfl⟩
  missing := ⟨.error (.defect .missingIndex), fun _ => rfl⟩
  evalNat v hv := by
    obtain ⟨k, hk⟩ := exists_evalNat_of_const hv
    exact ⟨.ok k, hk⟩

end Machine

namespace IR.ConstantAddress

variable {s : Setting} {site : Site} {scope : Scope} {r n : String} {e : ConstantAddress} {g g' : Global} {k bits : Nat}
  {op : CastOp} {target : Ty} {m m' : Machine} {is : List (Nat × Int)} {inbounds : Bool} {v w : Value} {x : Nat}

/-- The address as instructions compute it, one after another. A register holds what is converted next. -/
def execute (s : Setting) (site : Site) (r : String) : ConstantAddress → Action Value
  | global n => site.eval s (.global n)
  | element _ n is => gep s site (.global n) none (is.map index)
  | cast op e target => do
    let v ← e.execute s site r
    Machine.cast s (site.bind r v) op (.register r) target

/-- What comes of the address of the variable, whose objects are of type `t`. -/
def finish (s : Setting) (t : Ty) : ConstantAddress → Value → Action Value
  | global _, a => pure a
  | element _ _ is, a => do
    let o ← offset s (fun (i : Nat × Int) => return .ofInt i.1 i.2) a.width t is
    valueOr (Value.arith .add a o)
  | cast _ e target, a => do
    let v ← e.finish s t a
    return v.resize ((s.project.layout.bits? target).getD 0)

/-- That an address can be computed: its variable is one of the module, and its conversions are well typed. -/
structure WellFormed (s : Setting) (scope : Scope) (g : Global) (e : ConstantAddress) : Prop where
  pointers : s.pointerBits ≠ 0
  found : scope.module.global? e.name = some (.data g)
  typed : e.WellTyped s.project.layout scope

/-! ## Sizes -/

namespace WellFormed

theorem inner (h : (cast op e target).WellFormed s scope g) : e.WellFormed s scope g := ⟨h.1, h.2, h.3.1⟩

theorem exists_bits (h : e.WellFormed s scope g) :
    ∃ bits, bits ≠ 0 ∧ s.project.layout.bits? (e.type scope) = some bits := by
  have hpointer : ∀ t : Ty, t.isPointer = true → ∃ bits, bits ≠ 0 ∧ s.project.layout.bits? t = some bits := fun t ht =>
    ⟨s.pointerBits, h.pointers, bits_of_isPointer ht⟩
  induction e with
  | global n => exact hpointer _ (isPointer_type_global h.found)
  | element inbounds n is => exact hpointer _ (isPointer_type_element h.found)
  | cast op e target ih =>
    obtain ⟨bits, hne, hbits⟩ := ih h.inner
    obtain ⟨_, hop⟩ := h.typed
    cases op with
    | bitcast => exact ⟨bits, hne, hop.trans hbits⟩
    | ptrtoint =>
      obtain ⟨_, n, hn, rfl⟩ := hop
      exact ⟨n, hn, rfl⟩
    | inttoptr | addrspacecast => exact hpointer _ hop.2
    | _ => exact hop.elim

theorem bits_ne_zero (h : e.WellFormed s scope g) (hbits : s.project.layout.bits? (e.type scope) = some bits) :
    bits ≠ 0 := by
  obtain ⟨b, hb, hsize⟩ := h.exists_bits
  exact Option.some.inj (hsize.symm.trans hbits) ▸ hb

theorem bits_global (h : (global n).WellFormed s scope g)
    (hbits : s.project.layout.bits? ((global n).type scope) = some bits) : s.pointerBits = bits :=
  Option.some.inj ((bits_of_isPointer (isPointer_type_global h.found)).symm.trans hbits)

theorem bits_element (h : (element inbounds n is).WellFormed s scope g)
    (hbits : s.project.layout.bits? ((element inbounds n is).type scope) = some bits) : s.pointerBits = bits :=
  Option.some.inj ((bits_of_isPointer (isPointer_type_element h.found)).symm.trans hbits)

/-! ## Numbers -/

/-- What comes of an address is a number that fits into pointers, as well as into its type. -/
theorem exists_of_finish (h : e.WellFormed s scope g) (hbits : s.project.layout.bits? (e.type scope) = some bits)
    {t : Ty} (hv : e.finish s t (.ofNat s.pointerBits x) m = .ok v m') :
    ∃ j, j < 2 ^ s.pointerBits ∧ j < 2 ^ bits ∧ v = .ofNat bits j := by
  have hpos : ∀ w, 0 < 2 ^ w := fun w => Nat.pow_pos (by decide)
  induction e generalizing bits v m m' with
  | global n =>
    obtain rfl := h.bits_global hbits
    obtain ⟨rfl, rfl⟩ := of_pure hv
    exact ⟨x % 2 ^ s.pointerBits, Nat.mod_lt x (hpos _), Nat.mod_lt x (hpos _), (Value.ofNat_mod _ _).symm⟩
  | element inbounds n is =>
    obtain rfl := h.bits_element hbits
    obtain ⟨o, m₁, ho, hv⟩ := exists_of_bind hv
    obtain ⟨hv, _⟩ := of_valueOr hv
    have hwidth : v.width = s.pointerBits := Value.width_of_arith hv
    obtain ⟨j, hj, hv⟩ := Value.exists_of_isSymbolic (Value.isSymbolic_arith rfl (gives_offset ho) hv)
    rw [hwidth] at hj hv
    exact ⟨j, hj, hj, hv⟩
  | cast op e target ih =>
    obtain ⟨w, _, hw⟩ := h.inner.exists_bits
    have htarget : s.project.layout.bits? target = some bits := hbits
    obtain ⟨u, m₁, hu, hv⟩ := exists_of_bind hv
    obtain ⟨rfl, rfl⟩ := of_pure hv
    -- A cast may widen again, but what the inner type cut off does not come back.
    obtain ⟨j, hj, hjw, rfl⟩ := ih h.inner hw hu
    rw [htarget, Option.getD_some, Value.resize_ofNat_of_lt (h.bits_ne_zero hbits) hjw]
    exact ⟨j % 2 ^ bits, Nat.lt_of_le_of_lt (Nat.mod_le j _) hj, Nat.mod_lt j (hpos _), (Value.ofNat_mod _ _).symm⟩

/-- The width at which a conversion is read makes no difference for numbers that fit into pointers. -/
theorem resize_target (h : (cast op e target).WellFormed s scope g) {w c j : Nat}
    (hw : s.project.layout.bits? (e.type scope) = some w) (htarget : s.project.layout.bits? target = some bits)
    (hc : c = bits ∨ c = (cast op e target).readBits s.pointerBits bits) (hj : j < 2 ^ s.pointerBits) (hjw : j < 2 ^ w) :
    ((Value.ofNat w j).resize bits).resize c = .ofNat c j := by
  have hbits : bits ≠ 0 := h.bits_ne_zero htarget
  rw [Value.resize_ofNat_of_lt hbits hjw]
  -- at the width of its type a number stays what it is, and at that of pointers if the type holds it
  have hsame : (Value.ofNat bits j).resize bits = .ofNat bits j := by
    rw [Value.resize_ofNat hbits, Value.ofNat_mod]
  have hwide : j < 2 ^ bits → (Value.ofNat bits j).resize s.pointerBits = .ofNat s.pointerBits j :=
    Value.resize_ofNat_of_lt h.pointers
  rcases hc with rfl | rfl
  · exact hsame
  obtain ⟨_, hop⟩ := h.typed
  cases op with
  | ptrtoint => exact hsame
  | bitcast =>
    obtain rfl : bits = w := Option.some.inj (htarget.symm.trans (hop.trans hw))
    exact hwide hjw
  | inttoptr | addrspacecast =>
    obtain rfl : s.pointerBits = bits := Option.some.inj ((bits_of_isPointer hop.2).symm.trans htarget)
    exact hwide hj
  | _ => exact hop.elim

end WellFormed

/-! ## Instructions -/

theorem cast_bind (hop : op ≠ .sext) (htarget : s.project.layout.bits? target = some bits) (hbits : bits ≠ 0)
    (v : Value) : Machine.cast s (site.bind r v) op (.register r) target = pure (v.resize bits) := by
  have hsized : sized s target = pure bits := by
    unfold sized
    rw [htarget]
    cases bits with
    | zero => exact absurd rfl hbits
    | succ n => rfl
  funext m
  unfold Machine.cast
  rw [bind_of_ok (eval_bind site r v m), hsized, pure_bind, if_neg hop]

/-- What instructions do with the address of the variable. -/
theorem execute_eq (h : e.WellFormed s site.routine.scope g) :
    e.execute s site r = address s site.routine.module e.name >>= e.finish s g.ty := by
  -- Instruction by instruction: the last one is executed on what the ones before it leave in the
  -- register.
  induction e with
  | global n => exact (bind_pure _).symm
  | element inbounds n is =>
    show gep s site (.global n) none (is.map index) = _
    unfold gep
    rw [accessType_global (n := n) h.found]
    refine congrArg (address s site.routine.module n >>= ·) (funext fun a => ?_)
    show (offset s (site.eval s) a.width g.ty (is.map index) >>= _) = _
    rw [offset_map]
    rfl
  | cast op e target ih =>
    obtain ⟨bits, hbits, hsize⟩ := h.exists_bits
    have htarget : s.project.layout.bits? target = some bits := hsize
    have hop : op ≠ .sext := by
      rintro rfl
      exact h.typed.2
    show (e.execute s site r >>= fun v => Machine.cast s (site.bind r v) op (.register r) target) = _
    rw [ih h.inner, bind_assoc]
    refine congrArg (address s site.routine.module e.name >>= ·) (funext fun a => ?_)
    show _ = (e.finish s g.ty a >>= fun v => pure (v.resize ((s.project.layout.bits? target).getD 0)))
    rw [htarget]
    exact congrArg (e.finish s g.ty a >>= ·) (funext fun v => cast_bind hop htarget hbits v)

/-! ## Constants -/

theorem readBits_eq (pointerBits bits : Nat) (e : ConstantAddress) :
    e.readBits pointerBits bits = bits ∨ e.readBits pointerBits bits = pointerBits := by
  unfold readBits
  split
  · exact Or.inl rfl
  · exact Or.inr rfl

theorem readBits_ne_zero (h : e.WellFormed s scope g) (hbits : s.project.layout.bits? (e.type scope) = some bits) :
    e.readBits s.pointerBits bits ≠ 0 := by
  rcases readBits_eq s.pointerBits bits e with heq | heq <;> rw [heq]
  · exact h.bits_ne_zero hbits
  · exact h.pointers

/-- What a conversion does with an address that is read at some width of its own. -/
theorem convert_eq (h : (cast op e target).WellFormed s scope g) {w c : Nat}
    (hw : s.project.layout.bits? (e.type scope) = some w) (htarget : s.project.layout.bits? target = some bits)
    (hc : c = bits ∨ c = (cast op e target).readBits s.pointerBits bits) (t : Ty) (x : Nat) (m : Machine) :
    (do
      let v ← e.finish s t (.ofNat s.pointerBits x)
      let v ← (pure (v.resize (e.readBits s.pointerBits w)) : Action Value)
      return v.resize c : Action Value) m =
    (do
      let v ← (cast op e target).finish s t (.ofNat s.pointerBits x)
      return v.resize c : Action Value) m := by
  have hne : c ≠ 0 := by
    rcases hc with rfl | rfl
    · exact h.bits_ne_zero htarget
    · exact readBits_ne_zero h htarget
  show _ = ((e.finish s t (.ofNat s.pointerBits x) >>= fun v =>
    pure (v.resize ((s.project.layout.bits? target).getD 0))) >>= fun v => pure (v.resize c)) m
  rw [htarget, bind_assoc]
  refine bind_congr_of_ok fun v m₁ hv => ?_
  obtain ⟨j, hj, hjw, rfl⟩ := h.inner.exists_of_finish hw hv
  rw [pure_bind, pure_bind, Option.getD_some, h.resize_target hw htarget hc hj hjw]
  have hfits : j < 2 ^ e.readBits s.pointerBits w := by
    rcases readBits_eq s.pointerBits w e with heq | heq <;> rwa [heq]
  rw [Value.resize_ofNat_of_lt (readBits_ne_zero h.inner hw) hjw, Value.resize_ofNat_of_lt hne hfits]

/-- What is converted is evaluated first, at some width. -/
theorem evalExpression_cast (h : (cast op e target).WellFormed s scope g)
    (hlegible : (cast op e target).Legible scope) {v : GlobalValue} (hproject : s.project.global? e.name = some (k, v))
    {w c fuel : Nat} (hw : s.project.layout.bits? (e.type scope) = some w)
    (hnumber : ∀ a m', address s k e.name m = .ok a m' → ∃ x, a = .ofNat s.pointerBits x)
    (ih : (∀ n, e ≠ global n) → evalExpression s (address s) fuel (e.text scope) (e.readBits s.pointerBits w) m =
      (do
        let a ← address s k e.name
        let v ← e.finish s g.ty a
        return v.resize (e.readBits s.pointerBits w) : Action Value) m) :
    evalExpression s (address s) (fuel + 1) ((cast op e target).text scope) c m =
      (do
        let a ← address s k e.name
        let v ← e.finish s g.ty a
        let v ← (pure (v.resize (e.readBits s.pointerBits w)) : Action Value)
        return v.resize c : Action Value) m := by
  have hkeyword := keyword_mem h.typed
  obtain ⟨f, _, heq⟩ := evalExpression_eq s (address s) fuel c ((cast op e target).text scope)
  rw [heq]
  -- A bare global inside the cast is read directly; anything else is nested text, read at a width
  -- of its own.
  by_cases hbare : ∃ n, e = global n
  · obtain ⟨n, rfl⟩ := hbare
    rw [shape_reference (n := n) hproject hkeyword hlegible]
    refine bind_congr_of_ok fun a m₁ ha => ?_
    obtain ⟨x, rfl⟩ := hnumber a m₁ ha
    show _ = (pure ((Value.resize s.pointerBits (.ofNat s.pointerBits x)).resize c) : Action Value) m₁
    rw [Value.resize_ofNat h.pointers, Value.ofNat_mod]
  · have he : ∀ n, e ≠ global n := fun n hn => hbare ⟨n, hn⟩
    obtain ⟨keyword, hnested, hread⟩ := exists_nestedAt? h.typed.1 he hw
    rw [shape_nested hkeyword hlegible hnested]
    show (evalExpression s (address s) fuel (e.text scope) ((if keyword = "ptrtoint".toList then
      ExpressionText.targetWidth? (e.text scope) else none).getD s.project.layout.pointerBits) >>=
        fun v => pure (v.resize c)) m = _
    rw [hread]
    refine (bind_congr_left (ih he) _).trans ?_
    simp only [bind_assoc]

/-- What evaluating the text of an address does with the address of the variable. -/
theorem evalExpression_text (hm : Placed s m) (h : e.WellFormed s scope g) (hlegible : e.Legible scope)
    (hproject : s.project.global? e.name = some (k, .data g')) (hty : g'.ty = g.ty) (he : ∀ n, e ≠ global n)
    (hbits : s.project.layout.bits? (e.type scope) = some bits) {c fuel : Nat}
    (hc : c = bits ∨ c = e.readBits s.pointerBits bits) (hfuel : (e.text scope).length < fuel) :
    evalExpression s (address s) fuel (e.text scope) c m =
      (do
        let a ← address s k e.name
        let v ← e.finish s g.ty a
        return v.resize c : Action Value) m := by
  -- addresses are numbers of the width of pointers
  have hnumber : ∀ a m', address s k e.name m = .ok a m' → ∃ x, a = .ofNat s.pointerBits x := fun a m' h =>
    (exists_of_addressWithin hm h).1
  induction e generalizing bits c fuel with
  | global n => exact absurd rfl (he n)
  | element inbounds n is =>
    obtain rfl := h.bits_element hbits
    obtain rfl : c = s.pointerBits := hc.elim id id
    cases fuel with
    | zero => exact absurd hfuel (Nat.not_lt_zero _)
    | succ fuel =>
      obtain ⟨f, _, heq⟩ := evalExpression_eq s (address s) fuel s.pointerBits (text scope (element inbounds n is))
      rw [heq, shape_element (n := n) h.found hproject hlegible]
      refine bind_congr_of_ok fun a m₁ ha => ?_
      obtain ⟨x, rfl⟩ := hnumber a m₁ ha
      rw [hty]
      show finish s g.ty (element inbounds n is) (.ofNat s.pointerBits x) m₁ = _
      refine (congrFun (bind_pure _).symm m₁).trans (bind_congr_of_ok fun v m₂ hv => ?_)
      -- an address has the width of pointers already
      obtain ⟨j, hj, _, rfl⟩ := h.exists_of_finish hbits hv
      rw [Value.resize_ofNat_of_lt h.pointers hj]
  | cast op e target ih =>
    obtain ⟨w, _, hw⟩ := h.inner.exists_bits
    cases fuel with
    | zero => exact absurd hfuel (Nat.not_lt_zero _)
    | succ fuel =>
      have hshorter : (e.text scope).length < fuel := by
        rw [text_cast] at hfuel
        unfold ExpressionText.conversion at hfuel
        simp only [List.length_append, List.length_cons] at hfuel
        omega
      rw [evalExpression_cast h hlegible hproject hw hnumber fun he =>
        ih h.inner hlegible.1 hproject he hw (Or.inr rfl) hshorter hnumber]
      refine bind_congr_of_ok fun a m₁ ha => ?_
      obtain ⟨x, rfl⟩ := hnumber a m₁ ha
      exact convert_eq h hw hbits hc g.ty x m₁

/-! ## One after another, or at once -/

theorem uniform_finish (s : Setting) (t : Ty) (e : ConstantAddress) (a : Value) : Uniform Value (e.finish s t a) := by
  induction e with
  | global n => exact computes_uniform.pure a
  | element inbounds n is =>
    refine computes_uniform.bind (computes_uniform.offset (fun i _ => computes_uniform.pure _) (fun i _ => ?_) _ t)
      fun o => computes_uniform.valueOr (Value.arith_ne_divisionByZero rfl _ _)
    rw [pure_bind]
    exact computes_uniform.evalNat _ rfl
  | cast op e target ih => exact computes_uniform.bind ih fun v => computes_uniform.pure _

/-- A name has one address, in whichever module it is met. -/
theorem eq_of_address {i : Nat} {m₁ m₂ : Machine} (hv : address s k n m = .ok v m₁) (hw : address s i n m = .ok w m₂) :
    v = w := by
  cases hmet : m.addresses.get? n with
  | some a =>
    obtain ⟨rfl, rfl⟩ := EStateM.Result.ok.inj ((address_of_met hmet).symm.trans hv)
    exact (EStateM.Result.ok.inj ((address_of_met hmet).symm.trans hw)).1
  | none => rw [(cases_of_meet hmet hv).1, (cases_of_meet hmet hw).1]

/-- The value of a constant address is what comes of the address of its variable. -/
theorem eval_text (hm : Placed s m) (h : e.WellFormed s site.routine.scope g) (hlegible : e.Legible site.routine.scope)
    (hproject : s.project.global? e.name = some (k, .data g')) (hty : g'.ty = g.ty) (he : ∀ n, e ≠ global n) :
    site.eval s (e.operand site.routine.scope) m = (address s k e.name >>= e.finish s g.ty) m := by
  obtain ⟨bits, hne, hbits⟩ := h.exists_bits
  obtain ⟨t, hoperand, ht⟩ := exists_operand_eq site.routine.scope he
  have heval : site.eval s (e.operand site.routine.scope) m =
      evalExpression s (address s) ((e.text site.routine.scope).length + 1) (e.text site.routine.scope) bits m := by
    rw [hoperand]
    unfold Site.eval Machine.eval
    rw [evalWith, hbits]
    simp only [evalConstant, ht, trim_text h.typed he]
  rw [heval, evalExpression_text hm h hlegible hproject hty he hbits (Or.inl rfl) (Nat.lt_succ_self _)]
  refine bind_congr_of_ok fun a m₁ ha => ?_
  obtain ⟨⟨x, rfl⟩, _⟩ := exists_of_addressWithin hm ha
  refine (bind_congr_of_ok fun v m₂ hv => ?_).trans (congrFun (bind_pure _) m₁)
  obtain ⟨j, _, hj, rfl⟩ := h.exists_of_finish hbits hv
  rw [Value.resize_ofNat_of_lt hne hj]

/-- **Constant addresses mean what instructions mean.** Let names be legible and conversions well typed. Then the text
that a constant address is written as has the value that the instructions compute one after another. The two come to the
same in all, faults included, if the first module that has the variable is the one that is executed, or if the variable
has been met. -/
theorem eval_operand (hm : Placed s m) (h : e.WellFormed s site.routine.scope g)
    (hlegible : e.Legible site.routine.scope) (hproject : s.project.global? e.name = some (k, .data g'))
    (hty : g'.ty = g.ty) (r : String) :
    (∀ v m₁ w m₂, site.eval s (e.operand site.routine.scope) m = .ok v m₁ → e.execute s site r m = .ok w m₂ → v = w) ∧
      (k = site.routine.module ∨ (∃ a, m.addresses.get? e.name = some a) →
        site.eval s (e.operand site.routine.scope) m = e.execute s site r m) := by
  by_cases hbare : ∃ n, e = global n
  · obtain ⟨n, rfl⟩ := hbare
    exact ⟨fun v m₁ w m₂ hv hw => (EStateM.Result.ok.inj (hv.symm.trans hw)).1, fun _ => rfl⟩
  have he : ∀ n, e ≠ global n := fun n hn => hbare ⟨n, hn⟩
  rw [eval_text hm h hlegible hproject hty he, execute_eq h]
  refine ⟨fun v m₁ w m₂ hv hw => ?_, ?_⟩
  · obtain ⟨a, n₁, ha, hv⟩ := exists_of_bind hv
    obtain ⟨b, n₂, hb, hw⟩ := exists_of_bind hw
    obtain rfl := eq_of_address ha hb
    -- what comes of the address is the same on both machines
    exact (EStateM.Result.ok.inj (((uniform_finish s g.ty e a).again hv).symm.trans hw)).1
  · rintro (rfl | ⟨a, ha⟩)
    · rfl
    · exact bind_congr_left ((address_of_met ha).trans (address_of_met ha).symm) _

end IR.ConstantAddress

/-! ### A variable whose name has to be escaped -/

namespace Escaped

def variableName : String := "from \"a\" to @\\é"

def structName : String := "pair \\of \"halves\""

def pair : Global := ⟨variableName, .named structName, none⟩

def declared : Module := ⟨[pair], [⟨"main", .void, [], false, [⟨"entry", [⟨"", .ret none⟩]⟩]⟩]⟩

def setting : Setting :=
  ⟨(Project.ofModules? [declared] ⟨[(structName, some [.int 8, .array 2 (.int 16)])], 64⟩).get rfl, true⟩

def site : Site where
  routine := setting.project.routines.head (by decide)
  registers := ∅
  block := "entry"
  index := 0
  previous := none
  instr := ⟨"", .ret none⟩

/-- The element before the first one in the second field, by way of an integer that is narrower than pointers. -/
def element : ConstantAddress :=
  .cast .inttoptr
    (.cast .ptrtoint
      (.cast .bitcast (.element true variableName [(64, 0), (32, 1), (8, -1)]) (.ptrTo (.int 8) 0)) (.int 32))
    (.ptrTo (.named structName) 0)

theorem wellFormed_element : element.WellFormed setting site.routine.scope pair where
  pointers := by decide
  found := rfl
  typed := ⟨⟨⟨trivial, rfl⟩, rfl, 32, by decide, rfl⟩, ⟨32, rfl⟩, rfl⟩

theorem global?_element : setting.project.global? element.name = some (0, .data pair) := rfl

theorem plain_structName : ExpressionText.PlainName structName := ⟨by decide +kernel, by decide +kernel⟩

theorem legible_element : element.Legible site.routine.scope := by
  have hpointer : ∀ t : Ty, t = .int 8 ∨ t = .int 16 → (Ty.ptrTo t 0).Plain := by
    rintro t (rfl | rfl) <;> exact trivial
  refine ⟨⟨⟨plain_structName, hpointer _ (Or.inr rfl), ?_⟩, hpointer _ (Or.inl rfl), ?_⟩, trivial, ?_⟩
  all_goals exact ⟨by decide +kernel, by decide +kernel, by decide +kernel⟩

theorem placed_initial : Placed setting initial where
  positive := by decide
  addresses n v hn := by cases hn

end Escaped

namespace IR.ConstantAddress

open Escaped in
/-- The address from the text, in which names are escaped, and from the instructions. -/
theorem eval_operand_escaped : ∃ m,
    site.eval setting (Escaped.element.operand site.routine.scope) initial = .ok (.ofNat 64 0xfffffff) m ∧
      Escaped.element.execute setting site "r" initial = .ok (.ofNat 64 0xfffffff) m := by
  have hsame : site.eval setting (Escaped.element.operand site.routine.scope) initial =
      Escaped.element.execute setting site "r" initial :=
    (eval_operand placed_initial wellFormed_element legible_element global?_element rfl "r").2 (Or.inl rfl)
  have hexecute : Escaped.element.execute setting site "r" initial =
      .ok (.ofNat 64 0xfffffff) (entered setting initial variableName 40) := by
    rw [execute_eq wellFormed_element]
    rfl
  exact ⟨_, hsame.trans hexecute, hexecute⟩

end IR.ConstantAddress

end PathSafety
