import PathSafety.Proofs.IR.ConstantCast
import PathSafety.Proofs.Path.ConstantAddress

/-!
# Converted constants and conversions of registers

The text of a converted constant is evaluated inside out, and so are instructions that convert the same constant one
after another. Both come to a number that is cut to the widths that it passes through. The instructions pass through
the widths of the types. The text passes through those that are found in it, and is not evaluated at all if a target
holds a parenthesis. So the two agree exactly if the number that is converted is cut alike, as addresses and null
pointers always are, and as numbers are that fit.

Contents:

* `ConstantCast.number` — what is converted in the end, as a number;
* `ConstantCast.execute`, `execute_eq` — the instructions, and what they come to;
* `ConstantCast.evalExpression_text`, `evalExpression_parenthesized` — what evaluating the text comes to;
* `ConstantCast.eval_eq_execute_iff` — the constant, and the instructions.
-/

namespace PathSafety

open IR Machine

/-! ## Numbers of some width -/

namespace Value

variable {w a b : Nat} {x y : Int}

theorem toNat_emod (w : Nat) (x : Int) : (x % 2 ^ w).toNat = (BitVec.ofInt w x).toNat := by
  rw [BitVec.toNat_ofInt]
  norm_cast

theorem ofInt_eq_ofNat (w : Nat) (x : Int) : ofInt w x = ofNat w (x % 2 ^ w).toNat := by
  refine congrArg (fun b => (⟨.const b⟩ : Value)) ?_
  rw [toNat_emod, BitVec.ofNat_toNat, BitVec.setWidth_eq]

theorem ofInt_emod (w : Nat) (x : Int) : ofInt w (x % 2 ^ w) = ofInt w x := by
  rw [ofInt_eq_ofNat, ofInt_eq_ofNat, Int.emod_emod]

theorem ofNat_eq_ofInt (w n : Nat) : ofNat w n = ofInt w n :=
  congrArg (fun b => (⟨.const b⟩ : Value)) (BitVec.ofInt_natCast w n).symm

/-- A number that has been cut is cut once more when it is resized. -/
theorem resize_ofInt (hb : b ≠ 0) (ha : a ≤ w) : (ofInt w (x % 2 ^ a)).resize b = ofInt b (x % 2 ^ min b a) := by
  have hcut : x % 2 ^ a % 2 ^ w = x % 2 ^ a := by rw [ConstantCast.emod_two_pow_min, Nat.min_eq_left ha]
  have hnonneg : 0 ≤ x % 2 ^ a := Int.emod_nonneg _ (Int.ne_of_gt (Int.pow_pos (by decide)))
  have hlt : (x % 2 ^ a).toNat < 2 ^ w := by
    rw [← hcut, toNat_emod]
    exact BitVec.isLt _
  calc (ofInt w (x % 2 ^ a)).resize b
    _ = ofNat b (x % 2 ^ a).toNat := by rw [ofInt_eq_ofNat, hcut, resize_ofNat_of_lt hb hlt]
    _ = ofInt b (x % 2 ^ a) := by rw [ofNat_eq_ofInt, Int.toNat_of_nonneg hnonneg]
    _ = ofInt b (x % 2 ^ min b a) := by rw [← ofInt_emod b, ConstantCast.emod_two_pow_min, Nat.min_comm]

/-- Different numbers that fit are different values. -/
theorem ofInt_emod_inj (ha : a ≤ w) (hb : b ≤ w) : ofInt w (x % 2 ^ a) = ofInt w (y % 2 ^ b) ↔ x % 2 ^ a = y % 2 ^ b := by
  refine ⟨fun h => ?_, congrArg _⟩
  have hnumber : (x % 2 ^ a % 2 ^ w).toNat = (y % 2 ^ b % 2 ^ w).toNat := by
    rw [toNat_emod, toNat_emod]
    exact Option.some.inj (congrArg const? h)
  have hnonneg : ∀ (z : Int) c, 0 ≤ z % 2 ^ c := fun z c => Int.emod_nonneg _ (Int.ne_of_gt (Int.pow_pos (by decide)))
  rw [ConstantCast.emod_two_pow_min, ConstantCast.emod_two_pow_min, Nat.min_eq_left ha, Nat.min_eq_left hb] at hnumber
  rw [← Int.toNat_of_nonneg (hnonneg x a), hnumber, Int.toNat_of_nonneg (hnonneg y b)]

end Value

namespace IR.ConstantCast

variable {s : Setting} {site : Site} {scope : Scope} {r n : String} {e : ConstantCast} {k bits fuel : Nat}
  {op : CastOp} {target : Ty} {m m' : Machine} {v w : Value}

/-- What is converted in the end, as a number. Names are those of module `i`. -/
def number (s : Setting) (i : Nat) : ConstantCast → Action Int
  | int _ n => pure n
  | null _ => pure 0
  | global n => do
    let a ← address s i n
    return ((a.const?.getD 0 : Nat) : Int)
  | cast _ e _ => e.number s i

/-- The constant as instructions compute it, one after another. A register holds what is converted next. -/
def execute (s : Setting) (site : Site) (r : String) : ConstantCast → Action Value
  | cast op e target => do
    let v ← e.execute s site r
    Machine.cast s (site.bind r v) op (.register r) target
  | e => site.eval s (e.operand site.routine.scope)

/-- That a constant can be computed: its conversions are well typed, and the project has the name in it, first in
module `k`. -/
structure WellFormed (s : Setting) (scope : Scope) (k : Nat) (e : ConstantCast) : Prop where
  pointers : s.pointerBits ≠ 0
  typed : e.WellTyped s.project.layout scope
  found : ∀ n, e.source = global n → ∃ v, s.project.global? n = some (k, v)

namespace WellFormed

theorem inner (h : (cast op e target).WellFormed s scope k) : e.WellFormed s scope k := ⟨h.1, h.2.1, h.3⟩

theorem width_ne_zero (h : e.WellFormed s scope k) : e.width s.project.layout scope ≠ 0 :=
  (bits_type h.typed h.pointers).1

theorem readWidth_ne_zero (h : e.WellFormed s scope k) (hbits : bits ≠ 0) :
    e.readWidth s.project.layout bits ≠ 0 := by
  cases e with
  | cast op e target =>
    rcases @readWidth_eq s.project.layout scope e op target bits h.typed with heq | ⟨heq, _⟩ <;> rw [heq]
    · exact h.width_ne_zero
    · exact h.pointers
  | _ => exact hbits

end WellFormed

/-! ## Instructions -/

/-- A name stands for the number of its address. -/
theorem address_eq (hm : Placed s m) (hbits : bits ≠ 0) (i : Nat) (n : String) :
    (do return (← address s i n).resize bits : Action Value) m =
      (do let x ← (global n).number s i; return .ofInt bits (x % 2 ^ bits) : Action Value) m := by
  unfold number
  rw [bind_assoc]
  refine bind_congr_of_ok fun a m' ha => ?_
  obtain ⟨⟨x, rfl⟩, _⟩ := exists_of_addressWithin hm ha
  rw [pure_bind, Value.ofInt_emod, ← Value.ofNat_eq_ofInt, Value.resize_ofNat hbits]
  rfl

/-- **Instructions** cut the number to the widths of all types. -/
theorem execute_eq (hm : Placed s m) (h : e.WellFormed s site.routine.scope k) :
    e.execute s site r m = (do
      let x ← e.number s site.routine.module
      return .ofInt (e.width s.project.layout site.routine.scope)
        (x % 2 ^ e.narrowest s.project.layout site.routine.scope) : Action Value) m := by
  induction e with
  | int w n =>
    show _ = (pure (Value.ofInt w (n % 2 ^ w)) : Action Value) m
    rw [Value.ofInt_emod]
    rfl
  | null t =>
    have hbits : s.project.layout.bits? t = some ((null t).width s.project.layout site.routine.scope) :=
      (bits_type h.typed h.pointers).2
    show evalWith s (address s) site.routine.module site.registers (.constant t .null) m =
      (pure (Value.ofInt _ (0 % 2 ^ _)) : Action Value) m
    rw [Int.zero_emod]
    unfold evalWith
    rw [hbits]
    exact congrFun (congrArg Pure.pure (Value.ofNat_eq_ofInt _ 0)) m
  | global n =>
    have hwidth : (global n).width s.project.layout site.routine.scope = s.pointerBits :=
      width_of_isPointer (isPointer_type_global h.typed)
    show address s site.routine.module n m = (do
      let x ← (global n).number s site.routine.module
      return .ofInt ((global n).width s.project.layout site.routine.scope)
        (x % 2 ^ (global n).width s.project.layout site.routine.scope) : Action Value) m
    rw [hwidth, ← address_eq hm h.pointers]
    refine (congrFun (bind_pure _).symm m).trans (bind_congr_of_ok fun a m' ha => ?_)
    obtain ⟨⟨x, rfl⟩, _⟩ := exists_of_addressWithin hm ha
    rw [Value.resize_ofNat h.pointers, Value.ofNat_mod]
  | cast op e target ih =>
    have hop : op ≠ .sext := by
      rintro rfl
      exact h.typed.2
    obtain ⟨hne, hbits⟩ := bits_type h.typed h.pointers
    have htarget : s.project.layout.bits? target =
      some ((cast op e target).width s.project.layout site.routine.scope) := hbits
    show (e.execute s site r >>= fun v => Machine.cast s (site.bind r v) op (.register r) target) m = _
    rw [funext fun v => ConstantAddress.cast_bind hop htarget hne v]
    refine (bind_congr_left (ih h.inner) _).trans ?_
    rw [bind_assoc]
    refine bind_congr_of_ok fun x m' _ => ?_
    -- A cast keeps what fits the narrowest type so far, so the widths combine to their minimum.
    rw [pure_bind, Value.resize_ofInt hne (narrowest_le _ _ _)]
    rfl

/-! ## Constants -/

/-- What is evaluated, by what is read. -/
theorem evalExpression_of_shape {address : Addressing} {text : List Char} {shape : ExpressionShape}
    (h : ExpressionShape.of? s.project text = some shape) (f : Fault) :
    evalExpression s address (fuel + 1) text bits = evalShape s address fuel bits f (some shape) := by
  obtain ⟨_, _, heq⟩ := evalExpression_eq s address fuel bits text
  rw [heq, h]
  cases shape <;> rfl

theorem evalExpression_of_unread {address : Addressing} (h : (cast op e target).WellFormed s scope k)
    (hlegible : (cast op e target).Legible scope) (htarget : target.Parenthesized) :
    evalExpression s address (fuel + 1) ((cast op e target).text scope) bits m =
      .error (.fault (.unsupportedExpression (String.ofList ((cast op e target).text scope)))) m := by
  obtain ⟨haddress, hcast⟩ := castOperand?_text h.typed hlegible htarget
  unfold evalExpression
  simp only [haddress, hcast]
  rfl

/-- **A constant** that is read cuts the number to the widths that are read. -/
theorem evalExpression_text (hm : Placed s m) (h : (cast op e target).WellFormed s scope k)
    (hlegible : (cast op e target).Legible scope) (hparens : ¬ (cast op e target).Parenthesized) (hbits : bits ≠ 0)
    (hfuel : ((cast op e target).text scope).length ≤ fuel) :
    evalExpression s (address s) (fuel + 1) ((cast op e target).text scope) bits m = (do
      let x ← e.number s k
      return .ofInt bits (x % 2 ^ (cast op e target).narrowestRead s.project.layout bits) : Action Value) m := by
  -- The innermost constant is read at the width asked for, so nothing is cut off yet.
  have hself : ∀ {b} (x : Int), Value.ofInt b (x % 2 ^ min b b) = .ofInt b x := fun x => by
    rw [Nat.min_self, Value.ofInt_emod]
  induction e generalizing op target bits fuel with
  | int w j =>
    rw [evalExpression_of_shape (shape_int (keyword_mem h.typed) (not_or.mp hparens).1 hlegible) .unboundOperand]
    exact congrFun (congrArg pure (hself j).symm) m
  | null t =>
    rw [evalExpression_of_shape (shape_null (keyword_mem h.typed) (not_or.mp hparens).1 h.typed.1 hlegible)
      .unboundOperand]
    refine congrFun (congrArg pure ?_) m
    rw [Value.ofNat_eq_ofInt]
    exact (hself 0).symm
  | global n =>
    obtain ⟨v, hv⟩ := h.found n rfl
    rw [evalExpression_of_shape (shape_global (keyword_mem h.typed) (not_or.mp hparens).1 hv hlegible) .unboundOperand]
    show (do return (← address s k n).resize bits : Action Value) m = (do
      let x ← (global n).number s k
      return .ofInt bits (x % 2 ^ min bits bits) : Action Value) m
    rw [Nat.min_self]
    exact address_eq hm hbits k n
  | cast op' e t ih =>
    obtain ⟨width, hshape, hwidth⟩ := shape_nested (p := s.project) (keyword_mem h.typed)
      (not_or.mp hparens).1 h.typed.1 hlegible
    -- Each cast spends one unit of fuel and at least one character of text.
    have hshorter : ((cast op' e t).text scope).length < fuel := by
      rw [text_cast (e := cast op' e t)] at hfuel
      unfold ExpressionText.conversion at hfuel
      simp only [List.length_append, List.length_cons] at hfuel
      omega
    obtain _ | fuel := fuel
    · exact absurd hshorter (Nat.not_lt_zero _)
    rw [evalExpression_of_shape hshape .unboundOperand]
    show (evalExpression s (address s) (fuel + 1) ((cast op' e t).text scope) (width.getD s.project.layout.pointerBits) >>=
      fun v => pure (v.resize bits)) m = _
    rw [hwidth bits]
    refine (bind_congr_left (ih h.inner hlegible.1 (not_or.mp hparens).2 (h.inner.readWidth_ne_zero hbits)
      (Nat.le_of_lt_succ hshorter)) _).trans ?_
    rw [bind_assoc]
    refine bind_congr_of_ok fun x m' _ => ?_
    rw [pure_bind, Value.resize_ofInt hbits (narrowestRead_le _ _ _)]
    rfl

/-- **A constant** with a target that is not read is not evaluated. -/
theorem evalExpression_parenthesized {address : Addressing} (h : (cast op e target).WellFormed s scope k)
    (hlegible : (cast op e target).Legible scope) (hparens : (cast op e target).Parenthesized) :
    ∃ t, evalExpression s address fuel ((cast op e target).text scope) bits m =
      .error (.fault (.unsupportedExpression t)) m := by
  induction e generalizing op target bits fuel with
  | cast op' e t ih =>
    obtain _ | fuel := fuel
    · exact ⟨_, rfl⟩
    by_cases htarget : target.Parenthesized
    · exact ⟨_, evalExpression_of_unread h hlegible htarget⟩
    obtain ⟨width, hshape, hwidth⟩ := shape_nested (p := s.project) (keyword_mem h.typed) htarget h.typed.1 hlegible
    have hinner : ∃ u, evalExpression s address fuel ((cast op' e t).text scope) (width.getD s.pointerBits) m =
        .error (.fault (.unsupportedExpression u)) m := ih h.inner hlegible.1 (hparens.resolve_left htarget)
    obtain ⟨u, hu⟩ := hinner
    rw [evalExpression_of_shape hshape .unboundOperand]
    exact ⟨u, bind_congr_left (y := fun m => .error (.fault (.unsupportedExpression u)) m) hu _⟩
  | _ =>
    obtain _ | fuel := fuel
    · exact ⟨_, rfl⟩
    exact ⟨_, evalExpression_of_unread h hlegible (hparens.resolve_right id)⟩

/-! ## One after another, or at once -/

/-- What the text of a constant is evaluated to is its value. -/
theorem eval_operand_eq (h : (cast op e target).WellFormed s site.routine.scope k) :
    site.eval s ((cast op e target).operand site.routine.scope) m =
      evalExpression s (address s) (((cast op e target).text site.routine.scope).length + 1)
        ((cast op e target).text site.routine.scope) ((cast op e target).width s.project.layout site.routine.scope) m := by
  have hbits : s.project.layout.bits? target =
      some ((cast op e target).width s.project.layout site.routine.scope) := (bits_type h.typed h.pointers).2
  have htrim : Text.trim ((cast op e target).text site.routine.scope) = (cast op e target).text site.routine.scope := by
    rw [text_cast]
    exact ExpressionText.trim_conversion (keyword_mem h.typed) _ _
  show evalWith s (address s) site.routine.module site.registers (.constant target (.expression _)) m = _
  rw [evalWith, hbits]
  show evalExpression s (address s) ((Text.trim ((cast op e target).text site.routine.scope)).length + 1)
    (Text.trim ((cast op e target).text site.routine.scope)) _ m = _
  rw [htrim]

/-- A name has one number, in whichever module it is met. -/
theorem number_unique {i j : Nat} {m₁ m₂ : Machine} {x y : Int} (hx : e.number s i m = .ok x m₁)
    (hy : e.number s j m = .ok y m₂) : x = y := by
  induction e with
  | int w n => exact (of_pure hx).1.symm.trans (of_pure hy).1
  | null t => exact (of_pure hx).1.symm.trans (of_pure hy).1
  | global n =>
    obtain ⟨a, n₁, ha, hx⟩ := exists_of_bind hx
    obtain ⟨b, n₂, hb, hy⟩ := exists_of_bind hy
    obtain rfl := ConstantAddress.eq_of_address ha hb
    exact (of_pure hx).1.symm.trans (of_pure hy).1
  | cast op e target ih => exact ih hx hy

theorem number_congr {i j : Nat} (h : ∀ n, e.source = global n → i = j ∨ ∃ a, m.addresses.get? n = some a) :
    e.number s i m = e.number s j m := by
  induction e with
  | global n =>
    rcases h n rfl with rfl | ⟨a, ha⟩
    · rfl
    · exact bind_congr_left ((address_of_met ha).trans (address_of_met ha).symm) _
  | cast op e target ih => exact ih h
  | _ => rfl

/-- What is converted in the end has a number exactly if its name, where it is one, has an address. -/
theorem exists_number_iff {i : Nat} : (∃ x m', e.number s i m = .ok x m') ↔
    ∀ n, e.source = global n → ∃ a m', address s i n m = .ok a m' := by
  induction e with
  | int w n => exact iff_of_true ⟨n, m, rfl⟩ nofun
  | null t => exact iff_of_true ⟨0, m, rfl⟩ nofun
  | global n =>
    refine ⟨fun ⟨x, m', hx⟩ k hk => ?_, fun h => ?_⟩
    · obtain ⟨a, n₁, ha, _⟩ := exists_of_bind hx
      cases hk
      exact ⟨a, n₁, ha⟩
    · obtain ⟨a, m', ha⟩ := h n rfl
      exact ⟨_, m', bind_of_ok ha⟩
  | cast op e target ih => exact ih

/-- All that is converted in the end and is no integer is a number that fits. -/
theorem of_number (hm : Placed s m) (h : e.WellFormed s scope k) {i : Nat} {x : Int}
    (hx : e.number s i m = .ok x m') :
    (∃ w, e.source = int w x) ∨ (∀ w n, e.source ≠ int w n) ∧ 0 ≤ x ∧ x < 2 ^ s.pointerBits ∧
      x < 2 ^ e.source.width s.project.layout scope := by
  have hpos : ∀ b : Nat, (0 : Int) < 2 ^ b := fun b => Int.pow_pos (by decide)
  induction e with
  | int w n => exact Or.inl ⟨w, congrArg _ (of_pure hx).1⟩
  | null t =>
    obtain rfl := (of_pure hx).1
    exact Or.inr ⟨nofun, Int.le_refl 0, hpos _, hpos _⟩
  | global n =>
    obtain ⟨a, m₁, ha, hx⟩ := exists_of_bind hx
    obtain ⟨⟨j, rfl⟩, _⟩ := exists_of_addressWithin hm ha
    obtain rfl := (of_pure hx).1
    have hlt : (((Value.ofNat s.pointerBits j).const?.getD 0 : Nat) : Int) < 2 ^ s.pointerBits := by
      show ((BitVec.ofNat s.pointerBits j).toNat : Int) < 2 ^ s.pointerBits
      exact_mod_cast (BitVec.ofNat s.pointerBits j).isLt
    refine Or.inr ⟨nofun, Int.natCast_nonneg _, hlt, ?_⟩
    have hwidth : (global n).width s.project.layout scope = s.pointerBits :=
      width_of_isPointer (isPointer_type_global h.typed)
    exact hwidth.symm ▸ hlt
  | cast op e target ih => exact ih h.inner hx

theorem agrees_iff (hm : Placed s m) (h : e.WellFormed s scope k) {i : Nat} {x : Int}
    (hx : e.number s i m = .ok x m') : e.Agrees s.project.layout scope ↔
      x % 2 ^ e.narrowest s.project.layout scope =
        x % 2 ^ e.narrowestRead s.project.layout (e.width s.project.layout scope) := by
  rcases of_number hm h hx with ⟨w, hsource⟩ | ⟨hsource, hnonneg, hpointers, hwidth⟩
  · refine ⟨fun hagrees => hagrees w x hsource, fun heq w' n hn => ?_⟩
    cases hsource.symm.trans hn
    exact heq
  · exact iff_of_true (fun w n hn => absurd hn (hsource w n)) (emod_narrowest h.typed hnonneg hpointers hwidth)

/-- Without a number there is no integer to be cut. -/
theorem agrees_of_error {i : Nat} {f : Failure} (hx : e.number s i m = .error f m') :
    e.Agrees s.project.layout scope := by
  intro w n hn
  have hok : ∃ x m', e.number s i m = .ok x m' := exists_number_iff.mpr fun k hk => by cases hn.symm.trans hk
  obtain ⟨x, m', hok⟩ := hok
  cases hx.symm.trans hok

theorem exists_bind_pure_iff {α β : Type} {x : Action α} (f : α → β) :
    (∃ b m', (x >>= fun a => pure (f a)) m = .ok b m') ↔ ∃ a m', x m = .ok a m' := by
  refine ⟨fun ⟨b, m', h⟩ => ?_, fun ⟨a, m', h⟩ => ⟨f a, m', bind_of_ok h⟩⟩
  obtain ⟨a, m₁, ha, _⟩ := exists_of_bind h
  exact ⟨a, m₁, ha⟩

/-- **Converted constants and conversions of registers.** Let the conversions be well typed and the names legible. The
text of a constant is not evaluated if a target in it holds a parenthesis. Otherwise it has a value whenever what is
converted in the end has one, as instructions have, and the two are the same exactly if the number that is converted in
the end is cut alike by the widths of the types and by those that are read. The two come to the same in all if moreover
the name, where it is one, is first in the module that is executed, or has been met. -/
theorem eval_eq_execute_iff (hm : Placed s m) (h : (cast op e target).WellFormed s site.routine.scope k)
    (hlegible : (cast op e target).Legible site.routine.scope) (r : String) :
    ((cast op e target).Parenthesized → ∃ t, site.eval s ((cast op e target).operand site.routine.scope) m =
      .error (.fault (.unsupportedExpression t)) m) ∧
    (¬ (cast op e target).Parenthesized →
      ((∃ v m₁, site.eval s ((cast op e target).operand site.routine.scope) m = .ok v m₁) ↔
        ∀ n, e.source = global n → ∃ a m₁, address s k n m = .ok a m₁) ∧
      (∀ v m₁ w m₂, site.eval s ((cast op e target).operand site.routine.scope) m = .ok v m₁ →
        (cast op e target).execute s site r m = .ok w m₂ →
          (v = w ↔ (cast op e target).Agrees s.project.layout site.routine.scope)) ∧
      ((∀ n, e.source = global n → k = site.routine.module ∨ ∃ a, m.addresses.get? n = some a) →
        (site.eval s ((cast op e target).operand site.routine.scope) m = (cast op e target).execute s site r m ↔
          (cast op e target).Agrees s.project.layout site.routine.scope))) ∧
    ((∃ w m₂, (cast op e target).execute s site r m = .ok w m₂) ↔
      ∀ n, e.source = global n → ∃ a m₂, address s site.routine.module n m = .ok a m₂) := by
  -- Both sides are the same number cut to a width of their own, so everything below compares two
  -- remainders.
  have hexecute := execute_eq (r := r) hm h
  have heval := fun hread : ¬ (cast op e target).Parenthesized =>
    (eval_operand_eq h).trans (evalExpression_text hm h hlegible hread h.width_ne_zero (Nat.le_refl _))
  refine ⟨fun hread => ?_, fun hread => ⟨?_, fun v m₁ w m₂ hv hw => ?_, fun hfirst => ?_⟩, ?_⟩
  · rw [eval_operand_eq h]
    exact evalExpression_parenthesized h hlegible hread
  · rw [heval hread]
    exact (exists_bind_pure_iff _).trans exists_number_iff
  · rw [heval hread] at hv
    rw [hexecute] at hw
    obtain ⟨x, n₁, hx, hv⟩ := exists_of_bind hv
    obtain ⟨y, n₂, hy, hw⟩ := exists_of_bind hw
    obtain rfl := number_unique hx hy
    obtain ⟨rfl, rfl⟩ := of_pure hv
    obtain ⟨rfl, rfl⟩ := of_pure hw
    rw [Value.ofInt_emod_inj (narrowestRead_le _ _ _) (narrowest_le _ _ _), agrees_iff hm h hx, eq_comm]
  -- Met before, or named in its own module, the source has one number for both evaluations.
  · cases hx : e.number s k m with
    | ok x m' =>
      have hread := (heval hread).trans (bind_of_ok hx)
      have hexecute := hexecute.trans (bind_of_ok ((number_congr hfirst).symm.trans hx))
      rw [hread, hexecute, agrees_iff hm h hx, eq_comm,
        ← @Value.ofInt_emod_inj _ _ _ x x (narrowest_le _ _ _) (narrowestRead_le _ _ _)]
      exact ⟨fun heq => (EStateM.Result.ok.inj heq).1, fun heq => congrArg (EStateM.Result.ok · m') heq⟩
    | error f m' =>
      have hread := (heval hread).trans (bind_congr_left (y := fun _ => .error f m') hx _)
      have hexecute := hexecute.trans
        (bind_congr_left (y := fun _ => .error f m') ((number_congr hfirst).symm.trans hx) _)
      exact iff_of_true (hread.trans hexecute.symm) (agrees_of_error (e := cast op e target) hx)
  · rw [hexecute]
    exact (exists_bind_pure_iff _).trans exists_number_iff

end IR.ConstantCast

/-! ### A negative number that is widened -/

namespace Negative

def declared : Module := ⟨[], [⟨"main", .void, [], false, [⟨"entry", [⟨"", .ret none⟩]⟩]⟩]⟩

def setting : Setting := ⟨(Project.ofModules? [declared] ⟨[], 64⟩).get rfl, true⟩

def site : Site where
  routine := setting.project.routines.head (by decide)
  registers := ∅
  block := "entry"
  index := 0
  previous := none
  instr := ⟨"", .ret none⟩

/-- An address from an integer that is narrower than pointers. -/
def address : ConstantCast := .cast .inttoptr (.int 8 (-1)) (.ptrTo (.int 8) 0)

theorem wellFormed_address : address.WellFormed setting site.routine.scope 0 where
  pointers := by decide
  typed := ⟨Nat.succ_ne_zero 7, ⟨8, rfl⟩, rfl⟩
  found := nofun

theorem legible_address : address.Legible site.routine.scope := ⟨trivial, trivial, by decide +kernel⟩

theorem not_parenthesized_address : ¬ address.Parenthesized :=
  not_or.mpr ⟨not_or.mpr ⟨by decide +kernel, by decide +kernel⟩, id⟩

theorem not_agrees_address : ¬ address.Agrees setting.project.layout site.routine.scope := fun h =>
  absurd (h 8 (-1) rfl) (by decide)

theorem placed_initial : Placed setting initial where
  positive := by decide
  addresses n v hn := by cases hn

end Negative

namespace IR.ConstantCast

open Negative in
/-- The instruction widens the bits of the number, the constant does not. -/
theorem eval_eq_execute_iff_negative :
    Negative.address.execute setting site "r" initial = .ok (.ofInt 64 255) initial ∧
      ∃ v m, site.eval setting (Negative.address.operand site.routine.scope) initial = .ok v m ∧ v ≠ .ofInt 64 255 := by
  obtain ⟨hvalue, hequal, _⟩ :=
    (eval_eq_execute_iff placed_initial wellFormed_address legible_address "r").2.1 not_parenthesized_address
  have hexecute : Negative.address.execute setting site "r" initial = .ok (.ofInt 64 255) initial := rfl
  obtain ⟨v, m, hv⟩ := hvalue.mpr nofun
  exact ⟨hexecute, v, m, hv, fun h => not_agrees_address ((hequal v m _ _ hv hexecute).mp h)⟩

end IR.ConstantCast

end PathSafety
