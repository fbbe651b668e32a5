import PathSafety.Proofs.IR.References
import PathSafety.Proofs.Machine.Address

/-!
# Properties of evaluating

Evaluating an operand is put together from a few actions: computing with constants, new symbols, and the addresses of
global names. So a property that these have, and that passes on to actions that are done one after another, is one of
everything that is evaluated.

Contents:

* `Machine.Computes` — that computing with constants has a property, and that it passes on;
* `Computes.offset`, `Computes.evalExpression` — offsets and constant expressions;
* `Machine.ComputesSymbols` — that new symbols have it as well;
* `ComputesSymbols.evalWith`, `ComputesSymbols.evalRefers` — operands, from their leaves and the names in them.
-/

namespace PathSafety

open IR

/-! ## Operations on values -/

/-- Only divisions fail for zero. -/
theorem Value.arith_ne_divisionByZero {op : ArithOp} (hop : divides op = false) (a b : Value) :
    arith op a b ≠ .error .divisionByZero := by
  unfold arith
  rw [hop, Bool.false_and, Bool.false_and, Bool.false_and, if_neg Bool.false_ne_true]
  unfold aligned
  split
  · intro h
    cases h
  · intro h
    cases h

theorem Value.aligned_ne_divisionByZero {α : Type} (a b : Value) (f : {w : Nat} → Term w → Term w → α) :
    aligned a b f ≠ .error .divisionByZero := by
  unfold aligned
  split
  · intro h
    cases h
  · intro h
    cases h

namespace Value

theorem exists_of_aligned {α : Type} {u v : Value} {f : {w : Nat} → Term w → Term w → α} {a : α}
    (h : aligned u v f = .ok a) : ∃ hw : v.width = u.width, a = f u.term (hw ▸ v.term) := by
  unfold aligned at h
  split at h
  · rename_i hw
    exact ⟨hw, (Except.ok.inj h).symm⟩
  · cases h

/-- The result of an arithmetic operation is as wide as its operands. -/
theorem width_of_arith {op : ArithOp} {u v r : Value} (h : arith op u v = .ok r) : r.width = u.width := by
  unfold arith at h
  split at h
  · cases h
  · obtain ⟨_, rfl⟩ := exists_of_aligned h
    rfl

/-- A choice is as wide as what it chooses from. -/
theorem width_of_ite {c : Cond} {u v r : Value} (h : ite c u v = .ok r) : r.width = u.width := by
  obtain ⟨_, rfl⟩ := exists_of_aligned h
  rfl

end Value

/-! ## Names in constant expressions -/

namespace ExpressionShape

variable {p : Project} {text : List Char} {module : Nat} {name : String}

theorem ofLiteral?_cases {operand : List Char} {shape : ExpressionShape} (h : ofLiteral? operand = some shape) :
    (∃ w n, shape = .integer w n) ∨ shape = .null := by
  unfold ofLiteral? at h
  split at h
  · exact Or.inl ⟨_, _, (Option.some.inj h).symm⟩
  · split at h
    · exact Or.inr (Option.some.inj h).symm
    · cases h

/-- A conversion is of another expression, of a name or of a literal. -/
theorem ofConversion?_cases {shape : ExpressionShape} (h : ofConversion? p text = some shape) :
    (∃ inner width, shape = .nested inner width) ∨
      (∃ module name v, p.global? name = some (module, v) ∧ shape = .reference module name) ∨
      (∃ w n, shape = .integer w n) ∨ shape = .null := by
  obtain ⟨operand, _, h⟩ := Option.bind_eq_some_iff.mp h
  split at h
  · exact Or.inl ⟨_, _, (Option.some.inj h).symm⟩
  · split at h
    · split at h
      · exact Or.inr (Or.inl ⟨_, _, _, by assumption, (Option.some.inj h).symm⟩)
      · exact Or.inr (Or.inr (ofLiteral?_cases h))
      · cases h
    · exact Or.inr (Or.inr (ofLiteral?_cases h))

theorem exists_global?_of_element {g : Global} {indices : List (Nat × Int)}
    (h : of? p text = some (.element module g name indices)) : ∃ v, p.global? name = some (module, v) := by
  have hconversion : ofConversion? p text ≠ some (.element module g name indices) := fun h => by
    simpa using ofConversion?_cases h
  unfold of? at h
  split at h
  · split at h
    · split at h
      · cases h
        exact ⟨_, by assumption⟩
      · exact absurd h hconversion
    · exact absurd h hconversion
    · cases h
  · exact absurd h hconversion

theorem exists_global?_of_reference (h : of? p text = some (.reference module name)) :
    ∃ v, p.global? name = some (module, v) := by
  have hconversion : ofConversion? p text = some (.reference module name) → ∃ v, p.global? name = some (module, v) :=
    fun h => by simpa using ofConversion?_cases h
  unfold of? at h
  split at h
  · split at h
    · split at h
      · cases h
      · exact hconversion h
    · exact hconversion h
    · cases h
  · exact hconversion h

end ExpressionShape

namespace Machine

/-! ## What actions are put together from -/

/-- That actions which compute with constants have a property, and that it passes on to what is put together from
them. A number is asked for only of values that are constant. The faults are those of computing: lacking a value is one
of operands. -/
structure Computes (Q : (α : Type) → Action α → Prop) : Prop where
  pure : ∀ {α : Type} (a : α), Q α (pure a)
  bind : ∀ {α β : Type} {x : Action α} {f : α → Action β}, Q α x → (∀ a, Q β (f a)) → Q β (x >>= f)
  fault : ∀ {α : Type} (f : Fault), f.isPlain = true → Q α (fault f)
  mismatch : ∀ {α : Type}, Q α (defect .widthMismatch)
  missing : ∀ {α : Type}, Q α (defect .missingIndex)
  evalNat : ∀ v : Value, v.isSymbolic = false → Q Nat (evalNat v)

/-- That new symbols have a property as well. -/
structure ComputesSymbols (Q : (α : Type) → Action α → Prop) : Prop extends Computes Q where
  fresh : ∀ name bits, Q Value (fresh name bits)

variable {s : Setting} {Q : (α : Type) → Action α → Prop}

namespace Computes

variable (hQ : Computes Q)
include hQ

theorem faultBind {α β : Type} {f : Fault} (hf : f.isPlain = true) {g : α → Action β} :
    Q β ((Machine.fault f : Action α) >>= g) := by
  have heq : ((Machine.fault f : Action α) >>= g) = Machine.fault f := rfl
  rw [heq]
  exact hQ.fault f hf

theorem valueOr {α : Type} {r : Except ValueError α} (hr : r ≠ .error .divisionByZero) :
    Q α (valueOr r) := by
  cases r with
  | ok a => exact hQ.pure a
  | error e =>
    cases e with
    | widthMismatch => exact hQ.mismatch
    | divisionByZero => exact absurd rfl hr

theorem sizeInBytes (t : Ty) : Q Nat (sizeInBytes s t) := by
  unfold Machine.sizeInBytes
  split
  · exact hQ.pure _
  · exact hQ.fault _ rfl
  · exact hQ.fault _ rfl

/-! ## Offsets -/

theorem sumOfBytes (ts : List Ty) : Q Nat (sumOfBytes s ts) := by
  induction ts with
  | nil => exact hQ.pure 0
  | cons t ts ih => exact hQ.bind (hQ.sizeInBytes t) fun n => hQ.bind ih fun rest => hQ.pure _

theorem scaled (width : Nat) (offset index : Value) (size : Nat) : Q Value (scaled width offset index size) :=
  hQ.bind (hQ.valueOr (Value.arith_ne_divisionByZero rfl _ _)) fun _ =>
    hQ.valueOr (Value.arith_ne_divisionByZero rfl _ _)

theorem innerOffset {ι : Type} {eval : ι → Action Value} {is : List ι} (heval : ∀ i ∈ is, Q Value (eval i))
    (hnumber : ∀ i ∈ is, Q Nat (eval i >>= Machine.evalNat)) (width : Nat) (t : Ty) (offset : Value) :
    Q Value (innerOffset s eval width t is offset) := by
  induction is generalizing t offset with
  | nil => exact hQ.pure offset
  | cons i is ih =>
    have hrest : ∀ t offset, Q Value (Machine.innerOffset s eval width t is offset) :=
      ih (fun j hj => heval j (List.mem_cons_of_mem i hj)) fun j hj => hnumber j (List.mem_cons_of_mem i hj)
    have element : ∀ e : Ty, Q Value (do
        let index ← eval i
        let size ← Machine.sizeInBytes s e
        let offset ← Machine.scaled width offset index size
        Machine.innerOffset s eval width e is offset) := by
      intro e
      refine hQ.bind (heval i List.mem_cons_self) fun index => hQ.bind (hQ.sizeInBytes e) fun size => ?_
      exact hQ.bind (hQ.scaled width offset index size) fun offset => hrest e offset
    unfold Machine.innerOffset
    split
    · -- a field of a struct: its index is evaluated to a number
      rw [← bind_assoc]
      refine hQ.bind (hnumber i List.mem_cons_self) fun field => ?_
      refine hQ.bind (hQ.sumOfBytes _) fun preceding => ?_
      refine hQ.bind (hQ.valueOr (Value.arith_ne_divisionByZero rfl _ _)) fun offset => ?_
      split
      · exact hrest _ offset
      · exact hQ.missing
    · cases t with
      | array n e => exact element e
      | vector n e => exact element e
      | _ => exact hQ.fault _ rfl

theorem offset {ι : Type} {eval : ι → Action Value} {is : List ι} (heval : ∀ i ∈ is, Q Value (eval i))
    (hnumber : ∀ i ∈ is.drop 1, Q Nat (eval i >>= Machine.evalNat)) (width : Nat) (t : Ty) :
    Q Value (offset s eval width t is) := by
  cases is with
  | nil => exact hQ.pure _
  | cons i is =>
    refine hQ.bind (heval i List.mem_cons_self) fun index => hQ.bind (hQ.sizeInBytes t) fun size => ?_
    refine hQ.bind (hQ.scaled width _ index size) fun first => ?_
    exact hQ.innerOffset (fun j hj => heval j (List.mem_cons_of_mem i hj)) hnumber width t first

/-! ## Constant expressions -/

/-- That the address of the name that a constant expression is about has a property. -/
def Named (Q : (α : Type) → Action α → Prop) (s : Setting) (address : Addressing) (fuel : Nat) (text : List Char) :
    Prop :=
  ∀ name module v, expressionName? s.project fuel text = some name → s.project.global? name = some (module, v) →
    Q Value (address module name)

theorem evalExpression {address : Addressing} {fuel : Nat} {text : List Char} (haddress : Named Q s address fuel text)
    (bits : Nat) : Q Value (evalExpression s address fuel text bits) := by
  induction fuel generalizing text bits with
  | zero => exact hQ.fault _ rfl
  | succ fuel ih =>
    obtain ⟨f, hf, heq⟩ := evalExpression_eq s address fuel bits text
    rw [heq]
    unfold evalShape
    split
    · rename_i module g name indices hshape
      obtain ⟨v, hv⟩ := ExpressionShape.exists_global?_of_element hshape
      refine hQ.bind (haddress name module v (by rw [expressionName?, hshape]) hv) fun base => ?_
      refine hQ.bind (hQ.offset (fun i _ => hQ.pure _) (fun i _ => ?_) _ _) fun offset => ?_
      · -- the indices are constants
        rw [pure_bind]
        exact hQ.evalNat _ rfl
      · exact hQ.valueOr (Value.arith_ne_divisionByZero rfl _ _)
    · rename_i inner width hshape
      refine hQ.bind (ih (fun name module v hname => haddress name module v ?_) _) fun v => hQ.pure _
      rwa [expressionName?, hshape]
    · rename_i module name hshape
      obtain ⟨v, hv⟩ := ExpressionShape.exists_global?_of_reference hshape
      exact hQ.bind (haddress name module v (by rw [expressionName?, hshape]) hv) fun a => hQ.pure _
    · exact hQ.pure _
    · exact hQ.pure _
    · exact hQ.fault _ hf.2

end Computes

namespace ComputesSymbols

variable (hQ : ComputesSymbols Q)
include hQ

/-! ## Operands -/

variable {address : Addressing} {module : Nat} {rs : Registers}

mutual

/-- An operand, as far as the names in its constant expressions and its registers, global names and assembly have a
property. -/
theorem evalWith {o : Operand} (haddress : ∀ text ∈ o.texts, Computes.Named Q s address (text.length + 1) text)
    (hleaf : ∀ l ∈ o.leaves, Q Value (evalWith s address module rs l)) :
    Q Value (evalWith s address module rs o) := by
  match o with
  | .register _ | .global _ | .assembly .. => exact hleaf _ (by simp [Operand.leaves])
  | .constant t v =>
    unfold Machine.evalWith
    split
    · rw [Operand.texts] at haddress
      rw [Operand.leaves] at hleaf
      exact evalConstant haddress hleaf t _
    · exact hQ.fault _ rfl

theorem evalConstant {v : ConstantValue}
    (haddress : ∀ text ∈ v.texts, Computes.Named Q s address (text.length + 1) text)
    (hleaf : ∀ l ∈ v.leaves, Q Value (Machine.evalWith s address module rs l)) (t : Ty) (bits : Nat) :
    Q Value (evalConstant s address module rs t bits v) := by
  match v with
  | .expression text =>
    unfold Machine.evalConstant
    rw [ConstantValue.texts] at haddress
    exact hQ.evalExpression (haddress _ List.mem_cons_self) bits
  | .undef =>
    unfold Machine.evalConstant
    exact hQ.fresh _ _
  | .null =>
    unfold Machine.evalConstant
    exact hQ.pure _
  | .int n =>
    -- By the type of the constant: the three floating-point ones make a fresh symbol.
    unfold Machine.evalConstant
    split
    · exact hQ.pure _
    · exact hQ.fresh _ _
    · exact hQ.fresh _ _
    · exact hQ.fresh _ _
    · exact hQ.fault _ rfl
  | .real _ =>
    unfold Machine.evalConstant
    split
    · exact hQ.fresh _ _
    · exact hQ.fresh _ _
    · exact hQ.fresh _ _
    · exact hQ.fault _ rfl
  | .bytes bs =>
    unfold Machine.evalConstant
    split
    · split
      · exact hQ.fault _ rfl
      · exact hQ.pure _
      · exact hQ.fault _ rfl
    · split
      · exact hQ.fault _ rfl
      · exact hQ.pure _
      · exact hQ.fault _ rfl
    · exact hQ.fault _ rfl
  | .elements es =>
    unfold Machine.evalConstant
    rw [ConstantValue.texts] at haddress
    rw [ConstantValue.leaves] at hleaf
    refine hQ.bind (evalAll haddress hleaf _) fun parts => ?_
    split
    · exact hQ.faultBind rfl
    · exact hQ.pure _

theorem evalAll {os : List Operand}
    (haddress : ∀ text ∈ Operand.textsOf os, Computes.Named Q s address (text.length + 1) text)
    (hleaf : ∀ l ∈ Operand.leavesOf os, Q Value (Machine.evalWith s address module rs l)) (n : Nat) :
    Q (List Value) (evalAll s address module rs n os) := by
  match n, os with
  | 0, _ =>
    unfold Machine.evalAll
    exact hQ.pure _
  | _ + 1, [] =>
    unfold Machine.evalAll
    exact hQ.pure _
  | n + 1, o :: os =>
    unfold Machine.evalAll
    rw [Operand.textsOf, List.forall_mem_append] at haddress
    rw [Operand.leavesOf, List.forall_mem_append] at hleaf
    exact hQ.bind (evalWith haddress.1 hleaf.1) fun v =>
      hQ.bind (evalAll haddress.2 hleaf.2 n) fun vs => hQ.pure _

end

/-- An operand, as far as the names that it refers to have a property, where lacking a value has it as well. -/
theorem evalRefers (hunbound : Q Value (fault .unboundOperand)) (rs : Registers) {o : Operand}
    (haddress : ∀ n j, o.RefersTo s.project module n j → Q Value (address j n)) :
    Q Value (Machine.evalWith s address module rs o) := by
  refine hQ.evalWith (fun text htext n j v hn hv => haddress n j (.expression htext hn hv)) fun l hl => ?_
  have hleaf := Operand.isLeaf_of_mem_leaves hl
  cases l with
  | register n =>
    unfold Machine.evalWith
    split
    · exact hQ.pure _
    · exact hunbound
  | global n =>
    unfold Machine.evalWith
    exact haddress n module (.name hl)
  | assembly =>
    unfold Machine.evalWith
    exact hunbound
  | constant => cases hleaf

/-- An operand, where lacking a value and all addresses have the property. -/
theorem evalAny (hunbound : Q Value (fault .unboundOperand))
    (haddress : ∀ module name, Q Value (address module name)) (module : Nat) (rs : Registers) (o : Operand) :
    Q Value (Machine.evalWith s address module rs o) :=
  hQ.evalRefers hunbound rs fun n j _ => haddress j n

end ComputesSymbols

end Machine

end PathSafety
