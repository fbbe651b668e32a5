import PathSafety.Proofs.IR.Parts
import PathSafety.Proofs.Path.Divisors
import PathSafety.Proofs.Path.Globals

/-!
# Values of constants

A constant that is made of integers and pointers has a constant value, as wide as its type: on a path the addresses of
global names are constants. Once the names that it refers to have been met, it has the same value wherever it is
evaluated. The bytes of the value are those of its parts, one part after another.

Contents:

* `Value.isSymbolic_concat`, `Value.eq_of_word` — operations on constants give constants, which are what they mean;
* `Machine.Placed`, `Engine.placed_of_reaches` — the machines of paths;
* `Machine.Settled`, `settled_evalWith` — constants are constant;
* `Word.byte_concat` — the bytes of words one above another;
* `Machine.exists_part`, `Machine.exists_select` — the bytes of the parts of a constant.
-/

namespace PathSafety

open IR Machine

/-! ## Constants -/

namespace Term

variable {m n w : Nat}

theorem isConst_const (v : BitVec w) : (const v).isConst = true := rfl

theorem exists_const {t : Term w} (h : t.isConst = true) : ∃ v, t = .const v := by
  obtain ⟨v, hv⟩ := Option.isSome_iff_exists.mp h
  exact ⟨v, eq_const_of_const? hv⟩

theorem isConst_cast (h : m = n) {t : Term m} (ht : t.isConst = true) : (h ▸ t : Term n).isConst = true := by
  subst h
  exact ht

theorem isConst_mkArith (op : ArithOp) {a b : Term w} (ha : a.isConst = true) (hb : b.isConst = true) :
    (mkArith op a b).isConst = true := by
  obtain ⟨u, rfl⟩ := exists_const ha
  obtain ⟨v, rfl⟩ := exists_const hb
  rfl

theorem isConst_mkSlice (lo w : Nat) {a : Term n} (ha : a.isConst = true) : (mkSlice lo w a).isConst = true := by
  obtain ⟨v, rfl⟩ := exists_const ha
  unfold mkSlice
  split
  · exact isConst_cast _ (isConst_const v)
  · split <;> rfl

theorem isConst_mkConcat {a : Term m} {b : Term n} (ha : a.isConst = true) (hb : b.isConst = true) (h : w = m + n) :
    (mkConcat a b w h).isConst = true := by
  obtain ⟨u, rfl⟩ := exists_const ha
  obtain ⟨v, rfl⟩ := exists_const hb
  unfold mkConcat
  split
  · exact isConst_cast _ (isConst_const v)
  · split
    · exact isConst_cast _ (isConst_const u)
    · exact isConst_cast h.symm (isConst_const (u ++ v))

theorem isConst_mkResize (w : Nat) {a : Term n} (ha : a.isConst = true) : (mkResize w a).isConst = true := by
  unfold mkResize
  split
  · exact isConst_mkConcat (isConst_const _) ha _
  · exact isConst_mkSlice 0 w ha

theorem isConst_mkSignedResize (w : Nat) {a : Term n} (ha : a.isConst = true) :
    (mkSignedResize w a).isConst = true := by
  obtain ⟨v, rfl⟩ := exists_const ha
  unfold mkSignedResize
  split
  · exact isConst_cast _ (isConst_const v)
  · split
    · exact isConst_mkSlice 0 w (isConst_const v)
    · rfl

end Term

namespace Value

variable {u v : Value}

theorem isSymbolic_eq_false : v.isSymbolic = false ↔ v.term.isConst = true := by simp [isSymbolic]

theorem isSymbolic_resize (bits : Nat) (hv : v.isSymbolic = false) : (v.resize bits).isSymbolic = false := by
  unfold resize
  split
  · exact hv
  · exact isSymbolic_eq_false.mpr (Term.isConst_mkResize bits (isSymbolic_eq_false.mp hv))

theorem isSymbolic_stack {us : List Value} (hv : v.isSymbolic = false) (hus : ∀ u ∈ us, u.isSymbolic = false) :
    (stack v us).isSymbolic = false := by
  induction us generalizing v with
  | nil => exact hv
  | cons u us ih =>
    obtain ⟨hu, hus⟩ := List.forall_mem_cons.mp hus
    refine ih (isSymbolic_eq_false.mpr ?_) hus
    exact Term.isConst_mkConcat (isSymbolic_eq_false.mp hu) (isSymbolic_eq_false.mp hv) rfl

/-- Constants one above another are a constant. -/
theorem isSymbolic_concat {vs : List Value} (h : ∀ v ∈ vs, v.isSymbolic = false) : (concat vs).isSymbolic = false := by
  cases vs with
  | nil => rfl
  | cons v vs =>
    obtain ⟨hv, hvs⟩ := List.forall_mem_cons.mp h
    exact isSymbolic_stack hv hvs

theorem isSymbolic_arith {op : ArithOp} {r : Value} (hu : u.isSymbolic = false) (hv : v.isSymbolic = false)
    (h : arith op u v = .ok r) : r.isSymbolic = false := by
  unfold arith at h
  split at h
  · cases h
  · obtain ⟨u⟩ := u
    obtain ⟨v⟩ := v
    unfold aligned at h
    split at h
    · rename_i hw
      obtain rfl := Except.ok.inj h
      refine isSymbolic_eq_false.mpr (Term.isConst_mkArith op (isSymbolic_eq_false.mp hu) ?_)
      exact Term.isConst_cast hw (isSymbolic_eq_false.mp hv)
    · cases h

/-- Constants are equal that stand for the same words. -/
theorem eq_of_word (hu : u.isSymbolic = false) (hv : v.isSymbolic = false) (h : ∀ i, u.word i = v.word i) : u = v := by
  obtain ⟨u⟩ := u
  obtain ⟨v⟩ := v
  have hu : u.isConst = true := isSymbolic_eq_false.mp hu
  have hv : v.isConst = true := isSymbolic_eq_false.mp hv
  obtain ⟨a, rfl⟩ := Term.exists_const hu
  obtain ⟨b, rfl⟩ := Term.exists_const hv
  have hword : Word.mk a = Word.mk b := h ⟨fun _ => 0, fun _ => 0⟩
  cases hword
  rfl

end Value

/-! ## The machines of paths -/

namespace Machine

variable {s : Setting} {m m' n : Machine} {name : String} {v w : Value} {module depth : Nat}

/-- That a machine has met names at constant addresses, and sets storage apart behind the first address. -/
structure Placed (s : Setting) (m : Machine) : Prop where
  positive : 0 < m.nextAddress
  addresses : ∀ n v, m.addresses.get? n = some v → ∃ x, v = .ofNat s.pointerBits x

theorem placed_entered {bits : Nat} (hm : Placed s m) : Placed s (entered s m name bits) where
  positive := Nat.lt_of_lt_of_le hm.positive (Nat.le_add_right _ _)
  addresses n v hn := by
    have hget : (entered s m name bits).addresses.get? n =
        if name = n then some (.ofNat s.pointerBits m.nextAddress) else m.addresses.get? n :=
      get?_insert_name _ _ _ _
    rw [hget] at hn
    split at hn
    · exact ⟨m.nextAddress, (Option.some.inj hn).symm⟩
    · exact hm.addresses n v hn

/-- What comes of a machine by evaluating and storing: names keep their addresses, storage stays set apart, and the
machine is still one of a path. -/
structure Grows (s : Setting) (m m' : Machine) : Prop extends Precedes m m' where
  placed : Placed s m → Placed s m'

theorem Grows.of_eq (haddresses : m'.addresses = m.addresses) (hnext : m'.nextAddress = m.nextAddress) :
    Grows s m m' where
  toPrecedes := precedes_of_eq haddresses (Nat.le_of_eq hnext.symm)
  placed hm := by
    constructor
    · rw [hnext]
      exact hm.positive
    · rw [haddresses]
      exact hm.addresses

theorem Grows.trans {m₁ m₂ m₃ : Machine} (h₁ : Grows s m₁ m₂) (h₂ : Grows s m₂ m₃) : Grows s m₁ m₃ where
  toPrecedes := h₁.toPrecedes.trans h₂.toPrecedes
  placed hm := h₂.placed (h₁.placed hm)

theorem grows_entered {bits : Nat} (hname : m.addresses.get? name = none) : Grows s m (entered s m name bits) where
  toPrecedes := precedes_entered hname
  placed := placed_entered

theorem grows_of_write {address : Value} (h : write s address v m = .ok () m') : Grows s m m' := by
  obtain ⟨_, _, _, haddresses, hnext⟩ := exists_of_write h
  exact .of_eq haddresses hnext

theorem admits_grows (s : Setting) {A : String → Nat → Prop} : Admits s A (Grows s) where
  refl _ := .of_eq rfl rfl
  trans := Grows.trans
  ask _ _ := .of_eq rfl rfl
  symbol _ := .of_eq rfl rfl
  reserve _ _ := ⟨precedes_of_eq rfl (Nat.le_add_right _ _), fun hm =>
    ⟨Nat.lt_of_lt_of_le hm.positive (Nat.le_add_right _ _), hm.addresses⟩⟩
  bytes a n m v m' h := by
    cases h
    exact .of_eq rfl rfl
  meet depth module name m a m' _ hname heval h := by
    obtain ⟨_, ⟨_, _, rfl⟩ | ⟨g, hg, ⟨_, rfl⟩ | ⟨init, w, m₁, hinit, hw, hwrite⟩⟩⟩ := cases_of_meet hname h
    · exact grows_entered hname
    · exact grows_entered hname
    · exact (grows_entered hname).trans ((heval g init hg hinit hw).trans (grows_of_write hwrite))

theorem grows_evalWith {o : Operand} (h : evalWith s (addressWithin s depth) module ∅ o m = .ok v m') : Grows s m m' :=
  (admits_grows s).anyOperand _ module ∅ o h

/-- The address of a name is a constant, and the same once more. -/
theorem exists_of_addressWithin (hm : Placed s m) (h : addressWithin s depth module name m = .ok v m') :
    (∃ x, v = .ofNat s.pointerBits x) ∧ ∀ i n, Extends m' n → address s i name n = .ok v n := by
  have hmet := get?_of_addressWithin h
  have hm' : Placed s m' := ((admits_grows s).anyAddress _ _ _ h).placed hm
  exact ⟨hm'.addresses name v hmet, fun i n hn => address_of_met (hn name v hmet)⟩

end Machine

namespace Engine

variable {p : Project} {e : Engine p} {st st₀ : State p} {start : Start p}

/-- **The machines of paths** are such. -/
theorem placed_of_reaches (hbuiltin : e.BuiltIn) {f : String} (hstart : Start.of p f = .ok start)
    (hfirst : start.first.enter e.loopBound = .ok st₀) (h : e.Reaches st₀ st) : Placed e.setting st.machine := by
  have hgrows : Grows e.setting st₀.machine st.machine :=
    keeps_reaches (fun _ => .of_eq rfl rfl) Grows.trans (keeps_next (admits_grows e.setting)
      (fun _ _ => .of_eq rfl rfl) hbuiltin fun _ _ _ _ _ _ _ _ => grows_of_write) h
  refine hgrows.placed ?_
  obtain rfl := Arrival.eq_of_enter hfirst
  obtain ⟨haddresses, hnext⟩ := machine_of_start hstart
  constructor
  · show 0 < start.first.state.machine.nextAddress
    rw [hnext]
    decide
  · intro n v hn
    replace hn : start.first.state.machine.addresses.get? n = some v := hn
    rw [haddresses] at hn
    cases hn

end Engine

/-! ## Constants are constant

The value of a constant does not depend on the machine, once all names in it have addresses: evaluating it again meets no
name for the first time. The induction follows the evaluation, over operands, constants and lists of elements at once. -/

namespace Machine

variable {s : Setting} {m m' n : Machine} {v : Value} {module depth : Nat}

/-- That an action gives a constant of some bits on every machine that knows the names that one knows, and leaves it as
it is. -/
structure Settled (x : Action Value) (bits : Nat) (v : Value) (m : Machine) : Prop where
  const : v.isSymbolic = false
  width : v.width = bits
  again : ∀ n, Extends m n → x n = .ok v n

theorem Settled.later {x : Action Value} {bits : Nat} (h : Settled x bits v m) (hm : Extends m m') :
    Settled x bits v m' :=
  ⟨h.const, h.width, fun n hn => h.again n (hm.trans hn)⟩

/-! ### Constant expressions -/

/-- A constant index that is scaled and added to a constant offset gives one. -/
theorem gives_scaled {width size : Nat} {o i : Value} (ho : o.isSymbolic = false) (hi : i.isSymbolic = false) :
    Gives (fun v => v.isSymbolic = false ∧ v.width = o.width) (scaled width o i size) := by
  intro m v m' h
  obtain ⟨step, m₁, hstep, h⟩ := exists_of_bind h
  obtain ⟨hproduct, rfl⟩ := of_valueOr hstep
  obtain ⟨hv, rfl⟩ := of_valueOr h
  have hi : (i.signedResize width).isSymbolic = false := by
    unfold Value.signedResize
    split
    · exact hi
    · exact Value.isSymbolic_eq_false.mpr (Term.isConst_mkSignedResize _ (Value.isSymbolic_eq_false.mp hi))
  exact ⟨Value.isSymbolic_arith ho (Value.isSymbolic_arith hi rfl hproduct) hv, Value.width_of_arith hv⟩

/-- Constant indices give a constant offset. -/
theorem gives_innerOffset {width : Nat} {t : Ty} {is : List (Nat × Int)} {o : Value} (ho : o.isSymbolic = false) :
    Gives (fun v => v.isSymbolic = false)
      (innerOffset s (fun (i : Nat × Int) => return .ofInt i.1 i.2) width t is o) := by
  induction is generalizing t o with
  | nil => exact gives_pure ho
  | cons i is ih =>
    -- Arrays and vectors step alike.
    have element : ∀ e : Ty, Gives (fun v => v.isSymbolic = false) (do
        let index ← (pure (.ofInt i.1 i.2) : Action Value)
        let size ← sizeInBytes s e
        let offset ← scaled width o index size
        innerOffset s (fun (i : Nat × Int) => return .ofInt i.1 i.2) width e is offset) := by
      intro e
      rw [pure_bind]
      refine gives_bind fun size m v m' h => ?_
      obtain ⟨offset, m₁, hoffset, h⟩ := exists_of_bind h
      exact ih (gives_scaled ho rfl hoffset).1 h
    unfold innerOffset
    split
    · refine gives_bind fun index => gives_bind fun field => gives_bind fun preceding m v m' h => ?_
      obtain ⟨offset, m₁, hoffset, h⟩ := exists_of_bind h
      obtain ⟨hsum, rfl⟩ := of_valueOr hoffset
      have hconst := Value.isSymbolic_arith ho rfl hsum
      cases hfield : ((t.fields? s.project.layout.structs).getD [])[field]? with
      | none =>
        simp only [hfield] at h
        exact absurd h not_defect
      | some u =>
        simp only [hfield] at h
        exact ih hconst h
    · cases t with
      | array n e => exact element e
      | vector n e => exact element e
      | _ => exact gives_fault

theorem gives_offset {width : Nat} {t : Ty} {is : List (Nat × Int)} :
    Gives (fun v => v.isSymbolic = false) (offset s (fun (i : Nat × Int) => return .ofInt i.1 i.2) width t is) := by
  cases is with
  | nil => exact gives_pure rfl
  | cons i is =>
    intro m v m' h
    obtain ⟨index, m₁, hindex, h⟩ := exists_of_bind h
    obtain ⟨rfl, _⟩ := of_pure hindex
    obtain ⟨size, m₂, _, h⟩ := exists_of_bind h
    obtain ⟨first, m₃, hfirst, h⟩ := exists_of_bind h
    exact gives_innerOffset (gives_scaled rfl rfl hfirst).1 h

/-- Offsets of constant indices are the same when they are computed once more. -/
theorem recalls_offset (width : Nat) (t : Ty) (is : List (Nat × Int)) :
    Recalls Value (offset s (fun (i : Nat × Int) => return .ofInt i.1 i.2) width t is) := by
  refine computes_recalls.offset (fun i _ => computes_recalls.pure _) (fun i _ => ?_) width t
  rw [pure_bind]
  exact computes_recalls.evalNat _ rfl

/-- The address of a part of a global value is constant, and the same once more. -/
theorem settled_elementAddress {global : Global} {name : String} {indices : List (Nat × Int)} (hm : Placed s m)
    (h : (do
      let base ← addressWithin s depth module name
      let offset ← offset s (fun (i : Nat × Int) => return .ofInt i.1 i.2) base.width global.ty indices
      valueOr (Value.arith .add base offset) : Action Value) m = .ok v m') :
    v.isSymbolic = false ∧ v.width = s.pointerBits ∧ ∀ n, Extends m' n → (do
      let base ← address s module name
      let offset ← offset s (fun (i : Nat × Int) => return .ofInt i.1 i.2) base.width global.ty indices
      valueOr (Value.arith .add base offset) : Action Value) n = .ok v n := by
  obtain ⟨base, m₁, hbase, h⟩ := exists_of_bind h
  obtain ⟨o, m₂, ho, h⟩ := exists_of_bind h
  obtain ⟨hv, rfl⟩ := of_valueOr h
  obtain ⟨⟨x, rfl⟩, haddress⟩ := exists_of_addressWithin hm hbase
  obtain ⟨hext, hoffset⟩ := recalls_offset s.pointerBits global.ty indices m₁ o m₂ ho
  refine ⟨Value.isSymbolic_arith rfl (gives_offset ho) hv, Value.width_of_arith hv, fun n hn => ?_⟩
  rw [bind_of_ok (haddress module n (hext.trans hn))]
  show ((offset s _ s.pointerBits global.ty indices) >>= _) n = _
  rw [bind_of_ok (hoffset n hn), hv]
  rfl

/-- **Constant expressions** have a constant value, and the same once more. -/
theorem settled_evalExpression {fuel bits : Nat} {text : List Char} (hm : Placed s m)
    (h : evalExpression s (addressWithin s depth) fuel text bits m = .ok v m') :
    v.isSymbolic = false ∧ (bits ≠ 0 → v.width = expressionWidth s.project text bits) ∧
      ∀ n, Extends m' n → evalExpression s (address s) fuel text bits n = .ok v n := by
  -- The evaluation that settled and the one repeated later read the same text with the same fuel;
  -- only their addressing differs.
  induction fuel generalizing text bits m v m' with
  | zero => exact absurd h not_fault
  | succ fuel ih =>
    obtain ⟨f, _, heq⟩ := evalExpression_eq s (addressWithin s depth) fuel bits text
    obtain ⟨g, _, hagain⟩ := evalExpression_eq s (address s) fuel bits text
    rw [heq] at h
    rw [hagain]
    unfold expressionWidth
    cases hshape : ExpressionShape.of? s.project text with
    | none =>
      rw [hshape] at h
      exact absurd h not_fault
    | some shape =>
      rw [hshape] at h
      cases shape with
      | element module global name indices =>
        obtain ⟨hconst, hwidth, hagain⟩ := settled_elementAddress hm h
        exact ⟨hconst, fun _ => hwidth, hagain⟩
      | nested inner width =>
        obtain ⟨u, m₁, hu, h⟩ := exists_of_bind h
        obtain ⟨rfl, rfl⟩ := of_pure h
        obtain ⟨hconst, _, hagain⟩ := ih hm hu
        refine ⟨Value.isSymbolic_resize bits hconst, fun hbits => Value.width_resize hbits u, fun n hn => ?_⟩
        show (do return (← evalExpression s (address s) fuel inner (width.getD s.pointerBits)).resize bits :
          Action Value) n = _
        rw [bind_of_ok (hagain n hn)]
        rfl
      | reference module name =>
        obtain ⟨a, m₁, ha, h⟩ := exists_of_bind h
        obtain ⟨rfl, rfl⟩ := of_pure h
        obtain ⟨⟨x, rfl⟩, haddress⟩ := exists_of_addressWithin hm ha
        refine ⟨Value.isSymbolic_resize bits rfl, fun hbits => Value.width_resize hbits _, fun n hn => ?_⟩
        show (do return (← address s module name).resize bits : Action Value) n = _
        rw [bind_of_ok (haddress module n hn)]
        rfl
      | integer k =>
        obtain ⟨rfl, rfl⟩ := of_pure h
        exact ⟨rfl, fun _ => rfl, fun _ _ => rfl⟩
      | null =>
        obtain ⟨rfl, rfl⟩ := of_pure h
        exact ⟨rfl, fun _ => rfl, fun _ _ => rfl⟩

/-! ### Operands -/

variable {l : Layout} {t : Ty} {ts : List Ty} {os : List Operand} {vs : List Value}

/-- That several operands have constant values of the sizes of their types. -/
inductive SettledAll (s : Setting) (module : Nat) (m : Machine) : List Ty → List Operand → List Value → Prop
  | nil : SettledAll s module m [] [] []
  | cons {t : Ty} {ts : List Ty} {o : Operand} {os : List Operand} {v : Value} {vs : List Value}
      (first : Settled (eval s module ∅ o) (8 * s.project.layout.size t) v m) (rest : SettledAll s module m ts os vs) :
      SettledAll s module m (t :: ts) (o :: os) (v :: vs)

namespace SettledAll

theorem again (h : SettledAll s module m ts os vs) (hn : Extends m n) :
    evalAll s (address s) module ∅ os.length os n = .ok vs n := by
  induction h with
  | nil =>
    unfold evalAll
    rfl
  | @cons t ts o os v vs first rest ih =>
    rw [List.length_cons]
    unfold evalAll
    show (do
      let v ← eval s module ∅ o
      let vs ← evalAll s (address s) module ∅ os.length os
      return v :: vs : Action (List Value)) n = _
    rw [bind_of_ok (first.again n hn), bind_of_ok ih]
    rfl

theorem const (h : SettledAll s module m ts os vs) : ∀ v ∈ vs, v.isSymbolic = false := by
  induction h with
  | nil => simp
  | cons first rest ih => exact List.forall_mem_cons.mpr ⟨first.const, ih⟩

theorem width (h : SettledAll s module m ts os vs) :
    (vs.map Value.width).sum = 8 * (ts.map s.project.layout.size).sum := by
  induction h with
  | nil => rfl
  | cons first rest ih =>
    rw [List.map_cons, List.map_cons, List.sum_cons, List.sum_cons, first.width, ih, Nat.mul_add]

end SettledAll

/-- The elements of a constant are all evaluated. -/
theorem elementLimit_eq {p : Project} (h : os.length = (t.parts p.layout.structs).length) :
    Concrete.elementLimit p t os = os.length := by
  unfold Concrete.elementLimit
  cases hfields : t.fields? p.layout.structs with
  | none => rfl
  | some fields => rw [h, Ty.parts_of_fields? hfields]

variable {rs : Registers} {addressing : Addressing} {bits : Nat}

theorem evalConstant_elements (hos : os.length = (t.parts s.project.layout.structs).length) :
    evalConstant s addressing module rs t bits (.elements os) = (do
      let parts ← evalAll s addressing module rs os.length os
      if parts.isEmpty then fault .emptyAggregate
      return Value.concat parts) := by
  rw [← elementLimit_eq hos]
  unfold evalConstant
  rfl

/-- Bytes one above another. -/
theorem evalConstant_bytes {bs : List UInt8} {e : Ty} (ht : t = .array bs.length e ∨ t = .vector bs.length e)
    (he : bs ≠ [] → s.project.layout.Whole e) : evalConstant s addressing module rs t bits (.bytes bs) =
      if bs = [] then fault .emptyAggregate
      else pure (Value.concat (bs.map fun b => .ofNat (8 * s.project.layout.size e) b.toNat)) := by
  unfold evalConstant
  rcases ht with rfl | rfl
  all_goals
    dsimp only
    cases bs with
    | nil => rw [if_pos rfl]
    | cons b bs =>
      rw [(he (List.cons_ne_nil b bs)).bits, if_neg (List.cons_ne_nil b bs)]

theorem parts_of_bytes {bs : List UInt8} {e : Ty} (ht : t = .array bs.length e ∨ t = .vector bs.length e) :
    t.parts s.project.layout.structs = List.replicate bs.length e := by
  rcases ht with rfl | rfl <;> rfl

/-- Bytes have a constant value: there are as many of them as elements, each as wide as an element. -/
theorem settled_bytes {bs : List UInt8} {e : Ty} {size : Nat} (ht : s.project.layout.Whole t)
    (hty : t = .array bs.length e ∨ t = .vector bs.length e)
    (h : evalConstant s addressing module ∅ t size (.bytes bs) m = .ok v m') :
    Settled (evalConstant s (address s) module ∅ t size (.bytes bs)) (8 * s.project.layout.size t) v m' := by
  have hparts := parts_of_bytes (s := s) hty
  have he : bs ≠ [] → s.project.layout.Whole e := fun hne =>
    ht.parts _ (hparts ▸ List.mem_replicate.mpr ⟨fun h => hne (List.length_eq_zero_iff.mp h), rfl⟩)
  rw [evalConstant_bytes hty he] at h ⊢
  split at h
  · exact absurd h not_fault
  · rename_i hne
    obtain ⟨rfl, rfl⟩ := of_pure h
    rw [if_neg hne]
    refine ⟨Value.isSymbolic_concat fun v hv => ?_, ?_, fun _ _ => rfl⟩
    · obtain ⟨b, _, rfl⟩ := List.mem_map.mp hv
      rfl
    · have hne' : t.parts s.project.layout.structs ≠ [] := by
        rw [hparts]
        exact fun h => hne (List.length_eq_zero_iff.mp (List.replicate_eq_nil_iff _ |>.mp h))
      rw [Value.width_concat, List.map_map, Layout.size_eq_sum ht hne', hparts, List.map_replicate,
        List.sum_replicate_nat]
      show (bs.map fun _ => 8 * s.project.layout.size e).sum = _
      rw [List.map_const', List.sum_replicate_nat, Nat.mul_left_comm]

/-- What a constant expression is resized to is the width of a pointer or of the integer. -/
theorem settled_expression {text : String} (ht : s.project.layout.Whole t)
    (hc : (ConstantValue.expression text).Fills s.project t) (hm : Placed s m)
    (h : evalConstant s (addressWithin s depth) module ∅ t (8 * s.project.layout.size t) (.expression text) m =
      .ok v m') :
    Settled (evalConstant s (address s) module ∅ t (8 * s.project.layout.size t) (.expression text))
      (8 * s.project.layout.size t) v m' := by
  have hpos : 8 * s.project.layout.size t ≠ 0 := by
    have := ht.pos
    omega
  unfold evalConstant at h ⊢
  obtain ⟨hconst, hwidth, hagain⟩ := settled_evalExpression hm h
  refine ⟨hconst, (hwidth hpos).trans ?_, hagain⟩
  rcases hc with hpointer | ⟨w, rfl, hw⟩
  · have hbits : 8 * s.project.layout.size t = s.project.layout.pointerBits :=
      Option.some.inj (ht.bits.symm.trans (bits_of_isPointer hpointer))
    rw [hbits]
    unfold expressionWidth
    split <;> rfl
  · have hbits : 8 * s.project.layout.size (.int w) = w := Option.some.inj ht.bits.symm
    rw [hbits]
    exact hw

mutual

/-- **Constants** that are made of integers and pointers have a constant value as wide as their type, and the same once
more. -/
theorem settled_evalWith {o : Operand} {t : Ty} {m m' : Machine} {v : Value} (ht : s.project.layout.Whole t)
    (ho : o.Fills s.project t) (hm : Placed s m)
    (h : evalWith s (addressWithin s depth) module ∅ o m = .ok v m') :
    Settled (eval s module ∅ o) (8 * s.project.layout.size t) v m' := by
  match o with
  | .register _ | .assembly .. => exact ho.elim
  | .global name =>
    unfold evalWith at h
    obtain ⟨⟨x, rfl⟩, hagain⟩ := exists_of_addressWithin hm h
    -- an address is as wide as a pointer, and so is the type
    refine ⟨rfl, ?_, fun n hn => ?_⟩
    · exact Option.some.inj ((bits_of_isPointer ho).symm.trans ht.bits)
    · unfold eval evalWith
      exact hagain module n hn
  | .constant u c =>
    obtain ⟨rfl, hc⟩ := ho
    unfold evalWith at h
    rw [ht.bits] at h
    obtain ⟨hconst, hwidth, hagain⟩ := settled_evalConstant ht hc hm h
    refine ⟨hconst, hwidth, fun n hn => ?_⟩
    unfold eval evalWith
    rw [ht.bits]
    exact hagain n hn

theorem settled_evalConstant {c : ConstantValue} {t : Ty} {m m' : Machine} {v : Value}
    (ht : s.project.layout.Whole t) (hc : c.Fills s.project t) (hm : Placed s m)
    (h : evalConstant s (addressWithin s depth) module ∅ t (8 * s.project.layout.size t) c m = .ok v m') :
    Settled (evalConstant s (address s) module ∅ t (8 * s.project.layout.size t) c) (8 * s.project.layout.size t)
      v m' := by
  match c with
  | .undef | .real _ => exact hc.elim
  | .null =>
    unfold evalConstant at h ⊢
    obtain ⟨rfl, rfl⟩ := of_pure h
    exact ⟨rfl, rfl, fun _ _ => rfl⟩
  | .int k =>
    obtain ⟨w, rfl⟩ := hc
    unfold evalConstant at h ⊢
    obtain ⟨rfl, rfl⟩ := of_pure h
    exact ⟨rfl, rfl, fun _ _ => rfl⟩
  | .bytes bs =>
    obtain ⟨w, hty⟩ := hc
    exact settled_bytes ht hty h
  | .elements es =>
    unfold ConstantValue.Fills at hc
    rw [evalConstant_elements hc.length_eq] at h ⊢
    obtain ⟨vs, m₁, hvs, hv⟩ := exists_of_bind h
    obtain ⟨_, hall⟩ := settled_evalAll ht.parts hc hm hvs
    cases vs with
    | nil => cases hv
    | cons u us =>
      obtain ⟨rfl, rfl⟩ := of_pure hv
      -- A type with no parts has no elements, and an empty aggregate is refused.
      have hparts : t.parts s.project.layout.structs ≠ [] := by
        intro hnil
        rw [hnil] at hall
        cases hall
      refine ⟨Value.isSymbolic_concat hall.const, ?_, fun n hn => ?_⟩
      · rw [Value.width_concat, hall.width, Layout.size_eq_sum ht hparts]
      · rw [bind_of_ok (hall.again hn)]
        rfl
  | .expression text => exact settled_expression ht hc hm h

theorem settled_evalAll {os : List Operand} {ts : List Ty} {m m' : Machine} {vs : List Value}
    (hts : ∀ t ∈ ts, s.project.layout.Whole t)
    (hos : Operand.FillAll s.project ts os) (hm : Placed s m)
    (h : evalAll s (addressWithin s depth) module ∅ os.length os m = .ok vs m') :
    Extends m m' ∧ SettledAll s module m' ts os vs := by
  match os with
  | [] =>
    unfold evalAll at h
    unfold Operand.FillAll at hos
    obtain ⟨rfl, rfl⟩ := of_pure h
    rw [hos]
    exact ⟨extends_refl m, .nil⟩
  | o :: os =>
    unfold Operand.FillAll at hos
    obtain ⟨t, ts, rfl, ho, hos⟩ := hos
    obtain ⟨ht, hts⟩ := List.forall_mem_cons.mp hts
    rw [List.length_cons] at h
    unfold evalAll at h
    obtain ⟨v, m₁, hv, h⟩ := exists_of_bind h
    obtain ⟨us, m₂, hus, h⟩ := exists_of_bind h
    obtain ⟨rfl, rfl⟩ := of_pure h
    -- Later elements may lay out more variables; what is settled stays settled.
    have hgrows := grows_evalWith hv
    obtain ⟨hext, hrest⟩ := settled_evalAll hts hos (hgrows.placed hm) hus
    exact ⟨hgrows.addresses.trans hext, .cons ((settled_evalWith ht ho hm hv).later hext) hrest⟩

end

end Machine

/-! ## Parts

Elements are put one above another, so the first one has the lowest bytes. The bytes of a part stand where the sizes of
the types before it say. -/

namespace Word

theorem byte_append_low {m n k : Nat} (a : BitVec m) (b : BitVec n) (hk : 8 * k + 8 ≤ n) :
    (⟨a ++ b⟩ : Word).byte k = (⟨b⟩ : Word).byte k := by
  unfold byte
  apply BitVec.eq_of_getLsbD_eq
  intro j hj
  rw [BitVec.getLsbD_extractLsb', BitVec.getLsbD_extractLsb', BitVec.getLsbD_append, if_pos (by omega)]

theorem byte_append_high {m n k l : Nat} (a : BitVec m) (b : BitVec n) (hn : n = 8 * l) :
    (⟨a ++ b⟩ : Word).byte (l + k) = (⟨a⟩ : Word).byte k := by
  unfold byte
  apply BitVec.eq_of_getLsbD_eq
  intro j hj
  rw [BitVec.getLsbD_extractLsb', BitVec.getLsbD_extractLsb', BitVec.getLsbD_append, if_neg (by omega),
    show 8 * (l + k) + j - n = 8 * k + j by omega]

/-- **The bytes of words one above another** are those of the words, one word after another. -/
theorem byte_concat {ws : List Word} {sizes : List Nat} (hws : List.Forall₂ (fun w n => w.width = 8 * n) ws sizes)
    {i k size : Nat} {w : Word} (hw : ws[i]? = some w) (hsize : sizes[i]? = some size) (hk : k < size) :
    (concat ws).byte ((sizes.take i).sum + k) = w.byte k := by
  induction hws generalizing i with
  | nil => cases hw
  | @cons a n ws sizes ha _ ih =>
    cases i with
    | zero =>
      obtain rfl := Option.some.inj hw
      obtain rfl := Option.some.inj hsize
      rw [List.take_zero, List.sum_nil, Nat.zero_add]
      exact byte_append_low (concat ws).bits a.bits (by omega)
    | succ i =>
      rw [List.take_succ_cons, List.sum_cons, Nat.add_assoc, ← ih hw hsize]
      exact byte_append_high (concat ws).bits a.bits ha

theorem byte_zero (n k : Nat) : (ofNat n 0).byte k = 0#8 := by
  unfold byte ofNat
  simp

end Word

namespace Machine

variable {s : Setting} {l : Layout} {m : Machine} {module i : Nat} {t u : Ty} {ts : List Ty} {o : Operand}
  {os : List Operand} {v : Value} {vs : List Value} {is : List Nat}

theorem SettledAll.widths (h : SettledAll s module m ts os vs) :
    List.Forall₂ (fun v t => v.width = 8 * s.project.layout.size t) vs ts := by
  induction h with
  | nil => exact .nil
  | cons first rest ih => exact .cons first.width ih

/-- Values one above another have the bytes of the values, each where its part of the type lies. -/
theorem byte_concat {k : Nat} {w : Value} (hwidths : List.Forall₂ (fun v t => v.width = 8 * l.size t) vs ts)
    (hw : vs[i]? = some w) (hu : ts[i]? = some u) (hk : k < l.size u) (input : Input) :
    ((Value.concat vs).word input).byte (l.start ts i + k) = (w.word input).byte k := by
  rw [Value.word_concat]
  unfold Layout.start
  rw [List.map_take]
  refine Word.byte_concat (List.forall₂_map_left_iff.mpr (List.forall₂_map_right_iff.mpr hwidths)) ?_ ?_ hk
  · rw [List.getElem?_map, hw]
    rfl
  · rw [List.getElem?_map, hu]
    rfl

theorem SettledAll.exists_getElem? (h : SettledAll s module m ts os vs) (ht : ts[i]? = some t) :
    ∃ o v, os[i]? = some o ∧ vs[i]? = some v ∧ Settled (eval s module ∅ o) (8 * s.project.layout.size t) v m := by
  induction h generalizing i with
  | nil => cases ht
  | @cons t' ts o os v vs first rest ih =>
    cases i with
    | zero =>
      obtain rfl := Option.some.inj ht
      exact ⟨o, v, rfl, rfl, first⟩
    | succ i => exact ih ht

/-- A constant of whole bytes is evaluated at the width of its type. -/
theorem eval_constant (ht : s.project.layout.Whole t) (c : ConstantValue) (n : Machine) :
    eval s module ∅ (.constant t c) n = evalConstant s (address s) module ∅ t (8 * s.project.layout.size t) c n := by
  unfold eval evalWith
  rw [ht.bits]

/-- That the bytes of a value are those of another one where a part of its type lies. -/
def HasPart (s : Setting) (t : Ty) (i : Nat) (u : Ty) (v w : Value) : Prop :=
  ∀ (input : Input), ∀ k < s.project.layout.size u,
    (v.word input).byte (s.project.layout.start (t.parts s.project.layout.structs) i + k) = (w.word input).byte k

/-- Each of the bytes is one of the parts. -/
theorem exists_part_bytes {bs : List UInt8} {w : Nat} {b : UInt8} (hwhole : s.project.layout.Whole (.int w))
    (hty : t = .array bs.length (.int w) ∨ t = .vector bs.length (.int w))
    (h : evalConstant s (address s) module ∅ t (8 * s.project.layout.size t) (.bytes bs) m = .ok v m)
    (hu : (t.parts s.project.layout.structs)[i]? = some (.int w)) (hb : bs[i]? = some b) :
    ∃ x, eval s module ∅ (.constant (.int w) (.int b.toNat)) m = .ok x m ∧ HasPart s t i (.int w) v x := by
  have hparts := parts_of_bytes (s := s) hty
  have hne : bs ≠ [] := List.ne_nil_of_mem (List.mem_of_getElem? hb)
  rw [evalConstant_bytes hty fun _ => hwhole, if_neg hne] at h
  obtain ⟨rfl, _⟩ := of_pure h
  refine ⟨.ofInt (8 * s.project.layout.size (.int w)) b.toNat, ?_, fun input k hk => ?_⟩
  · rw [eval_constant hwhole]
    rfl
  -- All parts of a byte string have one width, so the part with index `i` starts `i` parts in.
  · have hwidths : List.Forall₂ (fun v t => v.width = 8 * s.project.layout.size t)
        (bs.map fun b => Value.ofNat (8 * s.project.layout.size (.int w)) b.toNat)
        (List.replicate bs.length (.int w)) := by
      clear * -
      induction bs with
      | nil => exact .nil
      | cons b bs ih => exact .cons rfl ih
    have hget : (bs.map fun b => Value.ofNat (8 * s.project.layout.size (.int w)) b.toNat)[i]? =
        some (.ofNat (8 * s.project.layout.size (.int w)) b.toNat) := by
      rw [List.getElem?_map, hb]
      rfl
    rw [hparts] at hu ⊢
    rw [byte_concat hwidths hget hu hk]
    unfold Value.ofInt
    rw [BitVec.ofInt_natCast]
    rfl

/-- The value of a constant has the bytes of its parts, each behind those before it. -/
theorem exists_part {part : Operand} (ht : s.project.layout.Whole t) (ho : o.Fills s.project t) (hm : Placed s m)
    (h : eval s module ∅ o m = .ok v m) (hu : (t.parts s.project.layout.structs)[i]? = some u)
    (hpart : o.part? u i = some part) : ∃ w, eval s module ∅ part m = .ok w m ∧ HasPart s t i u v w := by
  have hmem := List.mem_of_getElem? hu
  have hwhole := ht.parts u hmem
  cases o with
  | global | register | assembly => cases hpart
  | constant t' c =>
    obtain ⟨rfl, hc⟩ := ho
    rw [eval_constant ht] at h
    cases c with
    | undef | int | real | expression => cases hpart
    | null =>
      -- all bytes are zero
      obtain rfl := Option.some.inj hpart
      obtain ⟨rfl, _⟩ := of_pure h
      refine ⟨.ofNat (8 * s.project.layout.size u) 0, ?_, fun input k hk => ?_⟩
      · rw [eval_constant hwhole]
        rfl
      · rw [Value.word_ofNat, Value.word_ofNat, Word.byte_zero, Word.byte_zero]
    | bytes bs =>
      obtain ⟨w, hty⟩ := hc
      rw [parts_of_bytes hty] at hmem
      obtain rfl := (List.mem_replicate.mp hmem).2
      obtain ⟨b, hb, rfl⟩ := Option.map_eq_some_iff.mp hpart
      exact exists_part_bytes hwhole hty h hu hb
    | elements es =>
      unfold ConstantValue.Fills at hc
      rw [evalConstant_elements hc.length_eq] at h
      obtain ⟨vs, m₁, hvs, hv⟩ := exists_of_bind h
      obtain ⟨hext, hall⟩ := settled_evalAll ht.parts hc hm hvs
      cases vs with
      | nil => cases hv
      | cons first rest =>
        obtain ⟨rfl, rfl⟩ := of_pure hv
        obtain ⟨o, w, ho, hw, hsettled⟩ := hall.exists_getElem? hu
        obtain rfl := Option.some.inj (ho.symm.trans hpart)
        refine ⟨w, hsettled.again m₁ (extends_refl m₁), fun input k hk => ?_⟩
        exact byte_concat hall.widths hw hu hk input

/-- **The parts of a constant.** What indices select in a constant has the bytes that the value of the constant has
where the selected part of the type lies. -/
theorem exists_select (ht : s.project.layout.Whole t) (ho : o.Fills s.project t) (hm : Placed s m)
    (h : eval s module ∅ o m = .ok v m) (hu : t.select? s.project.layout.structs is = some u) :
    ∃ part w, o.select? s.project.layout.structs t is = some part ∧ part.Fills s.project u ∧
      Settled (eval s module ∅ part) (8 * s.project.layout.size u) w m ∧
        ∀ (input : Input), ∀ k < s.project.layout.size u,
          (v.word input).byte (s.project.layout.place t is + k) = (w.word input).byte k := by
  induction is generalizing t o v with
  | nil =>
    obtain rfl := Option.some.inj hu
    refine ⟨o, v, rfl, ho, settled_evalWith ht ho hm h, fun input k hk => ?_⟩
    show (v.word input).byte (0 + k) = _
    rw [Nat.zero_add]
  | cons i is ih =>
    obtain ⟨first, hfirst, hu⟩ := Option.bind_eq_some_iff.mp hu
    obtain ⟨inner, hinner, hfills⟩ := ho.exists_part? hfirst
    obtain ⟨x, hx, houter⟩ := exists_part ht ho hm h hfirst hinner
    have hwhole := ht.parts first (List.mem_of_getElem? hfirst)
    obtain ⟨part, w, hpart, hfills', hsettled, hbytes⟩ := ih hwhole hfills hx hu
    have hle := Layout.place_add_size_le hwhole hu
    refine ⟨part, w, ?_, hfills', hsettled, fun input k hk => ?_⟩
    · simp only [Operand.select?, hfirst, hinner, hpart, Option.bind_eq_bind, Option.bind_some]
    · rw [Layout.place_cons hfirst, Nat.add_assoc, houter input _ (by omega), hbytes input k hk]

end Machine

end PathSafety
