import PathSafety.Proofs.IR.Initializers
import PathSafety.Proofs.Path.Constants

/-!
# Evaluating initial values

Evaluating a supported initial value meets the names in it, and these may have initial values in turn. All of that
comes to an end: a name has its address before its own initial value is evaluated, so that on each way down fewer names
are left to be met. And once the names have been met the value is what it was when it is evaluated again, on any machine
that knows them, but for the symbols of what is undefined.

Contents:

* `Value.Like` — values that are equal but for symbols;
* `Machine.Ends` — actions that come to an end with a value unless addresses have run out;
* `Machine.Rereads` — values that are the same when they are evaluated once more;
* `Machine.ends_evalWith` — supported operands, by their structure;
* `Machine.ends_addressWithin` — global names, by how many are left to be met.
-/

namespace PathSafety

open IR Machine

/-! ## Values -/

namespace Value

/-- That two values are made of the same constants, and of symbols in the same places. -/
inductive Like : Value → Value → Prop
  | refl (v : Value) : Like v v
  | symbol {w : Nat} (hw : 0 < w) (name : String) (j k : Nat) :
      Like ⟨(.symbol ⟨j, name⟩ : Term w)⟩ ⟨(.symbol ⟨k, name⟩ : Term w)⟩
  | concat {vs ws : List Value} (h : List.Forall₂ Like vs ws) : Like (concat vs) (concat ws)

theorem Like.same {v w : Value} (h : Like v w) : Same v w :=
  @Like.rec (fun v w _ => Same v w) (fun vs ws _ => List.Forall₂ Same vs ws) .refl
    (fun hw _ _ _ => .symbols (.symbol _ hw) (.symbol _ hw)) (fun _ => same_concat) .nil (fun _ _ => .cons) v w h

/-- Constants are like nothing but themselves. -/
theorem Like.eq_of_isSymbolic {v w : Value} (h : Like v w) (hw : w.isSymbolic = false) : v = w := by
  cases h.same with
  | refl => rfl
  | symbols _ hsymbol =>
    obtain ⟨b, hb⟩ := Term.exists_const (isSymbolic_eq_false.mp hw)
    rw [hb] at hsymbol
    cases hsymbol

end Value

namespace Machine

variable {s : Setting} {m m' m₁ : Machine} {module depth width : Nat} {name : String} {α β : Type} {x : Action α}
  {f : α → Action β} {P : α → Machine → Prop} {Q : β → Machine → Prop}

/-! ## Coming to an end -/

/-- That an action on a machine gives a result of some property, or a fault because addresses have run out. A defect
comes only where too many names are left to be met. -/
def Ends (s : Setting) (depth : Nat) (x : Action α) (P : α → Machine → Prop) (m : Machine) : Prop :=
  match x m with
  | .ok a m' => Grows s m m' ∧ P a m'
  | .error (.fault _) m' => 2 ^ s.pointerBits < m'.nextAddress
  | .error (.defect _) _ => ¬ Ready s depth m

theorem ends_of_ok {a : α} (h : x m = .ok a m') (hm : Grows s m m') (ha : P a m') : Ends s depth x P m := by
  unfold Ends
  rw [h]
  exact ⟨hm, ha⟩

theorem ends_pure {a : α} (ha : P a m) : Ends s depth (pure a) P m := ends_of_ok rfl (.of_eq rfl rfl) ha

theorem Ends.of_ok (hx : Ends s depth x P m) {a : α} (h : x m = .ok a m') : Grows s m m' ∧ P a m' := by
  unfold Ends at hx
  rwa [h] at hx

theorem Ends.imp {R : α → Machine → Prop} (hx : Ends s depth x P m) (h : ∀ a m', x m = .ok a m' → P a m' → R a m') :
    Ends s depth x R m := by
  unfold Ends at hx ⊢
  split at hx
  · rename_i hok
    exact ⟨hx.1, h _ _ hok hx.2⟩
  · exact hx
  · exact hx

/-- What comes to an end on a machine with fewer names to be met does so on the one before. -/
theorem Ends.of_eq {depth' : Nat} {y : Action α} (hx : Ends s depth x P m₁) (heq : y m = x m₁) (hm : Grows s m m₁)
    (hready : Ready s depth' m → Ready s depth m₁) : Ends s depth' y P m := by
  unfold Ends at hx ⊢
  rw [heq]
  split at hx
  · exact ⟨hm.trans hx.1, hx.2⟩
  · exact hx
  · exact fun h => hx (hready h)

theorem Ends.bind (hx : Ends s depth x P m)
    (hf : ∀ a m', x m = .ok a m' → Grows s m m' → P a m' → Ends s depth (f a) Q m') : Ends s depth (x >>= f) Q m := by
  cases h : x m with
  | ok a m₁ =>
    obtain ⟨hm, ha⟩ := hx.of_ok h
    refine (hf a m₁ h hm ha).of_eq (bind_of_ok h) hm fun hready => ?_
    exact Nat.lt_of_le_of_lt (unmet_le hm.addresses s.project) hready
  | error g m₁ =>
    have heq : (x >>= f) m = .error g m₁ := by simp only [Bind.bind, EStateM.bind, h]
    unfold Ends at hx ⊢
    rw [h] at hx
    rw [heq]
    cases g <;> exact hx

/-- Writing to a constant address fails only where addresses have run out. -/
theorem ends_write {a : Nat} {v : Value} (hpos : 0 < a) (hlt : a < m.nextAddress) :
    Ends s depth (write s (.ofNat s.pointerBits a) v) (fun _ _ => True) m := by
  have hnull : Ends s depth (checkNull s (.ofNat s.pointerBits a)) (fun _ _ => True) m := by
    by_cases hroom : a < 2 ^ s.pointerBits
    · refine ends_of_ok (checkNull_of_not_possible ?_) (.of_eq rfl rfl) trivial
      rintro ⟨ν, _, hzero⟩
      have hzero : (BitVec.ofNat s.pointerBits a).toNat = 0 := hzero
      rw [BitVec.toNat_ofNat, Nat.mod_eq_of_lt hroom] at hzero
      omega
    · -- the address may be zero, but then there are no addresses left
      unfold checkNull
      split
      · have hsat : Ends s depth (sat [(Value.ofNat s.pointerBits a).equals 0])
            (fun _ m' => 2 ^ s.pointerBits < m'.nextAddress) m :=
          ends_of_ok rfl (.of_eq rfl rfl) (Nat.lt_of_le_of_lt (Nat.le_of_not_lt hroom) hlt)
        refine hsat.bind fun b m' _ _ hm' => ?_
        split
        · exact hm'
        · exact ends_pure trivial
      · exact ends_pure trivial
  exact hnull.bind fun _ m' _ _ _ => ends_of_ok rfl (.of_eq rfl rfl) trivial

/-! ## Once more -/

/-- That names have been met, and that an action gives what it gave, up to a relation, on all
machines that know what one knows, and that it gives no addresses to names there. -/
structure Rereads (E : α → α → Prop) (x : Action α) (names : List String) (a : α) (m : Machine) : Prop where
  met : ∀ n ∈ names, ∃ v, m.addresses.get? n = some v
  again : ∀ n, Extends m n → ∃ b n', x n = .ok b n' ∧ n'.addresses = n.addresses ∧ E a b

theorem Rereads.later {E : α → α → Prop} {names : List String} {a : α} (h : Rereads E x names a m)
    (hm : Extends m m') : Rereads E x names a m' where
  met n hn := (h.met n hn).imp fun v hv => hm n v hv
  again n hn := h.again n (hm.trans hn)

/-- A value that does not depend on the machine. -/
theorem rereads_pure {v : Value} {x : Action Value} (h : ∀ n, x n = .ok v n) : Rereads Value.Like x [] v m where
  met _ hn := absurd hn List.not_mem_nil
  again n _ := ⟨v, n, h n, rfl, .refl v⟩

/-- A new symbol takes the place of the one before. -/
theorem ends_fresh {bits : Nat} (hbits : bits ≠ 0) (name : String) :
    Ends s depth (fresh name bits) (fun v m' => v.width = bits ∧ Rereads Value.Like (fresh name bits) [] v m') m := by
  have hfresh : ∀ n : Machine, fresh name (bits : Int) n = .ok ⟨(.symbol ⟨n.nextSymbol, name⟩ : Term bits)⟩
      { n with nextSymbol := n.nextSymbol + 1 } := fun n => by
    unfold fresh
    rw [if_neg (by omega)]
    rfl
  exact ends_of_ok (hfresh m) (.of_eq rfl rfl) ⟨rfl, fun n hn => absurd hn List.not_mem_nil,
    fun n _ => ⟨_, _, hfresh n, rfl, .symbol (Nat.pos_of_ne_zero hbits) name m.nextSymbol n.nextSymbol⟩⟩

/-! ## Offsets

The indices of constant expressions are constants, so their offset is found, or not, on all machines alike. -/

section Offsets

variable {t : Ty} {ts : List Ty} {n : Nat} {is : List (Nat × Int)}

theorem sizeInBytes_of_size? (h : Concrete.size? s.project.layout t = some n) (m : Machine) :
    sizeInBytes s t m = .ok n m := by
  unfold Concrete.size? at h
  unfold sizeInBytes
  cases hbytes : s.project.layout.bytes t with
  | ok k =>
    rw [hbytes] at h
    obtain rfl := Option.some.inj h
    rfl
  | error e =>
    rw [hbytes] at h
    cases h

theorem sumOfBytes_of_sizes? (h : Concrete.sizes? s.project.layout ts = some n) (m : Machine) :
    sumOfBytes s ts m = .ok n m := by
  induction ts generalizing n with
  | nil =>
    obtain rfl := Option.some.inj h
    rfl
  | cons t ts ih =>
    obtain ⟨k, rest, hk, hrest, rfl⟩ := Layout.exists_of_sizes?_cons h
    unfold sumOfBytes
    rw [bind_of_ok (sizeInBytes_of_size? hk m), bind_of_ok (ih hrest)]
    rfl

theorem exists_scaled (hwidth : width ≠ 0) (o : Term width) (i : Value) (size : Nat) (m : Machine) :
    ∃ r : Term width, scaled width ⟨o⟩ i size m = .ok ⟨r⟩ m := by
  have hstep : Value.arith .mul (i.signedResize width) (.ofNat width size) =
      .ok ⟨Term.mkArith .mul (i.term.mkSignedResize width) (.const (BitVec.ofNat width size))⟩ := by
    unfold Value.signedResize
    rw [if_neg hwidth]
    exact arith_mk rfl _ _
  refine ⟨Term.mkArith .add o (Term.mkArith .mul (i.term.mkSignedResize width) (.const (BitVec.ofNat width size))), ?_⟩
  unfold scaled
  rw [hstep]
  show valueOr (Value.arith .add ⟨o⟩ ⟨_⟩) m = _
  rw [arith_mk rfl]
  rfl

theorem exists_innerOffset (hwidth : width ≠ 0) {b r : BitVec width}
    (h : Concrete.innerOffset s.project.layout (fun (i : Nat × Int) => some (.ofInt i.1 i.2)) width t is b = some r)
    (o : Term width) (m : Machine) :
    ∃ u : Term width, innerOffset s (fun (i : Nat × Int) => return .ofInt i.1 i.2) width t is ⟨o⟩ m = .ok ⟨u⟩ m := by
  induction is generalizing t b o with
  | nil => exact ⟨o, rfl⟩
  | cons i is ih =>
    have element : ∀ {e : Ty} {c : BitVec width} {size : Nat}, Concrete.size? s.project.layout e = some size →
        Concrete.innerOffset s.project.layout (fun (i : Nat × Int) => some (.ofInt i.1 i.2)) width e is c = some r →
        ∃ u : Term width, (do
          let index ← (pure (.ofInt i.1 i.2) : Action Value)
          let size ← sizeInBytes s e
          let offset ← scaled width ⟨o⟩ index size
          innerOffset s (fun (i : Nat × Int) => return .ofInt i.1 i.2) width e is offset : Action Value) m =
            .ok ⟨u⟩ m := by
      intro e c size hsize hrest
      obtain ⟨o', ho'⟩ := exists_scaled hwidth o (.ofInt i.1 i.2) size m
      obtain ⟨u, hu⟩ := ih hrest o'
      refine ⟨u, ?_⟩
      rw [pure_bind, bind_of_ok (sizeInBytes_of_size? hsize m), bind_of_ok ho', hu]
    unfold Concrete.innerOffset at h
    unfold innerOffset
    by_cases hstruct : t.isStruct = true
    · -- a field of a struct, by a number
      rw [if_pos hstruct] at h ⊢
      obtain ⟨w, hw, h⟩ := Option.bind_eq_some_iff.mp h
      obtain rfl := Option.some.inj hw
      obtain ⟨preceding, hpreceding, h⟩ := Option.bind_eq_some_iff.mp h
      obtain ⟨u, hu, h⟩ := Option.bind_eq_some_iff.mp h
      have hnumber : evalNat (.ofInt i.1 i.2) m = .ok (Word.ofInt i.1 i.2).toNat m := by
        unfold evalNat
        rw [bind_of_ok (rfl : (get : Action Machine) m = .ok m m), PathCondition.anyValue?_of_const? rfl]
        rfl
      have hmoved : valueOr (Value.arith .add ⟨o⟩ (.ofNat width preceding)) m =
          .ok ⟨Term.mkArith .add o (.const (BitVec.ofNat width preceding))⟩ m := by
        unfold Value.ofNat
        rw [arith_mk rfl]
        rfl
      rw [pure_bind, bind_of_ok hnumber, bind_of_ok (sumOfBytes_of_sizes? hpreceding m),
        bind_of_ok hmoved, hu]
      exact ih h _
    · rw [if_neg hstruct] at h ⊢
      split at h
      · obtain ⟨w, _, h⟩ := Option.bind_eq_some_iff.mp h
        obtain ⟨size, hsize, h⟩ := Option.bind_eq_some_iff.mp h
        exact element hsize h
      · obtain ⟨w, _, h⟩ := Option.bind_eq_some_iff.mp h
        obtain ⟨size, hsize, h⟩ := Option.bind_eq_some_iff.mp h
        exact element hsize h
      · cases h

/-- Indices that have an offset have one on the machine. -/
theorem exists_offset (hwidth : width ≠ 0)
    (h : (Concrete.offset s.project.layout (fun (i : Nat × Int) => some (.ofInt i.1 i.2)) width t is).isSome)
    (m : Machine) :
    ∃ u : Term width, offset s (fun (i : Nat × Int) => return .ofInt i.1 i.2) width t is m = .ok ⟨u⟩ m := by
  obtain ⟨r, h⟩ := Option.isSome_iff_exists.mp h
  cases is with
  | nil => exact ⟨_, rfl⟩
  | cons i is =>
    obtain ⟨size, hsize, h⟩ := Option.bind_eq_some_iff.mp h
    obtain ⟨o, ho⟩ := exists_scaled hwidth (.const (BitVec.ofNat width 0)) (.ofInt i.1 i.2) size m
    obtain ⟨u, hu⟩ := exists_innerOffset hwidth h o m
    exact ⟨u, (bind_of_ok (sizeInBytes_of_size? hsize m)).trans ((bind_of_ok ho).trans hu)⟩

end Offsets

/-! ## Constant expressions -/

/-- That global names which are known get addresses. -/
def Locates (s : Setting) (depth : Nat) : Prop :=
  ∀ module name m, Placed s m → (s.project.globalIn? module name).isSome →
    Ends s depth (addressWithin s depth module name) (fun _ _ => True) m

/-- **Constant expressions** that are supported have a value, and meet the name that they are about. -/
theorem ends_evalExpression (hlocates : Locates s depth) (hwidth : s.pointerBits ≠ 0) {fuel bits : Nat}
    {text : List Char} (htext : supportsExpression s.project fuel text = true) (hm : Placed s m) :
    Ends s depth (evalExpression s (addressWithin s depth) fuel text bits)
      (fun _ m' => ∀ n, expressionName? s.project fuel text = some n → ∃ a, m'.addresses.get? n = some a) m := by
  induction fuel generalizing text bits m with
  | zero => cases htext
  | succ fuel ih =>
    obtain ⟨f, _, heq⟩ := evalExpression_eq s (addressWithin s depth) fuel bits text
    rw [heq]
    unfold supportsExpression at htext
    unfold expressionName?
    cases hshape : ExpressionShape.of? s.project text with
    | none =>
      rw [hshape] at htext
      cases htext
    | some shape =>
      rw [hshape] at htext
      cases shape with
      | element module global name indices =>
        obtain ⟨v, hv⟩ := ExpressionShape.exists_global?_of_element hshape
        refine (hlocates module name m hm (Project.globalIn?_of_global? hv ▸ rfl)).bind fun a m₁ ha _ _ => ?_
        have hmet := get?_of_addressWithin ha
        obtain ⟨⟨x, rfl⟩, _⟩ := exists_of_addressWithin hm ha
        -- The indices are constants, so the offset is computed without touching the machine.
        obtain ⟨o, ho⟩ := exists_offset hwidth htext m₁
        have hsum : valueOr (Value.arith .add (.ofNat s.pointerBits x) ⟨o⟩) m₁ =
            .ok ⟨Term.mkArith .add (.const (BitVec.ofNat s.pointerBits x)) o⟩ m₁ := by
          unfold Value.ofNat
          rw [arith_mk rfl]
          rfl
        refine ends_of_ok ((bind_of_ok ho).trans hsum) (.of_eq rfl rfl) ?_
        rintro n hn
        obtain rfl := Option.some.inj hn
        exact ⟨_, hmet⟩
      | nested inner width => exact (ih htext hm).bind fun _ _ _ _ hmet => ends_pure hmet
      | reference module name =>
        obtain ⟨v, hv⟩ := ExpressionShape.exists_global?_of_reference hshape
        refine (hlocates module name m hm (Project.globalIn?_of_global? hv ▸ rfl)).bind fun a m₁ ha _ _ => ?_
        refine ends_pure ?_
        rintro n hn
        obtain rfl := Option.some.inj hn
        exact ⟨_, get?_of_addressWithin ha⟩
      | integer | null =>
        refine ends_pure fun n hn => ?_
        cases hn

/-! ## Operands -/

theorem ends_bytes {bs : List UInt8} {t : Ty} {w : Nat} (ht : s.project.layout.bits? t = some bits) (hne : bs ≠ [])
    (hty : t = .array bs.length (.int w) ∨ t = .vector bs.length (.int w)) :
    Ends s depth (evalConstant s (addressWithin s depth) module ∅ t bits (.bytes bs)) (fun v m' =>
      v.width = bits ∧ Rereads Value.Like (evalConstant s (address s) module ∅ t bits (.bytes bs)) [] v m') m := by
  have heval : ∀ addressing, evalConstant s addressing module ∅ t bits (.bytes bs) =
      pure (Value.concat (bs.map fun b => .ofNat w b.toNat)) := by
    intro addressing
    unfold evalConstant
    rcases hty with rfl | rfl <;> cases bs with
      | nil => exact absurd rfl hne
      | cons b bs => rfl
  rw [heval, heval]
  refine ends_pure ⟨?_, rereads_pure fun _ => rfl⟩
  -- there are as many bytes as elements
  have hbits : bits = w * bs.length := by
    rcases hty with rfl | rfl <;> exact (Option.some.inj ht).symm
  rw [Value.width_concat, List.map_map, hbits]
  show (bs.map fun _ => w).sum = _
  rw [List.map_const', List.sum_replicate_nat, Nat.mul_comm]

/-- Elements that have values are put one above another. -/
theorem ends_elements {es : List Operand} {t : Ty} {names : List String} (ht : s.project.layout.bits? t = some bits)
    (hne : es ≠ []) (hlength : es.length = (t.parts s.project.layout.structs).length)
    (hes : Ends s depth (evalAll s (addressWithin s depth) module ∅ es.length es) (fun vs m' =>
      List.Forall₂ (fun t (v : Value) => s.project.layout.bits? t = some v.width)
        (t.parts s.project.layout.structs) vs ∧
        Rereads (List.Forall₂ Value.Like) (evalAll s (address s) module ∅ es.length es) names vs m') m) :
    Ends s depth (evalConstant s (addressWithin s depth) module ∅ t bits (.elements es)) (fun v m' =>
      v.width = bits ∧
        Rereads Value.Like (evalConstant s (address s) module ∅ t bits (.elements es)) names v m') m := by
  rw [evalConstant_elements hlength, evalConstant_elements hlength]
  refine hes.bind fun vs m₁ _ _ h => ?_
  obtain ⟨hwidths, hmet, hagain⟩ := h
  -- There are as many values as elements, so the aggregate is not empty.
  have hvs : vs ≠ [] := by
    rintro rfl
    rw [List.forall₂_nil_right_iff.mp hwidths] at hlength
    exact hne (List.length_eq_zero_iff.mp hlength)
  rw [if_neg (by simpa using hvs)]
  refine ends_pure ⟨?_, hmet, fun n hn => ?_⟩
  · rw [Value.width_concat, Layout.eq_sum_widths ht (fun hnil => ?_) hwidths]
    rw [hnil] at hlength
    exact hne (List.length_eq_zero_iff.mp hlength)
  · obtain ⟨ws, n', hws, haddresses, hlike⟩ := hagain n hn
    refine ⟨Value.concat ws, n', ?_, haddresses, .concat hlike⟩
    rw [bind_of_ok hws]
    have hws : ws ≠ [] := by
      rintro rfl
      exact hvs (List.forall₂_nil_right_iff.mp hlike)
    rw [if_neg (by simpa using hws)]
    rfl

mutual

/-- **Supported operands** have a value that is as wide as their type, meet the names that they refer to, and have the
same value once more. -/
theorem ends_evalWith (hlocates : Locates s depth) (hwidth : s.pointerBits ≠ 0) {o : Operand} {t : Ty} {m : Machine}
    (ho : o.Supported s.project module t) (hm : Placed s m) :
    Ends s depth (evalWith s (addressWithin s depth) module ∅ o) (fun v m' =>
      s.project.layout.bits? t = some v.width ∧
        Rereads Value.Like (eval s module ∅ o) (o.names s.project) v m') m := by
  match o with
  | .register _ | .assembly .. => exact ho.elim
  | .global name =>
    obtain ⟨hpointer, hknown⟩ := ho
    unfold evalWith
    refine (hlocates module name m hm hknown).imp fun v m' h _ => ?_
    obtain ⟨⟨x, rfl⟩, hagain⟩ := exists_of_addressWithin hm h
    refine ⟨bits_of_isPointer hpointer, ?_, fun n hn => ⟨_, n, ?_, rfl, .refl _⟩⟩
    · intro n hn
      rw [Operand.names] at hn
      exact ⟨_, List.mem_singleton.mp hn ▸ get?_of_addressWithin h⟩
    · unfold eval evalWith
      exact hagain module n hn
  | .constant u c =>
    -- Mutually recursive with `ends_evalConstant`, through the elements of an aggregate.
    obtain ⟨rfl, bits, hbits, hc⟩ := ho
    unfold evalWith
    rw [hbits]
    refine (ends_evalConstant hlocates hwidth hbits hc hm).imp fun v m' _ h => ?_
    obtain ⟨rfl, hmet, hagain⟩ := h
    refine ⟨rfl, ?_, fun n hn => ?_⟩
    · rw [Operand.names]
      exact hmet
    · unfold eval evalWith
      rw [hbits]
      exact hagain n hn

theorem ends_evalConstant (hlocates : Locates s depth) (hwidth : s.pointerBits ≠ 0) {c : ConstantValue} {t : Ty}
    {bits : Nat} {m : Machine} (ht : s.project.layout.bits? t = some bits)
    (hc : c.Supported s.project module t bits) (hm : Placed s m) :
    Ends s depth (evalConstant s (addressWithin s depth) module ∅ t bits c) (fun v m' =>
      v.width = bits ∧
        Rereads Value.Like (evalConstant s (address s) module ∅ t bits c) (c.names s.project) v m') m := by
  -- The symbol that stands for a floating-point constant needs a width.
  have hreal : t.IsReal → bits ≠ 0 := fun h => by
    obtain ⟨k, hk, hbits⟩ := h.exists_bits (l := s.project.layout)
    rwa [Option.some.inj (ht.symm.trans hbits)]
  match c with
  | .null =>
    unfold evalConstant ConstantValue.names
    exact ends_pure ⟨rfl, rereads_pure fun _ => rfl⟩
  | .undef =>
    unfold evalConstant ConstantValue.names
    exact ends_fresh hc "undef"
  | .int k =>
    unfold evalConstant ConstantValue.names
    rcases hc with ⟨w, rfl⟩ | hc
    · obtain rfl := Option.some.inj ht
      exact ends_pure ⟨rfl, rereads_pure fun _ => rfl⟩
    · rcases id hc with rfl | rfl | rfl <;> exact ends_fresh (hreal hc) _
  | .real _ =>
    unfold evalConstant ConstantValue.names
    rcases id hc with rfl | rfl | rfl <;> exact ends_fresh (hreal hc) _
  | .bytes bs =>
    obtain ⟨hne, w, hty⟩ := hc
    unfold ConstantValue.names
    exact ends_bytes ht hne hty
  | .elements es =>
    obtain ⟨hne, hes⟩ := hc
    unfold ConstantValue.names
    exact ends_elements ht hne hes.length_eq (ends_evalAll hlocates hwidth hes hm)
  | .expression text =>
    obtain ⟨hbits, hexact, htext⟩ := hc
    unfold evalConstant ConstantValue.names
    refine (ends_evalExpression hlocates hwidth htext hm).imp fun v m' h hmet => ?_
    obtain ⟨_, hv, hagain⟩ := settled_evalExpression hm h
    exact ⟨(hv hbits).trans hexact, fun n hn => hmet n (Option.mem_toList.mp hn),
      fun n hn => ⟨v, n, hagain n hn, rfl, .refl v⟩⟩

theorem ends_evalAll (hlocates : Locates s depth) (hwidth : s.pointerBits ≠ 0) {os : List Operand} {ts : List Ty}
    {m : Machine} (hos : Operand.SupportedAll s.project module ts os) (hm : Placed s m) :
    Ends s depth (evalAll s (addressWithin s depth) module ∅ os.length os) (fun vs m' =>
      List.Forall₂ (fun t (v : Value) => s.project.layout.bits? t = some v.width) ts vs ∧
        Rereads (List.Forall₂ Value.Like) (evalAll s (address s) module ∅ os.length os)
          (Operand.namesOf s.project os) vs m') m := by
  match os with
  | [] =>
    unfold Operand.SupportedAll at hos
    subst hos
    unfold evalAll Operand.namesOf
    exact ends_pure ⟨.nil, fun _ hn => absurd hn List.not_mem_nil, fun n _ => ⟨[], n, rfl, rfl, .nil⟩⟩
  | o :: os =>
    unfold Operand.SupportedAll at hos
    obtain ⟨t, ts, rfl, ho, hos⟩ := hos
    rw [List.length_cons]
    unfold evalAll Operand.namesOf
    refine (ends_evalWith hlocates hwidth ho hm).bind fun v m₁ _ hm₁ hv => ?_
    refine (ends_evalAll hlocates hwidth hos (hm₁.placed hm)).bind fun vs m₂ _ hm₂ hvs => ?_
    refine ends_pure ⟨.cons hv.1 hvs.1, fun n hn => ?_, fun n hn => ?_⟩
    · rcases List.mem_append.mp hn with hn | hn
      · exact (hv.2.later hm₂.addresses).met n hn
      · exact hvs.2.met n hn
    -- Read again, the elements meet no variable anew, so the addresses stay as they are from one to
    -- the next.
    · obtain ⟨w, n₁, hw, haddresses₁, hlike⟩ := hv.2.again n (hm₂.addresses.trans hn)
      have hn₁ : Extends m₂ n₁ := fun x a hx => haddresses₁ ▸ hn x a hx
      obtain ⟨ws, n₂, hws, haddresses₂, hlikes⟩ := hvs.2.again n₁ hn₁
      refine ⟨w :: ws, n₂, ?_, haddresses₂.trans haddresses₁, .cons hlike hlikes⟩
      show (do
        let v ← eval s module ∅ o
        let vs ← evalAll s (address s) module ∅ os.length os
        return v :: vs : Action (List Value)) n = _
      rw [bind_of_ok hw, bind_of_ok hws]
      rfl

end

/-! ## Global names -/

/-- Meeting a variable of some initial value. -/
theorem addressWithin_of_unmet {g : Global} {init : Operand} (hname : m.addresses.get? name = none)
    (hg : s.project.globalIn? module name = some (.data g)) (hinit : g.init = some init) :
    addressWithin s (depth + 1) module name m = (do
      let v ← evalWith s (addressWithin s depth) module ∅ init
      write s (.ofNat s.pointerBits m.nextAddress) v
      return .ofNat s.pointerBits m.nextAddress : Action Value) (entered s m name (storage s g)) := by
  rw [addressWithin, bind_of_ok (rfl : (get : Action Machine) m = .ok m m), hname]
  dsimp only
  rw [hg]
  dsimp only
  rw [hinit]
  rfl

/-- **Global names** that are known get addresses. A variable has its address before its initial value is evaluated, so
that fewer names are left to be met then. -/
theorem locates (hsupported : s.project.Supported) (hwidth : s.pointerBits ≠ 0) (depth : Nat) : Locates s depth := by
  -- On the initializers that may wait for one another. `Ready` leaves out the end of the depth: no
  -- name is met twice.
  induction depth with
  | zero => exact fun _ _ _ _ _ => Nat.not_lt_zero _
  | succ depth ih =>
    intro module name m hm hknown
    cases hname : m.addresses.get? name with
    | some a =>
      refine ends_of_ok (a := a) ?_ (.of_eq rfl rfl) trivial
      rw [addressWithin, bind_of_ok (rfl : (get : Action Machine) m = .ok m m), hname]
      rfl
    | none =>
      obtain ⟨v, hv⟩ := Option.isSome_iff_exists.mp hknown
      have hgrows : ∀ bits, Grows s m (entered s m name bits) := fun bits => grows_entered hname
      cases v with
      | code f =>
        refine ends_of_ok (a := .ofNat s.pointerBits m.nextAddress) ?_ (hgrows 8) trivial
        rw [addressWithin, bind_of_ok (rfl : (get : Action Machine) m = .ok m m), hname]
        dsimp only
        rw [hv]
        rfl
      | data g =>
        cases hinit : g.init with
        | none =>
          refine ends_of_ok (a := .ofNat s.pointerBits m.nextAddress) ?_ (hgrows (storage s g)) trivial
          rw [addressWithin, bind_of_ok (rfl : (get : Action Machine) m = .ok m m), hname]
          dsimp only
          rw [hv]
          dsimp only
          rw [hinit]
          rfl
        | some init =>
          have hlt : m.nextAddress < (entered s m name (storage s g)).nextAddress :=
            Nat.lt_add_of_pos_right (Nat.lt_of_le_of_lt (Nat.zero_le _) (lt_stride _))
          have hrest : Ends s depth (do
              let v ← evalWith s (addressWithin s depth) module ∅ init
              write s (.ofNat s.pointerBits m.nextAddress) v
              return .ofNat s.pointerBits m.nextAddress : Action Value) (fun _ _ => True)
              (entered s m name (storage s g)) := by
            refine (ends_evalWith ih hwidth (hsupported module name g init hv hinit) (placed_entered hm)).bind
              fun w m₁ _ hm₁ _ => ?_
            exact (ends_write hm.positive (Nat.lt_of_lt_of_le hlt hm₁.next)).bind fun _ _ _ _ _ => ends_pure trivial
          exact hrest.of_eq (addressWithin_of_unmet hname hv hinit) (hgrows _)
            fun hready => ready_entered _ hready hname (mem_globalNames hv)

/-- **A reference to a global name** comes to an end, with an address unless addresses have run out. -/
theorem address_cases (hsupported : s.project.Supported) (hwidth : s.pointerBits ≠ 0) (hm : Placed s m)
    (hname : (s.project.globalIn? module name).isSome) :
    (∃ v m', address s module name m = .ok v m') ∨
      ∃ f m', address s module name m = .error (.fault f) m' ∧ 2 ^ s.pointerBits < m'.nextAddress := by
  have h := locates hsupported hwidth (globalCount s.project + 1) module name m hm hname
  unfold Ends at h
  split at h
  · rename_i hok
    exact Or.inl ⟨_, _, hok⟩
  · rename_i hfault
    exact Or.inr ⟨_, _, hfault, h⟩
  · exact absurd (ready_globalCount s m) h

end Machine

end PathSafety
