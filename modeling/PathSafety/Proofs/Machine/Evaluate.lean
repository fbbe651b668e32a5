import PathSafety.Proofs.Machine.Offset

/-!
# Operands mean what they mean in a run

The value that the machine gives an operand is, for every input, the word that a run has for it, if the
global values are where the machine puts them. On the way the machine may meet global values for the first
time: it sets storage apart and writes initial values there, which a run has in memory from the beginning.

Contents:

* `evalExpression_eq` — constant expressions, by what they say;
* `Reads`, `quietly_readExpression` — the low bits that a value has of a constant expression as it is written;
* `quietly_evalExpression` — constant expressions that are read as they are written;
* `quietly_evalWith`, `quietly_evalAll` — operands, by their structure, where global names have addresses.
-/

namespace PathSafety.Machine

open IR

variable {s : Setting} {T : Table} {rs : Registers} {m m₁ : Machine} {D : Prop} {depth : Nat}
  {address : Addressing}

/-! ## Constant expressions -/

/-- What the machine does for what a constant expression says; `f` is its fault where it says nothing. -/
def evalShape (s : Setting) (address : Addressing) (fuel bits : Nat) (f : Fault) :
    Option ExpressionShape → Action Value
  | some (.element module g name indices) => do
    let base ← address module name
    let offset ← offset s (fun (i : Nat × Int) => return .ofInt i.1 i.2) base.width g.ty indices
    valueOr (Value.arith .add base offset)
  | some (.nested inner width) => do
    return (← evalExpression s address fuel inner (width.getD s.pointerBits)).resize bits
  | some (.reference module name) => do return (← address module name).resize bits
  | some (.integer _ n) => return .ofInt bits n
  | some .null => return .ofNat bits 0
  | none => fault f

/-- Reading an operand that is no other expression. -/
theorem evalLiteral_eq (operand text : List Char) (fuel bits : Nat) :
    (match ExpressionText.integer? operand with
      | some (_, n) => return .ofInt bits n
      | none =>
        if ExpressionText.isNull operand then return .ofNat bits 0
        else fault (.unsupportedExpression (String.ofList text)) : Action Value) =
      evalShape s address fuel bits (.unsupportedExpression (String.ofList text))
        (ExpressionShape.ofLiteral? operand) := by
  unfold ExpressionShape.ofLiteral?
  cases ExpressionText.integer? operand with
  | some n => rfl
  | none =>
    cases ExpressionText.isNull operand <;> rfl

/-- Reading a conversion. -/
theorem evalConversion_eq (fuel bits : Nat) {text : List Char}
    (h : ExpressionText.addressOperands? text = none) :
    ∃ f, (f.violation? = none ∧ f.isPlain = true) ∧ evalExpression s address (fuel + 1) text bits =
      evalShape s address fuel bits f (ExpressionShape.ofConversion? s.project text) := by
  rw [evalExpression, h]
  simp only [pure_bind]
  unfold ExpressionShape.ofConversion?
  cases ExpressionText.castOperand? text with
  | none => exact ⟨_, ⟨rfl, rfl⟩, rfl⟩
  | some operand =>
    simp only [Option.bind_eq_bind, Option.bind_some]
    cases ExpressionText.nested? false operand with
    | some k => exact ⟨.emptyAggregate, ⟨rfl, rfl⟩, rfl⟩
    | none =>
      simp only
      cases ExpressionText.onlyReference? operand with
      | none =>
        simp only [pure_bind]
        exact ⟨_, ⟨rfl, rfl⟩, evalLiteral_eq operand text fuel bits⟩
      | some r =>
        obtain ⟨name, rest⟩ := r
        simp only
        cases s.project.global? name with
        | none => exact ⟨.unknownGlobal name, ⟨rfl, rfl⟩, rfl⟩
        | some x =>
          simp only [pure_bind]
          cases rest with
          | nil => exact ⟨.emptyAggregate, ⟨rfl, rfl⟩, rfl⟩
          | cons c rest => exact ⟨_, ⟨rfl, rfl⟩, evalLiteral_eq operand text fuel bits⟩

/-- An address computation is no conversion. -/
theorem castOperand?_of_addressOperands? {text operands : List Char}
    (h : ExpressionText.addressOperands? text = some operands) :
    ExpressionText.castOperand? text = none := by
  cases text with
  | nil => cases h
  | cons c cs =>
    have hc : c = 'g' := by
      unfold ExpressionText.addressOperands? at h
      by_cases hc : 'g' = c
      · exact hc.symm
      · have hnone : Text.dropPrefix? "getelementptr ".toList (c :: cs) = none := if_neg hc
        rw [hnone] at h
        cases h
    subst hc
    rfl

/-- The machine does what a constant expression says. -/
theorem evalExpression_eq (s : Setting) (address : Addressing) (fuel bits : Nat) (text : List Char) :
    ∃ f, (f.violation? = none ∧ f.isPlain = true) ∧ evalExpression s address (fuel + 1) text bits =
      evalShape s address fuel bits f (ExpressionShape.of? s.project text) := by
  unfold ExpressionShape.of?
  cases h₁ : ExpressionText.addressOperands? text with
  | none => exact evalConversion_eq fuel bits h₁
  | some operands =>
    -- The text of an element address is never that of a cast, so the conversions have no say here.
    have hcast := castOperand?_of_addressOperands? h₁
    have hconversion : ExpressionShape.ofConversion? s.project text = none := by
      unfold ExpressionShape.ofConversion?
      rw [hcast]
      rfl
    rw [evalExpression, h₁, Option.bind_some]
    simp only [hcast, hconversion]
    cases ExpressionText.onlyReference? operands with
    | none => exact ⟨_, ⟨rfl, rfl⟩, rfl⟩
    | some r =>
      simp only
      cases s.project.global? r.1 with
      | none => exact ⟨.unknownGlobal r.1, ⟨rfl, rfl⟩, rfl⟩
      | some x =>
        obtain ⟨module, v⟩ := x
        cases v with
        | code f => exact ⟨_, ⟨rfl, rfl⟩, rfl⟩
        | data g =>
          simp only [pure_bind]
          cases ExpressionText.indices? r.2.length r.2 with
          | none => exact ⟨_, ⟨rfl, rfl⟩, rfl⟩
          | some indices => exact ⟨.emptyAggregate, ⟨rfl, rfl⟩, rfl⟩

/-- That global names get the addresses that a run has for them. -/
def Addresses (D : Prop) (s : Setting) (T : Table) (rs : Registers) (depth : Nat) (address : Addressing) :
    Prop :=
  ∀ module name m, Sound s T m → Ready s depth m →
    Quietly D s T (address module name) m fun a m' =>
      (∃ x, a = .ofNat s.pointerBits x) ∧
        Evaluates s T rs (fun place _ => Concrete.address s.project place name) a m'

theorem evaluates_pure {v : Value} (hv : v.Known T)
    {y : Concrete.Placement → Concrete.Registers → Option Word}
    (hy : ∀ i place cs, y place cs = some (v.word i)) : Evaluates s T rs y v m :=
  ⟨hv, fun i place cs _ _ => hy i place cs⟩

/-- A constant expression at an index: the indices are constants. -/
theorem evaluatesAll_indices (rs : Registers) (indices : List (Nat × Int)) :
    EvaluatesAll D s T rs depth (fun (i : Nat × Int) => return .ofInt i.1 i.2)
      (fun i _ _ => some (.ofInt i.1 i.2)) Fits.indexNumber indices := by
  intro i _ m hm _
  refine quietly_pure hm ⟨evaluates_pure (Value.known_ofInt _ _) fun _ _ _ => rfl, fun k hk => ?_⟩
  exact hk

/-- The address of a part of a global value: that of the value, moved by the offset of the indices. -/
theorem quietly_elementAddress (haddr : Addresses D s T rs depth address) (hptr : s.pointerBits ≠ 0) {module : Nat}
    {name : String} {t : Ty} {indices : List (Nat × Int)} (hm : Sound s T m) (hready : Ready s depth m)
    (hfits : Fits.selects s.project.layout Fits.indexNumber t (indices.drop 1) = true) :
    Quietly D s T
      (do
        let base ← address module name
        let offset ← offset s (fun (i : Nat × Int) => return .ofInt i.1 i.2) base.width t indices
        valueOr (Value.arith .add base offset)) m fun v m' =>
      v.width = s.pointerBits ∧ Evaluates s T rs (fun place _ => do
        let base ← Concrete.address s.project place name
        let offset ← Concrete.offset s.project.layout (fun i => some (.ofInt i.1 i.2)) base.width t indices
        return ⟨base.bits + offset⟩) v m' := by
  refine quietly_bind (haddr module name m hm hready) fun a m₁ h₁ ha => ?_
  obtain ⟨⟨x, rfl⟩, ha⟩ := ha
  refine quietly_bind (quietly_offset hptr (evaluatesAll_indices rs indices) h₁.sound
    (hready.quiet h₁) hfits) fun o m₂ h₂ ho => ?_
  obtain ⟨o, rfl, ho, hoffset⟩ := ho
  refine (quietly_valueOr h₂.sound (arith_mk rfl _ _)).mono ?_
  rintro r m₃ h₃ rfl
  refine ⟨rfl, Term.known_mkArith ha.known ho, fun i place cs hcovers hrep => ?_⟩
  -- The placement covers the last machine; going back through the three steps, it covers each
  -- earlier one.
  have hcovers₂ := hcovers.of_addresses h₃.addresses
  have hbase := ha.word i place cs (hcovers₂.of_addresses h₂.addresses) hrep
  have hmoved := hoffset i place cs hcovers₂ hrep
  simp only [hbase, Option.bind_eq_bind, Option.bind_some]
  show Option.bind (Concrete.offset s.project.layout (fun i => some (.ofInt i.1 i.2)) s.pointerBits
    t indices) _ = _
  rw [hmoved]
  exact congrArg (some ∘ Word.mk) (Term.meaning_mkArith .add _ _).symm

/-- That a value, which a constant expression is read as, has the low bits of what is written: as many as are left on
the way of the reading, and as many as the types leave that are written. -/
structure Reads (s : Setting) (T : Table) (rs : Registers) (fuel : Nat) (text : List Char) (bits : Nat) (v : Value)
    (m : Machine) : Prop where
  width : v.width = expressionWidth s.project text bits
  known : v.Known T
  word : ∀ i place cs, Covers s place m → Represents i rs cs → ∀ read own bits',
    expressionAgrees s.project fuel text read own = true →
    read ≤ expressionWidth s.project text bits → own ≤ expressionWidth s.project text bits' →
    ∃ u, Concrete.expression s.project place fuel text bits' = some u ∧
      u.width = expressionWidth s.project text bits' ∧ (v.word i).toNat % 2 ^ read = u.toNat % 2 ^ own

/-- The own width of a constant expression is one at which it is taken whole. -/
theorem expressionWidth_of_ownBits? {p : Project} {text : List Char} {bits : Nat}
    (h : Concrete.ownBits? p text = some bits) : expressionWidth p text bits = bits := by
  unfold Concrete.ownBits? at h
  unfold expressionWidth
  cases hshape : ExpressionShape.of? p text with
  | none => rfl
  | some shape =>
    rw [hshape] at h
    cases shape with
    | element => exact Option.some.inj h
    | _ => rfl

/-- An address that is cut at the same width on both ways. -/
theorem toNat_address_mod {s : Setting} {a : Word} (ha : a.width = s.pointerBits) {read own : Nat}
    (h : min read s.pointerBits = min own s.pointerBits) : a.toNat % 2 ^ read = a.toNat % 2 ^ own := by
  rw [← a.toNat_mod_min read, ← a.toNat_mod_min own, ha, h]

variable {fuel bits : Nat} {text : List Char}

theorem Reads.element {module : Nat} {g : Global} {name : String} {indices : List (Nat × Int)} {v : Value}
    (hshape : ExpressionShape.of? s.project text = some (.element module g name indices))
    (hwidth : v.width = s.pointerBits)
    (hv : Evaluates s T rs (fun place _ => do
      let base ← Concrete.address s.project place name
      let offset ← Concrete.offset s.project.layout (fun i => some (.ofInt i.1 i.2)) base.width g.ty indices
      return ⟨base.bits + offset⟩) v m) : Reads s T rs (fuel + 1) text bits v m where
  width := by
    unfold expressionWidth
    rw [hshape]
    exact hwidth
  known := hv.known
  word := by
    intro i place cs hcovers hrep read own bits' hagrees _ _
    unfold expressionAgrees at hagrees
    simp only [hshape, Bool.and_eq_true, beq_iff_eq] at hagrees
    refine ⟨v.word i, ?_, ?_, toNat_address_mod (s := s) ((Value.width_word i v).trans hwidth) hagrees.2⟩
    · rw [Concrete.expression, hshape, Option.bind_eq_bind, Option.bind_some]
      dsimp only
      rw [if_pos hagrees.1]
      exact hv.word i place cs hcovers hrep
    · unfold expressionWidth
      rw [hshape]
      exact (Value.width_word i v).trans hwidth

/-- A conversion that is no other one's cuts what it converts. -/
theorem Reads.reference {module : Nat} {name : String} {a : Value} (hbits : bits ≠ 0)
    (hshape : ExpressionShape.of? s.project text = some (.reference module name)) (hwidth : a.width = s.pointerBits)
    (ha : Evaluates s T rs (fun place _ => Concrete.address s.project place name) a m) :
    Reads s T rs (fuel + 1) text bits (a.resize bits) m where
  width := by
    unfold expressionWidth
    rw [hshape]
    exact Value.width_resize hbits a
  known := Value.known_resize ha.known bits
  word := by
    intro i place cs hcovers hrep read own bits' hagrees hread hown
    unfold expressionAgrees at hagrees
    unfold expressionWidth at hread hown ⊢
    simp only [hshape, beq_iff_eq] at hagrees hread hown ⊢
    refine ⟨(a.word i).resize bits', ?_, rfl, ?_⟩
    · have haddress : Concrete.address s.project place name = some (a.word i) := ha.word i place cs hcovers hrep
      rw [Concrete.expression, hshape, Option.bind_eq_bind, Option.bind_some]
      dsimp only
      rw [haddress]
      rfl
    · rw [Value.word_resize i hbits, Word.toNat_resize_mod _ hread, Word.toNat_resize_mod _ hown]
      exact toNat_address_mod (s := s) ((Value.width_word i a).trans hwidth) hagrees

theorem Reads.integer {width : Nat} {n : Int} (hshape : ExpressionShape.of? s.project text = some (.integer width n)) :
    Reads s T rs (fuel + 1) text bits (.ofInt bits n) m where
  width := by
    unfold expressionWidth
    rw [hshape]
    rfl
  known := Value.known_ofInt _ _
  word := by
    intro i place cs _ _ read own bits' hagrees hread hown
    unfold expressionAgrees at hagrees
    unfold expressionWidth at hread hown ⊢
    simp only [hshape, beq_iff_eq] at hagrees hread hown ⊢
    refine ⟨(Word.ofInt width n).resize bits', ?_, rfl, ?_⟩
    · rw [Concrete.expression, hshape]
      rfl
    · rw [Value.word_ofInt, Word.toNat_ofInt_mod n hread, hagrees, Word.toNat_resize_mod _ hown,
        ← Word.toNat_mod_min _ own]
      exact (Word.toNat_ofInt_mod n (Nat.min_le_right own width)).symm

theorem Reads.null (hshape : ExpressionShape.of? s.project text = some .null) :
    Reads s T rs (fuel + 1) text bits (.ofNat bits 0) m where
  width := by
    unfold expressionWidth
    rw [hshape]
    rfl
  known := Value.known_ofNat _ _
  word := by
    intro i place cs _ _ read own bits' _ _ _
    unfold expressionWidth
    rw [hshape]
    refine ⟨.ofNat bits' 0, ?_, rfl, ?_⟩
    · rw [Concrete.expression, hshape]
      rfl
    · show (BitVec.ofNat bits 0).toNat % _ = (BitVec.ofNat bits' 0).toNat % _
      rw [BitVec.toNat_ofNat, BitVec.toNat_ofNat, Nat.zero_mod, Nat.zero_mod, Nat.zero_mod, Nat.zero_mod]

/-- **A conversion of another one** loses bits at both widths, that of the reading and that of the type. -/
theorem Reads.nested {inner : List Char} {width : Option Nat} {v : Value} (hbits : bits ≠ 0)
    (hshape : ExpressionShape.of? s.project text = some (.nested inner width))
    (hv : Reads s T rs fuel inner (width.getD s.pointerBits) v m) :
    Reads s T rs (fuel + 1) text bits (v.resize bits) m where
  width := by
    unfold expressionWidth
    rw [hshape]
    exact Value.width_resize hbits v
  known := Value.known_resize hv.known bits
  word := by
    intro i place cs hcovers hrep read own bits' hagrees hread hown
    unfold expressionAgrees at hagrees
    unfold expressionWidth at hread hown ⊢
    simp only [hshape] at hagrees hread hown ⊢
    cases hinner : Concrete.ownBits? s.project inner with
    | none =>
      rw [hinner] at hagrees
      cases hagrees
    | some b =>
      rw [hinner] at hagrees
      obtain ⟨u, hu, hwidth, heq⟩ := hv.word i place cs hcovers hrep _ _ b hagrees (Nat.min_le_right _ _)
        (Nat.le_trans (Nat.min_le_right own b) (Nat.le_of_eq (expressionWidth_of_ownBits? hinner).symm))
      refine ⟨u.resize bits', ?_, rfl, ?_⟩
      · rw [Concrete.expression, hshape, Option.bind_eq_bind, Option.bind_some]
        dsimp only
        rw [hinner, Option.bind_eq_bind, Option.bind_some, hu]
        rfl
      -- The low bits at either width are those that are left of what is converted.
      · rw [expressionWidth_of_ownBits? hinner] at hwidth
        have hvalue := (v.word i).toNat_mod_min read
        rw [Value.width_word, hv.width] at hvalue
        have hword := u.toNat_mod_min own
        rw [hwidth] at hword
        rw [Value.word_resize i hbits, Word.toNat_resize_mod _ hread, Word.toNat_resize_mod _ hown, ← hvalue, ← hword]
        exact heq

/-- Constant expressions are read as values with the low bits of what is written. -/
theorem quietly_readExpression (haddr : Addresses D s T rs depth address) (hptr : s.pointerBits ≠ 0)
    (hbits : bits ≠ 0) (hm : Sound s T m) (hready : Ready s depth m)
    (hfits : Fits.expression s.project fuel text = true) :
    Quietly D s T (evalExpression s address fuel text bits) m (Reads s T rs fuel text bits) := by
  -- The evaluator, the concrete meaning and the check that the text fits all consume the same fuel.
  induction fuel generalizing text bits m with
  | zero => exact quietly_fault rfl
  | succ fuel ih =>
    obtain ⟨f, hf, heq⟩ := evalExpression_eq s address fuel bits text
    rw [heq]
    unfold Fits.expression at hfits
    cases hshape : ExpressionShape.of? s.project text with
    | none => exact quietly_fault hf.1
    | some shape =>
      rw [hshape] at hfits
      cases shape with
      | element module g name indices =>
        exact (quietly_elementAddress haddr hptr hm hready hfits).mono fun v m' _ hv => .element hshape hv.1 hv.2
      | nested inner width =>
        simp only [Bool.and_eq_true, bne_iff_ne, ne_eq] at hfits
        have hinner : width.getD s.pointerBits ≠ 0 := by
          cases width with
          | none => exact hptr
          | some w => exact fun h => hfits.1 (congrArg some h)
        refine quietly_bind (ih hinner hm hready hfits.2) fun v m₁ h₁ hv => ?_
        exact quietly_pure h₁.sound (.nested hbits hshape hv)
      | reference module name =>
        refine quietly_bind (haddr module name m hm hready) fun a m₁ h₁ ha => ?_
        obtain ⟨⟨x, rfl⟩, ha⟩ := ha
        exact quietly_pure h₁.sound (.reference hbits hshape rfl ha)
      | integer width n => exact quietly_pure hm (.integer hshape)
      | null => exact quietly_pure hm (.null hshape)

/-- **Constant expressions** that are read as they are written have the values that a run has for them. -/
theorem quietly_evalExpression (haddr : Addresses D s T rs depth address) (hptr : s.pointerBits ≠ 0)
    (hbits : bits ≠ 0) (hm : Sound s T m) (hready : Ready s depth m)
    (hfits : Fits.expression s.project fuel text = true)
    (hagrees : s.project.agrees = true → expressionAgrees s.project fuel text (expressionWidth s.project text bits)
      (expressionWidth s.project text bits) = true) :
    Quietly D s T (evalExpression s address fuel text bits) m fun v m' =>
      v.width = expressionWidth s.project text bits ∧
        Evaluates s T rs (fun place _ => Concrete.expression s.project place fuel text bits) v m' := by
  refine (quietly_readExpression haddr hptr hbits hm hready hfits).mono fun v m' _ hv => ⟨hv.width, hv.known, ?_⟩
  intro i place cs hcovers hrep
  obtain ⟨u, hu, hwidth, heq⟩ := hv.word i place cs hcovers hrep _ _ bits (hagrees hcovers.agrees) (Nat.le_refl _)
    (Nat.le_refl _)
  have hlt := u.toNat_lt
  have hlt' := (v.word i).toNat_lt
  rw [Value.width_word, hv.width] at hlt'
  rw [hwidth] at hlt
  rw [Nat.mod_eq_of_lt hlt', Nat.mod_eq_of_lt hlt] at heq
  rw [hu, Word.ext_toNat (((Value.width_word i v).trans hv.width).trans hwidth.symm) heq]

/-! ## Operands -/

/-- That the values in registers are known and have the widths of the registers' types. -/
def Typed (s : Setting) (T : Table) (scope : Scope) (rs : Registers) : Prop :=
  ∀ n v, rs.get? n = some v →
    v.Known T ∧ s.project.layout.scalarBits? (scope.operandType (.register n)) = some v.width

/-- Values that stand for what a run computes one after another. -/
structure EvaluatesList (s : Setting) (T : Table) (rs : Registers)
    (y : Concrete.Placement → Concrete.Registers → Option (List Word)) (vs : List Value) (m : Machine) :
    Prop where
  known : ∀ v ∈ vs, v.Known T
  words : ∀ i place cs, Covers s place m → Represents i rs cs → y place cs = some (vs.map (Value.word i))

variable {scope : Scope} {module : Nat}

theorem quietly_evalBytes (hm : Sound s T m) {e : Ty} {bs : List UInt8} {w : Nat}
    (hw : (s.project.layout.bits? e).map (fun n => (bs.map fun _ => n).sum) = some w) :
    Quietly D s T
      (match s.project.layout.bits? e, bs with
        | _, [] => fault .emptyAggregate
        | some n, bs => pure (Value.concat (bs.map fun b => .ofNat n b.toNat))
        | none, _ => fault (.unsizedConstant e)) m fun v m' =>
      v.width = w ∧ Evaluates s T rs (fun _ _ => do
        let n ← s.project.layout.bits? e
        return .concat (bs.map fun b => .ofNat n b.toNat)) v m' := by
  obtain ⟨n, hn, rfl⟩ := Option.map_eq_some_iff.mp hw
  rw [hn]
  cases bs with
  | nil => exact quietly_fault rfl
  | cons b bs =>
    refine quietly_pure hm ⟨?_, ?_⟩
    · rw [Value.width_concat, List.map_map]
      rfl
    · refine evaluates_pure (Value.known_concat ?_) fun i place cs => ?_
      · intro v hv
        obtain ⟨c, _, rfl⟩ := List.mem_map.mp hv
        exact Value.known_ofNat n c.toNat
      · rw [Value.word_concat, List.map_map]
        rfl

mutual

/-- **Operands.** An operand of some width has the value that a run has for it. -/
theorem quietly_evalWith (haddr : Addresses D s T rs depth address) (hptr : s.pointerBits ≠ 0)
    (hrs : Typed s T scope rs) (o : Operand) {w : Nat}
    (hw : Fits.operandWidth? s.project scope o = some w)
    (hagrees : s.project.agrees = true → o.agrees s.project = true) {m : Machine} (hm : Sound s T m)
    (hready : Ready s depth m) :
    Quietly D s T (evalWith s address module rs o) m fun v m' =>
      v.width = w ∧ Evaluates s T rs (fun place cs => Concrete.operand s.project place cs o) v m' := by
  cases o with
  | register n =>
    unfold evalWith
    cases hn : rs.get? n with
    | none => exact quietly_fault rfl
    | some v =>
      obtain ⟨hknown, htype⟩ := hrs n v hn
      refine quietly_pure hm ⟨Option.some.inj (htype.symm.trans hw), hknown, ?_⟩
      exact fun i place cs _ hrep => hrep n v hn
  | global n =>
    refine (haddr module n m hm hready).mono ?_
    rintro v m₁ _ ⟨⟨x, rfl⟩, hv⟩
    exact ⟨Option.some.inj hw, hv⟩
  | assembly => cases hw
  | constant t v =>
    obtain ⟨bits, hbits, hw⟩ := Option.bind_eq_some_iff.mp hw
    unfold evalWith
    simp only [Concrete.operand, hbits]
    refine quietly_evalConstant haddr hptr hrs t v hw (fun h => ?_) hm hready
    have ho := hagrees h
    rwa [Operand.agrees, hbits] at ho

theorem quietly_evalConstant (haddr : Addresses D s T rs depth address) (hptr : s.pointerBits ≠ 0)
    (hrs : Typed s T scope rs) (t : Ty) (v : ConstantValue) {bits w : Nat}
    (hw : Fits.constantWidth? s.project scope t bits v = some w)
    (hagrees : s.project.agrees = true → v.agrees s.project bits = true) {m : Machine} (hm : Sound s T m)
    (hready : Ready s depth m) :
    Quietly D s T (evalConstant s address module rs t bits v) m fun v' m' =>
      v'.width = w ∧ Evaluates s T rs (fun place cs => Concrete.constant s.project place cs t bits v) v' m' := by
  cases v with
  | expression text =>
    unfold Fits.constantWidth? at hw
    dsimp only at hw
    split at hw
    · cases hw
    · rename_i hno
      rw [Bool.or_eq_true, decide_eq_true_iff, not_or, Bool.not_eq_true, Bool.not_eq_false'] at hno
      have hwidth : expressionWidth s.project (Text.trim text.toList) bits = w := by
        revert hw
        unfold expressionWidth
        cases ExpressionShape.of? s.project (Text.trim text.toList) with
        | none => exact Option.some.inj
        | some shape => cases shape <;> exact Option.some.inj
      rw [← hwidth]
      exact quietly_evalExpression haddr hptr hno.1 hm hready hno.2 fun h => by
        have hv := hagrees h
        rwa [ConstantValue.agrees] at hv
  -- `undef` and floating-point constants have no width in a fitting project, since the engine makes
  -- up a symbol for them that no concrete value matches.
  | undef => cases hw
  | null =>
    exact quietly_pure hm ⟨Option.some.inj hw, evaluates_pure (Value.known_ofNat _ _) fun _ _ _ => rfl⟩
  | int n =>
    unfold Fits.constantWidth? at hw
    unfold evalConstant
    cases t with
    | int k =>
      exact quietly_pure hm ⟨Option.some.inj hw, evaluates_pure (Value.known_ofInt _ _) fun _ _ _ => rfl⟩
    | _ => cases hw
  | real b => cases hw
  | bytes bs =>
    unfold Fits.constantWidth? at hw
    unfold evalConstant
    cases t with
    | array n e => exact quietly_evalBytes hm hw
    | vector n e => exact quietly_evalBytes hm hw
    | _ => cases hw
  | elements es =>
    -- Mutually recursive with `quietly_evalWith` through the list of elements, the only case that has
    -- operands inside.
    unfold evalConstant
    have hes : s.project.agrees = true → Operand.allAgree s.project es = true := fun h => by
      have hv := hagrees h
      rwa [ConstantValue.agrees] at hv
    refine quietly_bind (quietly_evalAll haddr hptr hrs (Concrete.elementLimit s.project t es) es hw hes hm
      hready) fun vs m₁ h₁ hvs => ?_
    obtain ⟨hwidth, hvs⟩ := hvs
    cases vs with
    | nil => exact quietly_fault rfl
    | cons v vs =>
      refine quietly_pure h₁.sound ⟨(Value.width_concat _).trans hwidth, Value.known_concat hvs.known, ?_⟩
      intro i place cs hcovers hrep
      simp only [Concrete.constant, hvs.words i place cs hcovers hrep, Value.word_concat]
      rfl

theorem quietly_evalAll (haddr : Addresses D s T rs depth address) (hptr : s.pointerBits ≠ 0)
    (hrs : Typed s T scope rs) (n : Nat) (os : List Operand) {w : Nat}
    (hw : Fits.operandsWidth? s.project scope n os = some w)
    (hagrees : s.project.agrees = true → Operand.allAgree s.project os = true) {m : Machine} (hm : Sound s T m)
    (hready : Ready s depth m) :
    Quietly D s T (evalAll s address module rs n os) m fun vs m' =>
      (vs.map Value.width).sum = w ∧
        EvaluatesList s T rs (fun place cs => Concrete.operands s.project place cs n os) vs m' := by
  -- The count and the list run down together; either may end first.
  cases n with
  | zero =>
    unfold evalAll
    unfold Fits.operandsWidth? at hw
    refine quietly_pure hm ⟨Option.some.inj hw, fun v hv => absurd hv List.not_mem_nil, fun _ _ _ _ _ => ?_⟩
    simp [Concrete.operands]
  | succ n =>
    cases os with
    | nil =>
      unfold evalAll
      unfold Fits.operandsWidth? at hw
      refine quietly_pure hm ⟨Option.some.inj hw, fun v hv => absurd hv List.not_mem_nil,
        fun _ _ _ _ _ => ?_⟩
      simp [Concrete.operands]
    | cons o os =>
      unfold Fits.operandsWidth? at hw
      obtain ⟨k, hk, hw⟩ := Option.bind_eq_some_iff.mp hw
      obtain ⟨l, hl, rfl⟩ := Option.map_eq_some_iff.mp hw
      have hos : s.project.agrees = true → o.agrees s.project = true ∧ Operand.allAgree s.project os = true := fun h => by
        have hall := hagrees h
        rwa [Operand.allAgree, Bool.and_eq_true] at hall
      unfold evalAll
      refine quietly_bind (quietly_evalWith haddr hptr hrs o hk (fun h => (hos h).1) hm hready) fun v m₁ h₁ hv => ?_
      refine quietly_bind (quietly_evalAll haddr hptr hrs n os hl (fun h => (hos h).2) h₁.sound (hready.quiet h₁))
        fun vs m₂ h₂ hvs => ?_
      refine quietly_pure h₂.sound ⟨?_, ?_, ?_⟩
      · rw [List.map_cons, List.sum_cons, hv.1, hvs.1]
      · exact List.forall_mem_cons.mpr ⟨hv.2.known, hvs.2.known⟩
      · intro i place cs hcovers hrep
        simp only [Concrete.operands, (hv.2.quiet h₂).word i place cs hcovers hrep,
          hvs.2.words i place cs hcovers hrep]
        rfl

end

end PathSafety.Machine
