import Mathlib.Algebra.Order.Ring.Int
import PathSafety.Proofs.IR.ConstantAddress
import PathSafety.Proofs.IR.Parts

/-!
# Converted constants

An integer, a null pointer or a global value, and conversions of it one inside the other. The conversions are kept as
text. What is read from the text is what was written, up to two things. A target whose text holds a parenthesis is not
read at all. And the type of what is converted is passed over: a number has the width of its conversion, and a nested
conversion that of pointers unless it ends in a width of its own.

Contents:

* `ConstantCast`, `ConstantCast.operand` — converted constants, and how they are written;
* `ConstantCast.WellTyped`, `ConstantCast.Legible` — the conversions there are, and the names that can be read;
* `ConstantCast.narrowest`, `ConstantCast.narrowestRead` — the widths of the types, and those that are read;
* `castOperand?_text`, `shape_int`, `shape_null`, `shape_global`, `shape_nested` — what is read, by what was written.
-/

namespace PathSafety.IR

open PathSafety.Text

/-- A constant, by what it is converted from. -/
inductive ConstantCast where
  | int (width : Nat) (n : Int)
  | null (t : Ty)
  | global (name : String)
  | cast (op : CastOp) (e : ConstantCast) (target : Ty)

namespace ConstantCast

/-- What is converted in the end. -/
def source : ConstantCast → ConstantCast
  | cast _ e _ => e.source
  | e => e

/-- The constant as an operand: all conversions are text. -/
def operand (scope : Scope) : ConstantCast → Operand
  | int w n => .constant (.int w) (.int n)
  | null t => .constant t .null
  | global n => .global n
  | cast op e target =>
    .constant target (.expression
      (op.keyword ++ " (" ++ scope.typed (e.operand scope) ++ " to " ++ target.text ++ ")"))

/-- The type of the constant. -/
def type (scope : Scope) (e : ConstantCast) : Ty := scope.operandType (e.operand scope)

/-- That the constant is one that there is. Addresses become other addresses and integers, and integers addresses;
anything else keeps its bits. -/
def WellTyped (l : Layout) (scope : Scope) : ConstantCast → Prop
  | int w _ => w ≠ 0
  | null t => t.isPointer = true
  | global n => ∃ v, scope.module.global? n = some v
  | cast op e target => e.WellTyped l scope ∧
    match op with
    | .bitcast => l.bits? target = l.bits? (e.type scope)
    | .ptrtoint => (e.type scope).isPointer = true ∧ ∃ n, n ≠ 0 ∧ target = .int n
    | .inttoptr => (∃ n, e.type scope = .int n) ∧ target.isPointer = true
    | .addrspacecast => (e.type scope).isPointer = true ∧ target.isPointer = true
    | _ => False

/-- That the names in a constant do not look like something else that constants are made of. -/
def Legible (scope : Scope) : ConstantCast → Prop
  | global n => ExpressionText.nested? false n.toList = none
  | cast _ e target => e.Legible scope ∧ (e.type scope).Plain ∧ ¬ " to ".toList <:+: target.text.toList
  | _ => True

/-- That some target holds a parenthesis. -/
def Parenthesized : ConstantCast → Prop
  | cast _ e target => target.Parenthesized ∨ e.Parenthesized
  | _ => False

/-! ## Widths -/

/-- How wide a constant is. -/
def width (l : Layout) (scope : Scope) (e : ConstantCast) : Nat := (l.bits? (e.type scope)).getD 0

/-- The smallest width of a constant and of what it is converted from. -/
def narrowest (l : Layout) (scope : Scope) : ConstantCast → Nat
  | cast op e target => min ((cast op e target).width l scope) (e.narrowest l scope)
  | e => e.width l scope

/-- The width at which something is read that is converted to one of `bits`. -/
def readWidth (l : Layout) (bits : Nat) : ConstantCast → Nat
  | cast .ptrtoint _ target => (l.bits? target).getD 0
  | cast .. => l.pointerBits
  | _ => bits

/-- The smallest width that is read in a constant, itself read at one of `bits`. -/
def narrowestRead (l : Layout) (bits : Nat) : ConstantCast → Nat
  | cast _ e _ => min bits (e.narrowestRead l (e.readWidth l bits))
  | _ => bits

/-- That no bits of a number are lost that the instructions keep, and none are kept that they lose. -/
def Agrees (l : Layout) (scope : Scope) (e : ConstantCast) : Prop :=
  ∀ w n, e.source = int w n →
    n % 2 ^ e.narrowest l scope = n % 2 ^ e.narrowestRead l (e.width l scope)

variable {p : Project} {l : Layout} {scope : Scope} {e : ConstantCast} {n : String} {op op' : CastOp} {t target : Ty}
  {k bits : Nat}

theorem narrowest_le (l : Layout) (scope : Scope) (e : ConstantCast) : e.narrowest l scope ≤ e.width l scope := by
  cases e with
  | cast => exact Nat.min_le_left _ _
  | _ => exact Nat.le_refl _

theorem narrowestRead_le (l : Layout) (bits : Nat) (e : ConstantCast) : e.narrowestRead l bits ≤ bits := by
  cases e with
  | cast => exact Nat.min_le_left _ _
  | _ => exact Nat.le_refl _

/-- Pointers are as wide as one another. -/
theorem width_of_isPointer (ht : (e.type scope).isPointer = true) : e.width l scope = l.pointerBits := by
  unfold width
  rw [bits_of_isPointer ht]
  rfl

theorem isPointer_type_global (h : (global n).WellTyped l scope) : ((global n).type scope).isPointer = true := by
  obtain ⟨v, hv⟩ := h
  show (scope.operandType (.global n)).isPointer = true
  simp only [Scope.operandType, hv]
  rfl

/-- What is converted has a type with a size, and so has what it is converted to. -/
theorem bits_type (h : e.WellTyped l scope) (hpointers : l.pointerBits ≠ 0) :
    e.width l scope ≠ 0 ∧ l.bits? (e.type scope) = some (e.width l scope) := by
  have hsized : ∀ {e : ConstantCast} {b : Nat}, l.bits? (e.type scope) = some b → b ≠ 0 →
      e.width l scope ≠ 0 ∧ l.bits? (e.type scope) = some (e.width l scope) := fun hb hne => by
    unfold width
    rw [hb]
    exact ⟨hne, rfl⟩
  have hpointer : ∀ {e : ConstantCast}, (e.type scope).isPointer = true →
      e.width l scope ≠ 0 ∧ l.bits? (e.type scope) = some (e.width l scope) := fun ht =>
    hsized (bits_of_isPointer ht) hpointers
  induction e with
  | int w n => exact hsized rfl h
  | null t => exact hpointer h
  | global n => exact hpointer (isPointer_type_global h)
  | cast op e target ih =>
    obtain ⟨he, hop⟩ := h
    -- A bit cast keeps the width of what it casts, which is where the induction hypothesis comes
    -- in.
    cases op with
    | bitcast =>
      obtain ⟨hne, hbits⟩ := ih he
      exact hsized (hop.trans hbits) hne
    | ptrtoint =>
      obtain ⟨_, n, hn, rfl⟩ := hop
      exact hsized rfl hn
    | inttoptr | addrspacecast => exact hpointer hop.2
    | _ => exact hop.elim

/-- A conversion has the width that it is read at, or that of pointers is read, which is its width or that of what it is
converted from. -/
theorem readWidth_eq (h : (cast op e target).WellTyped l scope) :
    (cast op e target).readWidth l bits = (cast op e target).width l scope ∨
      (cast op e target).readWidth l bits = l.pointerBits ∧
        ((cast op e target).width l scope = e.width l scope ∨ (cast op e target).width l scope = l.pointerBits) := by
  obtain ⟨_, hop⟩ := h
  cases op with
  | bitcast => exact Or.inr ⟨rfl, Or.inl (congrArg (·.getD 0) hop)⟩
  | ptrtoint => exact Or.inl rfl
  | inttoptr | addrspacecast => exact Or.inr ⟨rfl, Or.inr (width_of_isPointer (e := cast _ e target) hop.2)⟩
  | _ => exact hop.elim

/-- **The widths that are read** are as small as those of the types, up to the width of pointers and that of what is
converted in the end. -/
theorem min_narrowest (h : e.WellTyped l scope)
    (hbits : bits = e.width l scope ∨ bits = e.readWidth l (e.width l scope)) :
    min (e.narrowest l scope) l.pointerBits =
      min (min (e.source.width l scope) l.pointerBits) (e.narrowestRead l bits) := by
  induction e generalizing bits with
  | cast op e target ih =>
    have hinner : min (e.narrowest l scope) l.pointerBits =
        min (min (e.source.width l scope) l.pointerBits) (e.narrowestRead l (e.readWidth l bits)) ∨
          e.narrowest l scope = e.source.width l scope ∧ e.narrowestRead l (e.readWidth l bits) = bits := by
      cases e with
      | cast op' e' t => exact Or.inl (ih h.1 (Or.inr (by cases op' <;> rfl)))
      | _ => exact Or.inr ⟨rfl, rfl⟩
    have hle := narrowest_le l scope e
    have hread := @readWidth_eq l scope e op target ((cast op e target).width l scope) h
    show min (min ((cast op e target).width l scope) (e.narrowest l scope)) l.pointerBits =
      min (min (e.source.width l scope) l.pointerBits) (min bits (e.narrowestRead l (e.readWidth l bits)))
    rcases hbits with rfl | rfl <;> omega
  | _ =>
    have hwidth : bits = width l scope _ := hbits.elim id id
    simp only [narrowest, source, narrowestRead, hwidth]
    omega

/-! ## Numbers -/

theorem emod_two_pow_min (n : Int) (a b : Nat) : n % 2 ^ a % 2 ^ b = n % 2 ^ min a b := by
  have hpos : (0 : Int) < 2 ^ a := Int.pow_pos (by decide)
  rcases Nat.le_total a b with hab | hba
  · have hle : (2 : Int) ^ a ≤ 2 ^ b := pow_le_pow_right₀ (by decide) hab
    rw [Nat.min_eq_left hab]
    exact Int.emod_eq_of_lt (Int.emod_nonneg _ (Int.ne_of_gt hpos)) (Int.lt_of_lt_of_le (Int.emod_lt_of_pos _ hpos) hle)
  · rw [Nat.min_eq_right hba, Int.emod_emod_of_dvd _ (pow_dvd_pow 2 hba)]

/-- **Numbers that fit** into what is converted in the end, and into pointers, are read as they are. -/
theorem emod_narrowest {x : Int} (h : e.WellTyped l scope) (hnonneg : 0 ≤ x) (hpointers : x < 2 ^ l.pointerBits)
    (hsource : x < 2 ^ e.source.width l scope) :
    x % 2 ^ e.narrowest l scope = x % 2 ^ e.narrowestRead l (e.width l scope) := by
  have hfits : ∀ a, x % 2 ^ a = x % 2 ^ min (min (e.source.width l scope) l.pointerBits) a := fun a => by
    rw [← emod_two_pow_min, ← emod_two_pow_min, Int.emod_eq_of_lt hnonneg hsource, Int.emod_eq_of_lt hnonneg hpointers]
  have hmin := min_narrowest h (Or.inl rfl)
  rw [hfits (e.narrowest l scope), hfits (e.narrowestRead l _), ← hmin]
  congr 2
  omega

/-! ## How constants are written -/

/-- The text that a constant is written as, without its type. -/
def text (scope : Scope) (e : ConstantCast) : List Char := (scope.reference (e.operand scope)).toList

theorem text_null (ht : t.isPointer = true) : text scope (null t) = "null".toList := by
  cases t with
  | ptr | ptrTo => rfl
  | _ => cases ht

theorem text_global : text scope (global n) = '@' :: ExpressionText.quoted n.toList := ConstantAddress.text_global

theorem text_cast : text scope (cast op e target) = ExpressionText.conversion op.keyword.toList
    ((e.type scope).text.toList ++ ' ' :: e.text scope) target.text.toList := by
  show (op.keyword ++ " (" ++ scope.typed (e.operand scope) ++ " to " ++ target.text ++ ")").toList = _
  unfold ExpressionText.conversion
  simp only [String.toList_append, ConstantAddress.toList_typed, List.append_assoc]
  rfl

/-- The conversions that there are have keywords that are read. -/
theorem keyword_mem (h : (cast op e target).WellTyped l scope) : op.keyword.toList ∈ ExpressionText.castKeywords := by
  obtain ⟨_, hop⟩ := h
  cases op with
  | bitcast | ptrtoint | inttoptr | addrspacecast => decide
  | _ => exact hop.elim

/-- Constants end with a digit, a letter, a quote or a parenthesis. -/
theorem exists_text_eq_concat (h : e.WellTyped l scope) : ∃ s c, e.text scope = s ++ [c] ∧ isBlank c = false := by
  cases e with
  | int w n =>
    obtain ⟨s, c, htext, hdigit⟩ := exists_toString_eq_concat n
    exact ⟨s, c, htext, isBlank_of_isDigit hdigit⟩
  | null t => exact ⟨"nul".toList, 'l', text_null h, by decide⟩
  | global n => exact ⟨'@' :: '"' :: n.toList.flatMap ExpressionText.escape, '"', text_global, by decide⟩
  | cast op e target =>
    rw [text_cast]
    unfold ExpressionText.conversion
    simp only [← List.append_assoc]
    exact ⟨_, ')', rfl, by decide⟩

/-! ## What is read -/

/-- A conversion with a parenthesis in its target is not read, neither as one nor as an address computation. -/
theorem castOperand?_text (h : (cast op e target).WellTyped l scope) (hlegible : (cast op e target).Legible scope)
    (htarget : target.Parenthesized) : ExpressionText.addressOperands? (text scope (cast op e target)) = none ∧
      ExpressionText.castOperand? (text scope (cast op e target)) = none := by
  rw [text_cast]
  exact ⟨ExpressionText.addressOperands?_conversion (keyword_mem h) _ _,
    ExpressionText.castOperand?_parenthesized (keyword_mem h) hlegible.2.2 (ExpressionText.not_prefix_text target)
      htarget⟩

section Read

variable (hkeyword : op.keyword.toList ∈ ExpressionText.castKeywords) (htarget : ¬ target.Parenthesized)
include hkeyword htarget

/-- A number is read with the width of its type. -/
theorem shape_int {w : Nat} {j : Int} (hlegible : (cast op (int w j) target).Legible scope) :
    ExpressionShape.of? p (text scope (cast op (int w j) target)) = some (.integer w j) := by
  rw [text_cast]
  exact ExpressionShape.of?_integer hkeyword hlegible.2.2 htarget w j

theorem shape_null (ht : t.isPointer = true) (hlegible : (cast op (null t) target).Legible scope) :
    ExpressionShape.of? p (text scope (cast op (null t) target)) = some .null := by
  rw [text_cast, text_null ht]
  exact ExpressionShape.of?_null hkeyword hlegible.2.1 hlegible.2.2 htarget

theorem shape_global {v : GlobalValue} (hproject : p.global? n = some (k, v))
    (hlegible : (cast op (global n) target).Legible scope) :
    ExpressionShape.of? p (text scope (cast op (global n) target)) = some (.reference k n) := by
  rw [text_cast, text_global]
  exact ExpressionShape.of?_reference hkeyword hlegible.2.1 hlegible.2.2 htarget hlegible.1 hproject

/-- A conversion of another one is read as one of its text, at a width if that ends in one. -/
theorem shape_nested (h : (cast op' e t).WellTyped l scope)
    (hlegible : (cast op (cast op' e t) target).Legible scope) :
    ∃ width, ExpressionShape.of? p (text scope (cast op (cast op' e t) target)) =
      some (.nested (text scope (cast op' e t)) width) ∧
        ∀ bits, width.getD l.pointerBits = (cast op' e t).readWidth l bits := by
  have hinner : ExpressionText.nestedAt? (text scope (cast op' e t)) = some op'.keyword.toList := by
    rw [text_cast]
    exact ExpressionText.nestedAt?_conversion (keyword_mem h) _ _
  refine ⟨if op'.keyword.toList = "ptrtoint".toList then
    ExpressionText.targetWidth? (text scope (cast op' e t)) else none, ?_, ?_⟩
  · rw [text_cast]
    exact ExpressionShape.of?_nested hkeyword hlegible.2.1 hlegible.2.2 htarget (exists_text_eq_concat h) hinner
  · intro bits
    obtain ⟨_, hop⟩ := h
    cases op' with
    | ptrtoint =>
      obtain ⟨_, n, _, rfl⟩ := hop
      rw [text_cast, Ty.toList_text_int, ExpressionText.targetWidth?_conversion]
      rfl
    | bitcast | inttoptr | addrspacecast => rfl
    | _ => exact hop.elim

end Read

end ConstantCast

end PathSafety.IR
