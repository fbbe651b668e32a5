import Mathlib.Data.List.Forall2
import Mathlib.Logic.Relation
import PathSafety.Proofs.IR.References
import PathSafety.Proofs.IR.Subobjects

/-!
# Initial values of global variables

An initial value is supported if it is well typed, everything in it has a size, and the names in it are known. It may
refer to any global names, the variable itself included, so that initial values can refer to one another in cycles.

Contents:

* `Operand.names` — the global names that a constant refers to, directly or in constant expressions;
* `Project.Refers` — that the initial value of one variable refers to another;
* `Operand.Supported`, `Project.Supported` — initial values that have a value;
* `Layout.eq_sum_widths` — a value made of parts is as wide as its type.
-/

namespace PathSafety.IR

/-! ## References -/

mutual

/-- The global names that an operand refers to. -/
def Operand.names (p : Project) : Operand → List String
  | .global n => [n]
  | .constant _ c => c.names p
  | .register _ | .assembly .. => []

/-- The global names that a constant refers to. -/
def ConstantValue.names (p : Project) : ConstantValue → List String
  | .expression text => (expressionName? p ((Text.trim text.toList).length + 1) (Text.trim text.toList)).toList
  | .elements es => Operand.namesOf p es
  | .null | .undef | .int _ | .real _ | .bytes _ => []

/-- The global names that several operands refer to. -/
def Operand.namesOf (p : Project) : List Operand → List String
  | [] => []
  | o :: os => o.names p ++ Operand.namesOf p os

end

/-- That the initial value of the variable `a` refers to `b`, where each name is seen in a module of its own. -/
def Project.Refers (p : Project) (through : String → Nat) (a b : String) : Prop :=
  ∃ g init, p.globalIn? (through a) a = some (.data g) ∧ g.init = some init ∧ b ∈ init.names p

/-! ## Supported constants -/

/-- The floating point types. -/
def Ty.IsReal (t : Ty) : Prop := t = .half ∨ t = .float ∨ t = .double

/-- Whether a constant expression is one of those that are modeled, at indices that have an offset. -/
def supportsExpression (p : Project) : Nat → List Char → Bool
  | 0, _ => false
  | fuel + 1, text =>
    match ExpressionShape.of? p text with
    | some (.element _ g _ indices) =>
      (Concrete.offset p.layout (fun (i : Nat × Int) => some (.ofInt i.1 i.2)) p.layout.pointerBits g.ty indices).isSome
    | some (.nested inner _) => supportsExpression p fuel inner
    | some (.reference _ _) | some (.integer ..) | some .null => true
    | none => false

mutual

/-- That an operand, seen in a module, is a constant of a type and has a value. -/
def Operand.Supported (p : Project) (module : Nat) (t : Ty) : Operand → Prop
  | .global n => t.isPointer = true ∧ (p.globalIn? module n).isSome
  | .constant u c => u = t ∧ ∃ bits, p.layout.bits? t = some bits ∧ c.Supported p module t bits
  | .register _ | .assembly .. => False

/-- That a constant of a type, of so many bits, has a value. -/
def ConstantValue.Supported (p : Project) (module : Nat) (t : Ty) (bits : Nat) : ConstantValue → Prop
  | .null => True
  | .undef => bits ≠ 0
  | .int _ => (∃ w, t = .int w) ∨ t.IsReal
  | .real _ => t.IsReal
  | .bytes bs => bs ≠ [] ∧ ∃ w, t = .array bs.length (.int w) ∨ t = .vector bs.length (.int w)
  | .elements es => es ≠ [] ∧ Operand.SupportedAll p module (t.parts p.layout.structs) es
  | .expression text => bits ≠ 0 ∧ Machine.expressionWidth p (Text.trim text.toList) bits = bits ∧
      supportsExpression p ((Text.trim text.toList).length + 1) (Text.trim text.toList) = true

/-- That operands are constants of several types, one after another, and have values. -/
def Operand.SupportedAll (p : Project) (module : Nat) (ts : List Ty) : List Operand → Prop
  | [] => ts = []
  | o :: os => ∃ u us, ts = u :: us ∧ o.Supported p module u ∧ Operand.SupportedAll p module us os

end

/-- That all initial values of a project are supported. -/
def Project.Supported (p : Project) : Prop :=
  ∀ module n g init, p.globalIn? module n = some (.data g) → g.init = some init → init.Supported p module g.ty

theorem Operand.SupportedAll.length_eq {p : Project} {module : Nat} {ts : List Ty} {os : List Operand}
    (h : Operand.SupportedAll p module ts os) : os.length = ts.length := by
  induction os generalizing ts with
  | nil =>
    unfold Operand.SupportedAll at h
    rw [h]
    rfl
  | cons o os ih =>
    unfold Operand.SupportedAll at h
    obtain ⟨u, us, rfl, _, hos⟩ := h
    rw [List.length_cons, List.length_cons, ih hos]

theorem Ty.IsReal.exists_bits {l : Layout} {t : Ty} (h : t.IsReal) : ∃ bits, bits ≠ 0 ∧ l.bits? t = some bits := by
  rcases h with rfl | rfl | rfl
  · exact ⟨16, by decide, rfl⟩
  · exact ⟨32, by decide, rfl⟩
  · exact ⟨64, by decide, rfl⟩

/-! ## Widths -/

namespace Layout

variable {l : Layout} {t : Ty} {ts : List Ty} {bits : Nat} {vs : List Value}

theorem sum?_of_widths (h : List.Forall₂ (fun t (v : Value) => l.bits? t = some v.width) ts vs) :
    l.sum? ts = some (vs.map Value.width).sum := by
  induction h with
  | nil =>
    unfold sum? sumWith
    rfl
  | cons hv _ ih =>
    rw [sum?_cons, hv, ih]
    rfl

/-- **Values of all parts** of a type are together as wide as the type, if it has any. -/
theorem eq_sum_widths (ht : l.bits? t = some bits) (hparts : t.parts l.structs ≠ [])
    (h : List.Forall₂ (fun t (v : Value) => l.bits? t = some v.width) (t.parts l.structs) vs) :
    bits = (vs.map Value.width).sum :=
  Option.some.inj ((sum_parts ht hparts).symm.trans (sum?_of_widths h))

end Layout

end PathSafety.IR
