import PathSafety.Proofs.IR.References

/-!
# Constants that are read as they are written

Reading passes over types in constant expressions. A number is made at the width of its conversion, and a conversion
inside another one at that of pointers unless it ends in a width that is looked for; the indices of an address
computation are applied to the type of the variable. Nothing comes of it as long as the types that are passed over make
no difference: a number keeps the same bits at all widths on either way, an address is cut at the same width, and an
address computation is written for the type of its variable. All of it can be computed.

Contents:

* `Machine.expressionWidth` — the width at which an expression is read;
* `expressionAgrees` — that an expression is read as it is written;
* `Operand.agrees`, `Op.agrees`, `Project.agrees` — operands, instructions and projects of which this holds.
-/

namespace PathSafety

open IR

/-- The width that a constant expression is read at where `bits` are asked for. -/
def Machine.expressionWidth (p : Project) (text : List Char) (bits : Nat) : Nat :=
  match ExpressionShape.of? p text with
  | some (.element ..) => p.layout.pointerBits
  | _ => bits

namespace IR

variable {p : Project} {o : Operand} {op op' : Op}

/-- Whether the low bits of a constant expression are read as they are written: `read` of them are left on the way of
its reading, and `own` of them by the types that are written. -/
def expressionAgrees (p : Project) : Nat → List Char → Nat → Nat → Bool
  | 0, _, _, _ => true
  | fuel + 1, text, read, own =>
    match ExpressionShape.of? p text with
    | some (.element _ g _ _) =>
      Concrete.isWrittenFor g text && min read p.layout.pointerBits == min own p.layout.pointerBits
    | some (.nested inner width) =>
      match Concrete.ownBits? p inner with
      | some bits =>
        expressionAgrees p fuel inner (min read (Machine.expressionWidth p inner (width.getD p.layout.pointerBits)))
          (min own bits)
      | none => false
    | some (.reference _ _) => min read p.layout.pointerBits == min own p.layout.pointerBits
    | some (.integer width n) => (Word.ofInt read n).toNat == (Word.ofInt (min own width) n).toNat
    | some .null | none => true

/-- The number -1 of eight bits is 255 as an address, but read as the largest one. -/
example : Concrete.expression p (fun _ => none) 2 "inttoptr (i8 -1 to i8*)".toList 64 = some (.ofNat 64 255) ∧
    expressionAgrees p 2 "inttoptr (i8 -1 to i8*)".toList 64 64 = false := ⟨rfl, rfl⟩

mutual

/-- Whether the constant expressions in an operand are read as they are written. -/
def Operand.agrees (p : Project) : Operand → Bool
  | .constant t v => (p.layout.bits? t).all fun bits => v.agrees p bits
  | .register _ | .global _ | .assembly .. => true

/-- Whether the constant expressions in a constant of `bits` are read as they are written. -/
def ConstantValue.agrees (p : Project) (bits : Nat) : ConstantValue → Bool
  | .expression text =>
    let text := Text.trim text.toList
    let width := Machine.expressionWidth p text bits
    expressionAgrees p (text.length + 1) text width width
  | .elements es => Operand.allAgree p es
  | .null | .undef | .int _ | .real _ | .bytes _ => true

/-- Whether the constant expressions in several operands are read as they are written. -/
def Operand.allAgree (p : Project) : List Operand → Bool
  | [] => true
  | o :: os => o.agrees p && Operand.allAgree p os

end

/-- Whether the constants that an operation can take are read as they are written. -/
def Op.agrees (p : Project) (op : Op) : Bool := op.taken.all (Operand.agrees p)

/-- Whether all constants of a project are read as they are written, those of instructions and those that variables
have at first. -/
def Project.agrees (p : Project) : Bool :=
  (p.routines.all fun r => r.function.blocks.all fun b => b.instrs.all fun i => i.op.agrees p) &&
    p.modules.all fun m => m.globals.all fun g => g.init.all (Operand.agrees p)

theorem Op.agrees_of_mem (h : op.agrees p = true) (ho : o ∈ op.taken) : o.agrees p = true :=
  List.all_eq_true.mp h o ho

theorem Project.agrees_op (h : p.agrees = true) {r : Routine} (hr : r ∈ p.routines) {b : Block}
    (hb : b ∈ r.function.blocks) {i : Instr} (hi : i ∈ b.instrs) : i.op.agrees p = true := by
  rw [Project.agrees, Bool.and_eq_true] at h
  exact List.all_eq_true.mp (List.all_eq_true.mp (List.all_eq_true.mp h.1 r hr) b hb) i hi

theorem Project.agrees_init (h : p.agrees = true) {module : Nat} {n : String} {g : Global}
    (hg : p.globalIn? module n = some (.data g)) {init : Operand} (hinit : g.init = some init) :
    init.agrees p = true := by
  obtain ⟨m, hm, hv⟩ := Option.bind_eq_some_iff.mp hg
  rw [Project.agrees, Bool.and_eq_true] at h
  have hinits := List.all_eq_true.mp (List.all_eq_true.mp h.2 m (List.mem_of_getElem? hm)) g (Module.mem_of_global? hv).1
  rwa [hinit] at hinits

end IR

end PathSafety
