import PathSafety.Proofs.Concrete.Operand
import PathSafety.Proofs.IR.Fits
import PathSafety.Proofs.IR.Operands

/-!
# Global names that operands refer to

An operand refers to a global name as its own module has it, and a constant expression to a name as the first module of
the project has it. So two references to one name can be to the values of different modules. Where a variable is met for
the first time its initial value is evaluated as well, in the module that gives it, and the names in it are met in turn.

Contents:

* `expressionName?`, `Operand.texts` — the names in constant expressions;
* `Operand.RefersTo`, `Operand.LeadsTo` — the names that an operand refers to, by itself or through initial values;
* `Op.taken`, `Op.LeadsTo` — the operands that an operation can take, and the names that they lead to.
-/

namespace PathSafety.IR

/-- The global name that a constant expression is about. -/
def expressionName? (p : Project) : Nat → List Char → Option String
  | 0, _ => none
  | fuel + 1, text =>
    match ExpressionShape.of? p text with
    | some (.element _ _ name _) | some (.reference _ name) => some name
    | some (.nested inner _) => expressionName? p fuel inner
    | _ => none

mutual

/-- The constant expressions in an operand. -/
def Operand.texts : Operand → List (List Char)
  | .constant _ c => c.texts
  | .register _ | .global _ | .assembly .. => []

/-- The constant expressions in a constant. -/
def ConstantValue.texts : ConstantValue → List (List Char)
  | .expression text => [Text.trim text.toList]
  | .elements es => Operand.textsOf es
  | .null | .undef | .int _ | .real _ | .bytes _ => []

/-- The constant expressions in several operands. -/
def Operand.textsOf : List Operand → List (List Char)
  | [] => []
  | o :: os => o.texts ++ Operand.textsOf os

end

/-- That an operand of the module `i` refers to a name, as the module `j` has it. -/
inductive Operand.RefersTo (p : Project) (i : Nat) (o : Operand) (n : String) : (j : Nat) → Prop
  | name (h : .global n ∈ o.leaves) : RefersTo p i o n i
  /-- A constant expression looks the name up in the whole project. -/
  | expression {text : List Char} {j : Nat} {v : GlobalValue} (htext : text ∈ o.texts)
    (hname : expressionName? p (text.length + 1) text = some n) (hv : p.global? n = some (j, v)) : RefersTo p i o n j

/-- That an operand of the module `i` leads to a name, as the module `j` has it: it refers to the name, or leads to a
variable of which the initial value refers to it. -/
inductive Operand.LeadsTo (p : Project) (i : Nat) (o : Operand) : String → Nat → Prop
  | refers {n : String} {j : Nat} (h : o.RefersTo p i n j) : LeadsTo p i o n j
  | initial {n n' : String} {j j' : Nat} {g : Global} {init : Operand} (h : LeadsTo p i o n j)
    (hg : p.globalIn? j n = some (.data g)) (hinit : g.init = some init) (hn' : init.RefersTo p j n' j') :
    LeadsTo p i o n' j'

/-- That with a variable some names include those to which its initial value refers. -/
def Project.FollowsInitials (p : Project) (A : String → Nat → Prop) : Prop :=
  ∀ ⦃n j g init n' j'⦄, A n j → p.globalIn? j n = some (.data g) → g.init = some init → init.RefersTo p j n' j' → A n' j'

theorem Operand.followsInitials_leadsTo (p : Project) (i : Nat) (o : Operand) : p.FollowsInitials (o.LeadsTo p i) :=
  fun _ _ _ _ _ _ h hg hinit hn' => .initial h hg hinit hn'

/-- The operands that an operation can take, also those that come into a phi. -/
def Op.taken (op : Op) : List Operand := op.operands ++ ((Fits.incoming? op).getD []).map (·.1)

theorem Op.mem_taken {op op' : Op} {o : Operand} (h : op = op') (ho : o ∈ op'.operands) : o ∈ op.taken :=
  h ▸ List.mem_append_left _ ho

theorem Op.mem_taken_phi {op : Op} {t : Ty} {incoming : List (Operand × String)} {x : Operand × String}
    (h : op = .phi t incoming) (hx : x ∈ incoming) : x.1 ∈ op.taken :=
  h ▸ List.mem_append_right _ (List.mem_map_of_mem hx)

/-- That an operation in the module `i` leads to a name, as the module `j` has it. -/
def Op.LeadsTo (p : Project) (i : Nat) (op : Op) (n : String) (j : Nat) : Prop := ∃ o ∈ op.taken, o.LeadsTo p i n j

theorem Op.followsInitials_leadsTo (p : Project) (i : Nat) (op : Op) : p.FollowsInitials (op.LeadsTo p i) := by
  rintro n j g init n' j' ⟨o, ho, h⟩ hg hinit hn'
  exact ⟨o, ho, .initial h hg hinit hn'⟩

end PathSafety.IR
