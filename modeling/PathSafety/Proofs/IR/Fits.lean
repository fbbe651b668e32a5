import PathSafety.Proofs.Concrete.Operand
import PathSafety.Machine.Intrinsic
import PathSafety.Proofs.IR.Project

/-!
# Well-typed modules over integers and pointers

What a module has to keep for its functions to be explored without defects: registers hold integers and
pointers of the widths that their types say, operations get operands of the widths that they need, blocks
end in terminators and jumps lead to blocks, phis stand at the beginning of their blocks and take no phi of
the same block, cases of a switch differ, calls go to functions with bodies or to intrinsics, and no operand
is undefined. All of it can be computed.

Contents:

* `Layout.scalarBits?`, `Fits.operandWidth?` — the widths of types and operands;
* `Fits.selects`, `Fits.expression` — indices that stay within structs;
* `Fits.op`, `Fits.block`, `Fits.routine`, `Project.fits` — instructions, blocks, routines and projects.
-/

namespace PathSafety.IR

/-- The width of a type of integers or pointers. -/
def Layout.scalarBits? (l : Layout) : Ty → Option Nat
  | .int (n + 1) => some (n + 1)
  | .ptr _ | .ptrTo _ _ => some l.pointerBits
  | _ => none

theorem Layout.bits?_of_scalarBits? {l : Layout} {t : Ty} {w : Nat} (h : l.scalarBits? t = some w) :
    l.bits? t = some w := by
  unfold Layout.scalarBits? at h
  split at h
  · rw [← h]
    rfl
  · rw [← h]
    rfl
  · rw [← h]
    rfl
  · cases h

theorem Layout.ne_zero_of_scalarBits? {l : Layout} {t : Ty} {w : Nat} (hl : l.pointerBits ≠ 0)
    (h : l.scalarBits? t = some w) : w ≠ 0 := by
  unfold Layout.scalarBits? at h
  split at h
  · rintro rfl
    cases h
  · exact Option.some.inj h ▸ hl
  · exact Option.some.inj h ▸ hl
  · cases h

namespace Fits

section Operand

variable (p : Project)

/-- Whether the indices after the first select fields that are there; `number?` gives the number of an index
that is a constant. -/
def selects {ι : Type} (l : Layout) (number? : ι → Option Nat) : Ty → List ι → Bool
  | _, [] => true
  | t, i :: is =>
    if t.isStruct then
      match (number? i).bind fun k => ((t.fields? l.structs).getD [])[k]? with
      | some field => selects l number? field is
      | none => false
    else
      match t with
      | .array _ e | .vector _ e => selects l number? e is
      | _ => true

/-- The number of an index of a constant expression. -/
def indexNumber (i : Nat × Int) : Option Nat := some (BitVec.ofInt i.1 i.2).toNat

/-- Whether a constant expression selects only fields that are there, and takes nothing at no width. -/
def expression : Nat → List Char → Bool
  | 0, _ => true
  | fuel + 1, text =>
    match ExpressionShape.of? p text with
    | some (.element _ g _ indices) => selects p.layout indexNumber g.ty (indices.drop 1)
    | some (.nested inner width) => width != some 0 && expression fuel inner
    | _ => true

mutual

/-- The width of an operand's value; none where it has no meaning here. -/
def operandWidth? (s : Scope) : Operand → Option Nat
  | .register n => p.layout.scalarBits? (s.operandType (.register n))
  | .global _ => some p.layout.pointerBits
  | .constant t v => (p.layout.bits? t).bind fun bits => constantWidth? s t bits v
  | .assembly .. => none

/-- The width of a constant of type `t`, of which `bits` is the size. -/
def constantWidth? (s : Scope) (t : Ty) (bits : Nat) : ConstantValue → Option Nat
  | .expression text =>
    let text := Text.trim text.toList
    if bits = 0 || !expression p (text.length + 1) text then none
    else
      match ExpressionShape.of? p text with
      | some (.element ..) => some p.layout.pointerBits
      | _ => some bits
  | .null => some bits
  | .int _ => match t with
    | .int _ => some bits
    | _ => none
  | .bytes bs => match t with
    | .array _ e | .vector _ e => (p.layout.bits? e).map fun n => (bs.map fun _ => n).sum
    | _ => none
  | .elements es => operandsWidth? s (Concrete.elementLimit p t es) es
  | .undef | .real _ => none

/-- The width of the first operands of a list, one above another. -/
def operandsWidth? (s : Scope) : Nat → List Operand → Option Nat
  | 0, _ | _, [] => some 0
  | n + 1, o :: os =>
    (operandWidth? s o).bind fun w => (operandsWidth? s n os).map fun rest => w + rest

end

/-- The number of an operand that is an integer. -/
def operandNumber? : Operand → Option Nat
  | .constant (.int w) (.int n) => some (BitVec.ofInt w n).toNat
  | _ => none

end Operand

section Routine

variable (p : Project) (r : Routine)

/-- The width of an operand's value in the routine. -/
def width? (o : Operand) : Option Nat := operandWidth? p r.scope o

/-- Whether operands have values. -/
def valued (os : List Operand) : Bool := os.all fun o => (width? p r o).isSome

/-- The function that an operand names. -/
def target? : Operand → Option Function
  | .global n =>
    match r.scope.module.global? n with
    | some (.code f) => some f
    | _ => none
  | _ => none

/-- How many arguments an intrinsic looks at. -/
def argumentCount : Intrinsic → Nat
  | .abort | .marker => 0
  | .throwing => 1
  | .copy | .fill => 3

/-- Whether there is a block of a name. -/
def leads (target : String) : Bool := (r.function.block? target).isSome

/-- Whether an operation gets operands that it can work on. -/
def op : Op → Bool
  | .arith _ _ a b | .icmp _ a b => valued p r [a] && width? p r a == width? p r b
  | .cast _ v t => valued p r [v] && (p.layout.scalarBits? t).isSome
  | .alloca _ count => valued p r count.toList
  | .load a t => valued p r [a] && (p.layout.scalarBits? (r.scope.accessType a t)).isSome
  | .store v a => valued p r [v, a] && width? p r v != some 0
  | .gep _ a t is =>
    width? p r a == some p.layout.pointerBits && valued p r is &&
      selects p.layout operandNumber? (r.scope.accessType a t) (is.drop 1)
  | .select c a b => width? p r c == some 1 && valued p r [a] && width? p r a == width? p r b
  | .phi t incoming =>
    (p.layout.scalarBits? t).isSome && incoming.all fun (o, _) => width? p r o == p.layout.scalarBits? t
  | .call callee args =>
    match target? r callee with
    | none => false
    | some f =>
      match Intrinsic.ofName? f.name with
      | some k => valued p r args && argumentCount k ≤ args.length
      | none =>
        !f.isDeclaration && valued p r args &&
          (f.params.zip args).all fun (param, o) => width? p r o == p.layout.scalarBits? param.2
  | .br target => leads r target
  | .condBr c yes no => width? p r c == some 1 && leads r yes && leads r no
  | .switch v default cases =>
    valued p r [v] && width? p r v != some 0 && leads r default &&
      cases.all (fun (o, target) => width? p r o == width? p r v && leads r target &&
        (operandNumber? o).isSome) &&
      decide ((cases.map fun (o, _) => operandNumber? o).Nodup)
  | .ret none => true
  | .ret (some v) => valued p r [v] && width? p r v == p.layout.scalarBits? r.function.ret
  | .unreachable | .unmodeled _ => true

/-- The width of an operation's result; none where it has none. -/
def resultWidth? : Op → Option Nat
  | .arith _ _ a _ | .select _ a _ => width? p r a
  | .icmp _ _ _ => some 1
  | .cast _ _ t | .phi t _ => p.layout.scalarBits? t
  | .alloca _ _ | .gep .. => some p.layout.pointerBits
  | .load a t => p.layout.scalarBits? (r.scope.accessType a t)
  | .call callee _ => (target? r callee).bind fun f =>
    if (Intrinsic.ofName? f.name).isSome then none else p.layout.scalarBits? f.ret
  | .store .. | .br _ | .condBr .. | .switch .. | .ret _ | .unreachable | .unmodeled _ => none

/-- Whether an instruction can be executed, and the register of its result has the width of the result. -/
def instr (i : Instr) : Bool :=
  op p r i.op &&
    match resultWidth? p r i.op with
    | some w => width? p r (.register i.name) == some w
    | none => true

/-- Whether an operation ends a block. -/
def ends : Op → Bool
  | .br _ | .condBr .. | .switch .. | .ret _ | .unreachable => true
  | _ => false

/-- The values that a phi takes. -/
def incoming? : Op → Option (List (Operand × String))
  | .phi _ incoming => some incoming
  | _ => none

/-- Whether an operation is a phi. -/
def isPhi (o : Op) : Bool := (incoming? o).isSome

mutual

/-- Whether an operand names one of some registers. -/
def mentions (names : List String) : Operand → Bool
  | .register n => names.contains n
  | .constant _ v => constantMentions names v
  | .global _ | .assembly .. => false

/-- Whether a constant names one of some registers. -/
def constantMentions (names : List String) : ConstantValue → Bool
  | .elements es => operandsMention names es
  | _ => false

/-- Whether one of several operands names one of some registers. -/
def operandsMention (names : List String) : List Operand → Bool
  | [] => false
  | o :: os => mentions names o || operandsMention names os

end

/-- Whether phis stand before all other instructions and none takes the value of one before it; `seen` are
the registers of the phis before. -/
def phis (seen : List String) : List Instr → Bool
  | [] => true
  | i :: is =>
    match incoming? i.op with
    | some incoming => incoming.all (fun (o, _) => !mentions seen o) && phis (i.name :: seen) is
    | none => is.all fun i => !isPhi i.op

/-- Whether the instructions of a block can be executed, the last one ends it, and its phis stand at its
beginning and take no phi of the block. -/
def block (b : Block) : Bool :=
  b.instrs.all (instr p r) && (b.instrs.getLast?.any fun i => ends i.op) && phis [] b.instrs

/-- Whether the blocks of a routine can be executed, and its parameters have the widths of their types and
different names. -/
def routine : Bool :=
  r.function.blocks.all (block p r) &&
    (r.function.params.all fun (n, t) =>
      (p.layout.scalarBits? t).isSome && width? p r (.register n) == p.layout.scalarBits? t) &&
    decide (r.function.params.map (·.1)).Nodup

/-- Whether the initial value of a global variable has the size of the variable. -/
def global (m : Module) (g : Global) : Bool :=
  match g.init with
  | none => true
  | some init =>
    match operandWidth? p ⟨m, p.layout.structs, ∅⟩ init, p.layout.bits? g.ty with
    | some w, some w' => w == w'
    | _, _ => false

end Routine

end Fits

/-- Whether every name that is a variable in a module is unknown to the other modules. -/
def Fits.linked (p : Project) : Bool :=
  p.modules.zipIdx.all fun (m, j) => m.globals.all fun g =>
    p.modules.zipIdx.all fun (m', k) => k == j || (m'.global? g.name).isNone

/-- Whether the routines and variables of a project are well typed, and no variable has its name in two
modules. -/
def Project.fits (p : Project) : Bool :=
  Fits.linked p && p.routines.all (Fits.routine p) && p.modules.all fun m => m.globals.all (Fits.global p m)

namespace Project

variable {p : Project}

theorem globalIn?_of_global? {n : String} {k : Nat} {v : GlobalValue} (h : p.global? n = some (k, v)) :
    p.globalIn? k n = some v := by
  obtain ⟨⟨m, i⟩, hm, hv⟩ := List.exists_of_findSome?_eq_some h
  obtain ⟨x, hx, heq⟩ := Option.map_eq_some_iff.mp hv
  obtain ⟨rfl, rfl⟩ := Prod.mk.inj heq
  rw [globalIn?, List.mem_zipIdx_iff_getElem?.mp hm]
  exact hx

/-- A variable of the project is a variable of one of its modules. -/
theorem exists_globalIn? {n : String} {g : Global} (h : p.globalVariable? n = some g) :
    ∃ k, p.globalIn? k n = some (.data g) := by
  obtain ⟨m, hm, hg⟩ := List.exists_of_findSome?_eq_some h
  obtain ⟨k, hk⟩ := List.mem_iff_getElem?.mp hm
  refine ⟨k, ?_⟩
  split at hg
  · rename_i g' hg'
    unfold globalIn?
    rw [hk, Option.bind_some, hg', Option.some.inj hg]
  · cases hg

/-- A name that is a variable in one module is unknown to the others. -/
theorem global?_eq_none_of_linked (h : Fits.linked p = true) {j k : Nat} {m m' : Module} {n : String}
    {g : Global} (hm : p.modules[j]? = some m) (hg : m.global? n = some (.data g))
    (hm' : p.modules[k]? = some m') (hk : k ≠ j) : m'.global? n = none := by
  obtain ⟨hmem, rfl⟩ := Module.mem_of_global? hg
  have h1 := List.all_eq_true.mp h (m, j) (List.mem_zipIdx_iff_getElem?.mpr hm)
  have h2 := List.all_eq_true.mp (List.all_eq_true.mp h1 g hmem) (m', k)
    (List.mem_zipIdx_iff_getElem?.mpr hm')
  simpa [hk] using h2

/-- A name that is a variable in a module is that variable in the project. -/
theorem globalVariable?_of_data (h : Fits.linked p = true) {j : Nat} {n : String} {g : Global}
    (hg : p.globalIn? j n = some (.data g)) : p.globalVariable? n = some g := by
  obtain ⟨m, hm, hg⟩ := Option.bind_eq_some_iff.mp hg
  cases hv : p.globalVariable? n with
  | none =>
    have := List.findSome?_eq_none_iff.mp hv m (List.mem_of_getElem? hm)
    rw [hg] at this
    cases this
  | some g' =>
    obtain ⟨m', hm', hg'⟩ := List.exists_of_findSome?_eq_some hv
    obtain ⟨k, hk⟩ := List.mem_iff_getElem?.mp hm'
    by_cases hkj : k = j
    · subst hkj
      obtain rfl := Option.some.inj (hk.symm.trans hm)
      rw [hg] at hg'
      exact hg'.symm
    · rw [global?_eq_none_of_linked h hm hg hk hkj] at hg'
      cases hg'

/-- A name that is a function in a module is no variable. -/
theorem globalVariable?_of_code (h : Fits.linked p = true) {j : Nat} {n : String} {f : Function}
    (hf : p.globalIn? j n = some (.code f)) : p.globalVariable? n = none := by
  obtain ⟨m, hm, hf⟩ := Option.bind_eq_some_iff.mp hf
  cases hv : p.globalVariable? n with
  | none => rfl
  | some g =>
    obtain ⟨m', hm', hg⟩ := List.exists_of_findSome?_eq_some hv
    obtain ⟨k, hk⟩ := List.mem_iff_getElem?.mp hm'
    split at hg
    · rename_i g' hg'
      by_cases hkj : j = k
      · subst hkj
        obtain rfl := Option.some.inj (hk.symm.trans hm)
        rw [hf] at hg'
        cases hg'
      · rw [global?_eq_none_of_linked h hk hg' hm hkj] at hf
        cases hf
    · cases hg

end Project

/-! ## Called functions -/

/-- A call of a named function calls one of its module. -/
theorem Fits.exists_global_of_target? {r : Routine} {callee : Operand} {fn : Function}
    (h : Fits.target? r callee = some fn) :
    ∃ n, callee = .global n ∧ r.scope.module.global? n = some (.code fn) := by
  unfold Fits.target? at h
  split at h
  · rename_i n
    split at h
    · rename_i hg
      exact ⟨n, rfl, Option.some.inj h ▸ hg⟩
    · cases h
  · cases h

/-- A called function is among the routines of its module. -/
theorem Fits.exists_routineIn?_of_target? {p : Project} {modules : List Module} {layout : Layout}
    (hp : Project.ofModules? modules layout = some p) {r : Routine} (hr : r ∈ p.routines) {callee : Operand}
    {fn : Function} (h : Fits.target? r callee = some fn) :
    ∃ q, p.routineIn? r.module fn.name = some q ∧ q ∈ p.routines ∧ q.function = fn := by
  obtain ⟨n, _, hglobal⟩ := Fits.exists_global_of_target? h
  obtain ⟨q, hq, hmem, _, hfn⟩ := Project.exists_routineIn? hp (Project.module_of_mem hp hr) hglobal
  exact ⟨q, hq, hmem, hfn⟩

end PathSafety.IR
