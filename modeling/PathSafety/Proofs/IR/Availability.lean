import Mathlib.Data.List.Nodup
import PathSafety.Proofs.IR.Dominance

/-!
# Checking for static single assignment

Which instructions stand on all ways to a place need not be searched for. It is enough to be told, for every block,
registers that have values where the block begins: they do if each edge into the block brings them along. So that a
function is in the form of static single assignment can be computed from this.

Contents:

* `Routine.known` — the registers that are said to have values at a place;
* `Routine.isSsa`, `Project.isSsa` — the check;
* `Routine.available_of_known` — that the registers have values there;
* `Project.ssa_of_isSsa` — what passes the check is in the form of static single assignment.
-/

namespace PathSafety.IR

/-- The registers in which some instructions leave values. -/
def Routine.assigned (r : Routine) (instrs : List Instr) : List String :=
  (instrs.filter fun i => r.scope.hasResult i.op).map (·.name)

/-- The registers that have values at a place if those have that are said to have them where its block begins. -/
def Routine.known (r : Routine) (begin : String → List String) (b : Block) (k : Nat) : List String :=
  begin b.name ++ r.assigned (b.instrs.take k)

namespace Ssa

variable (p : Project) (r : Routine) (begin : String → List String)

/-- Whether a register, a global name or assembly has a value, where some registers have. -/
def leaf (known : List String) : Operand → Bool
  | .register n => (r.function.params.map (·.1)).contains n || known.contains n
  | .global n => (p.globalIn? r.module n).isSome
  | .assembly .. => false
  | .constant .. => true

/-- Whether an operand has a value, where some registers have. -/
def operand (known : List String) (o : Operand) : Bool := o.leaves.all (leaf p r known)

/-- Whether a call passes all arguments, and expects nothing of what is modeled by itself. -/
def call : Op → Bool
  | .call callee args =>
    match Fits.target? r callee with
    | some f => decide (f.params.length ≤ args.length) && (!(Intrinsic.ofName? f.name).isSome || f.ret.isVoid)
    | none => true
  | .ret none => r.function.ret.isVoid
  | _ => true

/-- Whether an instruction uses what has a value only, and brings along what the blocks need that it goes to. -/
def instr (b : Block) (i : Instr) (k : Nat) : Bool :=
  i.op.operands.all (operand p r (r.known begin b k)) && call r i.op &&
    i.op.targets.all fun target => (begin target).all (r.known begin b k).contains

/-- Whether a phi of a block lists what comes in from each block before, and this has a value there. -/
def phi (b : Block) (i : Instr) : Bool :=
  match Fits.incoming? i.op with
  | none => true
  | some incoming =>
    r.function.blocks.all fun a => a.instrs.zipIdx.all fun (j, k) =>
      !j.op.targets.contains b.name ||
        incoming.any (·.2 == a.name) &&
          incoming.all fun x => !(x.2 == a.name) || operand p r (r.known begin a k) x.1

/-- Whether a block uses what has a value only. -/
def block (b : Block) : Bool :=
  (begin b.name).all (r.assigned r.function.instrs).contains &&
    b.instrs.zipIdx.all (fun (i, k) => instr p r begin b i k) && b.instrs.all (phi p r begin b)

end Ssa

/-- Whether all uses of registers are where the registers have values, as far as it is said which ones have where blocks
begin. -/
def Routine.isSsa (p : Project) (begin : String → List String) (r : Routine) : Bool :=
  decide (r.assigned r.function.instrs).Nodup &&
    r.function.blocks.head?.all (fun b => (begin b.name).isEmpty && b.instrs.all fun i => !Fits.isPhi i.op) &&
      r.function.blocks.all (Ssa.block p r begin)

/-- Whether a project is in the form of static single assignment, as far as it is said which registers have values where
the blocks of its functions begin. -/
def Project.isSsa (begin : String → String → List String) (p : Project) : Bool :=
  p.routines.all (fun r => r.isSsa p (begin r.function.name)) &&
    p.modules.zipIdx.all fun (m, j) => m.globals.all fun g =>
      g.init.all fun init => init.leaves.all fun
        | .global n => (p.globalIn? j n).isSome
        | _ => false

/-! ## What the check says -/

section Sound

variable {p : Project} {r : Routine} {begin : String → List String} {b : Block} {k : Nat} {n : String}
  {done : List Instr}

theorem Routine.mem_assigned {instrs : List Instr} :
    n ∈ r.assigned instrs ↔ ∃ d ∈ instrs, d.name = n ∧ r.scope.hasResult d.op = true := by
  simp only [assigned, List.mem_map, List.mem_filter]
  exact ⟨fun ⟨d, hd, hn⟩ => ⟨d, hd.1, hn, hd.2⟩, fun ⟨d, hd, hn, hresult⟩ => ⟨d, ⟨hd, hresult⟩, hn⟩⟩

theorem Ssa.of_instr (h : r.isSsa p begin = true) (hb : b ∈ r.function.blocks) {i : Instr} (hi : b.instrs[k]? = some i) :
    instr p r begin b i k = true := by
  simp only [Routine.isSsa, Ssa.block, Bool.and_eq_true, List.all_eq_true] at h
  exact (h.2 b hb).1.2 (i, k) (List.mem_zipIdx_iff_getElem?.mpr hi)

/-- **What is known comes true**: each way to a place has gone through an instruction for every register that is said to
have a value there. -/
theorem Routine.mem_done_of_known (h : r.isSsa p begin = true) (hwalk : r.function.Walk b k done) :
    ∀ n ∈ r.known begin b k, ∃ d ∈ done, d.name = n ∧ r.scope.hasResult d.op = true := by
  induction hwalk with
  | @entry b bs hblocks =>
    intro n hn
    simp only [isSsa, hblocks, List.head?_cons, Option.all_some, Bool.and_eq_true, List.isEmpty_iff] at h
    rw [known, h.1.2.1, List.take_zero] at hn
    exact absurd hn List.not_mem_nil
  | @next b k done i rest hi _ ih =>
    intro n hn
    rw [known, List.take_add_one, hi, Option.toList_some, assigned, List.filter_append, List.map_append] at hn
    rcases List.mem_append.mp hn with hn | hn
    · obtain ⟨d, hd, heq⟩ := ih n (List.mem_append_left _ hn)
      exact ⟨d, List.mem_cons_of_mem i hd, heq⟩
    · rcases List.mem_append.mp hn with hn | hn
      · obtain ⟨d, hd, heq⟩ := ih n (List.mem_append_right _ hn)
        exact ⟨d, List.mem_cons_of_mem i hd, heq⟩
      · -- the instruction itself
        obtain ⟨d, hd, heq⟩ := mem_assigned.mp hn
        obtain rfl := List.mem_singleton.mp hd
        exact ⟨d, List.mem_cons_self, heq⟩
  | @jump b c k done i target rest hi htarget hc ih =>
    intro n hn
    have hname : c.name = target := by simpa using List.find?_some hc
    rw [known, List.take_zero, hname] at hn
    have hn : n ∈ begin target := by simpa [assigned] using hn
    have hinstr := Ssa.of_instr h rest.mem hi
    simp only [Ssa.instr, Bool.and_eq_true, List.all_eq_true] at hinstr
    obtain ⟨d, hd, heq⟩ := ih n (List.contains_iff_mem.mp (hinstr.2 target htarget n hn))
    exact ⟨d, List.mem_cons_of_mem i hd, heq⟩

/-- Registers that are said to have values at a place are assigned by the same instruction on all ways there. -/
theorem Routine.available_of_known (h : r.isSsa p begin = true) (hb : b ∈ r.function.blocks)
    (hn : n ∈ r.known begin b k) : r.Available b k n := by
  have hassigned : n ∈ r.assigned r.function.instrs := by
    rcases List.mem_append.mp hn with hn | hn
    · simp only [isSsa, Ssa.block, Bool.and_eq_true, List.all_eq_true] at h
      exact List.contains_iff_mem.mp ((h.2 b hb).1.1 n hn)
    · obtain ⟨d, hd, heq⟩ := mem_assigned.mp hn
      exact mem_assigned.mpr ⟨d, List.mem_flatMap.mpr ⟨b, hb, List.mem_of_mem_take hd⟩, heq⟩
  obtain ⟨d, hd, hname, hresult⟩ := mem_assigned.mp hassigned
  refine Or.inr ⟨d, hd, hname, hresult, fun done hwalk => ?_⟩
  obtain ⟨d', hd', hname', hresult'⟩ := mem_done_of_known h hwalk n hn
  -- no other instruction assigns the register
  have hnodup : (r.assigned r.function.instrs).Nodup := by
    simp only [isSsa, Bool.and_eq_true, decide_eq_true_iff] at h
    exact h.1.1
  have heq : d = d' := List.inj_on_of_nodup_map hnodup (List.mem_filter.mpr ⟨hd, hresult⟩)
    (List.mem_filter.mpr ⟨hwalk.subset d' hd', hresult'⟩) (hname.trans hname'.symm)
  exact heq ▸ hd'

theorem Routine.valued_of_leaf (h : r.isSsa p begin = true) (hb : b ∈ r.function.blocks) {l : Operand}
    (hl : Ssa.leaf p r (r.known begin b k) l = true) : r.Valued p b k l := by
  cases l with
  | register n =>
    rcases Bool.or_eq_true_iff.mp hl with hn | hn
    · exact Or.inl (List.contains_iff_mem.mp hn)
    · exact available_of_known h hb (List.contains_iff_mem.mp hn)
  | global n => exact hl
  | assembly => cases hl
  | constant => trivial

/-- **A function that passes the check** is in the form of static single assignment. -/
theorem Routine.ssa_of_isSsa (h : r.isSsa p begin = true) : r.Ssa p := by
  have hblocks := h
  simp only [isSsa, Ssa.block, Bool.and_eq_true, List.all_eq_true] at hblocks
  have hcall : ∀ b ∈ r.function.blocks, ∀ i ∈ b.instrs, Ssa.call r i.op = true := by
    intro b hb i hi
    obtain ⟨k, hk⟩ := List.getElem?_of_mem hi
    have hinstr := Ssa.of_instr h hb hk
    simp only [Ssa.instr, Bool.and_eq_true] at hinstr
    exact hinstr.1.2
  refine ⟨fun b hb k i hi o ho l hl => ?_, fun b hb i hi t incoming hop a ha k hedge => ?_, fun b bs hbs i hi => ?_,
    fun b hb i hi callee args hop f hf => ?_, fun b hb i hi callee args hop f hf hintrinsic => ?_,
    fun hret b hb i hi v hop => ?_⟩
  · have hinstr := Ssa.of_instr h hb hi
    simp only [Ssa.instr, Ssa.operand, Bool.and_eq_true, List.all_eq_true] at hinstr
    exact valued_of_leaf h hb (hinstr.1.1 o ho l hl)
  -- For a phi the check runs over the blocks that can be the previous one, with the values
  -- available at their ends.
  · obtain ⟨j, target, hj, htarget, hblock⟩ := hedge
    have hname : b.name = target := by simpa using List.find?_some hblock
    have hphi := (hblocks.2 b hb).2 i hi
    rw [Ssa.phi, hop] at hphi
    simp only [Fits.incoming?, List.all_eq_true] at hphi
    have hlisted := hphi a ha (j, k) (List.mem_zipIdx_iff_getElem?.mpr hj)
    rw [hname, List.contains_iff_mem.mpr htarget, Bool.not_true, Bool.false_or, Bool.and_eq_true, List.all_eq_true,
      List.any_eq_true] at hlisted
    refine ⟨hlisted.1.imp fun x hx => ⟨hx.1, by simpa using hx.2⟩, fun x hx hxa l hl => ?_⟩
    have hvalued := hlisted.2 x hx
    rw [hxa, beq_self_eq_true, Bool.not_true, Bool.false_or, Ssa.operand, List.all_eq_true] at hvalued
    exact valued_of_leaf h ha (hvalued l hl)
  · have hentry := hblocks.1.2
    rw [hbs, List.head?_cons, Option.all_some, Bool.and_eq_true, List.all_eq_true] at hentry
    simpa using hentry.2 i hi
  · have := hcall b hb i hi
    rw [hop, Ssa.call, hf] at this
    simp only [Bool.and_eq_true, decide_eq_true_iff] at this
    exact this.1
  · have := hcall b hb i hi
    rw [hop, Ssa.call, hf] at this
    simp only [Bool.and_eq_true, hintrinsic, Bool.not_true, Bool.false_or] at this
    exact this.2
  · cases v with
    | some v => rfl
    | none =>
      have := hcall b hb i hi
      rw [hop] at this
      exact absurd (this.symm.trans hret) (by simp)

/-- **A project that passes the check** is in the form of static single assignment. -/
theorem Project.ssa_of_isSsa {begin : String → String → List String} (h : p.isSsa begin = true) : p.Ssa := by
  simp only [isSsa, Bool.and_eq_true, List.all_eq_true] at h
  refine ⟨fun r hr => Routine.ssa_of_isSsa (h.1 r hr), fun j m hm g hg init hinit l hl => ?_⟩
  have hleaf := h.2 (m, j) (List.mem_zipIdx_iff_getElem?.mpr hm) g hg
  rw [hinit, Option.all_some, List.all_eq_true] at hleaf
  have := hleaf l hl
  cases l with
  | global n => exact ⟨n, rfl, this⟩
  | _ => cases this

end Sound

end PathSafety.IR
