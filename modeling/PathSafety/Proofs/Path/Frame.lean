import PathSafety.Path.Step
import PathSafety.Proofs.Concrete.Entry
import PathSafety.Proofs.Machine.Instruction

/-!
# Frames and activations

The frames of a path stand for the activations of a run: at the same instruction, with the words of the
values in their registers.

Contents:

* `Fit.block`, `Fit.instr` — what a well-typed project says about the blocks of its routines;
* `Frame.WellTyped`, `Frame.InRange` — frames that can go on;
* `Frame.Matches` — frames that stand for activations, and how both move together.
-/

namespace PathSafety

open IR Machine

/-! ## Blocks of a well-typed project -/

namespace Machine

variable {s : Setting} {r : Routine} {b : Block} {i : Instr}

theorem Fit.block (h : Fit s) (hr : r ∈ s.project.routines) (hb : b ∈ r.function.blocks) :
    (∀ i ∈ b.instrs, Fits.instr s.project r i = true) ∧ (b.instrs.getLast?.any fun i => Fits.ends i.op) ∧
      Fits.phis [] b.instrs = true := by
  have hroutine := h.routine hr
  simp only [Fits.routine, Bool.and_eq_true] at hroutine
  have hblock := List.all_eq_true.mp hroutine.1.1 b hb
  simp only [Fits.block, Bool.and_eq_true] at hblock
  exact ⟨List.all_eq_true.mp hblock.1.1, hblock.1.2, hblock.2⟩

/-- The register of a result has the width of the result. -/
theorem width_register_of_fits (h : Fits.instr s.project r i = true) {w : Nat}
    (hw : Fits.resultWidth? s.project r i.op = some w) :
    s.project.layout.scalarBits? (r.scope.operandType (.register i.name)) = some w := by
  simp only [Fits.instr, Bool.and_eq_true, hw] at h
  exact eq_of_beq h.2

/-- What does not end its block is followed by another instruction. -/
theorem succ_lt_length (hlast : b.instrs.getLast?.any fun i => Fits.ends i.op) {k : Nat}
    (hk : b.instrs[k]? = some i) (hends : Fits.ends i.op = false) : k + 1 < b.instrs.length := by
  obtain ⟨hlt, hget⟩ := List.getElem?_eq_some_iff.mp hk
  rcases Nat.lt_or_ge (k + 1) b.instrs.length with h | h
  · exact h
  · have hk : b.instrs.length - 1 = k := by omega
    rw [List.getLast?_eq_getElem?, hk, List.getElem?_eq_getElem hlt, hget] at hlast
    exact absurd hlast (by simp [hends])

theorem length_pos_of_fits (hlast : b.instrs.getLast?.any fun i => Fits.ends i.op) : 0 < b.instrs.length := by
  cases hb : b.instrs with
  | nil =>
    rw [hb] at hlast
    cases hlast
  | cons i is => exact Nat.succ_pos _

end Machine

namespace Frame

variable {p : Project} {s : Setting} {T T₁ : Table} {f g : Frame p} {a : Concrete.Activation} {i : Input}

/-- That the values in the registers of a frame have the widths of the registers' types. -/
def WellTyped (s : Setting) (T : Table) (f : Frame p) : Prop := Typed s T f.routine.scope f.registers

/-- That there is an instruction left in the block of a frame. -/
def InRange (f : Frame p) : Prop := f.index < f.block.instrs.length

/-- That a frame stands for an activation of a run on an input. -/
structure Matches (i : Input) (f : Frame p) (a : Concrete.Activation) : Prop where
  routine : a.routine = f.routine
  block : a.block = f.block
  index : a.index = f.index
  previous : a.previous = f.previous
  registers : Represents i f.registers a.registers

theorem Matches.instr? (h : f.Matches i a) : a.instr? = f.instr? := by
  unfold Concrete.Activation.instr? Frame.instr?
  rw [h.block, h.index]

theorem Matches.id (h : f.Matches i a) : a.id = f.id := by
  unfold Concrete.Activation.id Frame.id
  rw [h.routine, h.block]

theorem Matches.holds (h : f.Matches i a) {c : Concrete.Config} (hc : c.current = a) (instr : Instr) :
    (f.site instr).Holds i c := ⟨hc ▸ h.routine, hc ▸ h.registers⟩

/-! ## Registers -/

/-- An instruction with a result binds its own register and leaves the others. -/
theorem get?_finish {instr : Instr} (h : f.instr? = some instr) (v : Value) (n : String) :
    (f.finish (some v)).registers.get? n = if instr.name = n then some v else f.registers.get? n := by
  unfold Frame.finish
  rw [h]
  exact get?_insert_name _ _ _ _

/-- An instruction without a result binds no register. -/
@[simp] theorem registers_finish_none (f : Frame p) : (f.finish none).registers = f.registers := by
  unfold Frame.finish
  cases f.instr? <;> rfl

theorem represents_insert {rs : Registers} {cs : Concrete.Registers} (h : Represents i rs cs) (n : String)
    (v : Value) : Represents i (rs.insert n v) (cs.set n (v.word i)) := by
  intro k u hk
  rw [get?_insert_name] at hk
  unfold Concrete.Registers.set
  by_cases hn : n = k
  · rw [if_pos hn] at hk
    obtain rfl := Option.some.inj hk
    rw [if_pos hn.symm]
  · rw [if_neg hn] at hk
    rw [if_neg (Ne.symm hn)]
    exact h k u hk

theorem typed_insert {scope : Scope} {rs : Registers} (h : Typed s T scope rs) {n : String} {v : Value}
    (hv : v.Known T) (hn : s.project.layout.scalarBits? (scope.operandType (.register n)) = some v.width) :
    Typed s T scope (rs.insert n v) := by
  intro k u hk
  rw [get?_insert_name] at hk
  by_cases hnk : n = k
  · rw [if_pos hnk] at hk
    obtain rfl := Option.some.inj hk
    exact ⟨hv, hnk ▸ hn⟩
  · rw [if_neg hnk] at hk
    exact h k u hk

/-! ## After an instruction -/

theorem Matches.finish (h : f.Matches i a) (result : Option Value) :
    (f.finish result).Matches i (a.finish (result.map (Value.word i))) where
  routine := h.routine
  block := h.block
  index := congrArg (· + 1) h.index
  previous := h.previous
  registers := by
    unfold Frame.finish Concrete.Activation.finish
    rw [h.instr?]
    cases f.instr? with
    | none => exact h.registers
    | some instr =>
      cases result with
      | none => exact h.registers
      | some v => exact represents_insert h.registers instr.name v

theorem WellTyped.finish (h : f.WellTyped s T) {instr : Instr} (hi : f.instr? = some instr)
    {result : Option Value} (hresult : ∀ v, result = some v → v.Known T ∧
      s.project.layout.scalarBits? (f.routine.scope.operandType (.register instr.name)) = some v.width) :
    (f.finish result).WellTyped s T := by
  unfold WellTyped Frame.finish
  rw [hi]
  cases result with
  | none => exact h
  | some v => exact typed_insert h (hresult v rfl).1 (hresult v rfl).2

/-! ## To another block -/

theorem exists_jump? {target : String} (h : (f.routine.function.block? target).isSome) :
    ∃ g, f.jump? target = some g := by
  unfold Frame.jump?
  split
  · exact ⟨_, rfl⟩
  · rename_i hnone
    rw [hnone] at h
    cases h

theorem eq_of_jump? {target : String} (h : f.jump? target = some g) :
    ∃ b, f.routine.function.block? target = some b ∧ g.routine = f.routine ∧ g.block = b ∧ g.index = 0 ∧
      g.previous = some f.block.name ∧ g.registers = f.registers := by
  unfold Frame.jump? at h
  split at h
  · rename_i b hb
    obtain rfl := Option.some.inj h
    exact ⟨b, hb, rfl, rfl, rfl, rfl, rfl⟩
  · cases h

theorem Matches.jump (h : f.Matches i a) {target : String} (hg : f.jump? target = some g) :
    ∃ b, a.jump? target = some b ∧ g.Matches i b ∧ b.entry = none := by
  obtain ⟨b, hb, hroutine, hblock, hindex, hprevious, hregisters⟩ := eq_of_jump? hg
  refine ⟨{ a with block := b, index := 0, previous := some a.block.name, entry := none }, ?_, ?_, rfl⟩
  · unfold Concrete.Activation.jump?
    rw [h.routine, hb]
    rfl
  · exact {
      routine := h.routine.trans hroutine.symm
      block := hblock.symm
      index := hindex.symm
      previous := by
        rw [hprevious]
        exact congrArg (fun b : Block => some b.name) h.block
      registers := by
        rw [hregisters]
        exact h.registers }

/-! ## Into a routine -/

/-- What is bound to parameters. -/
theorem represents_bind (params : List (String × Ty)) (args : List Value) :
    Represents i ((params.zip args).foldl (fun rs x => rs.insert x.1.1 x.2) ∅)
      (Concrete.Activation.bind params (args.map (Value.word i))) := by
  unfold Concrete.Activation.bind
  rw [List.zip_map_right, List.foldl_map]
  suffices h : ∀ (xs : List ((String × Ty) × Value)) (rs : Registers) (cs : Concrete.Registers),
      Represents i rs cs → Represents i (xs.foldl (fun rs x => rs.insert x.1.1 x.2) rs)
        (xs.foldl (fun cs x => cs.set x.1.1 (x.2.word i)) cs) from
    h _ _ _ fun n v hn => by simp [Std.TreeMap.get?_eq_getElem?] at hn
  intro xs
  induction xs with
  | nil => exact fun _ _ h => h
  | cons x xs ih => exact fun rs cs h => ih _ _ (represents_insert h x.1.1 x.2)

theorem typed_bind {scope : Scope} (xs : List ((String × Ty) × Value)) (rs : Registers)
    (h : Typed s T scope rs) (hxs : ∀ x ∈ xs, x.2.Known T ∧
      s.project.layout.scalarBits? (scope.operandType (.register x.1.1)) = some x.2.width) :
    Typed s T scope (xs.foldl (fun rs x => rs.insert x.1.1 x.2) rs) := by
  induction xs generalizing rs with
  | nil => exact h
  | cons x xs ih =>
    have hx := hxs x List.mem_cons_self
    exact ih _ (typed_insert h hx.1 hx.2) fun y hy => hxs y (List.mem_cons_of_mem x hy)

theorem eq_of_call? {r : Routine} {hr : r ∈ p.routines} {args : List Value} (h : call? r hr args = some g) :
    ∃ b, r.function.blocks.head? = some b ∧ g.routine = r ∧ g.block = b ∧ g.index = 0 ∧ g.previous = none ∧
      g.registers = (r.function.params.zip args).foldl (fun rs x => rs.insert x.1.1 x.2) ∅ := by
  unfold call? at h
  split at h
  · cases h
  · rename_i b bs hb
    obtain rfl := Option.some.inj h
    exact ⟨b, by rw [hb]; rfl, rfl, rfl, rfl, rfl, rfl⟩

theorem exists_call? {r : Routine} (hr : r ∈ p.routines) (hblocks : r.function.isDeclaration = false)
    (args : List Value) : ∃ g, call? r hr args = some g := by
  unfold call?
  split
  · rename_i hb
    unfold Function.isDeclaration at hblocks
    rw [hb] at hblocks
    cases hblocks
  · exact ⟨_, rfl⟩

/-- A frame at the entry of a routine stands for the activation of a call with the words of the arguments. -/
theorem matches_call {r : Routine} {hr : r ∈ p.routines} {args : List Value}
    (h : call? r hr args = some g) (i : Input) :
    ∃ a, Concrete.Activation.start? r (args.map (Value.word i)) = some a ∧ g.Matches i a ∧
      a.entry = none := by
  obtain ⟨b, hb, hroutine, hblock, hindex, hprevious, hregisters⟩ := eq_of_call? h
  refine ⟨{
    routine := r
    block := b
    registers := Concrete.Activation.bind r.function.params (args.map (Value.word i)) }, ?_, ?_, rfl⟩
  · unfold Concrete.Activation.start?
    rw [hb]
    rfl
  · exact {
      routine := hroutine.symm
      block := hblock.symm
      index := hindex.symm
      previous := hprevious.symm
      registers := by
        rw [hregisters]
        exact represents_bind r.function.params args }

/-- The registers at the entry of a routine have the widths of their types if the arguments have those of the
parameters. -/
theorem wellTyped_call (hfit : Fit s) {r : Routine} {hr : r ∈ p.routines} (hr' : r ∈ s.project.routines)
    {args : List Value} (h : call? r hr args = some g) (hargs : ∀ x ∈ r.function.params.zip args,
      x.2.Known T ∧ s.project.layout.scalarBits? x.1.2 = some x.2.width) : g.WellTyped s T := by
  obtain ⟨b, hb, hroutine, hblock, hindex, hprevious, hregisters⟩ := eq_of_call? h
  unfold WellTyped
  rw [hregisters, hroutine]
  refine typed_bind _ _ (typed_empty _) fun x hx => ?_
  have hfits := hfit.routine hr'
  simp only [Fits.routine, Bool.and_eq_true] at hfits
  have hparam := List.all_eq_true.mp hfits.1.2 x.1 (List.of_mem_zip hx).1
  simp only [Bool.and_eq_true] at hparam
  exact ⟨(hargs x hx).1, (eq_of_beq hparam.2).trans (hargs x hx).2⟩

end Frame

end PathSafety
