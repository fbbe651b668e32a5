import PathSafety.Proofs.IR.Fits
import PathSafety.Proofs.Machine.Sound

/-!
# Offsets mean what they mean in a run

The offset that the machine computes for a list of indices is, for every input, the one that a run computes
from the words of the indices. The machine meets no defect on the way if the indices select fields that are
there.

Contents:

* `Represents`, `Machine.Evaluates` — a value that stands for what a run computes;
* `Machine.Ready` — that enough global values are still allowed to wait for one another;
* `quietly_element`, `quietly_field` — what an index adds to an offset;
* `quietly_innerOffset`, `quietly_offset` — offsets.
-/

namespace PathSafety

open IR

/-- That the registers of a run hold the words of the values in the registers of a path. -/
def Represents (i : Input) (rs : Registers) (cs : Concrete.Registers) : Prop :=
  ∀ n v, rs.get? n = some v → cs n = some (v.word i)

namespace Machine

/-- That a value stands for what a run computes from a placement and registers. -/
structure Evaluates (s : Setting) (T : Table) (rs : Registers)
    (y : Concrete.Placement → Concrete.Registers → Option Word) (v : Value) (m : Machine) : Prop where
  known : v.Known T
  word : ∀ i place cs, Covers s place m → Represents i rs cs → y place cs = some (v.word i)

/-- The names of the global values of a project's modules. -/
def globalNames (p : Project) : List String :=
  p.modules.flatMap fun m => m.globals.map (·.name) ++ m.functions.map (·.name)

/-- How many global values a machine has not met. -/
def unmet (p : Project) (m : Machine) : Nat :=
  (globalNames p).countP fun n => (m.addresses.get? n).isNone

/-- That fewer global values than `depth` are left to be met. -/
def Ready (s : Setting) (depth : Nat) (m : Machine) : Prop := unmet s.project m < depth

variable {s : Setting} {T : Table} {rs : Registers} {m m₁ : Machine} {D : Prop} {depth : Nat}

theorem Evaluates.quiet {y : Concrete.Placement → Concrete.Registers → Option Word} {v : Value}
    (h : Evaluates s T rs y v m) (hm : Quiet s T m m₁) : Evaluates s T rs y v m₁ where
  known := h.known
  word i place cs hcovers := h.word i place cs (hcovers.of_addresses hm.addresses)

theorem unmet_le (hm : ∀ n v, m.addresses.get? n = some v → m₁.addresses.get? n = some v) (p : Project) :
    unmet p m₁ ≤ unmet p m := by
  refine List.countP_mono_left fun n _ h => ?_
  rw [Option.isNone_iff_eq_none] at h ⊢
  exact unmet_of_addresses hm h

theorem Ready.quiet (h : Ready s depth m) (hm : Quiet s T m m₁) : Ready s depth m₁ :=
  Nat.lt_of_le_of_lt (unmet_le hm.addresses s.project) h

/-- All global values can wait for one another. -/
theorem ready_globalCount (s : Setting) (m : Machine) : Ready s (globalCount s.project + 1) m := by
  have hcount : ∀ (ms : List Module) (n : Nat),
      ms.foldl (fun n m => n + (m.globals.length + m.functions.length)) n =
        n + (ms.flatMap fun m => m.globals.map (·.name) ++ m.functions.map (·.name)).length := by
    intro ms
    induction ms with
    | nil => intro n; rfl
    | cons m ms ih =>
      intro n
      rw [List.foldl_cons, ih, List.flatMap_cons, List.length_append, List.length_append,
        List.length_map, List.length_map, Nat.add_assoc]
  unfold Ready
  have hle : unmet s.project m ≤ (globalNames s.project).length := List.countP_le_length
  have heq : globalCount s.project = (globalNames s.project).length := by
    unfold globalCount globalNames
    rw [hcount, Nat.zero_add]
  omega

/-! ## Sizes -/

theorem quietly_sizeInBytes (hm : Sound s T m) (t : Ty) :
    Quietly D s T (sizeInBytes s t) m
      fun n _ => Concrete.size? s.project.layout t = some n := by
  unfold sizeInBytes Concrete.size?
  cases s.project.layout.bytes t with
  | ok n => exact quietly_pure hm rfl
  | error e => cases e <;> exact quietly_fault rfl

theorem quietly_sumOfBytes (hm : Sound s T m) (ts : List Ty) :
    Quietly D s T (sumOfBytes s ts) m
      fun n _ => Concrete.sizes? s.project.layout ts = some n := by
  induction ts generalizing m with
  | nil => exact quietly_pure hm rfl
  | cons t ts ih =>
    refine quietly_bind (quietly_sizeInBytes hm t) fun n m₁ h₁ hn => ?_
    refine quietly_bind (ih h₁.sound) fun k m₂ h₂ hk => ?_
    refine quietly_pure h₂.sound ?_
    simp only [Concrete.sizes?, hn, hk]
    rfl

/-! ## Offsets -/

theorem arith_mk {op : ArithOp} (hop : Value.divides op = false) {w : Nat} (a b : Term w) :
    Value.arith op ⟨a⟩ ⟨b⟩ = .ok ⟨Term.mkArith op a b⟩ := by
  unfold Value.arith
  rw [hop, Bool.false_and, Bool.false_and, Bool.false_and, if_neg Bool.false_ne_true]
  exact Value.aligned_mk a b _

/-- An offset, moved by an index times a size. -/
theorem quietly_scaled (hm : Sound s T m) {w : Nat} (hw : w ≠ 0) {o : Term w} (ho : o.Known T)
    {index : Value} (hi : index.Known T) (size : Nat) :
    Quietly D s T (scaled w ⟨o⟩ index size) m fun r _ =>
      ∃ o' : Term w, r = ⟨o'⟩ ∧ o'.Known T ∧ ∀ i : Input, o'.meaning i.reading =
        o.meaning i.reading + (index.word i).bits.signExtend w * BitVec.ofNat w size := by
  have hresize : index.signedResize w = ⟨index.term.mkSignedResize w⟩ := by
    unfold Value.signedResize
    rw [if_neg hw]
  unfold scaled
  rw [hresize]
  refine quietly_bind (quietly_valueOr hm (arith_mk rfl _ _)) fun step m₁ h₁ hstep => ?_
  subst hstep
  refine (quietly_valueOr h₁.sound (arith_mk rfl _ _)).mono ?_
  rintro r m' _ rfl
  refine ⟨_, rfl, ?_, fun i => ?_⟩
  · exact Term.known_mkArith ho (Term.known_mkArith (Term.known_mkSignedResize hi w) (Term.known_const _))
  · rw [Term.meaning_mkArith, Term.meaning_mkArith, Term.meaning_mkSignedResize]
    rfl

section Offset

variable {ι : Type} {eval : ι → Action Value}
  {y : ι → Concrete.Placement → Concrete.Registers → Option Word} {number? : ι → Option Nat}

/-- That indices are evaluated as in a run, those with a number to constants. -/
def EvaluatesAll (D : Prop) (s : Setting) (T : Table) (rs : Registers) (depth : Nat)
    (eval : ι → Action Value) (y : ι → Concrete.Placement → Concrete.Registers → Option Word)
    (number? : ι → Option Nat) (is : List ι) : Prop :=
  ∀ i ∈ is, ∀ m, Sound s T m → Ready s depth m →
    Quietly D s T (eval i) m fun v m' =>
      Evaluates s T rs (y i) v m' ∧ ∀ k, number? i = some k → v.const? = some k

/-- That a value is the offset that a run computes, by a placement and registers, from where it has got. -/
def OffsetOf (s : Setting) (T : Table) (rs : Registers) {w : Nat} (start : Term w)
    (y : Concrete.Placement → Concrete.Registers → BitVec w → Option (BitVec w)) (r : Value) (m : Machine) : Prop :=
  ∃ o : Term w, r = ⟨o⟩ ∧ o.Known T ∧ ∀ i place cs, Covers s place m → Represents i rs cs →
    y place cs (start.meaning i.reading) = some (o.meaning i.reading)

section Index

variable {w : Nat} {x : ι} {is : List ι} {o : Term w} {rest : Value → Action Value}
  {after : Concrete.Placement → Concrete.Registers → BitVec w → Option (BitVec w)}

/-- **An index of a sequence** moves an offset by as many elements, from where the rest goes on. -/
theorem quietly_element (hw : w ≠ 0) (heval : EvaluatesAll D s T rs depth eval y number? is) (hx : x ∈ is)
    (hm : Sound s T m) (hready : Ready s depth m) (ho : o.Known T) (e : Ty)
    (hrest : ∀ m₁ (o₁ : Term w), Sound s T m₁ → Ready s depth m₁ → o₁.Known T →
      Quietly D s T (rest ⟨o₁⟩) m₁ (OffsetOf s T rs o₁ after)) :
    Quietly D s T
      (do
        let index ← eval x
        let size ← sizeInBytes s e
        let offset ← scaled w ⟨o⟩ index size
        rest offset) m
      (OffsetOf s T rs o fun place cs start => do
        let index ← y x place cs
        let size ← Concrete.size? s.project.layout e
        after place cs (start + index.bits.signExtend w * BitVec.ofNat w size)) := by
  refine quietly_bind (heval x hx m hm hready) fun v m₁ h₁ hv => ?_
  refine quietly_bind (quietly_sizeInBytes h₁.sound e) fun size m₂ h₂ hsize => ?_
  refine quietly_bind (quietly_scaled h₂.sound hw ho hv.1.known size) fun r₁ m₃ h₃ hr₁ => ?_
  obtain ⟨o₁, rfl, ho₁, hscaled⟩ := hr₁
  refine (hrest m₃ o₁ h₃.sound (hready.quiet ((h₁.trans h₂).trans h₃)) ho₁).mono ?_
  rintro r m' h' ⟨o', rfl, ho', hword⟩
  refine ⟨o', rfl, ho', fun i place cs hcovers hrep => ?_⟩
  -- The meaning is stated at the last machine, so what was evaluated first is carried over the
  -- later steps.
  have hindex := hv.1.word i place cs (hcovers.of_addresses ((h₂.trans h₃).trans h').addresses) hrep
  dsimp only
  rw [hindex, hsize, ← hword i place cs hcovers hrep, hscaled i]
  rfl

/-- **An index of a struct** selects a field, and moves an offset over those before it. -/
theorem quietly_field (heval : EvaluatesAll D s T rs depth eval y number? is) (hx : x ∈ is)
    (hm : Sound s T m) (hready : Ready s depth m) (ho : o.Known T) {fields : List Ty} {field : Ty} {k : Nat}
    {rest : Ty → Value → Action Value}
    {after : Ty → Concrete.Placement → Concrete.Registers → BitVec w → Option (BitVec w)}
    (hk : number? x = some k) (hfield : fields[k]? = some field)
    (hrest : ∀ m₁ (o₁ : Term w), Sound s T m₁ → Ready s depth m₁ → o₁.Known T →
      Quietly D s T (rest field ⟨o₁⟩) m₁ (OffsetOf s T rs o₁ (after field))) :
    Quietly D s T
      (do
        let n ← evalNat (← eval x)
        let preceding ← sumOfBytes s (fields.take n)
        let offset ← valueOr (Value.arith .add ⟨o⟩ (.ofNat w preceding))
        match fields[n]? with
        | some t => rest t offset
        | none => defect .missingIndex) m
      (OffsetOf s T rs o fun place cs start => do
        let n := (← y x place cs).toNat
        let preceding ← Concrete.sizes? s.project.layout (fields.take n)
        after (← fields[n]?) place cs (start + BitVec.ofNat w preceding)) := by
  refine quietly_bind (heval x hx m hm hready) fun v m₁ h₁ hv => ?_
  refine quietly_bind (quietly_evalNat h₁.sound (hv.2 k hk)) fun n m₂ h₂ hn => ?_
  subst hn
  refine quietly_bind (quietly_sumOfBytes h₂.sound _) fun size m₃ h₃ hsize => ?_
  refine quietly_bind (quietly_valueOr h₃.sound (arith_mk rfl _ _)) fun o₁ m₄ h₄ ho₁ => ?_
  subst ho₁
  rw [hfield]
  have hquiet := ((h₁.trans h₂).trans h₃).trans h₄
  refine (hrest m₄ _ h₄.sound (hready.quiet hquiet) (Term.known_mkArith ho (Term.known_const _))).mono ?_
  rintro r m' h' ⟨o', rfl, ho', hword⟩
  refine ⟨o', rfl, ho', fun i place cs hcovers hrep => ?_⟩
  -- The index is a constant, so the fields before it are known and their sizes fold into one word.
  have hindex := hv.1.word i place cs
    (hcovers.of_addresses (((h₂.trans h₃).trans h₄).trans h').addresses) hrep
  simp only [hindex, Option.bind_eq_bind, Option.bind_some, Value.word_of_const? i (hv.2 n hk), hsize, hfield]
  rw [← hword i place cs hcovers hrep, Term.meaning_mkArith]
  rfl

end Index

theorem quietly_innerOffset {w : Nat} (hw : w ≠ 0) {is : List ι}
    (heval : EvaluatesAll D s T rs depth eval y number? is) (hm : Sound s T m) (hready : Ready s depth m)
    {t : Ty} (hsel : Fits.selects s.project.layout number? t is = true) {o : Term w} (ho : o.Known T) :
    Quietly D s T (innerOffset s eval w t is ⟨o⟩) m
      (OffsetOf s T rs o fun place cs start =>
        Concrete.innerOffset s.project.layout (fun x => y x place cs) w t is start) := by
  induction is generalizing m t o with
  | nil =>
    unfold innerOffset
    exact quietly_pure hm ⟨o, rfl, ho, fun i place cs _ _ => by dsimp only; unfold Concrete.innerOffset; rfl⟩
  | cons x is ih =>
    have hrest : EvaluatesAll D s T rs depth eval y number? is :=
      fun i hi => heval i (List.mem_cons_of_mem x hi)
    unfold innerOffset Concrete.innerOffset
    unfold Fits.selects at hsel
    by_cases hstruct : t.isStruct = true
    · -- a field of a struct
      simp only [if_pos hstruct] at hsel ⊢
      split at hsel
      · rename_i field hfield
        obtain ⟨k, hk, hget⟩ := Option.bind_eq_some_iff.mp hfield
        exact quietly_field heval List.mem_cons_self hm hready ho hk hget fun m₁ o₁ hm₁ hready₁ ho₁ =>
          ih hrest hm₁ hready₁ hsel ho₁
      · cases hsel
    · -- an element of an array or a vector
      simp only [if_neg hstruct] at hsel ⊢
      cases t with
      | array n e | vector n e =>
        exact quietly_element hw heval List.mem_cons_self hm hready ho e fun m₁ o₁ hm₁ hready₁ ho₁ =>
          ih hrest hm₁ hready₁ hsel ho₁
      | _ => exact quietly_fault rfl

/-- **Offsets.** -/
theorem quietly_offset {w : Nat} (hw : w ≠ 0) {is : List ι}
    (heval : EvaluatesAll D s T rs depth eval y number? is) (hm : Sound s T m) (hready : Ready s depth m)
    {t : Ty} (hsel : Fits.selects s.project.layout number? t (is.drop 1) = true) :
    Quietly D s T (offset s eval w t is) m fun r m' =>
      ∃ o : Term w, r = ⟨o⟩ ∧ o.Known T ∧ ∀ i place cs, Covers s place m' → Represents i rs cs →
        Concrete.offset s.project.layout (fun x => y x place cs) w t is = some (o.meaning i.reading) := by
  cases is with
  | nil =>
    exact quietly_pure hm ⟨.const (BitVec.ofNat w 0), rfl, Term.known_const _, fun _ _ _ _ _ => rfl⟩
  | cons x is =>
    have hrest : EvaluatesAll D s T rs depth eval y number? is :=
      fun i hi => heval i (List.mem_cons_of_mem x hi)
    -- the first index counts objects, from no offset at all
    have hzero : (Term.const (BitVec.ofNat w 0)).Known T := Term.known_const _
    refine (quietly_element hw heval List.mem_cons_self hm hready hzero t fun m₁ o₁ hm₁ hready₁ ho₁ =>
      quietly_innerOffset hw hrest hm₁ hready₁ hsel ho₁).mono ?_
    rintro r m' h' ⟨o', rfl, ho', hword⟩
    refine ⟨o', rfl, ho', fun i place cs hcovers hrep => ?_⟩
    have hoffset := hword i place cs hcovers hrep
    simp only [Term.meaning_const, BitVec.zero_add] at hoffset
    exact hoffset

end Offset

end Machine

end PathSafety
