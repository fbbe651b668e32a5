import Mathlib.Algebra.Ring.Int.Defs
import PathSafety.Proofs.Machine.Watch
import PathSafety.Proofs.Path.Distance
import PathSafety.Proofs.Path.Layout

/-!
# What the offset monitor lets pass

The monitor of address computations compares an offset with the size of its object. The offset is a word as wide as
a pointer, so what it bounds is the exact distance modulo the number of addresses. A distance that passes is in its
object unless it leaves it by a whole round of the address space or more: `64` bit indices into an array of words
can do that. The number of a field is picked once, so indices that select fields are to have one possible value.

Contents:

* `Layout.exactDistance?` — the distance with all indices read under a valuation;
* `Layout.FixedFields` — that fields are selected by indices of one possible value;
* `Checker.watchOffset_iff` — what passes the monitor;
* `Checker.exactDistance_of_watchOffset` — exact distances of what passes.
-/

namespace PathSafety

open IR Machine

/-! ## Fields of one possible number -/

namespace IR.Layout

variable {l : Layout} {p : PathCondition} {ν : Valuation} {t : Ty} {vs : List Value}

/-- How many bytes what indices select lies from a base pointer, where all indices are read under a valuation. -/
def exactDistance? (l : Layout) (ν : Valuation) (t : Ty) (vs : List Value) : Option Int :=
  l.distance? ν (fun v => some (v.number ν)) t vs

/-- That indices after the first that select fields of structs have one possible value each. -/
def FixedFields (l : Layout) (p : PathCondition) : Ty → List Value → Prop
  | _, [] => True
  | t, v :: vs =>
    if t.isStruct then
      (∀ ν ν', Term.AllHold ν p.conds → Term.AllHold ν' p.conds → v.number ν = v.number ν') ∧
        ∀ ν, Term.AllHold ν p.conds → ∀ u, ((t.fields? l.structs).getD [])[v.number ν]? = some u → FixedFields l p u vs
    else
      match t with
      | .array _ e | .vector _ e => FixedFields l p e vs
      | _ => True

/-- Of one possible number the path condition can only pick this one. -/
theorem innerDistance?_of_fixed (hfixed : l.FixedFields p t vs) (hν : Term.AllHold ν p.conds) :
    l.innerDistance? ν (fun v => p.anyValue? v.term) t vs = l.innerDistance? ν (fun v => some (v.number ν)) t vs := by
  induction vs generalizing t with
  | nil => rfl
  | cons v vs ih =>
    -- a field is the same either way, and so is what comes before it
    have hfirst : l.part? (fun v => p.anyValue? v.term) t v = l.part? (fun v => some (v.number ν)) t v ∧
        l.step? ν (fun v => p.anyValue? v.term) t v = l.step? ν (fun v => some (v.number ν)) t v ∧
        ∀ u, l.part? (fun v => some (v.number ν)) t v = some u → l.FixedFields p u vs := by
      unfold FixedFields at hfixed
      split at hfixed
      · rename_i hstruct
        obtain ⟨hone, hrest⟩ := hfixed
        obtain ⟨n, hn, ν', hν', hnumber⟩ := PathCondition.exists_anyValue? (t := v.term) ⟨ν, hν⟩
        have hpick : p.anyValue? v.term = some (v.number ν) := by rw [hn, ← hnumber, ← hone ν' ν hν' hν]; rfl
        simp only [part?, step?, if_pos hstruct, hpick, Option.bind_eq_bind, Option.bind_some, true_and]
        exact hrest ν hν
      · rename_i hstruct
        cases t with
        | array n e | vector n e => exact ⟨rfl, rfl, fun u hu => Option.some.inj hu ▸ hfixed⟩
        | struct | named => exact absurd rfl hstruct
        | _ => exact ⟨rfl, rfl, fun u hu => by cases hu⟩
    obtain ⟨hpart, hstep, hrest⟩ := hfirst
    unfold innerDistance?
    rw [hpart, hstep]
    refine Option.bind_congr fun n _ => Option.bind_congr fun u hu => ?_
    rw [ih (hrest u hu)]

theorem exactDistance?_eq (hfixed : l.FixedFields p t (vs.drop 1)) (hν : Term.AllHold ν p.conds) :
    l.exactDistance? ν t vs = l.distance? ν (fun v => p.anyValue? v.term) t vs := by
  cases vs with
  | nil => rfl
  | cons v vs =>
    have hinner : l.innerDistance? ν (fun v => p.anyValue? v.term) t vs =
        l.innerDistance? ν (fun v => some (v.number ν)) t vs := innerDistance?_of_fixed hfixed hν
    simp only [exactDistance?, distance?, hinner]

end IR.Layout

/-! ## The monitor -/

namespace Checker

variable {s : Setting} {site : Site} {m m₁ m' : Machine} {pointer : Operand} {written : Option Ty}
  {indices : List Operand} {o : Term s.pointerBits} {size : Nat}

/-- The monitor passes what is less than the size for every input, the size taken as a word as well. -/
theorem watchOffset_iff (hop : site.instr.op = .gep true pointer written indices)
    (hsize : Concrete.size? s.project.layout (site.routine.scope.accessType pointer written) = some size)
    (hoffset : offset s (site.eval s) s.pointerBits (site.routine.scope.accessType pointer written) indices m =
      .ok ⟨o⟩ m₁) :
    watchOffset s site m = .ok () m' ↔ m' = m₁ ∧ ∀ ν, Term.AllHold ν m₁.condition.conds →
      (o.denote ν).toNat < size % 2 ^ s.pointerBits := by
  -- The query holds under exactly those valuations that take the offset out of the object.
  have hleaves : ∀ ν, (Term.mkCmp .ule (.const (BitVec.ofNat s.pointerBits size)) o).Holds ν ↔
      size % 2 ^ s.pointerBits ≤ (o.denote ν).toNat := by
    intro ν
    rw [Term.Holds, Term.denote_eq_meaning, Term.denote_eq_meaning]
    exact bytes_ofNat_ule o size ν.reading
  have hbytes : sizeInBytes s (site.routine.scope.accessType pointer written) m = .ok size m := by
    unfold Concrete.size? at hsize
    unfold sizeInBytes
    cases hbytes : s.project.layout.bytes (site.routine.scope.accessType pointer written) with
    | ok n =>
      rw [hbytes] at hsize
      obtain rfl := Option.some.inj hsize
      rfl
    | error e =>
      rw [hbytes] at hsize
      cases hsize
  have hwatch : watchOffset s site m = (do
      if ← sat [Term.mkCmp .ule (.const (BitVec.ofNat s.pointerBits size)) o] then
        fault (.offset size site.location site.text) : Action Unit) m₁ := by
    unfold watchOffset
    rw [hop]
    dsimp only
    rw [bind_of_ok hbytes, bind_of_ok hoffset]
    show ((valueOr ((Value.ofNat s.pointerBits size).cmp .ule ⟨o⟩) >>= _ : Action Unit)) m₁ = _
    have hcmp : (Value.ofNat s.pointerBits size).cmp .ule ⟨o⟩ =
        .ok (Term.mkCmp .ule (.const (BitVec.ofNat s.pointerBits size)) o) := Value.aligned_mk _ _ _
    rw [hcmp]
    rfl
  rw [hwatch, ask_iff]
  refine and_congr_right fun _ => ?_
  rw [← Bool.not_eq_true, PathCondition.sat_iff]
  constructor
  · intro hno ν hν
    exact Nat.lt_of_not_le fun hle => hno ⟨ν, hν, (hleaves ν).mpr hle⟩
  · rintro hall ⟨ν, hν, hle⟩
    exact absurd ((hleaves ν).mp hle) (Nat.not_le_of_lt (hall ν hν))

/-- What passes the monitor has an offset, and objects of a size. -/
theorem exists_of_watchOffset (hop : site.instr.op = .gep true pointer written indices)
    (h : watchOffset s site m = .ok () m') :
    ∃ size v m₁, Concrete.size? s.project.layout (site.routine.scope.accessType pointer written) = some size ∧
      offset s (site.eval s) s.pointerBits (site.routine.scope.accessType pointer written) indices m = .ok v m₁ := by
  unfold watchOffset at h
  rw [hop] at h
  obtain ⟨size, m₁, hbytes, h⟩ := exists_of_bind h
  obtain ⟨v, m₂, hoffset, _⟩ := exists_of_bind h
  obtain ⟨hsize, rfl⟩ := size?_of_sizeInBytes hbytes
  exact ⟨size, v, m₂, hsize, hoffset⟩

/-- **Exact distances of what passes.** The exact distance of an address computation that passes the monitor is less
than the size of the object modulo the number of addresses, for every input. So it is in the object, as long as it does
not go around the whole address space. -/
theorem exactDistance_of_watchOffset (hop : site.instr.op = .gep true pointer written indices)
    (h : watchOffset s site m = .ok () m') :
    ∃ vs size, site.evalAll s indices m = .ok vs m' ∧
      Concrete.size? s.project.layout (site.routine.scope.accessType pointer written) = some size ∧
      (s.project.layout.FixedFields m.condition (site.routine.scope.accessType pointer written) (vs.drop 1) →
        ∀ ν, Term.AllHold ν m.condition.conds →
          ∃ d, s.project.layout.exactDistance? ν (site.routine.scope.accessType pointer written) vs = some d ∧
            d % 2 ^ s.pointerBits < size ∧
            ((size : Int) - 2 ^ s.pointerBits ≤ d → d < 2 ^ s.pointerBits → 0 ≤ d ∧ d < size)) := by
  obtain ⟨size, v, m₁, hsize, hoffset⟩ := exists_of_watchOffset hop h
  obtain ⟨vs, hvs, o, rfl, hdistance⟩ := exists_of_offset hoffset
  obtain ⟨rfl, hlt⟩ := (watchOffset_iff hop hsize hoffset).mp h
  refine ⟨vs, size, hvs, hsize, fun hfixed ν hν => ?_⟩
  obtain ⟨d, hd, hword⟩ := hdistance ν
  have hless := hlt ν (condition_of_evalAll hvs ▸ hν)
  rw [hword, BitVec.toNat_ofInt] at hless
  have hpos : (0 : Int) < 2 ^ s.pointerBits := Int.pow_pos (by decide)
  have hmod : d % 2 ^ s.pointerBits < size := by
    have hle := Nat.mod_le size (2 ^ s.pointerBits)
    have hnonneg := Int.emod_nonneg d (Int.ne_of_gt hpos)
    have hcast : ((2 ^ s.pointerBits : Nat) : Int) = 2 ^ s.pointerBits := by push_cast; rfl
    rw [hcast] at hless
    omega
  refine ⟨d, (Layout.exactDistance?_eq hfixed hν).trans hd, hmod, fun hlow hhigh => ?_⟩
  by_cases hd0 : 0 ≤ d
  · rw [Int.emod_eq_of_lt hd0 hhigh] at hmod
    exact ⟨hd0, hmod⟩
  · -- a negative distance comes back at the top of the address space, behind the object
    have hround : d % 2 ^ s.pointerBits = d + 2 ^ s.pointerBits := by
      rw [← Int.add_emod_right, Int.emod_eq_of_lt (by omega) (by omega)]
    omega

end Checker

/-! ### Objects of a few bytes -/

namespace Rounds

open Packed (setting)

/-- An address computation in objects of a type, where a register holds a number about which nothing is known. -/
def site (t : Ty) (indices : List Operand) : Site where
  routine := (Packed.site (.ofNat 64 0)).routine
  registers := (∅ : Registers).insert "x" ⟨(.symbol ⟨0, "x"⟩ : Term 32)⟩
  block := "entry"
  index := 0
  previous := none
  instr := ⟨"p", .gep true (.constant (.ptr 0) .null) (some t) indices⟩

/-- A machine that has found out that the number can be zero. -/
def machine : Machine := { initial with condition := ⟨[], [⟨∅, List.forall_mem_nil _⟩]⟩ }

def index (width : Nat) (n : Int) : Operand := .constant (.int width) (.int n)

/-- Three words behind a half word. -/
def record : Ty := .struct [.int 16, .array 3 (.int 32)] false

def words : Ty := .array 4 (.int 32)

/-- Two bytes, and one byte behind them. -/
def halves : Ty := .struct [.array 2 (.int 8), .array 1 (.int 8)] false

/-- Of the number that can be anything the machine picks zero. -/
theorem evalNat_unknown : evalNat ⟨(.symbol ⟨0, "x"⟩ : Term 32)⟩ machine = .ok 0 machine := by
  have hfind : machine.condition.find? [] = some ⟨∅, List.forall_mem_nil _⟩ := by
    unfold PathCondition.find?
    rfl
  have hpick : machine.condition.anyValue? (.symbol ⟨0, "x"⟩ : Term 32) = some 0 := by
    unfold PathCondition.anyValue?
    dsimp only [Term.const?]
    rw [hfind, Option.map_some, Term.value_eq]
    simp [Term.denote, Model.valuation]
  unfold evalNat
  rw [bind_of_ok (rfl : (get : Action Machine) machine = .ok machine machine), hpick]
  rfl

theorem eval_unknown (t : Ty) (indices : List Operand) :
    (site t indices).eval setting (.register "x") machine = .ok ⟨(.symbol ⟨0, "x"⟩ : Term 32)⟩ machine := by
  unfold Site.eval eval evalWith
  rw [show (site t indices).registers.get? "x" = some _ from (get?_insert_name _ _ _ _).trans (if_pos rfl)]
  rfl

/-- The monitor passes the byte behind the first half, as the machine sees the address computation. -/
theorem watchOffset_halves :
    Checker.watchOffset setting (site halves [index 64 0, .register "x", index 8 1]) machine = .ok () machine := by
  have hoffset : offset setting ((site halves [index 64 0, .register "x", index 8 1]).eval setting) 64 halves
      [index 64 0, .register "x", index 8 1] machine = .ok (.ofNat 64 1) machine := by
    have hzero : (site halves [index 64 0, .register "x", index 8 1]).eval setting (index 64 0) machine =
        .ok (.ofInt 64 0) machine := rfl
    have hbytes : sizeInBytes setting halves machine = .ok 3 machine := rfl
    have hfirst : scaled 64 (.ofNat 64 0) (.ofInt 64 0) 3 machine = .ok (.ofNat 64 0) machine := rfl
    refine (bind_of_ok hzero).trans ((bind_of_ok hbytes).trans ((bind_of_ok hfirst).trans ?_))
    exact (bind_of_ok (eval_unknown _ _)).trans ((bind_of_ok evalNat_unknown).trans rfl)
  have hsize : Concrete.size? setting.project.layout halves = some 3 := rfl
  exact (Checker.watchOffset_iff rfl hsize hoffset).mpr ⟨rfl, fun _ _ => (by decide : 1 < 3)⟩

end Rounds

namespace Checker

open Rounds in
open Packed (setting) in
/-- The last of the three words: ten bytes from the start of a record of fourteen bytes. -/
theorem exactDistance_of_watchOffset_record : ∃ vs,
    (site record [index 64 0, index 32 1, index 8 2]).evalAll setting [index 64 0, index 32 1, index 8 2] initial =
        .ok vs initial ∧
      ∀ ν, ∃ d, setting.project.layout.exactDistance? ν record vs = some d ∧ 0 ≤ d ∧ d < 14 := by
  have hwatch : watchOffset setting (site record [index 64 0, index 32 1, index 8 2]) initial = .ok () initial := rfl
  obtain ⟨vs, size, hvs, hsize, hexact⟩ := exactDistance_of_watchOffset rfl hwatch
  obtain rfl : 14 = size := Option.some.inj hsize
  obtain rfl : [Value.ofInt 64 0, Value.ofInt 32 1, Value.ofInt 8 2] = vs := by
    cases hvs
    rfl
  refine ⟨_, hvs, fun ν => ?_⟩
  have hfixed : setting.project.layout.FixedFields initial.condition record [.ofInt 32 1, .ofInt 8 2] := by
    refine ⟨fun ν ν' _ _ => rfl, fun ν _ u hu => ?_⟩
    obtain rfl : .array 3 (.int 32) = u := Option.some.inj hu
    trivial
  obtain ⟨d, hd, _, hinside⟩ := hexact hfixed ν (List.forall_mem_nil _)
  obtain rfl : 10 = d := Option.some.inj hd
  exact ⟨10, hd, hinside (by decide) (by decide)⟩

open Rounds in
open Packed (setting) in
/-- Two ways around the monitor: `2^60` words of four bytes four times over lead once around the address space, and a
number that can be another one than the one picked leads into the second half and out of it. -/
theorem exactDistance_out_of_object :
    (watchOffset setting (site words [index 64 (2 ^ 60)]) initial = .ok () initial ∧
      (site words [index 64 (2 ^ 60)]).evalAll setting [index 64 (2 ^ 60)] initial = .ok [.ofInt 64 (2 ^ 60)] initial ∧
      Concrete.size? setting.project.layout words = some 16 ∧
      setting.project.layout.exactDistance? (fun _ => 0) words [.ofInt 64 (2 ^ 60)] = some (2 ^ 64)) ∧
    watchOffset setting (site halves [index 64 0, .register "x", index 8 1]) machine = .ok () machine ∧
      (site halves [index 64 0, .register "x", index 8 1]).evalAll setting [index 64 0, .register "x", index 8 1]
        machine = .ok [.ofInt 64 0, ⟨(.symbol ⟨0, "x"⟩ : Term 32)⟩, .ofInt 8 1] machine ∧
      Concrete.size? setting.project.layout halves = some 3 ∧ Term.AllHold (fun _ => 1) machine.condition.conds ∧
      setting.project.layout.exactDistance? (fun _ => 1) halves
        [.ofInt 64 0, ⟨(.symbol ⟨0, "x"⟩ : Term 32)⟩, .ofInt 8 1] = some 3 := by
  refine ⟨⟨rfl, rfl, rfl, by decide⟩, watchOffset_halves, ?_, rfl, List.forall_mem_nil _, by decide⟩
  exact evalAll_cons rfl (evalAll_cons (eval_unknown _ _) rfl)

end Checker

end PathSafety
