import PathSafety.Proofs.Concrete.Operand
import PathSafety.Proofs.IR.Parts

/-!
# Subobjects

Bit sizes, byte sizes and the sums of the sizes of fields are computed apart from one another. A part of a type is
addressed only if what lies before it has whole bytes; the part itself may be of any number of bits. So positions are
whole bytes, while the room that is left behind them is counted in bits.

Contents:

* `Layout.sum_parts`, `Layout.sum_of_sizes?` — bits and bytes of several parts;
* `Layout.Selects` — where positions lead, if what lies before has whole bytes;
* `Layout.Selects.le` — subobjects lie in their object;
* `Layout.Selects.apart` — subobjects of which none is part of the other lie beside one another.
-/

namespace PathSafety.IR.Layout

open Concrete

variable {l : Layout} {t u v : Ty} {ts us : List Ty} {i j n k b : Nat} {is js : List Nat}

/-! ## Sizes of several types -/

/-- How many bits several types have together. -/
def sum? (l : Layout) (ts : List Ty) : Option Nat := sumWith l.pointerBits (l.namedBits l.structs.length) ts

theorem sum?_cons (t : Ty) (ts : List Ty) :
    l.sum? (t :: ts) = (l.bits? t).bind fun x => (l.sum? ts).map (x + ·) := by
  unfold sum? bits?
  rw [sumWith]
  cases bitsWith l.pointerBits (l.namedBits l.structs.length) t with
  | none => rfl
  | some x => cases sumWith l.pointerBits (l.namedBits l.structs.length) ts <;> rfl

theorem exists_of_sum?_append (h : l.sum? (ts ++ us) = some b) :
    ∃ x y, l.sum? ts = some x ∧ l.sum? us = some y ∧ b = x + y := by
  induction ts generalizing b with
  | nil => exact ⟨0, b, by unfold sum? sumWith; rfl, h, (Nat.zero_add b).symm⟩
  | cons t ts ih =>
    rw [List.cons_append, sum?_cons] at h
    obtain ⟨x, hx, h⟩ := Option.bind_eq_some_iff.mp h
    obtain ⟨rest, hrest, rfl⟩ := Option.map_eq_some_iff.mp h
    obtain ⟨y, z, hy, hz, rfl⟩ := ih hrest
    refine ⟨x + y, z, ?_, hz, (Nat.add_assoc x y z).symm⟩
    rw [sum?_cons, hx, hy]
    rfl

theorem sum?_replicate (hb : l.bits? t = some b) (n : Nat) : l.sum? (List.replicate n t) = some (b * n) := by
  induction n with
  | zero =>
    unfold sum? sumWith
    rfl
  | succ n ih =>
    rw [List.replicate_succ, sum?_cons, hb, ih, Nat.mul_succ, Nat.add_comm (b * n)]
    rfl

/-- **A type has as many bits as its parts together**, if it has any. -/
theorem sum_parts (h : l.bits? t = some b) (hparts : t.parts l.structs ≠ []) : l.sum? (t.parts l.structs) = some b := by
  cases t with
  | array n e | vector n e =>
    obtain ⟨c, hc, rfl⟩ := Option.map_eq_some_iff.mp (show (l.bits? e).map (· * n) = some b from h)
    exact sum?_replicate hc n
  | struct ts packed => exact sum_of_bits_fields rfl h
  | named name =>
    cases hts : (l.structs.lookup name).join with
    | none => exact absurd (congrArg (Option.getD · []) hts) hparts
    | some ts =>
      have hfields : (Ty.named name).fields? l.structs = some ts := hts
      rw [Ty.parts_of_fields? hfields]
      exact sum_of_bits_fields hfields h
  | _ => exact absurd rfl hparts

theorem size?_eq_some_iff : size? l t = some n ↔ l.bits? t = some (8 * n) := by
  unfold size? bytes
  cases hb : l.bits? t with
  | none => simp [Except.toOption]
  | some b =>
    dsimp only
    split
    · rename_i hmod
      simp only [Except.toOption, Option.some.injEq]
      omega
    · rename_i hmod
      simp only [Except.toOption, Option.some.injEq, reduceCtorEq, false_iff]
      omega

theorem exists_of_sizes?_cons (h : sizes? l (t :: ts) = some n) :
    ∃ x y, size? l t = some x ∧ sizes? l ts = some y ∧ n = x + y := by
  unfold sizes? at h
  obtain ⟨x, hx, h⟩ := Option.bind_eq_some_iff.mp h
  obtain ⟨y, hy, h⟩ := Option.bind_eq_some_iff.mp h
  exact ⟨x, y, hx, hy, (Option.some.inj h).symm⟩

theorem exists_of_sizes?_append (h : sizes? l (ts ++ us) = some n) :
    ∃ x y, sizes? l ts = some x ∧ sizes? l us = some y ∧ n = x + y := by
  induction ts generalizing n with
  | nil => exact ⟨0, n, rfl, h, (Nat.zero_add n).symm⟩
  | cons t ts ih =>
    obtain ⟨x, rest, hx, hrest, rfl⟩ := exists_of_sizes?_cons h
    obtain ⟨y, z, hy, hz, rfl⟩ := ih hrest
    refine ⟨x + y, z, ?_, hz, (Nat.add_assoc x y z).symm⟩
    simp only [sizes?, hx, hy]
    rfl

theorem sizes?_replicate (hsize : size? l t = some k) (n : Nat) : sizes? l (List.replicate n t) = some (n * k) := by
  induction n with
  | zero =>
    rw [Nat.zero_mul]
    rfl
  | succ n ih =>
    simp only [List.replicate_succ, sizes?, hsize, ih, Nat.succ_mul, Nat.add_comm (n * k)]
    rfl

/-- Where all of several types have whole bytes, their bits are those of the bytes. -/
theorem sum_of_sizes? (h : sizes? l ts = some n) : l.sum? ts = some (8 * n) := by
  induction ts generalizing n with
  | nil =>
    obtain rfl := Option.some.inj h
    unfold sum? sumWith
    rfl
  | cons t ts ih =>
    obtain ⟨x, y, hx, hy, rfl⟩ := exists_of_sizes?_cons h
    rw [sum?_cons, size?_eq_some_iff.mp hx, ih hy, Nat.mul_add]
    rfl

/-! ## One step into a type -/

theorem eq_take_append_drop (hu : ts[i]? = some u) : ts = ts.take i ++ u :: ts.drop (i + 1) := by
  obtain ⟨hi, rfl⟩ := List.getElem?_eq_some_iff.mp hu
  rw [← List.drop_eq_getElem_cons hi, List.take_append_drop]

/-- A part behind whole bytes lies in the whole. -/
theorem part_le (hb : l.bits? t = some b) (hu : (t.parts l.structs)[i]? = some u)
    (hn : sizes? l ((t.parts l.structs).take i) = some n) : ∃ c, l.bits? u = some c ∧ 8 * n + c ≤ b := by
  have hsum := sum_parts hb (List.ne_nil_of_mem (List.mem_of_getElem? hu))
  rw [eq_take_append_drop hu] at hsum
  obtain ⟨x, y, hx, hy, rfl⟩ := exists_of_sum?_append hsum
  rw [sum?_cons] at hy
  obtain ⟨c, hc, hy⟩ := Option.bind_eq_some_iff.mp hy
  obtain ⟨z, _, rfl⟩ := Option.map_eq_some_iff.mp hy
  have hbefore := Option.some.inj ((sum_of_sizes? hn).symm.trans hx)
  exact ⟨c, hc, by omega⟩

/-- A part before another one that is addressed has whole bytes, and ends where the other begins or before. -/
theorem part_before (hij : i < j) (hu : ts[i]? = some u) (hn : sizes? l (ts.take i) = some n)
    (hk : sizes? l (ts.take j) = some k) : ∃ c, size? l u = some c ∧ n + c ≤ k := by
  have hget : (ts.take j)[i]? = some u := by rw [List.getElem?_take_of_lt hij, hu]
  rw [eq_take_append_drop hget, List.take_take, Nat.min_eq_left (Nat.le_of_lt hij)] at hk
  obtain ⟨x, y, hx, hy, rfl⟩ := exists_of_sizes?_append hk
  obtain ⟨c, z, hc, _, rfl⟩ := exists_of_sizes?_cons hy
  obtain rfl := Option.some.inj (hn.symm.trans hx)
  exact ⟨c, hc, by omega⟩

/-! ## Positions -/

/-- That positions select a part of a type, with so many bytes before it. What lies before each part on the way has whole
bytes. -/
inductive Selects (l : Layout) : Ty → List Nat → Ty → Nat → Prop
  | nil {t : Ty} : Selects l t [] t 0
  | cons {t u v : Ty} {i n k : Nat} {is : List Nat} (part : (t.parts l.structs)[i]? = some u)
      (before : sizes? l ((t.parts l.structs).take i) = some n) (rest : Selects l u is v k) :
      Selects l t (i :: is) v (n + k)

/-- **Subobjects lie in their object.** -/
theorem Selects.le (h : l.Selects t is u n) (hb : l.bits? t = some b) : ∃ c, l.bits? u = some c ∧ 8 * n + c ≤ b := by
  induction h generalizing b with
  | nil => exact ⟨b, hb, by omega⟩
  | cons hpart hbefore _ ih =>
    obtain ⟨x, hx, hle⟩ := part_le hb hpart hbefore
    obtain ⟨c, hc, hinner⟩ := ih hx
    exact ⟨c, hc, by omega⟩

/-- What leads into an earlier part ends before what leads into a later one begins. -/
theorem Selects.le_of_lt {n' : Nat} (h : l.Selects u is v k) (hij : i < j) (hu : (t.parts l.structs)[i]? = some u)
    (hn : sizes? l ((t.parts l.structs).take i) = some n) (hn' : sizes? l ((t.parts l.structs).take j) = some n')
    {c : Nat} (hc : l.bits? v = some c) : 8 * (n + k) + c ≤ 8 * n' := by
  obtain ⟨size, hsize, hle⟩ := part_before hij hu hn hn'
  obtain ⟨c', hc', hinner⟩ := h.le (size?_eq_some_iff.mp hsize)
  obtain rfl := Option.some.inj (hc.symm.trans hc')
  omega

/-- **Subobjects beside one another.** Of two subobjects, none of which is part of the other, one ends before the other
begins. -/
theorem Selects.apart (h₁ : l.Selects t is u n) (h₂ : l.Selects t js v k) (hb : l.bits? t = some b)
    (hij : ¬ is <+: js) (hji : ¬ js <+: is) {c d : Nat} (hc : l.bits? u = some c) (hd : l.bits? v = some d) :
    8 * n + c ≤ 8 * k ∨ 8 * k + d ≤ 8 * n := by
  induction h₁ generalizing js k b with
  | nil => exact absurd (List.nil_prefix) hij
  | @cons t u₁ u i n₁ k₁ is hu₁ hn₁ hrest₁ ih =>
    cases h₂ with
    | nil => exact absurd (List.nil_prefix) hji
    | @cons _ u₂ _ j n₂ k₂ js hu₂ hn₂ hrest₂ =>
      rcases Nat.lt_trichotomy i j with hlt | rfl | hlt
      · have := hrest₁.le_of_lt hlt hu₁ hn₁ hn₂ hc
        omega
      · -- both lead into the same part
        obtain rfl := Option.some.inj (hu₁.symm.trans hu₂)
        obtain rfl := Option.some.inj (hn₁.symm.trans hn₂)
        rw [List.cons_prefix_cons, not_and] at hij hji
        obtain ⟨b', hb', _⟩ := part_le hb hu₁ hn₁
        have := ih hrest₂ hb' (hij rfl) (hji rfl) hc
        omega
      · have := hrest₂.le_of_lt hlt hu₂ hn₂ hn₁ hd
        omega

end PathSafety.IR.Layout
