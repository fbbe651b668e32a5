import PathSafety.Proofs.Machine.Evaluate

/-!
# Parts of types and of constants

What arrays, vectors and structs are made of, one part after another, and what a list of indices selects. Where all
types have whole bytes, a type is as large as its parts together, so that a part that indices select lies in what they
select it from.

Contents:

* `Ty.parts`, `Ty.select?` — what types are made of, and what indices select;
* `Layout.Whole` — types of whole bytes, and some;
* `Layout.size`, `Layout.place` — sizes, and where the part lies that indices select;
* `Layout.size_eq_sum`, `Layout.place_add_size_le` — parts lie beside one another in the whole;
* `Operand.Fills` — constants of a type, over integers and pointers;
* `Operand.select?` — the part of a constant that indices select;
* `Operand.Fills.exists_part?` — a constant of a type has the parts of the type;
* `Operand.eq_null_of_select?` — the parts of what is all zero.
-/

namespace PathSafety.IR

/-! ## Types -/

/-- The types of the parts of a type, in the order in which they lie in memory. -/
def Ty.parts (structs : StructTable) : Ty → List Ty
  | .array n t | .vector n t => List.replicate n t
  | t => (t.fields? structs).getD []

/-- What indices select in a type; none if one of them is out of range. -/
def Ty.select? (structs : StructTable) : Ty → List Nat → Option Ty
  | t, [] => some t
  | t, i :: is => do
    let u ← (t.parts structs)[i]?
    u.select? structs is

theorem Ty.parts_of_isPointer {structs : StructTable} {t : Ty} (h : t.isPointer = true) : t.parts structs = [] := by
  cases t with
  | ptr | ptrTo => rfl
  | _ => cases h

theorem bits_of_isPointer {l : Layout} {t : Ty} (h : t.isPointer = true) : l.bits? t = some l.pointerBits := by
  cases t with
  | ptr | ptrTo => rfl
  | _ => cases h

theorem Ty.parts_of_fields? {structs : StructTable} {t : Ty} {ts : List Ty} (h : t.fields? structs = some ts) :
    t.parts structs = ts := by
  cases t with
  | struct | named => exact congrArg (Option.getD · []) h
  | _ => cases h

theorem Ty.parts_of_isStruct {structs : StructTable} {t : Ty} (h : t.isStruct = true) :
    t.parts structs = (t.fields? structs).getD [] := by
  cases t with
  | struct | named => rfl
  | _ => cases h

namespace Layout

variable {l : Layout} {t u : Ty} {ts : List Ty} {is : List Nat}

/-- That a type has a whole number of bytes, and some, and so have all types that it is made of. -/
inductive Whole (l : Layout) : Ty → Prop
  | intro {t : Ty} {n : Nat} (hbits : l.bits? t = some (8 * n)) (hpos : 0 < n)
      (hparts : ∀ u ∈ t.parts l.structs, Whole l u) : Whole l t

/-- How many bytes a type takes. -/
def size (l : Layout) (t : Ty) : Nat := (l.bits? t).getD 0 / 8

/-- How many bytes lie before one of several parts. -/
def start (l : Layout) (ts : List Ty) (i : Nat) : Nat := ((ts.take i).map l.size).sum

/-- How many bytes lie before the part that indices select. -/
def place (l : Layout) : Ty → List Nat → Nat
  | _, [] => 0
  | t, i :: is => l.start (t.parts l.structs) i + (((t.parts l.structs)[i]?).map fun u => l.place u is).getD 0

namespace Whole

theorem bits (h : l.Whole t) : l.bits? t = some (8 * l.size t) := by
  obtain ⟨hbits, _, _⟩ := h
  unfold size
  rw [hbits, Option.getD_some, Nat.mul_div_cancel_left _ (by decide)]

theorem pos (h : l.Whole t) : 0 < l.size t := by
  have hbits := h.bits
  obtain ⟨hsize, hpos, _⟩ := h
  have := Option.some.inj (hsize.symm.trans hbits)
  omega

theorem parts (h : l.Whole t) : ∀ u ∈ t.parts l.structs, l.Whole u := by
  obtain ⟨_, _, hparts⟩ := h
  exact hparts

theorem bytes (h : l.Whole t) : l.bytes t = .ok (l.size t) := by
  unfold Layout.bytes
  rw [h.bits]
  dsimp only
  rw [if_pos (Nat.mul_mod_right 8 _), Nat.mul_div_cancel_left _ (by decide)]

theorem select (h : l.Whole t) (hu : t.select? l.structs is = some u) : l.Whole u := by
  induction is generalizing t with
  | nil => exact Option.some.inj hu ▸ h
  | cons i is ih =>
    obtain ⟨part, hpart, hu⟩ := Option.bind_eq_some_iff.mp hu
    exact ih (h.parts part (List.mem_of_getElem? hpart)) hu

end Whole

/-! ### Sizes -/

mutual

/-- More structs of known size leave the sizes that are known. -/
theorem bitsWith_of_le {pointerBits : Nat} {f g : String → Option Nat} (hfg : ∀ n b, f n = some b → g n = some b)
    (t : Ty) {b : Nat} (h : bitsWith pointerBits f t = some b) : bitsWith pointerBits g t = some b := by
  match t with
  | .int _ | .void | .half | .float | .double | .label | .metadata | .ptr _ | .ptrTo _ _ | .fn _ _ _ =>
    simpa only [bitsWith] using h
  | .array n t | .vector n t =>
    unfold bitsWith at h ⊢
    obtain ⟨k, hk, rfl⟩ := Option.map_eq_some_iff.mp h
    rw [bitsWith_of_le hfg t hk]
    rfl
  | .struct ts _ =>
    unfold bitsWith at h ⊢
    exact sumWith_of_le hfg ts h
  | .named n =>
    unfold bitsWith at h ⊢
    exact hfg n b h

theorem sumWith_of_le {pointerBits : Nat} {f g : String → Option Nat} (hfg : ∀ n b, f n = some b → g n = some b)
    (ts : List Ty) {b : Nat} (h : sumWith pointerBits f ts = some b) : sumWith pointerBits g ts = some b := by
  match ts with
  | [] => simpa only [sumWith] using h
  | t :: ts =>
    unfold sumWith at h ⊢
    split at h
    · rename_i j k hj hk
      rw [bitsWith_of_le hfg t hj, sumWith_of_le hfg ts hk]
      exact h
    · cases h

end

/-- Looking deeper leaves the sizes that are known. -/
theorem namedBits_succ {depth : Nat} {n : String} {b : Nat} (h : l.namedBits depth n = some b) :
    l.namedBits (depth + 1) n = some b := by
  induction depth generalizing n b with
  | zero => cases h
  | succ depth ih =>
    unfold namedBits at h ⊢
    obtain ⟨ts, hts, hsum⟩ := Option.bind_eq_some_iff.mp h
    rw [hts]
    exact sumWith_of_le (fun n b => ih) ts hsum

/-- The fields of a struct are as large together as the struct. -/
theorem sum_of_bits_fields (hfields : t.fields? l.structs = some ts) {b : Nat} (h : l.bits? t = some b) :
    sumWith l.pointerBits (l.namedBits l.structs.length) ts = some b := by
  unfold bits? at h
  cases t with
  | struct us _ =>
    obtain rfl := Option.some.inj hfields
    unfold bitsWith at h
    exact h
  | named n =>
    have hfields : (l.structs.lookup n).join = some ts := hfields
    unfold bitsWith at h
    cases hdepth : l.structs.length with
    | zero =>
      rw [hdepth] at h
      cases h
    | succ depth =>
      rw [hdepth] at h
      unfold namedBits at h
      rw [hfields] at h
      exact sumWith_of_le (fun n b => namedBits_succ) ts h
  | _ => cases hfields

/-- Parts of whole bytes are as large together as their sizes say. -/
theorem sum_of_whole (h : ∀ u ∈ ts, l.Whole u) :
    sumWith l.pointerBits (l.namedBits l.structs.length) ts = some (8 * (ts.map l.size).sum) := by
  induction ts with
  | nil =>
    unfold sumWith
    rfl
  | cons t ts ih =>
    obtain ⟨ht, hts⟩ := List.forall_mem_cons.mp h
    have hbits : bitsWith l.pointerBits (l.namedBits l.structs.length) t = some (8 * l.size t) := ht.bits
    unfold sumWith
    rw [hbits, ih hts, List.map_cons, List.sum_cons, Nat.mul_add]

/-- **A type is as large as its parts together**, if it has any. -/
theorem size_eq_sum (h : l.Whole t) (hparts : t.parts l.structs ≠ []) :
    l.size t = ((t.parts l.structs).map l.size).sum := by
  -- Records, named or not, are sized by their fields; arrays by their one element type.
  have hfields : ∀ ts, t.fields? l.structs = some ts → l.size t = ((t.parts l.structs).map l.size).sum := by
    intro ts hts
    have hsum := sum_of_whole h.parts
    rw [Ty.parts_of_fields? hts] at hsum ⊢
    have := Option.some.inj ((sum_of_bits_fields hts h.bits).symm.trans hsum)
    omega
  cases t with
  | array n u | vector n u =>
    have hn : n ≠ 0 := by
      rintro rfl
      exact hparts rfl
    have hu : l.Whole u := h.parts u (List.mem_replicate.mpr ⟨hn, rfl⟩)
    have hbits : (l.bits? u).map (· * n) = some (8 * l.size _) := h.bits
    rw [hu.bits] at hbits
    have hmul : 8 * l.size u * n = 8 * l.size _ := Option.some.inj hbits
    show _ = ((List.replicate n u).map l.size).sum
    rw [List.map_replicate, List.sum_replicate_nat, Nat.mul_comm n]
    rw [Nat.mul_assoc] at hmul
    exact (Nat.eq_of_mul_eq_mul_left (by decide) hmul).symm
  | struct ts packed => exact hfields ts rfl
  | named n =>
    cases hts : (l.structs.lookup n).join with
    | none => exact absurd (congrArg (Option.getD · []) hts) hparts
    | some ts => exact hfields ts hts
  | _ => exact absurd rfl hparts

/-! ### Places -/

/-- A part ends where the next one begins. -/
theorem start_succ {i : Nat} (hu : ts[i]? = some u) : l.start ts (i + 1) = l.start ts i + l.size u := by
  obtain ⟨hi, rfl⟩ := List.getElem?_eq_some_iff.mp hu
  unfold start
  rw [List.take_succ_eq_append_getElem hi, List.map_append, List.sum_append, List.map_singleton, List.sum_singleton]

/-- A part lies in the whole. -/
theorem start_add_size_le {i : Nat} (hu : ts[i]? = some u) : l.start ts i + l.size u ≤ (ts.map l.size).sum := by
  have hsplit : (ts.map l.size).sum = l.start ts (i + 1) + ((ts.drop (i + 1)).map l.size).sum := by
    unfold start
    rw [← List.sum_append, ← List.map_append, List.take_append_drop]
  rw [← start_succ hu, hsplit]
  exact Nat.le_add_right _ _

theorem place_cons {i : Nat} (hu : (t.parts l.structs)[i]? = some u) :
    l.place t (i :: is) = l.start (t.parts l.structs) i + l.place u is := by
  rw [place, hu]
  rfl

/-- **What indices select lies in what they select it from.** -/
theorem place_add_size_le (h : l.Whole t) (hu : t.select? l.structs is = some u) :
    l.place t is + l.size u ≤ l.size t := by
  induction is generalizing t with
  | nil =>
    obtain rfl := Option.some.inj hu
    exact Nat.le_of_eq (Nat.zero_add _)
  | cons i is ih =>
    obtain ⟨part, hpart, hu⟩ := Option.bind_eq_some_iff.mp hu
    have hmem := List.mem_of_getElem? hpart
    have hinner := ih (h.parts part hmem) hu
    have houter := start_add_size_le (l := l) hpart
    rw [← size_eq_sum h (List.ne_nil_of_mem hmem)] at houter
    rw [place_cons hpart]
    omega

end Layout

/-! ## Constants -/

variable {p : Project} {t u : Ty} {o part : Operand} {i : Nat}

mutual

/-- That an operand is a constant of a type, and is made of integers and pointers. -/
def Operand.Fills (p : Project) (t : Ty) : Operand → Prop
  | .constant u v => u = t ∧ v.Fills p t
  | .global _ => t.isPointer = true
  | .register _ | .assembly .. => False

def ConstantValue.Fills (p : Project) (t : Ty) : ConstantValue → Prop
  | .null => True
  | .int _ => ∃ w, t = .int w
  | .bytes bs => ∃ w, t = .array bs.length (.int w) ∨ t = .vector bs.length (.int w)
  | .elements es => Operand.FillAll p (t.parts p.layout.structs) es
  | .expression text =>
    t.isPointer = true ∨ ∃ w, t = .int w ∧ Machine.expressionWidth p (Text.trim text.toList) w = w
  | .undef | .real _ => False

/-- That operands are constants of several types, one after another. -/
def Operand.FillAll (p : Project) (ts : List Ty) : List Operand → Prop
  | [] => ts = []
  | o :: os => ∃ u us, ts = u :: us ∧ o.Fills p u ∧ Operand.FillAll p us os

end

/-- The part of a constant at an index, where it is of type `u`. What is all zero is zero in its parts. -/
def Operand.part? (u : Ty) (i : Nat) : Operand → Option Operand
  | .constant _ .null => some (.constant u .null)
  | .constant _ (.bytes bs) => bs[i]?.map fun b => .constant u (.int b.toNat)
  | .constant _ (.elements es) => es[i]?
  | _ => none

/-- The part of a constant of a type that indices select. -/
def Operand.select? (structs : StructTable) : Ty → Operand → List Nat → Option Operand
  | _, o, [] => some o
  | t, o, i :: is => do
    let u ← (t.parts structs)[i]?
    let part ← o.part? u i
    select? structs u part is

theorem Operand.FillAll.length_eq {ts : List Ty} {os : List Operand} (h : Operand.FillAll p ts os) :
    os.length = ts.length := by
  induction os generalizing ts with
  | nil =>
    unfold Operand.FillAll at h
    rw [h]
    rfl
  | cons o os ih =>
    unfold Operand.FillAll at h
    obtain ⟨u, us, rfl, _, hos⟩ := h
    rw [List.length_cons, List.length_cons, ih hos]

theorem Operand.FillAll.exists_getElem? {ts : List Ty} {os : List Operand} (h : Operand.FillAll p ts os)
    (hu : ts[i]? = some u) : ∃ o, os[i]? = some o ∧ o.Fills p u := by
  induction os generalizing ts i with
  | nil =>
    unfold Operand.FillAll at h
    rw [h] at hu
    cases hu
  | cons o os ih =>
    unfold Operand.FillAll at h
    obtain ⟨u', us, rfl, ho, hos⟩ := h
    cases i with
    | zero =>
      obtain rfl := Option.some.inj hu
      exact ⟨o, rfl, ho⟩
    | succ i => exact ih hos hu

/-- A constant of a type has a part wherever the type has one. -/
theorem Operand.Fills.exists_part? (h : o.Fills p t) (hu : (t.parts p.layout.structs)[i]? = some u) :
    ∃ part, o.part? u i = some part ∧ part.Fills p u := by
  have hparts : t.parts p.layout.structs ≠ [] := List.ne_nil_of_mem (List.mem_of_getElem? hu)
  cases o with
  | global n => exact absurd (Ty.parts_of_isPointer h) hparts
  | register | assembly => exact h.elim
  | constant t' v =>
    obtain ⟨rfl, h⟩ := h
    -- The parts of a null are null; an integer or an expression would make the type scalar.
    cases v with
    | null => exact ⟨_, rfl, rfl, trivial⟩
    | int n =>
      obtain ⟨w, rfl⟩ := h
      exact absurd rfl hparts
    | undef | real => exact h.elim
    | bytes bs =>
      have hreplicate : ∃ w, t'.parts p.layout.structs = List.replicate bs.length (.int w) := by
        obtain ⟨w, rfl | rfl⟩ := h <;> exact ⟨w, rfl⟩
      obtain ⟨w, hreplicate⟩ := hreplicate
      rw [hreplicate, List.getElem?_replicate] at hu
      split at hu
      · rename_i hi
        obtain rfl := Option.some.inj hu
        refine ⟨.constant (.int w) (.int bs[i].toNat), ?_, rfl, w, rfl⟩
        simp only [part?, List.getElem?_eq_getElem hi, Option.map_some]
      · cases hu
    | elements es => exact h.exists_getElem? hu
    | expression text =>
      rcases h with h | ⟨w, rfl, _⟩
      · exact absurd (Ty.parts_of_isPointer h) hparts
      · exact absurd rfl hparts

/-- What is all zero is zero wherever indices lead. -/
theorem Operand.eq_null_of_select? {structs : StructTable} {before after : List Nat}
    (hnull : o.select? structs t before = some (.constant u .null))
    (h : o.select? structs t (before ++ after) = some part) : ∃ v, part = .constant v .null := by
  induction before generalizing t o with
  | nil =>
    obtain rfl := Option.some.inj hnull
    clear hnull
    rw [List.nil_append] at h
    induction after generalizing t u with
    | nil => exact ⟨u, (Option.some.inj h).symm⟩
    | cons i after ih =>
      obtain ⟨v, _, h⟩ := Option.bind_eq_some_iff.mp h
      exact ih h
  | cons i before ih =>
    obtain ⟨v, hv, hnull⟩ := Option.bind_eq_some_iff.mp hnull
    obtain ⟨first, hfirst, hnull⟩ := Option.bind_eq_some_iff.mp hnull
    obtain ⟨v', hv', h⟩ := Option.bind_eq_some_iff.mp h
    obtain rfl := Option.some.inj (hv.symm.trans hv')
    obtain ⟨first', hfirst', h⟩ := Option.bind_eq_some_iff.mp h
    obtain rfl := Option.some.inj (hfirst.symm.trans hfirst')
    exact ih hnull h

end PathSafety.IR
