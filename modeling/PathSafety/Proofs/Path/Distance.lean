import PathSafety.Proofs.Machine.Meets
import PathSafety.Proofs.Machine.Offset

/-!
# Exact distances

The offset of an address computation is computed with words: every index is cut or extended to the width of
addresses, and products and sums wrap around. Taking integers to words commutes with sums and products, so for
every input the offset is the word of one integer, the exact distance that the indices lie from the start of an
object. What is said of offsets is said of exact distances first.

Fields of structs are picked by numbers. The machine asks the path condition for one, and takes any where several
are possible; so distances are given for any way to pick.

Contents:

* `Value.number`, `Value.signed` — what values are under a valuation;
* `Layout.distance?` — exact distances;
* `Machine.keeps_condition_eval` — evaluating leaves the path condition as it is;
* `Machine.exists_of_offset` — offsets are words of exact distances.
-/

namespace PathSafety

open IR

/-! ## Distances -/

namespace Value

/-- The number that a value is under a valuation. -/
def number (ν : Valuation) (v : Value) : Nat := (v.term.denote ν).toNat

/-- The number that a value is under a valuation, with its sign. -/
def signed (ν : Valuation) (v : Value) : Int := (v.term.denote ν).toInt

end Value

namespace IR.Layout

variable (l : Layout) (ν : Valuation) (field? : Value → Option Nat)

/-- The part that an index selects in a type. -/
def part? (t : Ty) (v : Value) : Option Ty :=
  if t.isStruct then do
    let i ← field? v
    ((t.fields? l.structs).getD [])[i]?
  else
    match t with
    | .array _ e | .vector _ e => some e
    | _ => none

/-- How many bytes the part that an index selects lies from the start of an object. An index into an array or vector
has its sign and may be out of range. -/
def step? (t : Ty) (v : Value) : Option Int :=
  if t.isStruct then do
    let i ← field? v
    let before ← Concrete.sizes? l (((t.fields? l.structs).getD []).take i)
    return before
  else
    match t with
    | .array _ e | .vector _ e => do
      let size ← Concrete.size? l e
      return v.signed ν * size
    | _ => none

/-- What indices select in a type. -/
def selected? : Ty → List Value → Option Ty
  | t, [] => some t
  | t, v :: vs => do selected? (← l.part? field? t v) vs

/-- How many bytes what indices select lies from the start of an object. -/
def innerDistance? : Ty → List Value → Option Int
  | _, [] => some 0
  | t, v :: vs => do
    let n ← l.step? ν field? t v
    let u ← l.part? field? t v
    let rest ← innerDistance? u vs
    return n + rest

/-- How many bytes what indices select lies from a base pointer. The first index is a number of objects. -/
def distance? (t : Ty) : List Value → Option Int
  | [] => some 0
  | v :: vs => do
    let size ← Concrete.size? l t
    let rest ← l.innerDistance? ν field? t vs
    return v.signed ν * size + rest

variable {l ν field?} {t u e : Ty} {v : Value} {vs us : List Value} {i before size : Nat} {n d : Int}

theorem part?_field (hstruct : t.isStruct = true) (hi : field? v = some i) :
    l.part? field? t v = ((t.fields? l.structs).getD [])[i]? := by
  simp only [part?, if_pos hstruct, hi, Option.bind_eq_bind, Option.bind_some]

theorem step?_field (hstruct : t.isStruct = true) (hi : field? v = some i)
    (hbefore : Concrete.sizes? l (((t.fields? l.structs).getD []).take i) = some before) :
    l.step? ν field? t v = some (before : Int) := by
  simp only [step?, if_pos hstruct, hi, hbefore, Option.bind_eq_bind, Option.bind_some]
  rfl

/-- That a type is an array or a vector of elements of a type. -/
def Elements (t e : Ty) : Prop := (∃ n, t = .array n e) ∨ ∃ n, t = .vector n e

theorem part?_element (ht : Elements t e) : l.part? field? t v = some e := by
  rcases ht with ⟨n, rfl⟩ | ⟨n, rfl⟩ <;> rfl

theorem step?_element (ht : Elements t e) (hsize : Concrete.size? l e = some size) :
    l.step? ν field? t v = some (v.signed ν * size) := by
  rcases ht with ⟨n, rfl⟩ | ⟨n, rfl⟩
  all_goals
    show (Concrete.size? l e >>= _) = _
    rw [hsize]
    rfl

theorem innerDistance?_cons (hn : l.step? ν field? t v = some n) (hu : l.part? field? t v = some u)
    (hd : l.innerDistance? ν field? u vs = some d) : l.innerDistance? ν field? t (v :: vs) = some (n + d) := by
  simp only [innerDistance?, hn, hu, hd, Option.bind_eq_bind, Option.bind_some]
  rfl

theorem exists_of_innerDistance?_cons (h : l.innerDistance? ν field? t (v :: vs) = some d) :
    ∃ n u e, l.step? ν field? t v = some n ∧ l.part? field? t v = some u ∧
      l.innerDistance? ν field? u vs = some e ∧ d = n + e := by
  obtain ⟨n, hn, h⟩ := Option.bind_eq_some_iff.mp h
  obtain ⟨u, hu, h⟩ := Option.bind_eq_some_iff.mp h
  obtain ⟨e, he, h⟩ := Option.bind_eq_some_iff.mp h
  exact ⟨n, u, e, hn, hu, he, (Option.some.inj h).symm⟩

theorem distance?_cons (hsize : Concrete.size? l t = some size) (hd : l.innerDistance? ν field? t vs = some d) :
    l.distance? ν field? t (v :: vs) = some (v.signed ν * size + d) := by
  simp only [distance?, hsize, hd, Option.bind_eq_bind, Option.bind_some]
  rfl

theorem exists_of_distance?_cons (h : l.distance? ν field? t (v :: vs) = some d) :
    ∃ size e, Concrete.size? l t = some size ∧ l.innerDistance? ν field? t vs = some e ∧
      d = v.signed ν * size + e := by
  obtain ⟨size, hsize, h⟩ := Option.bind_eq_some_iff.mp h
  obtain ⟨e, he, h⟩ := Option.bind_eq_some_iff.mp h
  exact ⟨size, e, hsize, he, (Option.some.inj h).symm⟩

end IR.Layout

namespace Machine

variable {s : Setting} {m m' m₁ : Machine} {site : Site} {w : Nat} {r : Value} {os os' : List Operand}
  {vs : List Value} {t : Ty}

/-! ## The path condition -/

/-- Storing at a constant address leaves the path condition as it is. -/
theorem condition_of_write {address v : Value} (hconst : address.const?.isSome) (h : write s address v m = .ok () m') :
    m'.condition = m.condition := by
  obtain ⟨a, ha⟩ := Option.isSome_iff_exists.mp hconst
  unfold write at h
  obtain ⟨_, m₁, hnull, h⟩ := exists_of_bind h
  obtain rfl := of_checkNull hnull
  rw [ha] at h
  cases h
  rfl

/-- Computing with constants and new symbols leaves the path condition as it is. -/
theorem computes_condition : ComputesSymbols fun _ x => Keeps (fun m m' => m'.condition = m.condition) x where
  toComputes := computes_keeps (fun _ => rfl) fun h h' => h'.trans h
  fresh name bits m v m' h := by
    unfold fresh at h
    split at h
    · obtain ⟨_, _, hfault, _⟩ := exists_of_bind h
      exact absurd hfault not_fault
    · cases h
      rfl

/-- Giving a global name its address leaves the path condition as it is: initial values are stored at constant
addresses. -/
theorem keeps_condition_addressWithin (depth module : Nat) (name : String) :
    Keeps (fun m m' => m'.condition = m.condition) (addressWithin s depth module name) := by
  refine keeps_of_meet (A := fun _ _ => True) (R := fun m m' => m'.condition = m.condition) (fun _ => rfl)
    (fun depth module name _ ih m a m' hmet h => ?_) depth trivial
  obtain ⟨_, ⟨_, _, rfl⟩ | ⟨_, _, ⟨_, rfl⟩ | ⟨init, w, m₁, _, hw, hwrite⟩⟩⟩ := cases_of_meet hmet h
  · rfl
  · rfl
  · have hinit : m₁.condition = (entered s m name _).condition :=
      computes_condition.evalAny keeps_fault (fun _ _ => ih trivial) module ∅ init hw
    rw [condition_of_write rfl hwrite, hinit]
    rfl

/-- **Evaluating leaves the path condition as it is.** -/
theorem keeps_condition_eval (site : Site) (o : Operand) :
    Keeps (fun m m' => m'.condition = m.condition) (site.eval s o) :=
  computes_condition.evalAny keeps_fault (keeps_condition_addressWithin _) _ _ o

theorem condition_of_evalAll (h : site.evalAll s os m = .ok vs m') : m'.condition = m.condition := by
  induction os generalizing m vs with
  | nil =>
    obtain ⟨_, rfl⟩ := of_pure h
    rfl
  | cons o os ih =>
    obtain ⟨v, m₁, hv, h⟩ := exists_of_bind h
    obtain ⟨vs', m₂, hvs, h⟩ := exists_of_bind h
    obtain ⟨_, rfl⟩ := of_pure h
    exact (ih hvs).trans (keeps_condition_eval site o hv)

/-! ## Operands one after another -/

theorem evalAll_cons {o : Operand} {v : Value} (hv : site.eval s o m = .ok v m₁) (hvs : site.evalAll s os m₁ = .ok vs m') :
    site.evalAll s (o :: os) m = .ok (v :: vs) m' := by
  show (site.eval s o >>= _) m = _
  rw [bind_of_ok hv, bind_of_ok hvs]
  rfl

theorem exists_of_evalAll_append (h : site.evalAll s (os ++ os') m = .ok vs m') :
    ∃ us us' m₁, site.evalAll s os m = .ok us m₁ ∧ site.evalAll s os' m₁ = .ok us' m' ∧ vs = us ++ us' := by
  induction os generalizing m vs with
  | nil => exact ⟨[], vs, m, rfl, h, rfl⟩
  | cons o os ih =>
    obtain ⟨v, m₁, hv, h⟩ := exists_of_bind h
    obtain ⟨vs', m₂, hvs, h⟩ := exists_of_bind h
    obtain ⟨rfl, rfl⟩ := of_pure h
    obtain ⟨us, us', m₃, hus, hus', rfl⟩ := ih hvs
    exact ⟨v :: us, us', m₃, evalAll_cons hv hus, hus', rfl⟩

/-! ## Sizes -/

theorem size?_of_sizeInBytes {n : Nat} (h : sizeInBytes s t m = .ok n m') :
    Concrete.size? s.project.layout t = some n ∧ m = m' := by
  refine ⟨?_, of_sizeInBytes h⟩
  unfold sizeInBytes at h
  unfold Concrete.size?
  cases hbytes : s.project.layout.bytes t with
  | ok k =>
    rw [hbytes] at h
    obtain ⟨rfl, _⟩ := of_pure h
    rfl
  | error e =>
    rw [hbytes] at h
    cases e <;> exact absurd h not_fault

theorem sizes?_of_sumOfBytes {ts : List Ty} {n : Nat} (h : sumOfBytes s ts m = .ok n m') :
    Concrete.sizes? s.project.layout ts = some n ∧ m = m' := by
  induction ts generalizing m n with
  | nil =>
    obtain ⟨rfl, rfl⟩ := of_pure h
    exact ⟨rfl, rfl⟩
  | cons t ts ih =>
    obtain ⟨k, m₁, hk, h⟩ := exists_of_bind h
    obtain ⟨rest, m₂, hrest, h⟩ := exists_of_bind h
    obtain ⟨rfl, rfl⟩ := of_pure h
    obtain ⟨hsize, rfl⟩ := size?_of_sizeInBytes hk
    obtain ⟨hsizes, rfl⟩ := ih hrest
    refine ⟨?_, rfl⟩
    simp only [Concrete.sizes?, hsize, hsizes]
    rfl

/-! ## Offsets -/

/-- Words of no bits are equal. -/
theorem eq_of_width_zero (a b : BitVec 0) : a = b := by
  rw [BitVec.eq_nil a, BitVec.eq_nil b]

theorem of_arith_add {o step : Term w} (h : valueOr (Value.arith .add ⟨o⟩ ⟨step⟩) m = .ok r m') :
    m = m' ∧ ∃ o' : Term w, r = ⟨o'⟩ ∧ ∀ ν, o'.denote ν = o.denote ν + step.denote ν := by
  obtain ⟨harith, rfl⟩ := of_valueOr h
  obtain rfl := Except.ok.inj ((arith_mk rfl o step).symm.trans harith)
  refine ⟨rfl, _, rfl, fun ν => ?_⟩
  rw [Term.denote_eq_meaning, Term.meaning_mkArith, Term.denote_eq_meaning, Term.denote_eq_meaning]
  rfl

/-- An offset is moved by the word of an index times a size. -/
theorem of_scaled {o : Term w} {index : Value} {size : Nat} (h : scaled w ⟨o⟩ index size m = .ok r m') :
    m = m' ∧ ∃ o' : Term w, r = ⟨o'⟩ ∧ ∀ ν, o'.denote ν = o.denote ν + BitVec.ofInt w (index.signed ν * size) := by
  obtain ⟨step, m₁, hstep, h⟩ := exists_of_bind h
  by_cases hw : w = 0
  · -- there is one word of no bits
    subst hw
    obtain ⟨_, rfl⟩ := of_valueOr hstep
    obtain ⟨harith, rfl⟩ := of_valueOr h
    obtain ⟨r⟩ := r
    have hwidth := Value.width_of_arith harith
    dsimp only at hwidth
    subst hwidth
    exact ⟨rfl, _, rfl, fun ν => eq_of_width_zero _ _⟩
  · have hresize : index.signedResize w = ⟨index.term.mkSignedResize w⟩ := by
      unfold Value.signedResize
      rw [if_neg hw]
    rw [hresize] at hstep
    obtain ⟨harith, rfl⟩ := of_valueOr hstep
    obtain rfl := Except.ok.inj ((arith_mk rfl _ _).symm.trans harith)
    obtain ⟨rfl, o', rfl, hsum⟩ := of_arith_add h
    refine ⟨rfl, o', rfl, fun ν => ?_⟩
    rw [hsum, Term.denote_eq_meaning ν (Term.mkArith _ _ _), Term.meaning_mkArith, Term.meaning_mkSignedResize,
      Term.meaning_const, BitVec.ofInt_mul, BitVec.ofInt_natCast, ← Term.denote_eq_meaning]
    rfl

/-- That a value is an offset, moved by the word of the exact distance of indices after the first. -/
def MovedBy (s : Setting) (m : Machine) (t : Ty) (vs : List Value) (o : Term w) (r : Value) : Prop :=
  ∃ o' : Term w, r = ⟨o'⟩ ∧ ∀ ν, ∃ d,
    s.project.layout.innerDistance? ν (fun v => m.condition.anyValue? v.term) t vs = some d ∧
      o'.denote ν = o.denote ν + BitVec.ofInt w d

section Index

variable {o : Term w} {x : Operand}
  (ih : ∀ {t : Ty} {o : Term w} {m : Machine}, innerOffset s (site.eval s) w t os ⟨o⟩ m = .ok r m' →
    ∃ vs, site.evalAll s os m = .ok vs m' ∧ MovedBy s m t vs o r)
include ih

/-- An index of an array or a vector moves by as many elements. -/
theorem exists_of_element {e : Ty} (ht : Layout.Elements t e)
    (h : (do
      let index ← site.eval s x
      let size ← sizeInBytes s e
      let offset ← scaled w ⟨o⟩ index size
      innerOffset s (site.eval s) w e os offset : Action Value) m = .ok r m') :
    ∃ vs, site.evalAll s (x :: os) m = .ok vs m' ∧ MovedBy s m t vs o r := by
  obtain ⟨v, m₁, hv, h⟩ := exists_of_bind h
  obtain ⟨size, m₂, hbytes, h⟩ := exists_of_bind h
  obtain ⟨offset, m₃, hscaled, h⟩ := exists_of_bind h
  obtain ⟨hsize, rfl⟩ := size?_of_sizeInBytes hbytes
  obtain ⟨rfl, o₁, rfl, hword⟩ := of_scaled hscaled
  obtain ⟨vs, hvs, o', rfl, hrest⟩ := ih h
  rw [keeps_condition_eval site x hv] at hrest
  refine ⟨v :: vs, evalAll_cons hv hvs, o', rfl, fun ν => ?_⟩
  obtain ⟨d, hd, hsum⟩ := hrest ν
  refine ⟨_, Layout.innerDistance?_cons (Layout.step?_element ht hsize) (Layout.part?_element ht) hd, ?_⟩
  rw [hsum, hword, BitVec.ofInt_add, BitVec.add_assoc]

/-- An index of a struct moves over the fields before the one that it selects. -/
theorem exists_of_field (hstruct : t.isStruct = true)
    (h : (do
      let i ← evalNat (← site.eval s x)
      let fields := (t.fields? s.project.layout.structs).getD []
      let preceding ← sumOfBytes s (fields.take i)
      let offset ← valueOr (Value.arith .add ⟨o⟩ (.ofNat w preceding))
      match fields[i]? with
      | some t => innerOffset s (site.eval s) w t os offset
      | none => defect .missingIndex : Action Value) m = .ok r m') :
    ∃ vs, site.evalAll s (x :: os) m = .ok vs m' ∧ MovedBy s m t vs o r := by
  obtain ⟨v, m₁, hv, h⟩ := exists_of_bind h
  obtain ⟨i, m₂, hi, h⟩ := exists_of_bind h
  obtain ⟨before, m₃, hsum, h⟩ := exists_of_bind h
  obtain ⟨offset, m₄, hoffset, h⟩ := exists_of_bind h
  obtain ⟨hpick, rfl⟩ := of_evalNat hi
  obtain ⟨hbefore, rfl⟩ := sizes?_of_sumOfBytes hsum
  obtain ⟨rfl, o₁, rfl, hword⟩ := of_arith_add hoffset
  cases hfield : ((t.fields? s.project.layout.structs).getD [])[i]? with
  | none =>
    simp only [hfield] at h
    exact absurd h not_defect
  | some u =>
    simp only [hfield] at h
    obtain ⟨vs, hvs, o', rfl, hrest⟩ := ih h
    -- The rest was evaluated on a later machine, under the same condition.
    rw [keeps_condition_eval site x hv] at hrest hpick
    refine ⟨v :: vs, evalAll_cons hv hvs, o', rfl, fun ν => ?_⟩
    obtain ⟨d, hd, hsum⟩ := hrest ν
    have hpart : s.project.layout.part? (fun v => m.condition.anyValue? v.term) t v = some u :=
      (Layout.part?_field hstruct hpick).trans hfield
    refine ⟨_, Layout.innerDistance?_cons (Layout.step?_field hstruct hpick hbefore) hpart hd, ?_⟩
    rw [hsum, hword, BitVec.ofInt_add, BitVec.ofInt_natCast, BitVec.add_assoc]
    rfl

end Index

/-- The offset of indices after the first is moved by the word of their exact distance. -/
theorem exists_of_innerOffset {o : Term w} (h : innerOffset s (site.eval s) w t os ⟨o⟩ m = .ok r m') :
    ∃ vs, site.evalAll s os m = .ok vs m' ∧ MovedBy s m t vs o r := by
  induction os generalizing t o m with
  | nil =>
    obtain ⟨rfl, rfl⟩ := of_pure h
    refine ⟨[], rfl, o, rfl, fun ν => ⟨0, ?_, (BitVec.add_zero _).symm⟩⟩
    unfold Layout.innerDistance?
    rfl
  | cons x os ih =>
    unfold innerOffset at h
    split at h
    · rename_i hstruct
      exact exists_of_field ih hstruct h
    · cases t with
      | array n e => exact exists_of_element ih (Or.inl ⟨n, rfl⟩) h
      | vector n e => exact exists_of_element ih (Or.inr ⟨n, rfl⟩) h
      | _ => exact absurd h not_fault

/-- **Offsets are exact distances**, as words. -/
theorem exists_of_offset (h : offset s (site.eval s) w t os m = .ok r m') :
    ∃ vs, site.evalAll s os m = .ok vs m' ∧ ∃ o : Term w, r = ⟨o⟩ ∧ ∀ ν, ∃ d,
      s.project.layout.distance? ν (fun v => m.condition.anyValue? v.term) t vs = some d ∧
        o.denote ν = BitVec.ofInt w d := by
  cases os with
  | nil =>
    obtain ⟨rfl, rfl⟩ := of_pure h
    refine ⟨[], rfl, _, rfl, fun ν => ⟨0, rfl, rfl⟩⟩
  | cons x os =>
    obtain ⟨v, m₁, hv, h⟩ := exists_of_bind h
    obtain ⟨size, m₂, hbytes, h⟩ := exists_of_bind h
    obtain ⟨first, m₃, hfirst, h⟩ := exists_of_bind h
    obtain ⟨hsize, rfl⟩ := size?_of_sizeInBytes hbytes
    obtain ⟨rfl, o₁, rfl, hword⟩ := of_scaled hfirst
    obtain ⟨vs, hvs, o, rfl, hrest⟩ := exists_of_innerOffset h
    -- The indices are evaluated on machines under one condition, so the picked fields are those of
    -- the first.
    rw [keeps_condition_eval site x hv] at hrest
    refine ⟨v :: vs, evalAll_cons hv hvs, o, rfl, fun ν => ?_⟩
    obtain ⟨d, hd, hsum⟩ := hrest ν
    refine ⟨_, Layout.distance?_cons hsize hd, ?_⟩
    rw [hsum, hword, BitVec.ofInt_add]
    show BitVec.ofNat w 0 + _ + _ = _
    rw [BitVec.zero_add]

end Machine

end PathSafety
