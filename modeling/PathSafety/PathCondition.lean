import PathSafety.Solver.Basic
import PathSafety.Value

/-!
# Path conditions

What must hold for a path to be taken. Questions about it are answered exactly; models met on the way
are kept, with the proof that they satisfy the condition, and answer many later questions.

Contents:

* `PathCondition`, `assume`, `find?`, `sat` — the condition and its satisfiability with more conditions;
* `anyValue?`, `least?`, `greatest?`, `possible` — which values a term can have;
* `Summary`, `summarize` — the values of a term as reports state them.
-/

namespace PathSafety

/-- A conjunction of conditions, the newest first, with some of its models. -/
structure PathCondition where
  conds : List Cond := []
  witnesses : List (Witness conds) := []

namespace PathCondition

variable {w : Nat}

/-- How many witnesses are kept. -/
def witnessLimit : Nat := 12

/-- Conditions that hold together with those of a path hold under a model of all. -/
theorem allHold_append {ν : Valuation} {cs ds : List Cond} :
    Term.AllHold ν (cs ++ ds) ↔ Term.AllHold ν cs ∧ Term.AllHold ν ds :=
  List.forall_mem_append

/-- A witness of the path under which some more conditions hold. -/
def known? (p : PathCondition) (extra : List Cond) : Option (Witness (extra ++ p.conds)) :=
  p.witnesses.findSome? fun m =>
    if h : Term.allHold m.val.valuation extra = true then
      some ⟨m.val, allHold_append.mpr ⟨Term.allHold_eq_true_iff.mp h, m.property⟩⟩
    else none

/-- A model of the path condition and some more conditions, if there is one. -/
def find? (p : PathCondition) (extra : List Cond) : Option (Witness (extra ++ p.conds)) :=
  if extra.any fun c => c.isZero then none
  else
    match p.known? extra with
    | some m => some m
    | none => Solver.solve (extra ++ p.conds)

/-- Keeps a model for later questions. -/
def remember (p : PathCondition) {extra : List Cond} (m : Witness (extra ++ p.conds)) :
    PathCondition :=
  { p with
    witnesses := (⟨m.val, (allHold_append.mp m.property).2⟩ :: p.witnesses).take witnessLimit }

/-- Whether the path condition can hold together with some more conditions. -/
def sat (p : PathCondition) (extra : List Cond) : Bool × PathCondition :=
  match p.find? extra with
  | some m => (true, p.remember m)
  | none => (false, p)

/-- The path condition with one more condition. -/
def assume (p : PathCondition) (c : Cond) : PathCondition where
  conds := c :: p.conds
  witnesses := p.witnesses.filterMap fun m =>
    if h : c.value m.val.valuation = 1#1 then
      some ⟨m.val, List.forall_mem_cons.mpr ⟨(c.value_eq _).symm.trans h, m.property⟩⟩
    else none

/-- That a term differs from a number. -/
def differs (t : Term w) (n : Nat) : Cond := (Term.mkCmp .eq t (.const (BitVec.ofNat w n))).mkNot

/-- That a term equals a number. -/
def equals (t : Term w) (n : Nat) : Cond := Term.mkCmp .eq t (.const (BitVec.ofNat w n))

/-- That a term is at least a number. -/
def atLeast (t : Term w) (n : Nat) : Cond := Term.mkCmp .ule (.const (BitVec.ofNat w n)) t

/-- That a term is at most a number. -/
def atMost (t : Term w) (n : Nat) : Cond := Term.mkCmp .ule t (.const (BitVec.ofNat w n))

/-- Some value that a term can have. -/
def anyValue? (p : PathCondition) (t : Term w) : Option Nat :=
  match t.const? with
  | some v => some v.toNat
  | none => (p.find? []).map fun m => (t.value m.val.valuation).toNat

/-- That bit `i` of a term is set, or not. -/
def bitIs (t : Term w) (i : Nat) (b : Bool) : Cond :=
  Term.mkCmp .eq (Term.mkSlice i 1 t) (.const (BitVec.ofBool b))

/-- Settles the bits of a term from bit `i` down, each to `b` wherever that is possible with the bits
settled before; `m` is a model with those bits. Returns the last model. -/
def settle (p : PathCondition) (t : Term w) (b : Bool) : Nat → List Cond → Model → Model
  | 0, _, m => m
  | i + 1, settled, m =>
    let wanted := bitIs t i b
    if wanted.value m.valuation = 1#1 then p.settle t b i (wanted :: settled) m
    else
      match p.find? (wanted :: settled) with
      | some m' => p.settle t b i (wanted :: settled) m'.val
      | none => p.settle t b i (bitIs t i (!b) :: settled) m

/-- The extreme value of a term: the greatest for `true`, the least for `false`. -/
def extreme? (p : PathCondition) (t : Term w) (greatest : Bool) : Option Nat :=
  let bound := if greatest then (BitVec.allOnes w).toNat else 0
  match p.find? [equals t bound] with
  | some _ => some bound
  | none => (p.find? []).map fun m => ((t.value (p.settle t greatest w [] m.val).valuation)).toNat

/-- The least value that a term can have. -/
def least? (p : PathCondition) (t : Term w) : Option Nat := p.extreme? t false

/-- The greatest value that a term can have. -/
def greatest? (p : PathCondition) (t : Term w) : Option Nat := p.extreme? t true

/-- The first number from `lo` on, of `n` numbers in all, that a term can equal or stay below. -/
def leastFrom (p : PathCondition) (t : Term w) (lo n : Nat) : Nat :=
  if _h : n ≤ 1 then lo
  else
    let half := n / 2
    if (p.find? [atMost t (lo + half - 1)]).isSome then p.leastFrom t lo half
    else p.leastFrom t (lo + half) (n - half)
termination_by n

/-- The last of `n` numbers from `lo` on that a term can equal or exceed. -/
def greatestFrom (p : PathCondition) (t : Term w) (lo n : Nat) : Nat :=
  if _h : n ≤ 1 then lo
  else
    let half := n / 2
    if (p.find? [atLeast t (lo + half)]).isSome then p.greatestFrom t (lo + half) (n - half)
    else p.greatestFrom t lo half
termination_by n

/-- All values that a term can have, in order, if the last exceeds the first by at most `span`; else one
of them. -/
def possible (p : PathCondition) (t : Term w) (span : Nat) : List Nat ⊕ Option Nat :=
  match p.anyValue? t with
  | none => .inr none
  | some v =>
    let below := v - span
    let top := (BitVec.allOnes w).toNat
    let above := if v + span ≤ top then v + span else top
    if (0 < below && (p.find? [atMost t (below - 1)]).isSome) ||
        (above < top && (p.find? [atLeast t (above + 1)]).isSome) then .inr (some v)
    else
      let lo := p.leastFrom t below (v - below + 1)
      let hi := p.greatestFrom t v (above - v + 1)
      if hi - lo ≤ span then
        .inl ((List.range (hi - lo + 1)).filterMap fun i =>
          if (p.find? [equals t (lo + i)]).isSome then some (lo + i) else none)
      else .inr (some v)

/-- The values of a term as a report states them. -/
inductive Summary where
  | exactly (bits value : Nat)
  | between (bits least greatest : Nat)
  | many (bits : Nat)
  | unsatisfiable (bits : Nat)

/-- The widest values of which a report gives the least and the greatest. -/
def rangeLimit : Nat := 64

/-- The values that a term can have. -/
def summarize (p : PathCondition) (v : Value) : Summary :=
  match v.const? with
  | some n => .exactly v.width n
  | none =>
    match p.anyValue? v.term with
    | none => .unsatisfiable v.width
    | some n =>
      if (p.find? [differs v.term n]).isNone then .exactly v.width n
      else if v.width ≤ rangeLimit then
        match p.least? v.term, p.greatest? v.term with
        | some lo, some hi => .between v.width lo hi
        | _, _ => .unsatisfiable v.width
      else .many v.width

end PathCondition

end PathSafety
