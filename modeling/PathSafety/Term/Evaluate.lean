import PathSafety.Term.Basic
import Std.Data.HashMap

/-!
# Evaluating shared terms

`Term.denote` walks a term as a tree. Terms of a long path share most of their parts, so `Term.value`
walks every part once and remembers what it found. An entry of the memory carries the proof that its
value is right, so `Term.value_eq` needs no invariant on the memory.
-/

namespace PathSafety.Term

/-- The value of a term under a valuation, with the proof that it is the value. -/
structure Evaluated (ν : Valuation) {w : Nat} (t : Term w) where
  value : BitVec w
  correct : value = t.denote ν

/-- A term that was evaluated before. -/
structure EvaluatedEntry (ν : Valuation) where
  {width : Nat}
  term : Term width
  result : Evaluated ν term

/-- What has been evaluated so far, found by hash. -/
abbrev EvaluationMemory (ν : Valuation) := Std.HashMap UInt64 (List (EvaluatedEntry ν))

/-- The entry for a term among those of the same hash. -/
def findEvaluated {ν : Valuation} {w : Nat} (t : Term w) :
    List (EvaluatedEntry ν) → Option (Evaluated ν t)
  | [] => none
  | e :: rest =>
    if hw : e.width = w then
      if ht : hw ▸ e.term = t then some (by subst hw; subst ht; exact e.result)
      else findEvaluated t rest
    else findEvaluated t rest

/-- Evaluates a term, using and extending the memory. -/
def evaluate (ν : Valuation) : {w : Nat} → (t : Term w) → StateM (EvaluationMemory ν) (Evaluated ν t)
  | _, .const v => pure ⟨v, rfl⟩
  | w, .symbol s => pure ⟨BitVec.ofNat w (ν s.id), rfl⟩
  | _, t => do
    if let some r := findEvaluated t ((← get).getD t.hashCode []) then return r
    let r : Evaluated ν t ← (match t with
      | .const v => pure ⟨v, rfl⟩
      | .symbol s => pure ⟨BitVec.ofNat _ (ν s.id), rfl⟩
      | .not a => do
        let a ← evaluate ν a
        pure ⟨~~~ a.value, by rw [a.correct]; rfl⟩
      | .arith op a b => do
        let a ← evaluate ν a
        let b ← evaluate ν b
        pure ⟨op.eval a.value b.value, by rw [a.correct, b.correct]; rfl⟩
      | .cmp op a b => do
        let a ← evaluate ν a
        let b ← evaluate ν b
        pure ⟨BitVec.ofBool (op.eval a.value b.value), by rw [a.correct, b.correct]; rfl⟩
      | .ite c a b => do
        let c ← evaluate ν c
        let a ← evaluate ν a
        let b ← evaluate ν b
        pure ⟨if c.value = 1#1 then a.value else b.value, by rw [a.correct, b.correct, c.correct]; rfl⟩
      | .concat hi lo h => do
        let hi ← evaluate ν hi
        let lo ← evaluate ν lo
        pure ⟨(hi.value ++ lo.value).cast h.symm, by rw [hi.correct, lo.correct]; rfl⟩
      | .slice lo a => do
        let a ← evaluate ν a
        pure ⟨a.value.extractLsb' lo _, by rw [a.correct]; rfl⟩
      | .sext a => do
        let a ← evaluate ν a
        pure ⟨a.value.signExtend _, by rw [a.correct]; rfl⟩)
    modify fun m => m.insert t.hashCode (⟨t, r⟩ :: m.getD t.hashCode [])
    return r

/-- The value of a term under a valuation. -/
def value (ν : Valuation) {w : Nat} (t : Term w) : BitVec w :=
  (evaluate ν t ∅).1.value

theorem value_eq (ν : Valuation) {w : Nat} (t : Term w) : t.value ν = t.denote ν :=
  (evaluate ν t ∅).1.correct

/-- Whether all conditions hold, with one memory for all of them. -/
def checkAll (ν : Valuation) : List Cond → StateM (EvaluationMemory ν) Bool
  | [] => pure true
  | c :: cs => do
    let r ← evaluate ν c
    if r.value = 1#1 then checkAll ν cs else pure false

/-- Whether all conditions of a list hold under a valuation. -/
def allHold (ν : Valuation) (cs : List Cond) : Bool := (checkAll ν cs ∅).1

theorem checkAll_eq (ν : Valuation) (cs : List Cond) (m : EvaluationMemory ν) :
    ((checkAll ν cs) m).1 = true ↔ AllHold ν cs := by
  induction cs generalizing m with
  | nil => exact ⟨fun _ _ h => absurd h List.not_mem_nil, fun _ => rfl⟩
  | cons c cs ih =>
    rcases he : evaluate ν c m with ⟨r, m'⟩
    have hc := r.correct
    simp only [checkAll, bind, StateT.bind, he, AllHold, List.forall_mem_cons, Holds, ← hc]
    by_cases h : r.value = 1#1
    · simpa [h, AllHold, Holds] using ih m'
    · rw [if_neg h]
      exact ⟨fun hf => absurd hf Bool.false_ne_true, fun hc => absurd hc.1 h⟩

/-- The quick check agrees with the meaning of the conditions. -/
theorem allHold_eq_true_iff {ν : Valuation} {cs : List Cond} :
    allHold ν cs = true ↔ AllHold ν cs :=
  checkAll_eq ν cs ∅

end PathSafety.Term
