import PathSafety.Solver.Lowering
import PathSafety.Solver.Search
import PathSafety.Term.Evaluate
import Std.Sat.AIG.CNF
import Std.Sat.AIG.RelabelNat
import Std.Tactic.BVDecide.LRAT.Checker

/-!
# Solving conditions

`solve` finds a model of a list of conditions or says that there is none. The search behind it is not
trusted: a model is evaluated, a refutation is replayed by the verified checker of the standard library,
and where neither holds the finitely many valuations that matter are tried in turn.
-/

namespace PathSafety

open Std.Sat Std.Tactic.BVDecide

/-- A valuation given by finitely many values; every other symbol is zero. -/
abbrev Model := Std.HashMap Nat Nat

/-- The valuation that a model stands for. -/
def Model.valuation (m : Model) : Valuation := fun id => m.getD id 0

/-- A model that satisfies the conditions of a list. -/
abbrev Witness (cs : List Cond) := { m : Model // Term.AllHold m.valuation cs }

/-- The model as a witness, if it satisfies the conditions. -/
def Witness.of? (cs : List Cond) (m : Model) : Option (Witness cs) :=
  if h : Term.allHold m.valuation cs = true then some ⟨m, Term.allHold_eq_true_iff.mp h⟩ else none

namespace Solver

/-- The model that a truth assignment of the gates of a circuit gives to its inputs. -/
def modelOf (decls : Array (AIG.Decl BVBit)) (values : Array Bool) : Model :=
  (decls.zip values).foldl (fun m (d, b) =>
    match d with
    | .atom bit => if b then m.insert bit.var (m.getD bit.var 0 ||| 1 <<< bit.idx.val) else m
    | _ => m) ∅

/-- The first of the numbers below `n`, counted down, for which `f` has an answer. -/
def firstBelow {α : Type} (f : Nat → Option α) : Nat → Option α
  | 0 => none
  | n + 1 => match f n with
    | some a => some a
    | none => firstBelow f n

/-- Tries all values below `2 ^ width` for the symbols of the given numbers. -/
def exhaust (cs : List Cond) (width : Nat) : List Nat → Model → Option (Witness cs)
  | [], m => Witness.of? cs m
  | id :: ids, m => firstBelow (fun v => exhaust cs width ids (m.insert id v)) (1 <<< width)

/-- The numbers of the symbols of a term, each with the width at which it stands there. -/
def symbolsOf : {w : Nat} → Term w → List (Nat × Nat)
  | _, .const _ => []
  | w, .symbol s => [(s.id, w)]
  | _, .not a => symbolsOf a
  | _, .arith _ a b => symbolsOf a ++ symbolsOf b
  | _, .cmp _ a b => symbolsOf a ++ symbolsOf b
  | _, .ite c a b => symbolsOf c ++ symbolsOf a ++ symbolsOf b
  | _, .concat a b _ => symbolsOf a ++ symbolsOf b
  | _, .slice _ a => symbolsOf a
  | _, .sext a => symbolsOf a

/-- The slow way: all valuations that differ on the conditions. -/
def solveByExhaustion (cs : List Cond) : Option (Witness cs) :=
  let symbols := cs.flatMap symbolsOf
  let width := symbols.foldl (fun n s => max n s.2) 0
  exhaust cs width (symbols.map (·.1)).eraseDups ∅

/-- The quick way: the search's answer, if it passes its check. -/
def solveBySearch? (cs : List Cond) : Option (Option (Witness cs)) :=
  let entry := (lowerAll cs).expr.bitblast
  let formula := AIG.toCNF entry.relabelNat
  match Search.search formula with
  | .model values => (Witness.of? cs (modelOf entry.aig.decls values)).map some
  | .refuted steps => if LRAT.check steps formula then some none else none
  | .gaveUp => none

/-- A model of the conditions, or none where they have no model. -/
def solve (cs : List Cond) : Option (Witness cs) :=
  match solveBySearch? cs with
  | some answer => answer
  | none => solveByExhaustion cs

theorem unsat_of_solveBySearch? {cs : List Cond} (h : solveBySearch? cs = some none) (ν : Valuation) :
    ¬ Term.AllHold ν cs := by
  refine unsat_of_lowerAll ?_ ν
  simp only [solveBySearch?] at h
  split at h
  · simp at h
  · split at h
    · rename_i hc
      refine BVLogicalExpr.unsat_of_bitblast _ ?_
      rw [← AIG.Entrypoint.relabelNat_unsat_iff, ← AIG.toCNF_equisat]
      exact LRAT.check_sound _ _ hc
    · simp at h
  · simp at h

end Solver

end PathSafety
