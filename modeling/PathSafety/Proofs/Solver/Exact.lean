import Mathlib.Algebra.GroupWithZero.Nat
import PathSafety.Solver.Basic

/-!
# The solver is exact

`Solver.solve` gives a model whenever there is one. What the search finds is checked where it is used; what
is left is the exhaustive search, which is complete because a condition looks at no more bits of a symbol
than the widest place where the symbol stands.

Contents:

* `Term.denote_congr` — a term looks only at its own symbols, at their widths;
* `Solver.unsat_of_exhaust`, `Solver.unsat_of_solveByExhaustion` — exhaustion misses no model;
* `Solver.solve_isSome_iff` — the main statement.
-/

namespace PathSafety

namespace Term

/-- A term looks only at the symbols that stand in it, at the widths at which they stand there. -/
theorem denote_congr {ν ν' : Valuation} {w : Nat} (t : Term w)
    (h : ∀ s ∈ Solver.symbolsOf t, BitVec.ofNat s.2 (ν s.1) = BitVec.ofNat s.2 (ν' s.1)) :
    t.denote ν = t.denote ν' := by
  induction t with
  | const => rfl
  | symbol s => exact h _ (List.mem_singleton.mpr rfl)
  | not a ih => rw [denote, denote, ih h]
  | arith op a b iha ihb =>
    rw [denote, denote, iha fun s hs => h s (List.mem_append_left _ hs),
      ihb fun s hs => h s (List.mem_append_right _ hs)]
  | cmp op a b iha ihb =>
    rw [denote, denote, iha fun s hs => h s (List.mem_append_left _ hs),
      ihb fun s hs => h s (List.mem_append_right _ hs)]
  | ite c a b ihc iha ihb =>
    rw [denote, denote,
      ihc fun s hs => h s (List.mem_append_left _ (List.mem_append_left _ hs)),
      iha fun s hs => h s (List.mem_append_left _ (List.mem_append_right _ hs)),
      ihb fun s hs => h s (List.mem_append_right _ hs)]
  | concat hi lo hw ihh ihl =>
    rw [denote, denote, ihh fun s hs => h s (List.mem_append_left _ hs),
      ihl fun s hs => h s (List.mem_append_right _ hs)]
  | slice lo a ih => rw [denote, denote, ih h]
  | sext a ih => rw [denote, denote, ih h]

end Term

namespace Solver

theorem of?_isSome_iff {cs : List Cond} {m : Model} :
    (Witness.of? cs m).isSome ↔ Term.AllHold m.valuation cs := by
  unfold Witness.of?
  rw [← Term.allHold_eq_true_iff]
  split <;> simp_all

theorem firstBelow_eq_none {α : Type} {f : Nat → Option α} {n : Nat} (h : firstBelow f n = none) :
    ∀ k < n, f k = none := by
  induction n with
  | zero =>
    intro k hk
    omega
  | succ n ih =>
    unfold firstBelow at h
    split at h
    · cases h
    · rename_i hn
      intro k hk
      rcases Nat.lt_succ_iff_lt_or_eq.mp hk with hlt | rfl
      · exact ih h k hlt
      · exact hn

theorem valuation_insert (m : Model) (id v x : Nat) :
    (Model.valuation (m.insert id v)) x = if x = id then v else m.valuation x := by
  unfold Model.valuation
  rw [Std.HashMap.getD_insert]
  by_cases h : x = id
  · simp [h]
  · have : ¬ id = x := fun he => h he.symm
    simp [h, this]

/-- Where exhaustion finds nothing there is no model among those that it goes through. -/
theorem unsat_of_exhaust {cs : List Cond} {width : Nat} {ids : List Nat} {m : Model}
    (h : exhaust cs width ids m = none) {ν : Valuation} (hout : ∀ id, id ∉ ids → ν id = m.valuation id)
    (hin : ∀ id ∈ ids, ν id < 2 ^ width) : ¬ Term.AllHold ν cs := by
  induction ids generalizing m with
  | nil =>
    have hν : ν = m.valuation := funext fun id => hout id List.not_mem_nil
    intro hold
    have : (Witness.of? cs m).isSome := of?_isSome_iff.mpr (hν ▸ hold)
    unfold exhaust at h
    rw [h] at this
    cases this
  | cons id ids ih =>
    unfold exhaust at h
    have hid : ν id < 1 <<< width := by
      rw [Nat.one_shiftLeft]
      exact hin id List.mem_cons_self
    refine ih (firstBelow_eq_none h (ν id) hid) ?_ fun x hx => hin x (List.mem_cons_of_mem _ hx)
    intro x hx
    rw [valuation_insert]
    by_cases hxid : x = id
    · rw [if_pos hxid, hxid]
    · rw [if_neg hxid]
      exact hout x fun hmem => (List.mem_cons.mp hmem).elim hxid hx

theorem le_foldl_max (symbols : List (Nat × Nat)) (n : Nat) :
    n ≤ symbols.foldl (fun n s => max n s.2) n ∧
      ∀ s ∈ symbols, s.2 ≤ symbols.foldl (fun n s => max n s.2) n := by
  induction symbols generalizing n with
  | nil => exact ⟨Nat.le_refl _, fun s hs => absurd hs List.not_mem_nil⟩
  | cons s symbols ih =>
    have hs := ih (max n s.2)
    refine ⟨Nat.le_trans (Nat.le_max_left _ _) hs.1, ?_⟩
    intro s' hs'
    rcases List.mem_cons.mp hs' with rfl | hmem
    · exact Nat.le_trans (Nat.le_max_right _ _) hs.1
    · exact hs.2 s' hmem

/-- Cutting the values of symbols at the widest place where they stand changes no condition. -/
theorem unsat_of_solveByExhaustion {cs : List Cond} (h : solveByExhaustion cs = none) (ν : Valuation) :
    ¬ Term.AllHold ν cs := by
  unfold solveByExhaustion at h
  let symbols := cs.flatMap symbolsOf
  let width := symbols.foldl (fun n s => max n s.2) 0
  let ids := (symbols.map (·.1)).eraseDups
  let cut : Valuation := fun id => if id ∈ ids then ν id % 2 ^ width else 0
  -- The search covers the valuations that are zero off the symbols and below `2 ^ width` on them;
  -- `cut` is one.
  have hcut : ¬ Term.AllHold cut cs := by
    refine unsat_of_exhaust h ?_ ?_
    · intro id hid
      show (if id ∈ ids then _ else 0) = _
      rw [if_neg hid]
      exact (Std.HashMap.getD_empty).symm
    · intro id hid
      show (if id ∈ ids then _ else 0) < _
      rw [if_pos hid]
      exact Nat.mod_lt _ (Nat.two_pow_pos _)
  intro hold
  refine hcut fun c hc => ?_
  -- A symbol read `s.2` bits wide sees its value only modulo a power the cut preserves.
  have hsame : c.denote cut = c.denote ν := by
    refine Term.denote_congr c fun s hs => ?_
    have hmem : s ∈ symbols := List.mem_flatMap.mpr ⟨c, hc, hs⟩
    have hid : s.1 ∈ ids := List.mem_eraseDups.mpr (List.mem_map_of_mem hmem)
    have hw : s.2 ≤ width := (le_foldl_max symbols 0).2 s hmem
    show BitVec.ofNat s.2 (if s.1 ∈ ids then _ else 0) = _
    rw [if_pos hid]
    apply BitVec.eq_of_toNat_eq
    rw [BitVec.toNat_ofNat, BitVec.toNat_ofNat]
    exact Nat.mod_mod_of_dvd _ (Nat.pow_dvd_pow 2 hw)
  exact hsame.trans (hold c hc)

/-- **The solver is exact**: it gives a model if and only if there is one. -/
theorem solve_isSome_iff {cs : List Cond} : (solve cs).isSome ↔ ∃ ν, Term.AllHold ν cs := by
  constructor
  · intro h
    obtain ⟨m, _⟩ := Option.isSome_iff_exists.mp h
    exact ⟨m.val.valuation, m.property⟩
  · rintro ⟨ν, hν⟩
    rw [Option.isSome_iff_ne_none]
    intro hnone
    unfold solve at hnone
    split at hnone
    · rename_i answer hanswer
      subst hnone
      exact unsat_of_solveBySearch? hanswer ν hν
    · exact unsat_of_solveByExhaustion hnone ν hν

end Solver

end PathSafety
