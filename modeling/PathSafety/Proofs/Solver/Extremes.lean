import PathSafety.Proofs.Solver.Queries

/-!
# Extreme and far apart values

Which value of a term a path condition settles on. Settling the bits of a term one after another, each to one
wherever a model allows it, ends at the greatest possible value; a list of the possible values is given up
for one of them exactly where two of them are too far apart.

Contents:

* `greatest?_spec` — the greatest possible value;
* `Far`, `possible_of_inr` — values that are too far apart to be listed.
-/

namespace PathSafety.PathCondition

variable {w : Nat} {p : PathCondition} {t : Term w}

/-! ## The greatest value -/

theorem holds_bitIs {ν : Valuation} {i : Nat} {b : Bool} :
    (bitIs t i b).Holds ν ↔ (t.denote ν).toNat / 2 ^ i % 2 = b.toNat := by
  have hbit : ((Term.mkSlice i 1 t).denote ν).toNat = (t.denote ν).toNat / 2 ^ i % 2 := by
    rw [Term.denote_eq_meaning, Term.meaning_mkSlice, ← Term.denote_eq_meaning,
      BitVec.extractLsb'_toNat, Nat.shiftRight_eq_div_pow]
  have hbool : ∀ x : BitVec 1, BitVec.ofBool (x == BitVec.ofBool b) = 1#1 ↔ x.toNat = b.toNat := by
    cases b <;> decide
  unfold bitIs Term.Holds
  rw [Term.denote_mkCmp, Term.denote, CmpOp.eval, hbool, hbit]

/-- A settled bit: where it cannot be set, no number that agrees above it is greater. -/
theorem div_le_of_settled {x y i : Nat} (hx : x / 2 ^ (i + 1) ≤ y / 2 ^ (i + 1))
    (hbit : x / 2 ^ (i + 1) = y / 2 ^ (i + 1) → x / 2 ^ i % 2 ≤ y / 2 ^ i % 2) : x / 2 ^ i ≤ y / 2 ^ i := by
  rw [Nat.pow_succ, ← Nat.div_div_eq_div_mul, ← Nat.div_div_eq_div_mul] at hx hbit
  omega

theorem div_eq_succ_iff {x y i : Nat} (hbit : y / 2 ^ i % 2 = 1) :
    (x / 2 ^ i % 2 = 1 ∧ x / 2 ^ (i + 1) = y / 2 ^ (i + 1)) ↔ x / 2 ^ i = y / 2 ^ i := by
  rw [Nat.pow_succ, ← Nat.div_div_eq_div_mul, ← Nat.div_div_eq_div_mul]
  omega

theorem div_eq_zero_iff {x y i : Nat} (hbit : y / 2 ^ i % 2 = 0) :
    (x / 2 ^ i % 2 = 0 ∧ x / 2 ^ (i + 1) = y / 2 ^ (i + 1)) ↔ x / 2 ^ i = y / 2 ^ i := by
  rw [Nat.pow_succ, ← Nat.div_div_eq_div_mul, ← Nat.div_div_eq_div_mul]
  omega

/-- Settling the lower bits: if the bits above are those of the model, and no possible value has greater ones,
no possible value exceeds that of the model that comes out. -/
theorem le_settle {i : Nat} {settled : List Cond} {m : Model} (hm : Term.AllHold m.valuation p.conds)
    (hsettled : ∀ ν, Term.AllHold ν settled ↔
      (t.denote ν).toNat / 2 ^ i = (t.denote m.valuation).toNat / 2 ^ i)
    (hmax : ∀ ν, Term.AllHold ν p.conds →
      (t.denote ν).toNat / 2 ^ i ≤ (t.denote m.valuation).toNat / 2 ^ i) {ν : Valuation}
    (hν : Term.AllHold ν p.conds) :
    (t.denote ν).toNat ≤ (t.denote (p.settle t true i settled m).valuation).toNat := by
  induction i generalizing settled m with
  | zero => simpa [settle] using hmax ν hν
  | succ i ih =>
    -- a model with the bits above in which this one is set
    have set : ∀ m' : Model, Term.AllHold m'.valuation p.conds →
        (t.denote m'.valuation).toNat / 2 ^ (i + 1) = (t.denote m.valuation).toNat / 2 ^ (i + 1) →
        (t.denote m'.valuation).toNat / 2 ^ i % 2 = 1 →
        (t.denote ν).toNat ≤
          (t.denote (p.settle t true i (bitIs t i true :: settled) m').valuation).toNat := by
      intro m' hm' habove hbit
      refine ih hm' (fun ν => ?_) (fun ν hν => ?_)
      · unfold Term.AllHold at hsettled ⊢
        rw [List.forall_mem_cons, holds_bitIs, hsettled ν, ← habove]
        exact div_eq_succ_iff hbit
      · refine div_le_of_settled (habove ▸ hmax ν hν) fun _ => ?_
        omega
    unfold settle
    dsimp only
    split
    · rename_i hwanted
      rw [Term.value_eq] at hwanted
      exact set m hm rfl (holds_bitIs.mp hwanted)
    · rename_i hwanted
      rw [Term.value_eq] at hwanted
      split
      · rename_i m' _
        obtain ⟨hextra, hconds⟩ := allHold_append.mp m'.property
        obtain ⟨hbit, habove⟩ := List.forall_mem_cons.mp hextra
        exact set m'.val hconds ((hsettled _).mp habove) (holds_bitIs.mp hbit)
      · -- no model has the bit set
        rename_i hnone
        have hzero : (t.denote m.valuation).toNat / 2 ^ i % 2 = 0 := by
          have hne : ¬ (t.denote m.valuation).toNat / 2 ^ i % 2 = 1 := fun h => hwanted (holds_bitIs.mpr h)
          omega
        refine ih hm (fun ν => ?_) (fun ν hν => ?_)
        · unfold Term.AllHold at hsettled ⊢
          rw [List.forall_mem_cons, holds_bitIs, hsettled ν]
          exact div_eq_zero_iff hzero
        · refine div_le_of_settled (hmax ν hν) fun habove => ?_
          have hunset : ¬ (t.denote ν).toNat / 2 ^ i % 2 = 1 := by
            intro hbit
            have hfound : (p.find? (bitIs t i true :: settled)).isSome := by
              refine find?_isSome_iff.mpr ⟨ν, allHold_append.mpr ⟨?_, hν⟩⟩
              exact List.forall_mem_cons.mpr ⟨holds_bitIs.mpr hbit, (hsettled ν).mpr habove⟩
            rw [hnone] at hfound
            cases hfound
          omega

/-- **The greatest value** of a term is a possible one, and no possible one exceeds it. -/
theorem greatest?_spec {n : Nat} (h : p.greatest? t = some n) :
    p.Possible t n ∧ ∀ x, p.Possible t x → x ≤ n := by
  unfold greatest? extreme? at h
  dsimp only at h
  split at h
  · rename_i m hm
    obtain rfl := Option.some.inj h
    refine ⟨(find?_equals_iff (BitVec.allOnes w).isLt).mp (Option.isSome_of_eq_some hm), ?_⟩
    rintro x ⟨ν, _, rfl⟩
    rw [if_pos rfl, BitVec.toNat_allOnes]
    exact Nat.le_sub_one_of_lt (t.denote ν).isLt
  · obtain ⟨m, hm, rfl⟩ := Option.map_eq_some_iff.mp h
    have hfirst : Term.AllHold m.val.valuation p.conds := m.property
    refine ⟨⟨_, allHold_settle hfirst, congrArg BitVec.toNat (Term.value_eq _ t).symm⟩, ?_⟩
    rintro x ⟨ν, hν, rfl⟩
    rw [Term.value_eq]
    refine le_settle hfirst (fun ν => ?_) (fun ν _ => ?_) hν
    · -- above the width there are no bits
      rw [Nat.div_eq_of_lt (t.denote ν).isLt, Nat.div_eq_of_lt (t.denote m.val.valuation).isLt]
      exact iff_of_true (fun _ h => absurd h List.not_mem_nil) rfl
    · rw [Nat.div_eq_of_lt (t.denote ν).isLt]
      exact Nat.zero_le _

/-! ## Values that are far apart -/

/-- That a term has possible values further apart than a span. -/
def Far (p : PathCondition) (t : Term w) (span : Nat) : Prop :=
  ∃ x y, p.Possible t x ∧ p.Possible t y ∧ x + span < y

/-- A term that is settled on one value has possible values far apart, and the value is one of them. -/
theorem possible_of_inr {span n : Nat} (ht : t.const? = none) (h : p.possible t span = .inr (some n)) :
    p.Possible t n ∧ p.Far t span := by
  have hany : p.anyValue? t = some n := by
    unfold possible at h
    cases hv : p.anyValue? t with
    | none =>
      rw [hv] at h
      cases h
    | some v =>
      rw [hv] at h
      dsimp only at h
      generalize (if v + span ≤ (BitVec.allOnes w).toNat then v + span else (BitVec.allOnes w).toNat) = above at h
      split at h
      · exact Sum.inr.inj h
      · split at h
        · cases h
        · exact Sum.inr.inj h
  have hpossible : p.Possible t n := by
    unfold anyValue? at hany
    rw [ht] at hany
    obtain ⟨m, _, rfl⟩ := Option.map_eq_some_iff.mp hany
    exact ⟨_, m.property, congrArg BitVec.toNat (Term.value_eq _ t).symm⟩
  refine ⟨hpossible, ?_⟩
  by_cases hfar : p.Far t span
  · exact hfar
  · -- the values would have been listed
    obtain ⟨ν, hν, _⟩ := hpossible
    have hnear : ∀ x y, p.Possible t x → p.Possible t y → y - x ≤ span := by
      intro x y hx hy
      have : ¬ x + span < y := fun hlt => hfar ⟨x, y, hx, hy, hlt⟩
      omega
    obtain ⟨l, hl, _⟩ := exists_possible ⟨ν, hν⟩ hnear
    rw [hl] at h
    cases h

end PathSafety.PathCondition
