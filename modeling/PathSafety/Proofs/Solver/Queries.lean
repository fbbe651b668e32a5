import PathSafety.PathCondition
import PathSafety.Proofs.Solver.Exact
import PathSafety.Proofs.Term.Meaning

/-!
# Questions about a path condition

What the questions that the machine asks a path condition answer. Every answer is put in terms of
`PathCondition.Possible`: that a term has a value under some valuation that satisfies the condition.

Contents:

* `find?_isSome_iff`, `sat_iff` — whether more conditions can hold;
* `exists_anyValue?`, `exists_greatest?` — picking a value picks a possible one;
* `exists_possible` — the list of the possible values misses none.
-/

namespace PathSafety

namespace Term

theorem denote_mkCmp {n : Nat} (ν : Valuation) (op : CmpOp) (a b : Term n) :
    (mkCmp op a b).denote ν = BitVec.ofBool (op.eval (a.denote ν) (b.denote ν)) := by
  simp only [denote_eq_meaning, meaning_mkCmp]

theorem not_holds_of_isZero {ν : Valuation} {c : Cond} (h : c.isZero = true) : ¬ c.Holds ν := by
  have : c.denote ν = 0#1 := by
    rw [denote_eq_meaning]
    exact meaning_of_isZero h
  unfold Holds
  rw [this]
  decide

end Term

namespace PathCondition

variable {w : Nat} (p : PathCondition) (t : Term w)

/-- Whether the condition can hold. -/
def Feasible : Prop := ∃ ν, Term.AllHold ν p.conds

/-- Whether a term can have a value. -/
def Possible (n : Nat) : Prop := ∃ ν, Term.AllHold ν p.conds ∧ (t.denote ν).toNat = n

variable {p t}

theorem Possible.lt {n : Nat} (h : p.Possible t n) : n < 2 ^ w := by
  obtain ⟨ν, _, rfl⟩ := h
  exact (t.denote ν).isLt

theorem Feasible.possible (h : p.Feasible) : ∃ n, p.Possible t n := by
  obtain ⟨ν, hν⟩ := h
  exact ⟨_, ν, hν, rfl⟩

/-! ## Satisfiability -/

/-- Looking for a model finds one if there is one. -/
theorem find?_isSome_iff {extra : List Cond} :
    (p.find? extra).isSome ↔ ∃ ν, Term.AllHold ν (extra ++ p.conds) := by
  unfold find?
  split
  · rename_i hzero
    obtain ⟨c, hc, hz⟩ := List.any_eq_true.mp hzero
    refine iff_of_false (by simp) ?_
    rintro ⟨ν, hν⟩
    exact Term.not_holds_of_isZero hz (hν c (List.mem_append_left _ hc))
  · split
    · rename_i m _
      exact iff_of_true rfl ⟨m.val.valuation, m.property⟩
    · exact Solver.solve_isSome_iff

theorem find?_singleton_isSome_iff {c : Cond} :
    (p.find? [c]).isSome ↔ ∃ ν, Term.AllHold ν p.conds ∧ c.Holds ν := by
  rw [find?_isSome_iff]
  refine exists_congr fun ν => ?_
  rw [allHold_append]
  simp [Term.AllHold, and_comm]

theorem find?_nil_isSome_iff : (p.find? []).isSome ↔ p.Feasible := find?_isSome_iff

/-- Asking whether more conditions can hold changes no condition. -/
@[simp] theorem conds_sat (extra : List Cond) : (p.sat extra).2.conds = p.conds := by
  unfold sat
  split <;> rfl

@[simp] theorem conds_assume (c : Cond) : (p.assume c).conds = c :: p.conds := rfl

theorem sat_iff {c : Cond} :
    (p.sat [c]).1 = true ↔ ∃ ν, Term.AllHold ν p.conds ∧ c.Holds ν := by
  rw [← find?_singleton_isSome_iff]
  unfold sat
  split <;> simp_all

/-! ## Conditions on one term -/

theorem holds_equals {ν : Valuation} {n : Nat} (hn : n < 2 ^ w) :
    (equals t n).Holds ν ↔ (t.denote ν).toNat = n := by
  unfold equals Term.Holds
  rw [Term.denote_mkCmp, Term.denote, CmpOp.eval]
  constructor
  · intro h
    have heq : t.denote ν = BitVec.ofNat w n := by
      by_cases hbeq : t.denote ν = BitVec.ofNat w n
      · exact hbeq
      · simp [beq_false_of_ne hbeq] at h
    rw [heq, BitVec.toNat_ofNat, Nat.mod_eq_of_lt hn]
  · rintro rfl
    simp

theorem holds_atMost {ν : Valuation} {n : Nat} (hn : n < 2 ^ w) :
    (atMost t n).Holds ν ↔ (t.denote ν).toNat ≤ n := by
  unfold atMost Term.Holds
  rw [Term.denote_mkCmp, Term.denote, CmpOp.eval, BitVec.ule, BitVec.toNat_ofNat, Nat.mod_eq_of_lt hn]
  by_cases h : (t.denote ν).toNat ≤ n <;> simp [h]

theorem holds_atLeast {ν : Valuation} {n : Nat} (hn : n < 2 ^ w) :
    (atLeast t n).Holds ν ↔ n ≤ (t.denote ν).toNat := by
  unfold atLeast Term.Holds
  rw [Term.denote_mkCmp, Term.denote, CmpOp.eval, BitVec.ule, BitVec.toNat_ofNat, Nat.mod_eq_of_lt hn]
  by_cases h : n ≤ (t.denote ν).toNat <;> simp [h]

theorem find?_equals_iff {n : Nat} (hn : n < 2 ^ w) :
    (p.find? [equals t n]).isSome ↔ p.Possible t n := by
  rw [find?_singleton_isSome_iff]
  exact exists_congr fun ν => and_congr_right fun _ => holds_equals hn

theorem find?_atMost_iff {n : Nat} (hn : n < 2 ^ w) :
    (p.find? [atMost t n]).isSome ↔ ∃ x ≤ n, p.Possible t x := by
  rw [find?_singleton_isSome_iff]
  constructor
  · rintro ⟨ν, hν, h⟩
    exact ⟨_, (holds_atMost hn).mp h, ν, hν, rfl⟩
  · rintro ⟨x, hx, ν, hν, rfl⟩
    exact ⟨ν, hν, (holds_atMost hn).mpr hx⟩

theorem find?_atLeast_iff {n : Nat} (hn : n < 2 ^ w) :
    (p.find? [atLeast t n]).isSome ↔ ∃ x, n ≤ x ∧ p.Possible t x := by
  rw [find?_singleton_isSome_iff]
  constructor
  · rintro ⟨ν, hν, h⟩
    exact ⟨_, (holds_atLeast hn).mp h, ν, hν, rfl⟩
  · rintro ⟨x, hx, ν, hν, rfl⟩
    exact ⟨ν, hν, (holds_atLeast hn).mpr hx⟩

/-! ## Picking a value -/

theorem anyValue?_of_const? {v : BitVec w} (h : t.const? = some v) : p.anyValue? t = some v.toNat := by
  unfold anyValue?
  rw [h]

/-- A condition that can hold gives every term a value, and a possible one. -/
theorem exists_anyValue? (h : p.Feasible) : ∃ n, p.anyValue? t = some n ∧ p.Possible t n := by
  cases ht : t.const? with
  | some v =>
    obtain ⟨ν, hν⟩ := h
    refine ⟨_, anyValue?_of_const? ht, ν, hν, ?_⟩
    rw [Term.denote_eq_meaning, Term.meaning_of_const? ht]
  | none =>
    obtain ⟨m, hm⟩ := Option.isSome_iff_exists.mp (find?_nil_isSome_iff.mpr h)
    refine ⟨(t.value m.val.valuation).toNat, ?_, m.val.valuation, m.property, ?_⟩
    · unfold anyValue?
      rw [ht, hm]
      rfl
    · rw [Term.value_eq]

/-- Settling bits goes from one model of the condition to another. -/
theorem allHold_settle {b : Bool} {i : Nat} {settled : List Cond} {m : Model}
    (h : Term.AllHold m.valuation p.conds) :
    Term.AllHold (p.settle t b i settled m).valuation p.conds := by
  induction i generalizing settled m with
  | zero => exact h
  | succ i ih =>
    unfold settle
    dsimp only
    split
    · exact ih h
    · split
      · rename_i m' _
        exact ih (allHold_append.mp m'.property).2
      · exact ih h

/-- The greatest value is found where there is one, and it is a possible one. -/
theorem exists_greatest? (h : p.Feasible) : ∃ n, p.greatest? t = some n ∧ p.Possible t n := by
  unfold greatest? extreme?
  dsimp only
  split
  · rename_i m hm
    have hsome := Option.isSome_of_eq_some hm
    exact ⟨_, rfl, (find?_equals_iff (BitVec.allOnes w).isLt).mp hsome⟩
  · obtain ⟨m, hm⟩ := Option.isSome_iff_exists.mp (find?_nil_isSome_iff.mpr h)
    have hsettled : Term.AllHold (p.settle t true w [] m.val).valuation p.conds :=
      allHold_settle m.property
    exact ⟨_, by rw [hm]; rfl, _, hsettled, congrArg BitVec.toNat (Term.value_eq _ t).symm⟩

/-! ## All values of a short range -/

/-- Halving a range that holds the least possible value ends at it. -/
theorem leastFrom_spec (lo n : Nat) (hn : lo + n ≤ 2 ^ w) (hlo : ∀ x, p.Possible t x → lo ≤ x)
    (hex : ∃ x < lo + n, p.Possible t x) :
    p.Possible t (p.leastFrom t lo n) ∧ ∀ x, p.Possible t x → p.leastFrom t lo n ≤ x := by
  fun_induction leastFrom p t lo n with
  | case1 lo n hle =>
    obtain ⟨x, hx, hp⟩ := hex
    have hx' : x = lo := by
      have := hlo x hp
      omega
    exact ⟨hx' ▸ hp, hlo⟩
  | case2 lo n hle half hfind ih =>
    have hbound : lo + half - 1 < 2 ^ w := by omega
    obtain ⟨x, hx, hp⟩ := (find?_atMost_iff hbound).mp hfind
    exact ih (by omega) hlo ⟨x, by omega, hp⟩
  | case3 lo n hle half hfind ih =>
    have hbound : lo + half - 1 < 2 ^ w := by omega
    refine ih (by omega) ?_ ?_
    · intro x hx
      refine Nat.le_of_not_lt fun hlt => ?_
      exact hfind ((find?_atMost_iff hbound).mpr ⟨x, by omega, hx⟩)
    · obtain ⟨x, hx, hp⟩ := hex
      exact ⟨x, by omega, hp⟩

/-- Halving a range that holds the greatest possible value ends at it. -/
theorem greatestFrom_spec (lo n : Nat) (hn : lo + n ≤ 2 ^ w) (hhi : ∀ x, p.Possible t x → x < lo + n)
    (hex : ∃ x, lo ≤ x ∧ p.Possible t x) :
    p.Possible t (p.greatestFrom t lo n) ∧ ∀ x, p.Possible t x → x ≤ p.greatestFrom t lo n := by
  fun_induction greatestFrom p t lo n with
  | case1 lo n hle =>
    obtain ⟨x, hx, hp⟩ := hex
    have hx' : x = lo := by
      have := hhi x hp
      omega
    refine ⟨hx' ▸ hp, fun y hy => ?_⟩
    have := hhi y hy
    omega
  | case2 lo n hle half hfind ih =>
    have hbound : lo + half < 2 ^ w := by omega
    obtain ⟨x, hx, hp⟩ := (find?_atLeast_iff hbound).mp hfind
    refine ih (by omega) (fun y hy => ?_) ⟨x, hx, hp⟩
    have := hhi y hy
    omega
  | case3 lo n hle half hfind ih =>
    have hbound : lo + half < 2 ^ w := by omega
    refine ih (by omega) (fun y hy => ?_) hex
    refine Nat.lt_of_not_le fun hle => ?_
    exact hfind ((find?_atLeast_iff hbound).mpr ⟨y, by omega, hy⟩)

theorem pairwise_filterMap_range (lo n : Nat) (q : Nat → Bool) :
    ((List.range n).filterMap fun i => if q (lo + i) then some (lo + i) else none).Pairwise (· < ·) := by
  refine List.Pairwise.filterMap _ ?_ List.pairwise_lt_range
  intro i j hij x hx y hy
  simp only [Option.ite_none_right_eq_some, Option.some.injEq] at hx hy
  omega

/-- The values that are tried one after another between the least and the greatest one are all the possible ones. -/
theorem mem_tried {lo hi : Nat} (hlo : ∀ x, p.Possible t x → lo ≤ x) (hhi : ∀ x, p.Possible t x → x ≤ hi)
    (hlt : hi < 2 ^ w) (hle : lo ≤ hi) (x : Nat) :
    (x ∈ (List.range (hi - lo + 1)).filterMap fun i =>
      if (p.find? [equals t (lo + i)]).isSome then some (lo + i) else none) ↔ p.Possible t x := by
  rw [List.mem_filterMap]
  constructor
  · rintro ⟨i, hmem, hi⟩
    split at hi
    · rename_i hfind
      obtain rfl := Option.some.inj hi
      have := List.mem_range.mp hmem
      exact (find?_equals_iff (by omega)).mp hfind
    · cases hi
  · intro hx
    have h1 := hlo x hx
    have h2 := hhi x hx
    refine ⟨x - lo, List.mem_range.mpr (by omega), ?_⟩
    have hsub : lo + (x - lo) = x := by omega
    rw [hsub, if_pos ((find?_equals_iff hx.lt).mpr hx)]

/-- No possible value lies further from another one than the span. -/
theorem not_outside {span v above : Nat} (hspan : ∀ x y, p.Possible t x → p.Possible t y → y - x ≤ span)
    (hv : p.Possible t v) (habove : (if v + span ≤ 2 ^ w - 1 then v + span else 2 ^ w - 1) = above) :
    ¬ ((decide (0 < v - span) && (p.find? [atMost t (v - span - 1)]).isSome ||
      decide (above < 2 ^ w - 1) && (p.find? [atLeast t (above + 1)]).isSome) = true) := by
  have hvlt := hv.lt
  intro hout
  rw [Bool.or_eq_true, Bool.and_eq_true, Bool.and_eq_true, decide_eq_true_iff, decide_eq_true_iff] at hout
  rcases hout with ⟨hpos, hfind⟩ | ⟨hlt, hfind⟩
  · obtain ⟨x, hx, hp⟩ := (find?_atMost_iff (by omega)).mp hfind
    have := hspan x v hp hv
    omega
  · obtain ⟨x, hx, hp⟩ := (find?_atLeast_iff (by omega)).mp hfind
    have h1 := hspan v x hv hp
    have h2 := hp.lt
    split at habove <;> omega

/-- **Possible values.** Where the possible values of a term lie within the span, they are listed. -/
theorem exists_possible {span : Nat} (h : p.Feasible)
    (hspan : ∀ x y, p.Possible t x → p.Possible t y → y - x ≤ span) :
    ∃ l, p.possible t span = .inl l ∧ l.Pairwise (· < ·) ∧ ∀ x, x ∈ l ↔ p.Possible t x := by
  obtain ⟨v, hv, hpv⟩ := exists_anyValue? (t := t) h
  have htop : (BitVec.allOnes w).toNat = 2 ^ w - 1 := BitVec.toNat_allOnes
  have hvlt := hpv.lt
  unfold possible
  rw [hv]
  dsimp only
  rw [htop]
  generalize habove : (if v + span ≤ 2 ^ w - 1 then v + span else 2 ^ w - 1) = above
  have hfar : v + span ≤ above ∨ 2 ^ w - 1 ≤ above := by
    rw [← habove]
    split <;> omega
  have hwithin : above < 2 ^ w := by
    rw [← habove]
    split <;> omega
  rw [if_neg (not_outside hspan hpv habove)]
  -- nothing lies outside of the range, so the two searches find its ends
  have hleast := leastFrom_spec (p := p) (t := t) (v - span) (v - (v - span) + 1) (by omega)
    (fun x hx => by have := hspan x v hx hpv; omega) ⟨v, by omega, hpv⟩
  have hgreatest := greatestFrom_spec (p := p) (t := t) v (above - v + 1) (by omega)
    (fun x hx => by
      have h1 := hspan v x hpv hx
      have h2 := hx.lt
      omega)
    ⟨v, Nat.le_refl _, hpv⟩
  generalize p.leastFrom t (v - span) (v - (v - span) + 1) = lo at hleast
  generalize p.greatestFrom t v (above - v + 1) = hi at hgreatest
  rw [if_pos (hspan lo hi hleast.1 hgreatest.1)]
  exact ⟨_, rfl, pairwise_filterMap_range lo _ fun n => (p.find? [equals t n]).isSome,
    mem_tried hleast.2 hgreatest.2 hgreatest.1.lt (hleast.2 hi hgreatest.1)⟩

theorem leastFrom_lt (lo n : Nat) (hn : 0 < n) : p.leastFrom t lo n < lo + n := by
  fun_induction leastFrom p t lo n with
  | case1 lo n hle => omega
  | case2 lo n hle half hfind ih => exact Nat.lt_of_lt_of_le (ih (by omega)) (by omega)
  | case3 lo n hle half hfind ih => exact Nat.lt_of_lt_of_le (ih (by omega)) (by omega)

theorem le_greatestFrom (lo n : Nat) : lo ≤ p.greatestFrom t lo n := by
  fun_induction greatestFrom p t lo n with
  | case1 lo n hle => exact Nat.le_refl lo
  | case2 lo n hle half hfind ih => exact Nat.le_trans (Nat.le_add_right lo half) ih
  | case3 lo n hle half hfind ih => exact ih

/-- A term of a condition that can hold has possible values, however far apart: a list of them, or one. -/
theorem possible_cases (h : p.Feasible) (t : Term w) (span : Nat) :
    (∃ a l, p.possible t span = .inl (a :: l)) ∨ ∃ a, p.possible t span = .inr (some a) ∧ p.Possible t a := by
  obtain ⟨v, hv, hpv⟩ := exists_anyValue? (t := t) h
  unfold possible
  rw [hv]
  dsimp only
  generalize (if v + span ≤ (BitVec.allOnes w).toNat then v + span else (BitVec.allOnes w).toNat) = above
  split
  · exact Or.inr ⟨v, rfl, hpv⟩
  · have hlo := leastFrom_lt (p := p) (t := t) (v - span) (v - (v - span) + 1) (Nat.succ_pos _)
    have hhi := le_greatestFrom (p := p) (t := t) v (above - v + 1)
    split
    · left
      generalize p.leastFrom t (v - span) (v - (v - span) + 1) = lo at hlo
      generalize p.greatestFrom t v (above - v + 1) = hi at hhi
      -- the value that was found is in the list
      have hmem : v ∈ (List.range (hi - lo + 1)).filterMap fun i =>
          if (p.find? [equals t (lo + i)]).isSome then some (lo + i) else none := by
        refine List.mem_filterMap.mpr ⟨v - lo, List.mem_range.mpr (by omega), ?_⟩
        have hsub : lo + (v - lo) = v := by omega
        rw [hsub, if_pos ((find?_equals_iff hpv.lt).mpr hpv)]
      obtain ⟨a, l, hl⟩ := List.exists_cons_of_ne_nil (List.ne_nil_of_mem hmem)
      exact ⟨a, l, congrArg Sum.inl hl⟩
    · exact Or.inr ⟨v, rfl, hpv⟩

end PathCondition

end PathSafety
