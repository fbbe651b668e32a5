import PathSafety.Proofs.Path.Defects

/-!
# Copies of a path at a fork

At a fork an engine goes on with the machine that it has and splits the other possible successors off. Seen from
outside, it makes a copy of the machine for each possible successor, in the order of the successors, and adds the
condition of the successor to the copy where there is a choice. A lone successor has nothing added: it is taken with
all inputs of the path.

Contents:

* `Engine.possible`, `Engine.copies?` — the possible successors of a fork, and a copy for each of them;
* `Engine.branch_of_selects` — that the engine makes these copies;
* `Engine.Offers.exists_arrival` — that a path arrives wherever it can go on with some input;
* `Engine.exhaustive_successors`, `Engine.divides_of_fork?` — the inputs that the copies stand for.
-/

namespace PathSafety

open IR Machine

variable {p : Project} {e : Engine p} {st : State p} {site : Site} {f : Frame p} {m m' : Machine} {k : Nat}
  {ss : List (Cond × String)}

/-! ## Copies -/

/-- A machine that goes on to one of its possible successors, with the condition of the successor. A lone one adds
nothing. -/
def Machine.choose (m : Machine) (lone : Bool) (c : Cond) : Machine :=
  if lone then m else { m with condition := m.condition.assume c }

namespace Engine

/-- The possible ones of some successors, with their positions, which are counted from `k` on. -/
def possible (k : Nat) : List (Cond × String) → Action (List (Nat × Cond × String))
  | [] => pure []
  | (c, target) :: rest => do
    let holds ← Machine.sat [c]
    let others ← possible (k + 1) rest
    return if holds then (k, c, target) :: others else others

/-- A copy of a machine for one of its possible successors. -/
def copy? (f : Frame p) (m : Machine) (lone : Bool) (successor : Cond × String) : Option (Machine × Frame p) :=
  (f.jump? successor.2).map fun g => (m.choose lone successor.1, g)

/-- A copy of a machine for each of the possible successors, with its position. -/
def copies? (f : Frame p) (m : Machine) (possible : List (Nat × Cond × String)) :
    Except Failure (List (Nat × Machine × Frame p)) :=
  if possible.isEmpty then .error (.fault (.noSuccessor f.location))
  else
    match possible.mapM fun x => (copy? f m (possible.length == 1) x.2).map (Prod.mk x.1) with
    | some copies => .ok copies
    | none => .error (.defect .missingIndex)

/-- The copies of a path at a fork. -/
def fork? (e : Engine p) (st : State p) : Option (Except Failure (List (Nat × Machine × Frame p))) := do
  let i ← st.frame.instr?
  let successors ← e.successors? (st.frame.site i)
  let act : Action (List (Nat × Cond × String)) := do
    e.watch (st.frame.site i) e.monitors
    possible 0 (← successors)
  match act st.machine with
  | .ok possible m => some (copies? st.frame m possible)
  | .error failure _ => some (.error failure)

/-! ## Forks of the engine -/

/-- The possible ones among some successors: all of them that can hold, in order. -/
structure Selects (k : Nat) (ss : List (Cond × String)) (m : Machine) (r : List (Nat × Cond × String))
    (m' : Machine) : Prop where
  feasible : feasible ss m = .ok (r.map (·.2)) m'
  rest : m' = { m with condition := m'.condition }
  conds : m'.condition.conds = m.condition.conds
  sorted : r.Pairwise fun x y => x.1 < y.1
  mem : ∀ j y, (j, y) ∈ r ↔ k ≤ j ∧ ss[j - k]? = some y ∧ ∃ ν, Term.AllHold ν m.condition.conds ∧ y.1.Holds ν

section Positions

variable {α : Type} {P : α → Prop} {k : Nat} {x : α} {xs : List α} {r : List (Nat × α)}
  (hbehind : ∀ j y, (j, y) ∈ r ↔ k < j ∧ (x :: xs)[j - k]? = some y ∧ P y)
include hbehind

/-- The first one is selected in front of those behind it, if it is to be. -/
theorem mem_cons_positions (hx : P x) (j : Nat) (y : α) :
    (j, y) ∈ (k, x) :: r ↔ k ≤ j ∧ (x :: xs)[j - k]? = some y ∧ P y := by
  rw [List.mem_cons, hbehind j y]
  rcases Nat.lt_trichotomy j k with hj | rfl | hj
  · exact iff_of_false (by simp only [Prod.mk.injEq]; omega) (by omega)
  · simp only [Nat.sub_self, List.getElem?_cons_zero, Prod.mk.injEq, true_and, Nat.lt_irrefl, false_and,
      or_false, Nat.le_refl, Option.some.injEq]
    exact ⟨fun heq => ⟨heq.symm, heq ▸ hx⟩, fun h => h.1.symm⟩
  · simp only [Prod.mk.injEq, Nat.ne_of_gt hj, false_and, false_or, hj, Nat.le_of_lt hj]

theorem mem_positions (hx : ¬ P x) (j : Nat) (y : α) :
    (j, y) ∈ r ↔ k ≤ j ∧ (x :: xs)[j - k]? = some y ∧ P y := by
  rw [hbehind j y]
  refine ⟨fun h => ⟨Nat.le_of_lt h.1, h.2⟩, fun ⟨hj, hy, hP⟩ => ⟨Nat.lt_of_le_of_ne hj ?_, hy, hP⟩⟩
  rintro rfl
  rw [Nat.sub_self, List.getElem?_cons_zero] at hy
  exact hx (Option.some.inj hy ▸ hP)

end Positions

/-- A successor is asked for before those behind it. -/
theorem Selects.cons {k : Nat} {c : Cond} {target : String} {ss : List (Cond × String)} {m m' : Machine}
    {r : List (Nat × Cond × String)} (h : Selects (k + 1) ss { m with condition := (m.condition.sat [c]).2 } r m') :
    Selects k ((c, target) :: ss) m (if (m.condition.sat [c]).1 then (k, c, target) :: r else r) m' := by
  have hsat : Machine.sat [c] m =
      .ok (m.condition.sat [c]).1 { m with condition := (m.condition.sat [c]).2 } := rfl
  have hconds : m'.condition.conds = m.condition.conds := h.conds.trans (PathCondition.conds_sat _)
  have hmem := h.mem
  rw [PathCondition.conds_sat] at hmem
  -- behind the first successor positions are counted from the next number on
  have hbehind : ∀ j y, (j, y) ∈ r ↔ k < j ∧ ((c, target) :: ss)[j - k]? = some y ∧
      ∃ ν, Term.AllHold ν m.condition.conds ∧ y.1.Holds ν := by
    intro j y
    rw [hmem j y]
    refine and_congr_right fun hj => ?_
    rw [show j - k = (j - (k + 1)) + 1 by omega, List.getElem?_cons_succ]
  have hfeasible : Engine.feasible ((c, target) :: ss) m =
      .ok (if (m.condition.sat [c]).1 then (c, target) :: r.map (·.2) else r.map (·.2)) m' := by
    unfold Engine.feasible
    rw [bind_of_ok hsat, bind_of_ok h.feasible]
    rfl
  cases hpossible : (m.condition.sat [c]).1 with
  | true =>
    rw [hpossible] at hfeasible
    have hle : ∀ x ∈ r, k < x.1 := fun x hx => ((hmem x.1 x.2).mp hx).1
    exact ⟨hfeasible, h.rest, hconds, List.pairwise_cons.mpr ⟨hle, h.sorted⟩,
      mem_cons_positions hbehind (PathCondition.sat_iff.mp hpossible)⟩
  | false =>
    rw [hpossible] at hfeasible
    have hno : ¬ ∃ ν, Term.AllHold ν m.condition.conds ∧ c.Holds ν := fun hν => by
      rw [PathCondition.sat_iff.mpr hν] at hpossible
      cases hpossible
    exact ⟨hfeasible, h.rest, hconds, h.sorted, mem_positions hbehind hno⟩

/-- Successors can always be asked for. -/
theorem selects_possible (k : Nat) (ss : List (Cond × String)) (m : Machine) :
    ∃ r m', possible k ss m = .ok r m' ∧ Selects k ss m r m' := by
  induction ss generalizing k m with
  | nil => exact ⟨[], m, rfl, ⟨rfl, rfl, rfl, .nil, fun j y => by simp⟩⟩
  | cons x ss ih =>
    obtain ⟨c, target⟩ := x
    obtain ⟨r, m', hr, hselects⟩ := ih (k + 1) { m with condition := (m.condition.sat [c]).2 }
    have hsat : Machine.sat [c] m =
        .ok (m.condition.sat [c]).1 { m with condition := (m.condition.sat [c]).2 } := rfl
    refine ⟨_, m', ?_, hselects.cons⟩
    unfold possible
    rw [bind_of_ok hsat, bind_of_ok hr]
    rfl

/-- Positions do not matter for whether there are copies. -/
theorem mapM_positions {α β : Type} (h : α → Option β) (r : List (Nat × α)) :
    ((r.map (·.2)).mapM h = none ∧ (r.mapM fun x => (h x.2).map (Prod.mk x.1)) = none) ∨
      ∃ copies, (r.map (·.2)).mapM h = some (copies.map (·.2)) ∧
        (r.mapM fun x => (h x.2).map (Prod.mk x.1)) = some copies ∧ copies.map (·.1) = r.map (·.1) ∧
        ∀ x ∈ copies, ∃ y, (x.1, y) ∈ r ∧ h y = some x.2 := by
  induction r with
  | nil => exact Or.inr ⟨[], rfl, rfl, rfl, List.forall_mem_nil _⟩
  | cons x r ih =>
    rw [List.map_cons, List.mapM_cons, List.mapM_cons]
    cases hx : h x.2 with
    | none => exact Or.inl ⟨rfl, rfl⟩
    | some b =>
      rcases ih with ⟨hsome, hnone⟩ | ⟨copies, hsome, hcopies, hmap, hmem⟩
      · rw [hsome, hnone]
        exact Or.inl ⟨rfl, rfl⟩
      · rw [hsome, hcopies]
        refine Or.inr ⟨(x.1, b) :: copies, rfl, rfl, ?_, ?_⟩
        · rw [List.map_cons, List.map_cons, hmap]
        · refine List.forall_mem_cons.mpr ⟨⟨x.2, List.mem_cons_self, hx⟩, fun y hy => ?_⟩
          obtain ⟨z, hz, hcopy⟩ := hmem y hy
          exact ⟨z, List.mem_cons_of_mem _ hz, hcopy⟩

theorem exists_of_mapM_eq_none {α β : Type} {h : α → Option β} {xs : List α} (hnone : xs.mapM h = none) :
    ∃ x ∈ xs, h x = none := by
  induction xs with
  | nil => cases hnone
  | cons x xs ih =>
    rw [List.mapM_cons] at hnone
    cases hx : h x with
    | none => exact ⟨x, List.mem_cons_self, hx⟩
    | some b =>
      cases hrest : xs.mapM h with
      | none =>
        obtain ⟨y, hy, hnone⟩ := ih hrest
        exact ⟨y, List.mem_cons_of_mem _ hy, hnone⟩
      | some bs =>
        rw [hx, hrest] at hnone
        cases hnone

/-- The copies stand at the positions of the possible successors, and each is a copy for its successor. -/
theorem of_copies? {r : List (Nat × Cond × String)} {copies : List (Nat × Machine × Frame p)}
    (h : copies? f m r = .ok copies) : copies.map (·.1) = r.map (·.1) ∧
      ∀ x ∈ copies, ∃ y, (x.1, y) ∈ r ∧ f.jump? y.2 = some x.2.2 ∧ x.2.1 = m.choose (r.length == 1) y.1 := by
  unfold copies? at h
  split at h
  · cases h
  · rcases mapM_positions (copy? f m (r.length == 1)) r with ⟨_, hnone⟩ | ⟨copies', _, hsome, hmap, hmem⟩
    · rw [hnone] at h
      cases h
    · rw [hsome] at h
      obtain rfl := Except.ok.inj h
      refine ⟨hmap, fun x hx => ?_⟩
      obtain ⟨y, hy, hcopy⟩ := hmem x hx
      obtain ⟨g, hg, hx⟩ := Option.map_eq_some_iff.mp hcopy
      rw [← hx]
      exact ⟨y, hy, hg, rfl⟩

/-- What is split off are copies, one for each successor. -/
theorem splitOff_eq (f : Frame p) (ss : List (Cond × String)) (m : Machine) :
    splitOff f ss m =
      match ss.mapM (copy? f m false) with
      | some others => .ok others m
      | none => .error (.defect .missingIndex) m := by
  induction ss with
  | nil => rfl
  | cons x ss ih =>
    obtain ⟨c, target⟩ := x
    unfold splitOff jump
    rw [List.mapM_cons]
    cases hg : f.jump? target with
    | none =>
      have hcopy : copy? f m false (c, target) = none := by rw [copy?, hg]; rfl
      rw [hcopy]
      rfl
    | some g =>
      have hcopy : copy? f m false (c, target) = some (m.choose false c, g) := by rw [copy?, hg]; rfl
      have hpure : (pure g : Action (Frame p)) m = .ok g m := rfl
      have hget : (get : Action Machine) m = .ok m m := rfl
      dsimp only
      rw [hcopy, bind_of_ok hpure, bind_of_ok hget]
      -- `mapM` and the recursion fail on the same target, the first that names no block.
      cases hrest : ss.mapM (copy? f m false) with
      | none =>
        rw [hrest] at ih
        simp only [bind, EStateM.bind, ih]
        rfl
      | some others =>
        rw [hrest] at ih
        rw [bind_of_ok ih]
        rfl

/-- **A fork of the engine**: the machine that is left and the copies that are split off are a copy for each of the
possible successors. -/
theorem branch_of_selects {r : List (Nat × Cond × String)} (h : Selects k ss m r m') :
    (∃ failure m₁, copies? f m' r = .error failure ∧ branch f ss m = .error failure m₁) ∨
      ∃ copies g others m₁, copies? f m' r = .ok copies ∧ branch f ss m = .ok (.goto g others) m₁ ∧
        copies.map (·.2) = (m₁, g) :: others := by
  unfold branch copies?
  rw [bind_of_ok h.feasible]
  rcases r with _ | ⟨⟨j, c, target⟩, _ | ⟨x', others⟩⟩
  · exact Or.inl ⟨_, _, rfl, rfl⟩
  · -- the only possible successor
    cases hg : f.jump? target with
    | none => exact Or.inl ⟨.defect .missingIndex, m', by simp [copy?, hg], by simp [jump, hg]; rfl⟩
    | some g =>
      refine Or.inr ⟨[(j, m', g)], g, [], m', by simp [copy?, hg, Machine.choose], ?_, rfl⟩
      simp only [List.map_cons, List.map_nil, jump, hg]
      rfl
  · -- a fork
    have hlone : (((j, c, target) :: x' :: others).length == 1) = false := rfl
    rw [hlone]
    simp only [List.map_cons, List.isEmpty_cons, Bool.false_eq_true, if_false]
    rw [List.mapM_cons]
    have hsplit := splitOff_eq f ((x' :: others).map (·.2)) m'
    rcases mapM_positions (copy? f m' false) (x' :: others) with ⟨hnone, hpositions⟩ | ⟨copies, hsome, hpositions, _⟩
    · -- a block further behind is missing
      rw [hnone] at hsplit
      refine Or.inl ⟨.defect .missingIndex, m', ?_, ?_⟩
      · rw [hpositions]
        cases copy? f m' false (c, target) <;> rfl
      · simp only [List.map_cons] at hsplit
        simp only [bind, EStateM.bind, hsplit]
    · rw [hsome] at hsplit
      simp only [List.map_cons] at hsplit
      rw [hpositions, bind_of_ok hsplit]
      have hassume : (Machine.assume c) m' = .ok () { m' with condition := m'.condition.assume c } := rfl
      rw [bind_of_ok hassume]
      cases hg : f.jump? target with
      | none => exact Or.inl ⟨.defect .missingIndex, _, by simp [copy?, hg], by simp [jump, hg]; rfl⟩
      | some g =>
        refine Or.inr ⟨(j, m'.choose false c, g) :: copies, g, copies.map (·.2), _, ?_, ?_, rfl⟩
        · simp [copy?, hg]
        · simp only [jump, hg]
          rfl

/-- A step does for the next instruction what is done for it. -/
theorem step_of_instr? {i : Instr} (hi : st.frame.instr? = some i) :
    e.step st = match e.act st i st.machine with
      | .ok mv m => (st.note (st.frame.site i).location).follow m mv
      | .error failure m => .finish ((st.note (st.frame.site i).location).finish m failure.ending) := by
  unfold step
  rw [hi]
  rfl

/-- An instruction that chooses evaluates the successors behind what the monitors do, and branches. -/
theorem act_of_successors? {i : Instr} {successors : Action (List (Cond × String))}
    (h : e.successors? (st.frame.site i) = some successors) :
    e.act st i = (e.watch (st.frame.site i) e.monitors >>= fun _ => successors) >>= branch st.frame := by
  unfold act
  rw [move_of_successors? h, bind_assoc]
  rfl

/-- That a path has some successors to choose among at its next instruction, and the machine that has evaluated
them. -/
def Offers (e : Engine p) (st : State p) (ss : List (Cond × String)) (m : Machine) : Prop :=
  ∃ i successors, st.frame.instr? = some i ∧ e.successors? (st.frame.site i) = some successors ∧
    (e.watch (st.frame.site i) e.monitors >>= fun _ => successors) st.machine = .ok ss m

/-- What the recursion makes of a fork: it fails where the successors cannot be evaluated, else it copies the path for
the possible ones. -/
theorem fork?_cases {x : Except Failure (List (Nat × Machine × Frame p))} (h : e.fork? st = some x) :
    ∃ i, st.frame.instr? = some i ∧
      ((∃ failure m, e.act st i st.machine = .error failure m ∧ x = .error failure) ∨
        ∃ ss m r m', e.Offers st ss m ∧ e.act st i st.machine = branch st.frame ss m ∧ Selects 0 ss m r m' ∧
          x = copies? st.frame m' r) := by
  unfold fork? at h
  obtain ⟨i, hi, h⟩ := Option.bind_eq_some_iff.mp h
  obtain ⟨successors, hsuccessors, h⟩ := Option.bind_eq_some_iff.mp h
  refine ⟨i, hi, ?_⟩
  have hassoc : (do
      e.watch (st.frame.site i) e.monitors
      possible 0 (← successors)) =
        (e.watch (st.frame.site i) e.monitors >>= fun _ => successors) >>= possible 0 := by
    rw [bind_assoc]
  dsimp only at h
  rw [hassoc] at h
  rw [act_of_successors? hsuccessors]
  -- the engine evaluates the successors in the same way
  cases hss : (e.watch (st.frame.site i) e.monitors >>= fun _ => successors) st.machine with
  | error failure m =>
    simp only [bind, EStateM.bind] at hss h ⊢
    rw [hss] at h ⊢
    exact Or.inl ⟨failure, m, rfl, (Option.some.inj h).symm⟩
  | ok ss m =>
    obtain ⟨r, m', hr, hselects⟩ := selects_possible 0 ss m
    rw [bind_of_ok hss, hr] at h
    rw [bind_of_ok hss]
    exact Or.inr ⟨ss, m, r, m', ⟨i, successors, hi, hsuccessors, hss⟩, rfl, hselects, (Option.some.inj h).symm⟩

/-- Copies cannot be made for lack of a block only. -/
theorem exists_copies? {r : List (Nat × Cond × String)} (hr : r ≠ [])
    (hjumps : ∀ x ∈ r, (f.jump? x.2.2).isSome = true) (m : Machine) : ∃ copies, copies? f m r = .ok copies := by
  unfold copies?
  rw [if_neg (by simpa using hr)]
  rcases mapM_positions (copy? f m (r.length == 1)) r with ⟨_, hnone⟩ | ⟨copies, _, hsome, _, _⟩
  · obtain ⟨x, hx, hcopy⟩ := exists_of_mapM_eq_none hnone
    obtain ⟨g, hg⟩ := Option.isSome_iff_exists.mp (hjumps x hx)
    rw [copy?, hg] at hcopy
    cases hcopy
  · exact ⟨copies, by rw [hsome]⟩

/-- **A path arrives** at the block of each successor that it can take with some input, if there are such blocks. The
input still meets its condition there. -/
theorem Offers.exists_arrival (h : e.Offers st ss m) (hjumps : ∀ y ∈ ss, (st.frame.jump? y.2).isSome = true)
    {y : Cond × String} (hy : y ∈ ss) {ν : Valuation} (hν : Term.AllHold ν m.condition.conds) (hholds : y.1.Holds ν) :
    ∃ a others b, e.step st = .arrive a others ∧ b ∈ a :: others ∧ st.frame.jump? y.2 = some b.state.frame ∧
      b.state.trail = st.trail ∧ Term.AllHold ν b.state.machine.condition.conds := by
  obtain ⟨i, successors, hi, hsuccessors, hss⟩ := h
  obtain ⟨r, m', _, hselects⟩ := selects_possible 0 ss m
  -- the successor is among the possible ones, so there is a copy for it
  obtain ⟨n, hn⟩ := List.getElem?_of_mem hy
  have hmem : (n, y) ∈ r := (hselects.mem n y).mpr ⟨Nat.zero_le n, hn, ν, hν, hholds⟩
  have hpossible : ∀ x ∈ r, (st.frame.jump? x.2.2).isSome = true := fun x hx =>
    hjumps x.2 (List.mem_of_getElem? ((hselects.mem x.1 x.2).mp hx).2.1)
  obtain ⟨copies, hcopies⟩ := exists_copies? (List.ne_nil_of_mem hmem) hpossible m'
  obtain ⟨hpositions, hcopy⟩ := of_copies? hcopies
  obtain ⟨x, hx, rfl⟩ : ∃ x ∈ copies, x.1 = n := by
    rw [← List.mem_map, hpositions]
    exact List.mem_map_of_mem hmem
  obtain ⟨z, hz, hjump, hchoose⟩ := hcopy x hx
  obtain rfl : y = z := by
    have hz := ((hselects.mem x.1 z).mp hz).2.1
    exact Option.some.inj (hn.symm.trans hz)
  have hmeets : Term.AllHold ν x.2.1.condition.conds := by
    rw [hchoose]
    unfold Machine.choose
    split
    · rw [hselects.conds]
      exact hν
    · show Term.AllHold ν (y.1 :: m'.condition.conds)
      rw [hselects.conds]
      exact List.forall_mem_cons.mpr ⟨hholds, hν⟩
  obtain ⟨failure, m₁, hfailed, _⟩ | ⟨copies', g, others, m₁, hcopies', hbranch, hmap⟩ :=
    branch_of_selects (f := st.frame) hselects
  · cases hcopies.symm.trans hfailed
  · obtain rfl := Except.ok.inj (hcopies.symm.trans hcopies')
    have hstep : e.step st = (st.note (st.frame.site i).location).follow m₁ (.goto g others) := by
      rw [step_of_instr? hi, act_of_successors? hsuccessors, bind_of_ok hss, hbranch]
    have hx : x.2 ∈ (m₁, g) :: others := hmap ▸ List.mem_map_of_mem hx
    rcases List.mem_cons.mp hx with heq | hx
    · refine ⟨_, _, _, hstep, List.mem_cons_self, ?_, rfl, ?_⟩
      · rw [hjump, heq]
      · rwa [heq] at hmeets
    · exact ⟨_, _, _, hstep, List.mem_cons_of_mem _ (List.mem_map_of_mem hx), hjump, rfl, hmeets⟩

/-! ## The inputs of a copy -/

/-- That what a conditional branch tests is a single bit. -/
def TestsBit (e : Engine p) (site : Site) (m : Machine) : Prop :=
  ∀ c yes no v m', site.instr.op = .condBr c yes no → site.eval e.setting c m = .ok v m' → v.width = 1

/-- What an instruction chooses among, once its operands are evaluated. -/
theorem cases_of_successors? {successors : Action (List (Cond × String))}
    (h : e.successors? site = some successors) (hss : successors m = .ok ss m') :
    (∃ c yes no v, site.instr.op = .condBr c yes no ∧ site.eval e.setting c m = .ok v m' ∧
        ss = [(v.equals 1, yes), (v.equals 0, no)]) ∨
      ∃ v default cases w m₁ arms, site.instr.op = .switch v default cases ∧ site.eval e.setting v m = .ok w m₁ ∧
        switch.arms e site w cases m₁ = .ok arms m' ∧
        ss = arms ++ [(Term.mkAll (arms.map fun (c, _) => c.mkNot), default)] := by
  -- Only these two instructions have successors to choose from.
  unfold successors? at h
  cases hop : site.instr.op with
  | condBr c yes no =>
    rw [hop] at h
    obtain rfl := Option.some.inj h
    obtain ⟨v, m₁, hv, hss⟩ := exists_of_bind hss
    obtain ⟨rfl, rfl⟩ := of_pure hss
    exact Or.inl ⟨c, yes, no, v, rfl, hv, rfl⟩
  | switch v default cases =>
    rw [hop] at h
    obtain rfl := Option.some.inj h
    obtain ⟨w, m₁, hw, hss⟩ := exists_of_bind hss
    obtain ⟨arms, m₂, harms, hss⟩ := exists_of_bind hss
    obtain ⟨rfl, rfl⟩ := of_pure hss
    exact Or.inr ⟨v, default, cases, w, m₁, arms, rfl, hw, harms, rfl⟩
  | _ =>
    rw [hop] at h
    cases h

/-- **One of the successors holds**: of a switch always, of a conditional branch where it tests a single bit. -/
theorem exhaustive_successors {successors : Action (List (Cond × String))}
    (h : e.successors? site = some successors) (hss : successors m = .ok ss m') (hbit : e.TestsBit site m)
    (ν : Valuation) : ∃ y ∈ ss, y.1.Holds ν := by
  rcases cases_of_successors? h hss with ⟨c, yes, no, v, hop, hv, rfl⟩ | ⟨_, _, _, _, _, arms, _, _, _, rfl⟩
  · have hwidth := hbit c yes no v m' hop hv
    have hlt := (v.term.denote ν).isLt
    have hpow : 2 ^ v.width = 2 := by rw [hwidth]; rfl
    by_cases hone : (v.term.denote ν).toNat = 1
    · exact ⟨_, List.mem_cons_self, (PathCondition.holds_equals (by omega)).mpr hone⟩
    · refine ⟨_, List.mem_cons_of_mem _ List.mem_cons_self, (PathCondition.holds_equals (by omega)).mpr ?_⟩
      omega
  · by_cases harm : ∃ y ∈ arms, y.1.Holds ν
    · obtain ⟨y, hy, hholds⟩ := harm
      exact ⟨y, List.mem_append_left _ hy, hholds⟩
    · -- the default holds where no case does
      refine ⟨_, List.mem_append_right _ List.mem_cons_self, ?_⟩
      unfold Term.Holds
      rw [Term.denote_eq_meaning, Term.meaning_mkAll]
      intro c hc
      obtain ⟨y, hy, rfl⟩ := List.mem_map.mp hc
      have hno : y.1.meaning ν.reading ≠ 1#1 := fun hholds =>
        harm ⟨y, hy, (Term.denote_eq_meaning ν y.1).trans hholds⟩
      rw [Term.meaning_mkNot, (Term.eq_zero_or_one _).resolve_right hno]
      rfl

/-- **A copy for a successor** stands for the inputs of the path with which the successor is taken. Nothing is added for
a lone successor, which is taken with all of them. -/
theorem valuations_of_choose {r : List (Nat × Cond × String)} (hselects : Selects k ss m r m')
    (hexhaustive : ∀ ν, ∃ y ∈ ss, y.1.Holds ν) {j : Nat} {y : Cond × String} (hy : (j, y) ∈ r) (ν : Valuation) :
    Term.AllHold ν (m'.choose (r.length == 1) y.1).condition.conds ↔
      Term.AllHold ν m.condition.conds ∧ y.1.Holds ν := by
  unfold Machine.choose
  cases hlone : r.length == 1 with
  | false =>
    show Term.AllHold ν (y.1 :: m'.condition.conds) ↔ _
    rw [hselects.conds, and_comm]
    exact List.forall_mem_cons
  | true =>
    show Term.AllHold ν m'.condition.conds ↔ _
    rw [hselects.conds]
    refine ⟨fun hν => ⟨hν, ?_⟩, And.left⟩
    obtain ⟨z, hz, hholds⟩ := hexhaustive ν
    obtain ⟨n, hn⟩ := List.getElem?_of_mem hz
    -- the successor that holds is possible, so it is the lone one
    have hmem : (k + n, z) ∈ r :=
      (hselects.mem (k + n) z).mpr ⟨Nat.le_add_right k n, by rwa [Nat.add_sub_cancel_left], ν, hν, hholds⟩
    obtain ⟨x, hx⟩ := List.length_eq_one_iff.mp (beq_iff_eq.mp hlone)
    rw [hx] at hmem hy
    have heq := (List.mem_singleton.mp hmem).trans (List.mem_singleton.mp hy).symm
    rwa [← (Prod.mk.inj heq).2]

/-- That some copies divide the inputs of a path at a fork: there is one for every successor that can be taken, it is
the machine of the path otherwise, it stands at the block of the successor, and it stands for the inputs with which
the successor is taken. -/
def Divides (e : Engine p) (st : State p) (copies : List (Nat × Machine × Frame p)) : Prop :=
  ∃ ss m, e.Offers st ss m ∧
    (∀ k, k ∈ copies.map (·.1) ↔ ∃ y, ss[k]? = some y ∧ ∃ ν, Term.AllHold ν m.condition.conds ∧ y.1.Holds ν) ∧
    ∀ x ∈ copies, ∃ y, ss[x.1]? = some y ∧ st.frame.jump? y.2 = some x.2.2 ∧
      x.2.1 = { m with condition := x.2.1.condition } ∧
      ∀ ν, Term.AllHold ν x.2.1.condition.conds ↔ Term.AllHold ν m.condition.conds ∧ y.1.Holds ν

/-- **The copies at a fork** divide the inputs of the path, at a conditional branch if it tests a single bit. -/
theorem divides_of_fork? {copies : List (Nat × Machine × Frame p)} (h : e.fork? st = some (.ok copies))
    (hbit : ∀ i m, st.frame.instr? = some i → e.watch (st.frame.site i) e.monitors st.machine = .ok () m →
      e.TestsBit (st.frame.site i) m) : e.Divides st copies := by
  obtain ⟨_, _, ⟨_, _, _, hfailure⟩ | ⟨ss, m, r, m', hoffers, _, hselects, hcopies⟩⟩ := fork?_cases h
  · cases hfailure
  obtain ⟨hpositions, hcopy⟩ := of_copies? hcopies.symm
  -- Under every valuation some successor holds, so the copies leave no case out.
  have hexhaustive : ∀ ν, ∃ y ∈ ss, y.1.Holds ν := by
    obtain ⟨i, successors, hi, hsuccessors, hss⟩ := hoffers
    obtain ⟨_, m₀, hwatch, hss⟩ := exists_of_bind hss
    exact exhaustive_successors hsuccessors hss (hbit i m₀ hi hwatch)
  refine ⟨ss, m, hoffers, fun k => ?_, fun x hx => ?_⟩
  · rw [hpositions]
    constructor
    · intro hk
      obtain ⟨⟨_, y⟩, hy, rfl⟩ := List.mem_map.mp hk
      exact ⟨y, ((hselects.mem _ y).mp hy).2⟩
    · rintro ⟨y, hy, hν⟩
      exact List.mem_map.mpr ⟨(k, y), (hselects.mem k y).mpr ⟨Nat.zero_le k, hy, hν⟩, rfl⟩
  · obtain ⟨y, hy, hjump, hchoose⟩ := hcopy x hx
    refine ⟨y, ((hselects.mem x.1 y).mp hy).2.1, hjump, ?_, fun ν => ?_⟩
    · rw [hchoose]
      unfold Machine.choose
      split
      · exact hselects.rest
      · rw [hselects.rest]
    · rw [hchoose]
      exact valuations_of_choose hselects hexhaustive hy ν

end Engine

end PathSafety
