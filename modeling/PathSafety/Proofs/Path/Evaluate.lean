import PathSafety.Check.Checker
import PathSafety.Proofs.Machine.Keeps
import PathSafety.Proofs.Path.Copies
import PathSafety.Proofs.Path.Run

/-!
# Explorations that can be computed

Where paths end within a known number of steps, an exploration can be computed, and with it whether every access
goes to a constant address where nothing is left to be met.

Contents:

* `Engine.stateAfter?` — the state of a path after some steps;
* `Engine.exploreWithin` — the paths of a state with the addresses that they take;
* `Engine.checkWithin` — checks of all accesses on the paths of a state;
* `Access.whole`, `proper_of_checkWithin` — accesses that can be seen to be proper;
* `State.divisor?`, `step_of_divisor?` — paths that are seen to end before a division by zero. What a search for
  models comes to is not computed: a valuation shows that the divisor can be zero;
* `Engine.branchesTo`, `exists_arrival_of_branchesTo` — paths that are seen to branch, where a valuation shows the way.
-/

namespace PathSafety

open IR Machine

variable {p : Project} {e : Engine p} {st st' : State p} {path : Path} {all : Prop} {stack : List Nat}

/-! ## Paths -/

namespace Engine

/-- The paths of a state, if all of them end within some steps. -/
def exploreWithin (e : Engine p) : Nat → State p → Option (List (List Nat × Path))
  | 0, _ => none
  | n + 1, st =>
    match e.step st with
    | .proceed st' =>
      (exploreWithin e n st').map fun l => l.map fun x => (st.allocated st' ++ x.1, x.2)
    | .finish path => some [([], path)]
    | .arrive a others =>
      ((a :: others).mapM fun b : Arrival p =>
        match b.enter e.loopBound with
        | .ok st' => exploreWithin e n st'
        | .error path => some [([], path)]).map List.flatten

/-- The state of a path after some steps by which it proceeds. -/
def stateAfter? (e : Engine p) : Nat → State p → Option (State p)
  | 0, st => some st
  | n + 1, st =>
    match e.step st with
    | .proceed st' => stateAfter? e n st'
    | _ => none

theorem step_of_stateAfter? (h : e.stateAfter? 1 st = some st') : e.step st = .proceed st' := by
  unfold stateAfter? at h
  split at h
  · rename_i st₁ hstep
    obtain rfl := Option.some.inj (h : some st₁ = some st')
    exact hstep
  · cases h

theorem reaches_of_stateAfter? {n : Nat} (h : e.stateAfter? n st = some st') : e.Reaches st st' := by
  induction n generalizing st with
  | zero =>
    obtain rfl := Option.some.inj h
    exact .refl
  | succ n ih =>
    unfold stateAfter? at h
    split at h
    · rename_i st₁ hstep
      exact Reaches.trans (.proceed .refl hstep) (ih h)
    · cases h

theorem exploreFrom_of_stateAfter? {n : Nat} (h : e.stateAfter? n st = some st') :
    e.exploreFrom st = e.exploreFrom st' := by
  induction n generalizing st with
  | zero => rw [Option.some.inj h]
  | succ n ih =>
    unfold stateAfter? at h
    split at h
    · rename_i hstep
      rw [e.exploreFrom_of_proceed hstep, ih h]
    · cases h

theorem exploreWithin_flatten {bs : List (Arrival p)} {g : Arrival p → Option (List (List Nat × Path))}
    {ls : List (List (List Nat × Path))} (hg : ∀ b ∈ bs, ∀ l, g b = some l → l.map (·.2) = e.explore b)
    (h : bs.mapM g = some ls) : ls.flatten.map (·.2) = bs.flatMap e.explore := by
  induction bs generalizing ls with
  | nil =>
    obtain rfl := Option.some.inj h
    rfl
  | cons b bs ih =>
    rw [List.mapM_cons] at h
    obtain ⟨l, hl, h⟩ := Option.bind_eq_some_iff.mp h
    obtain ⟨ls', hls, h⟩ := Option.bind_eq_some_iff.mp h
    obtain rfl := Option.some.inj h
    rw [List.flatten_cons, List.map_append, List.flatMap_cons, hg b List.mem_cons_self l hl,
      ih (fun b' hb' => hg b' (List.mem_cons_of_mem _ hb')) hls]

/-- What is computed are the paths of a state. -/
theorem exploreWithin_eq {n : Nat} {l : List (List Nat × Path)} (h : e.exploreWithin n st = some l) :
    l.map (·.2) = e.exploreFrom st := by
  induction n generalizing st l with
  | zero => cases h
  | succ n ih =>
    unfold exploreWithin at h
    split at h
    · rename_i st' hstep
      obtain ⟨l', hl', rfl⟩ := Option.map_eq_some_iff.mp h
      rw [e.exploreFrom_of_proceed hstep, ← ih hl', List.map_map]
      rfl
    · rename_i path hstep
      obtain rfl := Option.some.inj h
      exact (e.exploreFrom_of_finish hstep).symm
    · rename_i a others hstep
      obtain ⟨ls, hls, rfl⟩ := Option.map_eq_some_iff.mp h
      rw [e.exploreFrom_of_arrive hstep]
      -- The arms share the steps left, and each agrees with the exploration from its own state.
      refine exploreWithin_flatten (fun b _ l hl => ?_) hls
      split at hl
      · rename_i hin
        rw [explore_of_ok hin, ih hl]
      · rename_i hin
        obtain rfl := Option.some.inj hl
        exact (explore_of_error hin).symm

theorem exists_of_mem_flatten {α β : Type} {xs : List α} {g : α → Option (List β)} {ls : List (List β)}
    (h : xs.mapM g = some ls) {y : β} (hy : y ∈ ls.flatten) : ∃ x ∈ xs, ∃ l, g x = some l ∧ y ∈ l := by
  induction xs generalizing ls with
  | nil =>
    obtain rfl := Option.some.inj h
    exact absurd hy List.not_mem_nil
  | cons x xs ih =>
    rw [List.mapM_cons] at h
    obtain ⟨l, hl, h⟩ := Option.bind_eq_some_iff.mp h
    obtain ⟨ls', hls, h⟩ := Option.bind_eq_some_iff.mp h
    obtain rfl := Option.some.inj h
    rw [List.flatten_cons] at hy
    rcases List.mem_append.mp hy with hy | hy
    · exact ⟨x, List.mem_cons_self, l, hl, hy⟩
    · obtain ⟨x', hx', l', hl', hy'⟩ := ih hls hy
      exact ⟨x', List.mem_cons_of_mem _ hx', l', hl', hy'⟩

/-- The addresses that are computed are those that a path takes. -/
theorem takes_of_exploreWithin {n : Nat} {l : List (List Nat × Path)} (h : e.exploreWithin n st = some l)
    {x : List Nat × Path} (hx : x ∈ l) : e.Takes st x.1 x.2 := by
  -- On the steps allowed; an evaluation that ran out of them has no result to speak of.
  induction n generalizing st l x with
  | zero => cases h
  | succ n ih =>
    unfold exploreWithin at h
    split at h
    · rename_i st' hstep
      obtain ⟨l', hl', rfl⟩ := Option.map_eq_some_iff.mp h
      obtain ⟨y, hy, rfl⟩ := List.mem_map.mp hx
      exact .proceed hstep (ih hl' hy)
    · rename_i path hstep
      obtain rfl := Option.some.inj h
      obtain rfl := List.mem_singleton.mp hx
      exact .finish hstep
    · rename_i a others hstep
      obtain ⟨ls, hls, rfl⟩ := Option.map_eq_some_iff.mp h
      obtain ⟨b, hb, l', hl', hx'⟩ := exists_of_mem_flatten hls hx
      split at hl'
      · rename_i hin
        exact .enter hstep hb hin (ih hl' hx')
      · rename_i hin
        obtain rfl := Option.some.inj hl'
        obtain rfl := List.mem_singleton.mp hx'
        exact .bound hstep hb hin

end Engine

/-! ## Accesses -/

/-- Whether a check passes all accesses of a path's next instruction. -/
def State.checkAccesses (e : Engine p) (check : Access → Machine → Bool) (st : State p) : Bool :=
  match st.frame.instr? with
  | none => true
  | some i =>
    match e.watch (st.frame.site i) e.monitors st.machine with
    | .error _ _ => true
    | .ok _ m =>
      match accesses e.setting (st.frame.site i) m with
      | .error _ _ => true
      | .ok l m' => l.all fun x => check x m'

theorem State.of_checkAccesses {check : Access → Machine → Bool} (h : st.checkAccesses e check = true) {i : Instr}
    (hi : st.frame.instr? = some i) {m : Machine}
    (hwatch : e.watch (st.frame.site i) e.monitors st.machine = .ok () m) {l : List Access} {m' : Machine}
    (hl : accesses e.setting (st.frame.site i) m = .ok l m') {x : Access} (hx : x ∈ l) : check x m' = true := by
  unfold State.checkAccesses at h
  rw [hi] at h
  dsimp only at h
  rw [hwatch] at h
  dsimp only at h
  rw [hl] at h
  exact List.all_eq_true.mp h x hx

namespace Engine

/-- Whether a check passes all accesses on the paths of a state, which are followed for some steps. -/
def checkWithin (e : Engine p) (check : Access → Machine → Bool) : Nat → State p → Bool
  | 0, _ => false
  | n + 1, st => st.checkAccesses e check &&
    match e.step st with
    | .proceed st' => checkWithin e check n st'
    | .finish _ => true
    | .arrive a others => (a :: others).all fun b =>
      match b.enter e.loopBound with
      | .ok st' => checkWithin e check n st'
      | .error _ => true

/-- What passes everywhere passes in every state that comes up. -/
theorem checkAccesses_of_checkWithin {check : Access → Machine → Bool} {n : Nat}
    (h : e.checkWithin check n st = true) (hst' : e.Reaches st st') : st'.checkAccesses e check = true := by
  -- The steps left differ from state to state, so the induction carries only that one at least is
  -- left.
  suffices hsome : ∃ k, e.checkWithin check (k + 1) st' = true by
    obtain ⟨k, hk⟩ := hsome
    exact (Bool.and_eq_true_iff.mp hk).1
  have hpos : ∀ {st₁ : State p} {n : Nat}, e.checkWithin check n st₁ = true →
      ∃ k, e.checkWithin check (k + 1) st₁ = true := by
    intro st₁ n hn
    cases n with
    | zero => cases hn
    | succ k => exact ⟨k, hn⟩
  induction hst' with
  | refl => exact hpos h
  | proceed _ hstep ih =>
    obtain ⟨k, hk⟩ := ih
    unfold checkWithin at hk
    rw [hstep] at hk
    exact hpos (Bool.and_eq_true_iff.mp hk).2
  | enter _ hstep hb hin ih =>
    obtain ⟨k, hk⟩ := ih
    unfold checkWithin at hk
    rw [hstep] at hk
    have := List.all_eq_true.mp (Bool.and_eq_true_iff.mp hk).2 _ hb
    rw [hin] at this
    exact hpos this

end Engine

namespace Machine

variable {s : Setting} {place : Concrete.Placement} {m : Machine} {x : Access}

/-- Whether all variables with an initial value have been met. -/
def metAll (p : Project) (m : Machine) : Bool :=
  (globalNames p).all fun n => (m.addresses.get? n).isSome || !(p.globalVariable? n).any (·.init.isSome)

/-- Whether an access goes to a constant address. -/
def Access.constant (x : Access) : Bool := x.address.const?.isSome

/-- Whether an access goes to a constant address and a read leaves no bytes out. -/
def Access.whole (x : Access) (m : Machine) : Bool :=
  match x.address.const? with
  | some a => x.writes || (m.memory.load m.nextSymbol a x.bytes).1.width == 8 * x.bytes
  | none => false

theorem eq_of_possible {w : Nat} {t : Term w} {a y : Nat} (ha : (Value.mk t).const? = some a)
    (hy : m.condition.Possible t y) : y = a := by
  obtain ⟨v, hv, rfl⟩ := Option.map_eq_some_iff.mp ha
  obtain ⟨ν, _, rfl⟩ := hy
  rw [Term.denote_eq_meaning, Term.meaning_of_const? hv]

/-- A constant address has one possible value. -/
theorem Access.single_of_constant (h : x.constant = true) : Single x.address m := by
  obtain ⟨a, ha⟩ := Option.isSome_iff_exists.mp h
  intro y z hy hz
  rw [eq_of_possible ha hy, eq_of_possible ha hz]

theorem Single.near {a : Value} (h : Single a m) : Near a m := by
  intro y z hy hz
  rw [h y z hy hz, Nat.sub_self]
  exact Nat.zero_le _

/-- Accesses that are whole are proper where nothing is left to be met. -/
theorem Access.proper_of_whole (hmet : metAll s.project m = true) (h : x.whole m = true) :
    x.Proper s place all m := by
  unfold Access.whole at h
  split at h
  · rename_i a ha
    have hsingle : Single x.address m := Access.single_of_constant (Option.isSome_iff_exists.mpr ⟨a, ha⟩)
    refine ⟨fun hreads => ⟨hsingle.near, fun l hsorted hmem => ?_⟩, fun _ => hsingle, ?_⟩
    · -- a list of the possible values has at most the constant
      rw [hreads, Bool.false_or] at h
      match l, hsorted, hmem with
      | [], _, _ => rfl
      | [b], _, hmem =>
        rw [eq_of_possible ha ((hmem b).mp List.mem_cons_self)]
        show ((m.memory.load m.nextSymbol a x.bytes).1.width == 8 * x.bytes && true) = true
        rw [h]
        rfl
      | b :: c :: l, hsorted, hmem =>
        have hb := eq_of_possible ha ((hmem b).mp List.mem_cons_self)
        have hc := eq_of_possible ha ((hmem c).mp (List.mem_cons_of_mem _ List.mem_cons_self))
        have := (List.pairwise_cons.mp hsorted).1 c List.mem_cons_self
        omega
    · intro _ y _ n b g hnone _ hg hinit
      obtain ⟨_, hmodule⟩ := Project.exists_globalIn? hg
      have := List.all_eq_true.mp hmet n (mem_globalNames hmodule)
      rw [hnone, hg] at this
      simp [hinit] at this
  · cases h

end Machine

/-- Paths are proper whose accesses are whole, with nothing left to be met. -/
theorem Engine.proper_of_checkWithin {n : Nat}
    (h : e.checkWithin (fun x m => metAll p m && x.whole m) n st = true) : e.Proper all st := by
  intro st' hst' path _ i hi m hwatch l m' hl x hx
  have hcheck := State.of_checkAccesses (checkAccesses_of_checkWithin h hst') hi hwatch hl hx
  rw [Bool.and_eq_true] at hcheck
  exact Access.proper_of_whole hcheck.1 hcheck.2

/-! ## Divisions by zero -/

/-- The divisor of a path's next instruction, if this is a division, and the machine that has evaluated it. -/
def State.divisor? (e : Engine p) (st : State p) : Option (Value × Machine) :=
  match st.frame.instr? with
  | none => none
  | some i =>
    match i.op with
    | .arith op _ _ divisor =>
      if Value.divides op then
        match (st.frame.site i).eval e.setting divisor st.machine with
        | .ok v m => some (v, m)
        | .error _ _ => none
      else none
    | _ => none

namespace Checker

variable {s : Setting} {site : Site} {m m' : Machine} {v : Value} {ν : Valuation}

/-- Watching a divisor that can be zero ends in a fault. -/
theorem watchDivision_of_holds {op : ArithOp} {flags : List String} {a divisor : Operand}
    (hop : site.instr.op = .arith op flags a divisor) (hdivides : Value.divides op = true)
    (heval : site.eval s divisor m = .ok v m') (hzero : (v.term.denote ν).toNat = 0)
    (hν : Term.AllHold ν m'.condition.conds) :
    watchDivision s site m = .error (.fault (.divisor site.location site.text))
      { m' with condition := (m'.condition.sat [v.equals 0]).2 } := by
  have hsat : (m'.condition.sat [v.equals 0]).1 = true :=
    PathCondition.sat_iff.mpr ⟨ν, hν, (PathCondition.holds_equals (Nat.two_pow_pos _)).mpr hzero⟩
  have hasked : Machine.sat [v.equals 0] m' = .ok true { m' with condition := (m'.condition.sat [v.equals 0]).2 } := by
    rw [← hsat]
    rfl
  unfold watchDivision
  rw [hop]
  dsimp only
  rw [if_pos hdivides, bind_of_ok heval, bind_of_ok hasked]
  rfl

end Checker

namespace State

variable {i : Instr} {v : Value} {m : Machine} {ν : Valuation} {ms : List Monitor}

/-- A path on which the next divisor can be zero ends in a fault. -/
theorem watch_of_divisor? (hi : st.frame.instr? = some i) (h : st.divisor? e = some (v, m))
    (hzero : (v.term.denote ν).toNat = 0) (hν : Term.AllHold ν m.condition.conds)
    (hmonitors : e.monitors = Checker.watchDivision :: ms) :
    e.watch (st.frame.site i) e.monitors st.machine =
      .error (.fault (.divisor (st.frame.site i).location (st.frame.site i).text))
        { m with condition := (m.condition.sat [v.equals 0]).2 } := by
  unfold divisor? at h
  rw [hi] at h
  dsimp only at h
  split at h
  · rename_i op _ _ divisor hop
    split at h
    · rename_i hdivides
      split at h
      · rename_i heval
        obtain ⟨rfl, rfl⟩ := Prod.mk.inj (Option.some.inj h)
        have hwatch := Checker.watchDivision_of_holds hop hdivides heval hzero hν
        rw [hmonitors]
        unfold Engine.watch
        simp only [bind, EStateM.bind, hwatch]
      · cases h
    · cases h
  · cases h

theorem step_of_divisor? (h : st.divisor? e = some (v, m)) (hzero : (v.term.denote ν).toNat = 0)
    (hν : Term.AllHold ν m.condition.conds) (hmonitors : e.monitors = Checker.watchDivision :: ms) :
    ∃ path l t, e.step st = .finish path ∧ path.ending = .fault (.divisor l t) ∧
      path.machine.addresses = m.addresses ∧ path.machine.nextAddress = m.nextAddress := by
  have hsome : ∃ i, st.frame.instr? = some i := by
    unfold divisor? at h
    split at h
    · cases h
    · exact ⟨_, by assumption⟩
  obtain ⟨i, hi⟩ := hsome
  have hwatch := watch_of_divisor? hi h hzero hν hmonitors
  refine ⟨(st.note (st.frame.site i).location).finish { m with condition := (m.condition.sat [v.equals 0]).2 }
    (.fault (.divisor (st.frame.site i).location (st.frame.site i).text)), _, _, ?_, rfl, rfl, rfl⟩
  unfold Engine.step
  rw [hi]
  have hwatch' : e.watch (st.frame.site i) e.monitors (st.note (st.frame.site i).location).machine = _ := hwatch
  simp only [bind, EStateM.bind, hwatch']
  rfl

end State

namespace Engine

theorem stateAfter?_add (k n : Nat) : e.stateAfter? (k + n) st = (e.stateAfter? k st).bind (e.stateAfter? n) := by
  induction k generalizing st with
  | zero => rw [Nat.zero_add, stateAfter?, Option.bind_some]
  | succ k ih =>
    rw [Nat.succ_add, stateAfter?, stateAfter?]
    split
    · exact ih
    · rfl

/-- Where a path proceeds until it ends, the states that come up are those after some of the steps. -/
theorem exists_stateAfter?_of_reaches {n : Nat} {st₁ : State p} (h : e.stateAfter? n st = some st₁)
    (hstep : e.step st₁ = .finish path) (hst' : e.Reaches st st') : ∃ k ≤ n, e.stateAfter? k st = some st' := by
  -- a state before the last one proceeds
  have hnext : ∀ k ≤ n, ∀ st₂, e.stateAfter? k st = some st₂ →
      e.step st₂ = .finish path ∨ k < n ∧ ∃ st₃, e.step st₂ = .proceed st₃ ∧ e.stateAfter? (k + 1) st = some st₃ := by
    intro k hk st₂ hst₂
    obtain ⟨j, rfl⟩ := Nat.exists_eq_add_of_le hk
    rw [stateAfter?_add, hst₂, Option.bind_some] at h
    rw [stateAfter?_add, hst₂, Option.bind_some]
    cases j with
    | zero =>
      obtain rfl := Option.some.inj h
      exact Or.inl hstep
    | succ j =>
      unfold stateAfter? at h ⊢
      cases hst₃ : e.step st₂ with
      | proceed st₃ => exact Or.inr ⟨by omega, st₃, rfl, rfl⟩
      | _ =>
        rw [hst₃] at h
        cases h
  induction hst' with
  | refl => exact ⟨0, Nat.zero_le n, rfl⟩
  | proceed _ hproceed ih =>
    obtain ⟨k, hk, hst₂⟩ := ih
    rcases hnext k hk _ hst₂ with hfinish | ⟨hlt, st₃, hst₃, hafter⟩
    · exact nomatch hfinish.symm.trans hproceed
    · obtain rfl := Step.proceed.inj (hst₃.symm.trans hproceed)
      exact ⟨k + 1, hlt, hafter⟩
  | enter _ harrive _ _ ih =>
    obtain ⟨k, hk, hst₂⟩ := ih
    rcases hnext k hk _ hst₂ with hfinish | ⟨_, st₃, hst₃, _⟩
    · exact nomatch hfinish.symm.trans harrive
    · exact nomatch hst₃.symm.trans harrive

/-! ## Forks -/

/-- A state that comes up after some steps: wherever a path arrives at blocks, it goes on with the first one. -/
def firstAfter? (e : Engine p) : Nat → State p → Option (State p)
  | 0, st => some st
  | n + 1, st =>
    match e.step st with
    | .proceed st' => firstAfter? e n st'
    | .finish _ => none
    | .arrive a _ =>
      match a.enter e.loopBound with
      | .ok st' => firstAfter? e n st'
      | .error _ => none

/-- The paths of a state that comes up are paths of the state before. -/
theorem mem_exploreFrom_of_firstAfter? {n : Nat} (h : e.firstAfter? n st = some st') (hpath : path ∈ e.exploreFrom st') :
    path ∈ e.exploreFrom st := by
  induction n generalizing st with
  | zero => rwa [Option.some.inj h]
  | succ n ih =>
    unfold firstAfter? at h
    split at h
    · rename_i hstep
      rw [e.exploreFrom_of_proceed hstep]
      exact ih h
    · cases h
    · rename_i hstep
      split at h
      · rename_i hin
        refine mem_exploreFrom_of_arrive hstep List.mem_cons_self ?_
        rw [explore_of_ok hin]
        exact ih h
      · cases h

/-- Whether a path branches and goes, with the values that a valuation gives, to a block that passes a test together
with the trail so far. -/
def branchesTo (e : Engine p) (ν : Valuation) (test : Trail → Frame p → Bool) (st : State p) : Bool :=
  st.frame.instr?.any fun i =>
    match i.op with
    | .condBr c yes no =>
      match (e.watch (st.frame.site i) e.monitors >>= fun _ => (st.frame.site i).eval e.setting c) st.machine with
      | .ok v m => decide (Term.AllHold ν m.condition.conds) &&
          ((st.frame.jump? yes).isSome && (st.frame.jump? no).isSome) &&
            [(1, yes), (0, no)].any fun x =>
              decide ((v.term.denote ν).toNat = x.1) && (st.frame.jump? x.2).any (test st.trail)
      | .error _ _ => false
    | _ => false

/-- The solver need not be run to see that the path arrives at this block. -/
theorem exists_arrival_of_branchesTo {ν : Valuation} {test : Trail → Frame p → Bool} (h : e.branchesTo ν test st = true) :
    ∃ a others b, e.step st = .arrive a others ∧ b ∈ a :: others ∧ test b.state.trail b.state.frame = true ∧
      Term.AllHold ν b.state.machine.condition.conds := by
  obtain ⟨i, hi, h⟩ := (Option.any_eq_true _ _).mp h
  split at h
  · rename_i c yes no hop
    split at h
    · rename_i v m hv
      simp only [Bool.and_eq_true, decide_eq_true_iff] at h
      obtain ⟨⟨hν, hyes, hno⟩, hgoes⟩ := h
      obtain ⟨⟨n, target⟩, hmem, hgoes⟩ := List.any_eq_true.mp hgoes
      obtain ⟨hn, htest⟩ := Bool.and_eq_true_iff.mp hgoes
      obtain rfl : (v.term.denote ν).toNat = n := of_decide_eq_true hn
      have hoffers : e.Offers st [(v.equals 1, yes), (v.equals 0, no)] m := by
        refine ⟨i, _, hi, by unfold successors?; rw [show (st.frame.site i).instr.op = _ from hop], ?_⟩
        rw [← bind_assoc, bind_of_ok hv]
        rfl
      have hholds : (v.equals (v.term.denote ν).toNat).Holds ν :=
        (PathCondition.holds_equals (v.term.denote ν).isLt).mpr rfl
      have hsuccessor : (v.equals (v.term.denote ν).toNat, target) ∈ [(v.equals 1, yes), (v.equals 0, no)] :=
        List.mem_map_of_mem (f := fun x : Nat × String => (v.equals x.1, x.2)) hmem
      obtain ⟨a, others, b, hstep, hb, hjump, htrail, hmeets⟩ :=
        hoffers.exists_arrival (by simp [hyes, hno]) hsuccessor hν hholds
      rw [hjump, Option.any_some] at htest
      exact ⟨a, others, b, hstep, hb, htrail ▸ htest, hmeets⟩
    · cases h
  · cases h

end Engine

end PathSafety
