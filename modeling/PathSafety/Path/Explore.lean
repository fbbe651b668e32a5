import PathSafety.Path.Step

/-!
# Exploration

All paths of a routine, depth first.

Contents:

* `Engine.explore` — the paths that a path splits into, by recursion on the successors of each fork;
* `Engine.run`, `Engine.paths` — the same with a stack of arrivals that wait for their turn, which is what
  runs: one path is followed to its end before the next arrival is taken up;
* `Engine.run_spec` — running one path takes the first of the paths that `explore` finds.

Both end because a path enters a block at most as often as the loop bound says (`room`), and has only so
many instructions to execute between two entries (`State.remaining`).
-/

namespace PathSafety

open IR

namespace Frame

variable {p : Project}

theorem remaining_pos {f : Frame p} {i : Instr} (h : f.instr? = some i) : 0 < f.remaining := by
  obtain ⟨hlt, _⟩ := List.getElem?_eq_some_iff.mp h
  simp only [remaining]
  omega

theorem remaining_finish_lt {f : Frame p} {i : Instr} (h : f.instr? = some i) (v : Option Value) :
    (f.finish v).remaining < f.remaining := by
  have := remaining_pos h
  simp only [remaining, finish] at this ⊢
  omega

theorem remaining_finish_le (f : Frame p) (v : Option Value) :
    (f.finish v).remaining ≤ f.remaining := by
  simp only [remaining, finish]
  omega

end Frame

namespace State

variable {p : Project}

/-- Going on without entering a block keeps the trail and leaves fewer instructions to execute. -/
theorem remaining_of_follow (st : State p) {st' : State p} {i : Instr} {machine : Machine}
    {m : Move p} (hi : st.frame.instr? = some i) (h : st.follow machine m = .proceed st') :
    st'.trail = st.trail ∧ st'.remaining < st.remaining := by
  cases m with
  | next v =>
    simp only [follow, Step.proceed.injEq] at h
    subst h
    have := Frame.remaining_finish_lt hi v
    exact ⟨rfl, by simp only [remaining, totalRemaining]; omega⟩
  | leave v =>
    simp only [follow] at h
    split at h
    · cases h
    · rename_i caller callers hc
      simp only [Step.proceed.injEq] at h
      subst h
      have h₁ := Frame.remaining_pos hi
      have h₂ := Frame.remaining_finish_le caller v
      refine ⟨rfl, ?_⟩
      simp only [remaining, totalRemaining, hc]
      omega
  | goto | enter | finish => simp [follow] at h

/-- Paths arrive with the trail of the path they come from. -/
theorem trail_of_follow (st : State p) {machine : Machine} {m : Move p} {a b : Arrival p}
    {others : List (Arrival p)} (h : st.follow machine m = .arrive a others) (hb : b ∈ a :: others) :
    b.state.trail = st.trail := by
  cases m with
  | goto target fs =>
    simp only [follow, Step.arrive.injEq] at h
    obtain ⟨rfl, rfl⟩ := h
    simp only [List.mem_cons, List.mem_map] at hb
    rcases hb with rfl | ⟨_, _, rfl⟩ <;> rfl
  | enter f =>
    simp only [follow, Step.arrive.injEq] at h
    obtain ⟨rfl, rfl⟩ := h
    simp only [List.mem_cons, List.not_mem_nil, or_false] at hb
    subst hb
    rfl
  | leave v => simp only [follow] at h; split at h <;> cases h
  | next | finish => simp [follow] at h

end State

namespace Engine

variable {p : Project} (e : Engine p)

theorem remaining_of_step {st st' : State p} (h : e.step st = .proceed st') :
    st'.trail = st.trail ∧ st'.remaining < st.remaining := by
  simp only [step] at h
  split at h
  · cases h
  · rename_i i hi
    split at h
    · exact State.remaining_of_follow (st.note _) hi h
    · cases h

theorem trail_of_step {st : State p} {a b : Arrival p} {others : List (Arrival p)}
    (h : e.step st = .arrive a others) (hb : b ∈ a :: others) : b.state.trail = st.trail := by
  simp only [step] at h
  split at h
  · cases h
  · split at h
    · exact State.trail_of_follow (st.note _) h hb
    · cases h

/-- How often a path can still enter a block. -/
def roomOf (st : State p) : Nat := room e.loopBound.toNat st.trail p.blockIds

theorem roomOf_of_step {st st' : State p} (h : e.step st = .proceed st') :
    e.roomOf st' = e.roomOf st := by
  simp only [roomOf, (e.remaining_of_step h).1]

theorem roomOf_of_enter {st st' : State p} {a b : Arrival p} {others : List (Arrival p)}
    (h : e.step st = .arrive a others) (hb : b ∈ a :: others) (hin : b.enter e.loopBound = .ok st') :
    e.roomOf st' < e.roomOf st := by
  simpa only [roomOf, e.trail_of_step h hb] using Arrival.room_of_enter hin

/-- The paths that a path splits into: each successor of a fork is explored completely before the next. -/
def exploreFrom (st : State p) : List Path :=
  match _h : e.step st with
  | .proceed st' => exploreFrom st'
  | .finish path => [path]
  | .arrive a others =>
    (a :: others).attach.flatMap fun b =>
      match _hin : b.1.enter e.loopBound with
      | .ok st' => exploreFrom st'
      | .error path => [path]
termination_by (e.roomOf st, st.remaining)
decreasing_by
  · rw [e.roomOf_of_step _h]
    exact Prod.Lex.right _ (e.remaining_of_step _h).2
  · exact Prod.Lex.left _ _ (e.roomOf_of_enter _h b.2 _hin)

/-- The paths that an arrival splits into. -/
def explore (a : Arrival p) : List Path :=
  match a.enter e.loopBound with
  | .ok st => e.exploreFrom st
  | .error path => [path]

/-- Follows one path to its end. The arrivals that are split off on the way go before those that wait. -/
def run (st : State p) (pending : List (Arrival p)) : Path × List (Arrival p) :=
  match _h : e.step st with
  | .proceed st' => run st' pending
  | .finish path => (path, pending)
  | .arrive a others =>
    match _hin : a.enter e.loopBound with
    | .ok st' => run st' (others ++ pending)
    | .error path => (path, others ++ pending)
termination_by (e.roomOf st, st.remaining)
decreasing_by
  · rw [e.roomOf_of_step _h]
    exact Prod.Lex.right _ (e.remaining_of_step _h).2
  · exact Prod.Lex.left _ _ (e.roomOf_of_enter _h List.mem_cons_self _hin)

/-- A fork is explored successor by successor. -/
theorem exploreFrom_of_arrive {st : State p} {a : Arrival p} {others : List (Arrival p)}
    (h : e.step st = .arrive a others) :
    e.exploreFrom st = (a :: others).flatMap e.explore := by
  rw [exploreFrom]
  split
  · simp_all
  · simp_all
  · rename_i a' others' h'
    obtain ⟨rfl, rfl⟩ := Step.arrive.inj (h.symm.trans h')
    rw [List.flatMap_subtype (g := e.explore), List.unattach_attach]
    intro b hb
    simp only [explore]
    split <;> rename_i heq <;> split <;> simp_all

theorem exploreFrom_of_proceed {st st' : State p} (h : e.step st = .proceed st') :
    e.exploreFrom st = e.exploreFrom st' := by
  rw [exploreFrom]
  split <;> simp_all

theorem exploreFrom_of_finish {st : State p} {path : Path} (h : e.step st = .finish path) :
    e.exploreFrom st = [path] := by
  rw [exploreFrom]
  split <;> simp_all

/-- Running one path takes the first path of those that are still to be explored. -/
theorem run_spec (st : State p) (pending : List (Arrival p)) :
    e.exploreFrom st ++ pending.flatMap e.explore =
      (e.run st pending).1 :: (e.run st pending).2.flatMap e.explore := by
  fun_induction run e st pending with
  | case1 st pending st' h ih => rw [e.exploreFrom_of_proceed h, ih]
  | case2 st pending path h => simp [e.exploreFrom_of_finish h]
  | case3 st pending a others h st' hin ih =>
    rw [e.exploreFrom_of_arrive h, List.flatMap_cons, ← ih]
    simp [explore, hin, List.flatMap_append]
  | case4 st pending a others h path hin =>
    rw [e.exploreFrom_of_arrive h, List.flatMap_cons]
    simp [explore, hin, List.flatMap_append]

/-- The paths of all arrivals that wait, in order. -/
def paths : List (Arrival p) → List Path
  | [] => []
  | a :: pending =>
    match _h : a.enter e.loopBound with
    | .error path => path :: paths pending
    | .ok st =>
      let next := e.run st pending
      next.1 :: paths next.2
termination_by pending => (pending.flatMap e.explore).length
decreasing_by
  · simp [explore, _h]
  · simp only [List.flatMap_cons, explore, _h, e.run_spec]
    exact Nat.lt_succ_self _

end Engine

end PathSafety
