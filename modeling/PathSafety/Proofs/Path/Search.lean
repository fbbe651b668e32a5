import PathSafety.Proofs.Path.Copies

/-!
# The stack of arrivals searches depth first

An engine follows one path at a time. At a fork it goes on with the machine that it has, copies it for the other
possible successors, and puts them on a stack, from which they are taken when the path has ended. What it finds is
what a plain recursion finds which has no stack: at a fork it makes a copy for every possible successor and explores
one copy completely before the next.

Contents:

* `Engine.searchFrom`, `Engine.search` — the recursion, which notes the choices that it makes;
* `Engine.step_of_fork?` — a fork of the engine and one of the recursion;
* `Engine.results_searchFrom`, `Engine.pairwise_searchFrom` — what the recursion finds, and in which order;
* `Engine.pathsOf_depth_first` — the search and the stack.
-/

namespace PathSafety

open IR Machine

variable {p : Project} {e : Engine p} {st : State p} {k : Nat}

/-! ## The recursion -/

/-- What is found at the end of a path, and the positions of the successors that were chosen on the way. -/
structure Found where
  choices : List Nat
  ending : Ending
  blocks : List BlockId

/-- A path that chooses nothing any more. -/
def Path.found (path : Path) : Found := ⟨[], path.ending, path.blocks⟩

/-- How a path ends, and the blocks that it goes through. -/
def Path.result (path : Path) : Ending × List BlockId := (path.ending, path.blocks)

namespace Found

/-- The same, with a choice before. -/
def after (k : Nat) (x : Found) : Found := { x with choices := k :: x.choices }

/-- How a path ends, and the blocks that it goes through. -/
def result (x : Found) : Ending × List BlockId := (x.ending, x.blocks)

end Found

namespace Engine

/-- **Depth first search**: every possible successor of a fork is explored completely before the next, each on a
copy of its own. -/
def searchFrom (e : Engine p) (st : State p) : List Found :=
  match e.fork? st with
  | some (.error failure) => [⟨[], failure.ending, st.trail.reverse⟩]
  | some (.ok copies) =>
    copies.flatMap fun (k, machine, frame) =>
      (match _hin : (Arrival.mk { st with machine, frame } (some st.frame.location)).enter e.loopBound with
        | .ok st' => searchFrom e st'
        | .error path => [path.found]).map (Found.after k)
  | none =>
    match _h : e.step st with
    | .proceed st' => searchFrom e st'
    | .finish path => [path.found]
    | .arrive a _ =>
      match _hin : a.enter e.loopBound with
      | .ok st' => searchFrom e st'
      | .error path => [path.found]
termination_by (e.roomOf st, st.remaining)
decreasing_by
  · exact Prod.Lex.left _ _ (Arrival.room_of_enter _hin)
  · rw [e.roomOf_of_step _h]
    exact Prod.Lex.right _ (e.remaining_of_step _h).2
  · exact Prod.Lex.left _ _ (e.roomOf_of_enter _h List.mem_cons_self _hin)

/-- The search from an arrival on. -/
def search (e : Engine p) (a : Arrival p) : List Found :=
  match a.enter e.loopBound with
  | .ok st => e.searchFrom st
  | .error path => [path.found]

/-! ## Forks -/

/-- The states of copies, which keep what a path has done so far. -/
def IsCopy (st : State p) (copy : Nat × Machine × Frame p) (b : Arrival p) : Prop :=
  ∃ executed, b = ⟨{ st with machine := copy.2.1, frame := copy.2.2, executed }, some st.frame.location⟩

/-- **A step at a fork** fails as the recursion does, or arrives with the copies of the recursion. -/
theorem step_of_fork? {x : Except Failure (List (Nat × Machine × Frame p))} (h : e.fork? st = some x) :
    (∃ failure path, x = .error failure ∧ e.step st = .finish path ∧
        path.result = (failure.ending, st.trail.reverse)) ∨
      ∃ copies a others, x = .ok copies ∧ (copies.map (·.1)).Pairwise (· < ·) ∧ e.step st = .arrive a others ∧
        List.Forall₂ (IsCopy st) copies (a :: others) := by
  obtain ⟨i, hi, ⟨failure, m, hact, rfl⟩ | ⟨ss, m, r, m', _, hact, hselects, rfl⟩⟩ := fork?_cases h
  · rw [step_of_instr? hi, hact]
    exact Or.inl ⟨failure, _, rfl, rfl, rfl⟩
  · rw [step_of_instr? hi, hact]
    -- Searching and stepping select the same successors, and the copies come in the order of their
    -- positions.
    rcases branch_of_selects (f := st.frame) hselects with
      ⟨failure, m₁, hcopies, hbranch⟩ | ⟨copies, g, others, m₁, hcopies, hbranch, hothers⟩
    · rw [hbranch]
      exact Or.inl ⟨failure, _, hcopies, rfl, rfl⟩
    · rw [hbranch]
      refine Or.inr ⟨copies, _, _, hcopies, ?_, rfl, ?_⟩
      · rw [(of_copies? hcopies).1]
        exact List.pairwise_map.mpr hselects.sorted
      · cases copies with
        | nil => cases hothers
        | cons x xs =>
          obtain ⟨_, _, _⟩ := x
          obtain ⟨hx, rfl⟩ := List.cons.inj hothers
          obtain ⟨rfl, rfl⟩ := Prod.mk.inj hx
          rw [List.map_map]
          refine .cons ⟨_, rfl⟩ (List.forall₂_map_right_iff.mpr (List.forall₂_same.mpr fun y _ => ?_))
          exact ⟨[], rfl⟩

/-- Where there is nothing to choose, nothing waits. -/
theorem others_of_fork?_none (h : e.fork? st = none) {a : Arrival p} {others : List (Arrival p)}
    (hstep : e.step st = .arrive a others) : others = [] := by
  obtain ⟨i, mv, m', hi, hact, hfollow⟩ := act_of_arrive hstep
  have hforks : ¬ (st.frame.site i).instr.op.Forks := by
    intro hforks
    obtain ⟨successors, hsuccessors⟩ := e.exists_successors? hforks
    unfold fork? at h
    rw [hi, Option.bind_eq_bind, Option.bind_some, hsuccessors, Option.bind_eq_bind, Option.bind_some] at h
    dsimp only at h
    split at h <;> cases h
  obtain ⟨_, m₀, _, hmove⟩ := exists_of_bind hact
  have hsplit := (gives_move _ hforks : Gives _ (e.move _ (st.frame.site i))) hmove
  rcases follow_arrive_cases hfollow List.mem_cons_self with ⟨g, rest, rfl, _⟩ | ⟨callee, rfl, _⟩
  · obtain ⟨_, rfl⟩ := Step.arrive.inj hfollow
    have hnil : rest = [] := hsplit
    rw [hnil]
    rfl
  · exact (Step.arrive.inj hfollow).2.symm

/-! ## What the recursion finds -/

/-- What the search does at a fork. -/
theorem searchFrom_of_fork {copies : List (Nat × Machine × Frame p)} (h : e.fork? st = some (.ok copies)) :
    e.searchFrom st = copies.flatMap fun x =>
      (e.search ⟨{ st with machine := x.2.1, frame := x.2.2 }, some st.frame.location⟩).map (Found.after x.1) := by
  rw [searchFrom, h]
  refine List.flatMap_congr fun x _ => ?_
  obtain ⟨k, machine, frame⟩ := x
  unfold search
  dsimp only
  split <;> rename_i heq <;> simp only [heq]

/-- What the search does where there is nothing to choose. -/
theorem searchFrom_of_step (h : e.fork? st = none) :
    e.searchFrom st = match e.step st with
      | .proceed st' => e.searchFrom st'
      | .finish path => [path.found]
      | .arrive a _ => e.search a := by
  rw [searchFrom, h]
  cases hstep : e.step st with
  | proceed st' => split <;> simp_all
  | finish path => split <;> simp_all
  | arrive a others =>
    unfold search
    dsimp only
    split <;> rename_i heq <;> simp only [heq]

/-! ### The instructions that were executed -/

variable {executed : List Location}

/-- What was executed does not matter for entering a block. -/
theorem enter_executed (st : State p) (origin : Option Location) (executed : List Location) (bound : Int) :
    (Arrival.mk { st with executed } origin).enter bound =
      match (Arrival.mk st origin).enter bound with
      | .ok st' => .ok { st' with executed }
      | .error path => .error { path with executed } := by
  unfold Arrival.enter
  dsimp only
  split <;> rfl

theorem fork?_executed (st : State p) (executed : List Location) : e.fork? { st with executed } = e.fork? st := rfl

/-- What was executed does not matter for what a step comes to. -/
theorem step_executed (st : State p) (executed : List Location) :
    match e.step st with
    | .proceed st' => ∃ l, e.step { st with executed } = .proceed { st' with executed := l }
    | .finish path => ∃ path', e.step { st with executed } = .finish path' ∧ path'.result = path.result
    | .arrive a _ => ∃ l others, e.step { st with executed } =
        .arrive { a with state := { a.state with executed := l } } others := by
  -- A step appends to the list of executed locations and never looks at it.
  cases hi : st.frame.instr? with
  | none =>
    have hstep : ∀ l, e.step { st with executed := l } =
        .finish (State.finish { st with executed := l } st.machine (.defect .missingIndex)) := fun l => by
      unfold step
      rw [show ({ st with executed := l } : State p).frame.instr? = none from hi]
    rw [show e.step st = _ from hstep st.executed]
    exact ⟨_, hstep executed, rfl⟩
  | some i =>
    have hi' : ({ st with executed } : State p).frame.instr? = some i := hi
    have hsame : e.act { st with executed } i ({ st with executed } : State p).machine = e.act st i st.machine := rfl
    rw [step_of_instr? hi, step_of_instr? hi', hsame]
    cases hact : e.act st i st.machine with
    | error failure m => exact ⟨_, rfl, rfl⟩
    | ok mv m =>
      cases mv with
      | next result => exact ⟨_, rfl⟩
      | goto target others => exact ⟨_, _, rfl⟩
      | enter callee => exact ⟨_, _, rfl⟩
      | finish outcome => exact ⟨_, rfl, rfl⟩
      | leave result =>
        unfold State.follow
        dsimp only [State.note]
        cases st.callers with
        | nil => exact ⟨_, rfl, rfl⟩
        | cons caller callers => exact ⟨_, rfl⟩

/-- The search from an arrival finds the paths of the arrival, if it does so from the state that comes up. -/
theorem results_search_of_enter {b : Arrival p}
    (h : ∀ st, b.enter e.loopBound = .ok st → ∀ executed,
      (e.searchFrom { st with executed }).map Found.result = (e.exploreFrom st).map Path.result)
    (executed : List Location) :
    (e.search { b with state := { b.state with executed } }).map Found.result = (e.explore b).map Path.result := by
  unfold search
  rw [enter_executed]
  cases hin : b.enter e.loopBound with
  | ok st =>
    rw [explore_of_ok hin, ← h st hin executed]
  | error path =>
    rw [explore_of_error hin]
    rfl

/-- The copies at a fork find the paths of the arrivals at it. -/
theorem results_copies {bs : List (Arrival p)} {copies : List (Nat × Machine × Frame p)}
    (h : ∀ b ∈ bs, ∀ st, b.enter e.loopBound = .ok st → ∀ executed,
      (e.searchFrom { st with executed }).map Found.result = (e.exploreFrom st).map Path.result)
    (hcopies : List.Forall₂ (IsCopy st) copies bs) (executed : List Location) :
    (copies.flatMap fun x => (e.search ⟨{ st with executed, machine := x.2.1, frame := x.2.2 },
      some st.frame.location⟩).map (Found.after x.1)).map Found.result = (bs.flatMap e.explore).map Path.result := by
  induction hcopies with
  | nil => rfl
  | @cons x b copies bs hx _ ih =>
    obtain ⟨l, rfl⟩ := hx
    have hsearch := results_search_of_enter (h _ List.mem_cons_self) executed
    have hafter : ∀ l : List Found, (l.map (Found.after x.1)).map Found.result = l.map Found.result := fun l => by
      rw [List.map_map]
      rfl
    rw [List.flatMap_cons, List.flatMap_cons, List.map_append, List.map_append, hafter,
      ih fun b hb => h b (List.mem_cons_of_mem _ hb)]
    exact congrArg (· ++ _) hsearch

/-- **The recursion finds the paths** that a state splits into, in the same order. -/
theorem results_searchFrom (st : State p) (executed : List Location) :
    (e.searchFrom { st with executed }).map Found.result = (e.exploreFrom st).map Path.result := by
  have hsame := e.fork?_executed st executed
  -- The search forgets what was executed when it copies a state, so the list is free under the
  -- induction.
  induction st using e.explore_induction generalizing executed with
  | proceed st st' h ih =>
    cases hfork : e.fork? st with
    | none =>
      have hstep := e.step_executed st executed
      rw [h] at hstep
      obtain ⟨l, hstep⟩ := hstep
      rw [searchFrom_of_step (hsame.trans hfork), hstep, e.exploreFrom_of_proceed h]
      exact ih l (e.fork?_executed st' l)
    | some x =>
      -- A state with a fork arrives or ends; it does not proceed.
      rcases step_of_fork? hfork with ⟨_, _, _, hstep, _⟩ | ⟨_, _, _, _, _, hstep, _⟩ <;> cases h.symm.trans hstep
  | finish st path h =>
    rw [e.exploreFrom_of_finish h]
    cases hfork : e.fork? st with
    | none =>
      have hstep := e.step_executed st executed
      rw [h] at hstep
      obtain ⟨path', hstep, hresult⟩ := hstep
      rw [searchFrom_of_step (hsame.trans hfork), hstep]
      exact congrArg (fun r => [r]) hresult
    | some x =>
      rcases step_of_fork? hfork with ⟨failure, path', rfl, hstep, hresult⟩ | ⟨_, _, _, _, _, hstep, _⟩
      · obtain rfl := Step.finish.inj (h.symm.trans hstep)
        rw [searchFrom, hsame, hfork]
        exact congrArg (fun r => [r]) hresult.symm
      · cases h.symm.trans hstep
  | arrive st a others h ih =>
    have hresults : ∀ b ∈ a :: others, ∀ st', b.enter e.loopBound = .ok st' → ∀ executed,
        (e.searchFrom { st' with executed }).map Found.result = (e.exploreFrom st').map Path.result :=
      fun b hb st' hin l => ih b hb st' hin l (e.fork?_executed st' l)
    rw [e.exploreFrom_of_arrive h]
    cases hfork : e.fork? st with
    | none =>
      have hstep := e.step_executed st executed
      rw [h] at hstep
      obtain ⟨l, _, hstep⟩ := hstep
      rw [searchFrom_of_step (hsame.trans hfork), hstep, others_of_fork?_none hfork h, List.flatMap_singleton]
      exact results_search_of_enter (hresults a List.mem_cons_self) l
    | some x =>
      rcases step_of_fork? hfork with ⟨_, _, _, hstep, _⟩ | ⟨copies, a', others', rfl, _, hstep, hcopies⟩
      · cases h.symm.trans hstep
      · obtain ⟨rfl, rfl⟩ := Step.arrive.inj (h.symm.trans hstep)
        rw [searchFrom_of_fork (hsame.trans hfork)]
        exact results_copies hresults hcopies executed

/-- The same from an arrival on. -/
theorem results_search (b : Arrival p) : (e.search b).map Found.result = (e.explore b).map Path.result :=
  results_search_of_enter (fun st _ => e.results_searchFrom st) b.state.executed

/-! ### The order of what is found -/

/-- Copies that are explored one after another are found in the order of their positions. -/
theorem pairwise_copies {copies : List (Nat × Machine × Frame p)} {found : Nat × Machine × Frame p → List Found}
    (hsorted : (copies.map (·.1)).Pairwise (· < ·))
    (h : ∀ x ∈ copies, ((found x).map Found.choices).Pairwise (· < ·)) :
    ((copies.flatMap fun x => (found x).map (Found.after x.1)).map Found.choices).Pairwise (· < ·) := by
  rw [List.map_flatMap, List.pairwise_flatMap]
  refine ⟨fun x hx => ?_, (List.pairwise_map.mp hsorted).imp fun hlt xs hxs ys hys => ?_⟩
  · rw [List.map_map, List.pairwise_map]
    exact (List.pairwise_map.mp (h x hx)).imp fun hlt => List.Lex.cons hlt
  · rw [List.map_map] at hxs hys
    obtain ⟨_, _, rfl⟩ := List.mem_map.mp hxs
    obtain ⟨_, _, rfl⟩ := List.mem_map.mp hys
    exact List.Lex.rel hlt

/-- The search from an arrival is in order if it is from the state that comes up. -/
theorem pairwise_search_of_enter {b : Arrival p}
    (h : ∀ st, b.enter e.loopBound = .ok st → ((e.searchFrom st).map Found.choices).Pairwise (· < ·)) :
    ((e.search b).map Found.choices).Pairwise (· < ·) := by
  unfold search
  cases hin : b.enter e.loopBound with
  | ok st => exact h st hin
  | error path => exact List.pairwise_singleton _ _

/-- **The recursion finds paths in the order of their choices**, and every sequence of choices once. -/
theorem pairwise_searchFrom (st : State p) : ((e.searchFrom st).map Found.choices).Pairwise (· < ·) := by
  -- By the recursion of the search: choices grow in order at a fork and are handed on everywhere
  -- else.
  induction st using searchFrom.induct e with
  | case1 st failure h =>
    rw [searchFrom, h]
    exact List.pairwise_singleton _ _
  | case2 st copies h ih =>
    rcases step_of_fork? h with ⟨_, _, hfailure, _⟩ | ⟨_, _, _, heq, hsorted, _⟩
    · cases hfailure
    · obtain rfl := Except.ok.inj heq
      rw [searchFrom_of_fork h]
      exact pairwise_copies hsorted fun x _ => pairwise_search_of_enter (ih x.2.1 x.2.2)
  | case3 st h st' hstep ih =>
    rw [searchFrom_of_step h, hstep]
    exact ih
  | case4 st h path hstep =>
    rw [searchFrom_of_step h, hstep]
    exact List.pairwise_singleton _ _
  | case5 st h a others hstep st' hin ih =>
    rw [searchFrom_of_step h, hstep]
    refine pairwise_search_of_enter fun st₁ hin₁ => ?_
    obtain rfl := Except.ok.inj (hin.symm.trans hin₁)
    exact ih
  | case6 st h a others hstep path hin =>
    rw [searchFrom_of_step h, hstep]
    refine pairwise_search_of_enter fun st₁ hin₁ => ?_
    cases hin.symm.trans hin₁
end Engine

/-- **The stack of arrivals searches depth first.** The paths of a function end as those do that the recursion finds,
and have gone through the same blocks, one after another. The recursion finds them in the lexicographic order of the
successors that they choose, and every sequence of choices once. The copies that it explores at a fork divide the
inputs: each stands for those with which its successor is taken. -/
theorem Engine.pathsOf_depth_first (e : Engine p) (start : Start p) :
    (e.pathsOf start).map Path.result = (e.search start.first).map Found.result ∧
      ((e.search start.first).map Found.choices).Pairwise (· < ·) ∧
      ∀ st copies, e.fork? st = some (.ok copies) →
        (∀ i m, st.frame.instr? = some i → e.watch (st.frame.site i) e.monitors st.machine = .ok () m →
          e.TestsBit (st.frame.site i) m) → e.Divides st copies := by
  refine ⟨?_, ?_, fun st copies h hbit => divides_of_fork? h hbit⟩
  · rw [e.pathsOf_eq, results_search]
  · exact pairwise_search_of_enter fun st _ => pairwise_searchFrom st

end PathSafety
