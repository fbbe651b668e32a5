import Mathlib.Data.Finset.Card
import Mathlib.Algebra.BigOperators.Group.Finset.Basic
import Mathlib.Algebra.Order.BigOperators.Group.Finset
import PathSafety.Proofs.Analysis.Evaluate
import PathSafety.Proofs.Machine.Local
import PathSafety.Proofs.Path.Termination

/-!
# How often a path enters a block

A path enters each block of its project at most as often as the loop bound says, and no other blocks.

Contents:

* `Trail.Within` — the trails that a bound allows;
* `Engine.within_of_mem` — the trails of all paths of an exploration;
* `Trail.Within.length_le` — how long such a trail can be;
* `Engine.count_of_bound` — a path that may not enter a block once more has entered it that often;
* `Engine.ends_within_bound` — explorations end, and how often their paths enter blocks.
-/

namespace PathSafety

open IR Machine

variable {p : Project} {e : Engine p} {st st' : State p} {path : Path} {bound : Int}

/-- That a trail goes through blocks of a project, through each at most as often as a bound says. -/
structure Trail.Within (p : Project) (bound : Int) (trail : Trail) : Prop where
  count_le : ∀ id, (trail.count id : Int) ≤ bound
  mem : ∀ id ∈ trail, id ∈ p.blockIds

theorem Trail.within_nil (hbound : 0 ≤ bound) : Trail.Within p bound [] where
  count_le id := by simpa using hbound
  mem id h := absurd h List.not_mem_nil

/-- Summed up over the blocks of the project, a bounded trail is no longer than all may be entered. -/
theorem Trail.Within.length_le {trail : Trail} (h : Trail.Within p bound trail) :
    (trail.length : Int) ≤ bound * p.blockIds.length := by
  have hbound : 0 ≤ bound := (Int.natCast_nonneg _).trans (h.count_le ⟨"", ""⟩)
  obtain ⟨n, rfl⟩ := Int.eq_ofNat_of_zero_le hbound
  have hcount : ∀ id ∈ trail.toFinset, trail.count id ≤ n := fun id _ => Int.ofNat_le.mp (h.count_le id)
  have hsub : trail.toFinset ⊆ p.blockIds.toFinset := by
    intro id hid
    exact List.mem_toFinset.mpr (h.mem id (List.mem_toFinset.mp hid))
  have hle : trail.length ≤ n * p.blockIds.length := calc
    trail.length = ∑ id ∈ trail.toFinset, trail.count id := (List.sum_toFinset_count_eq_length trail).symm
    _ ≤ trail.toFinset.card * n := Finset.sum_le_card_nsmul _ _ n hcount
    _ ≤ p.blockIds.toFinset.card * n := Nat.mul_le_mul_right n (Finset.card_le_card hsub)
    _ ≤ p.blockIds.length * n := Nat.mul_le_mul_right n (List.toFinset_card_le _)
    _ = n * p.blockIds.length := Nat.mul_comm _ _
  exact_mod_cast hle

/-- Entering a block keeps within the bound. -/
theorem Arrival.within_of_enter {a : Arrival p} (ha : Trail.Within p bound a.state.trail)
    (h : a.enter bound = .ok st) : Trail.Within p bound st.trail := by
  unfold enter at h
  dsimp only at h
  split at h
  · rename_i hlt
    obtain rfl := Except.ok.inj h
    refine ⟨fun id => ?_, fun id hid => ?_⟩
    · by_cases hid : a.state.frame.id = id
      · subst hid
        rw [List.count_cons_self]
        push_cast
        omega
      · rw [List.count_cons_of_ne hid]
        exact ha.count_le id
    · rcases List.mem_cons.mp hid with rfl | hid
      · exact a.state.frame.id_mem
      · exact ha.mem id hid
  · cases h

/-- A path that may not enter a block once more has entered it as often as the bound says. -/
theorem Arrival.count_of_enter {a : Arrival p} (ha : Trail.Within p bound a.state.trail)
    (h : a.enter bound = .error path) {f : Fault} (hf : path.ending = .fault f) :
    ∃ id : BlockId, f = .loopBound id.function id.block bound ∧ (path.trail.count id : Int) = bound := by
  unfold enter at h
  dsimp only at h
  split at h
  · cases h
  · rename_i hlt
    obtain rfl := Except.error.inj h
    have hle := ha.count_le a.state.frame.id
    exact ⟨a.state.frame.id, (Ending.fault.inj hf).symm, Int.le_antisymm hle (Int.not_lt.mp hlt)⟩

namespace Engine

/-- All states that come up keep within the loop bound. -/
theorem within_of_reaches (hst : Trail.Within p e.loopBound st.trail) (h : e.Reaches st st') :
    Trail.Within p e.loopBound st'.trail := by
  induction h with
  | refl => exact hst
  | proceed _ hstep ih => rwa [(e.remaining_of_step hstep).1]
  | enter _ hstep hb hin ih =>
    refine Arrival.within_of_enter ?_ hin
    rwa [e.trail_of_step hstep hb]

/-- **All paths of an exploration** keep within the loop bound. -/
theorem within_of_mem (hst : Trail.Within p e.loopBound st.trail) (h : path ∈ e.exploreFrom st) :
    Trail.Within p e.loopBound path.trail := by
  obtain ⟨st', hreaches, hends⟩ := exists_endsAt h
  rw [hends.trail_eq]
  exact within_of_reaches hst hreaches

/-! ## Ending at the bound -/

/-- No instruction fails for the loop bound if no hook does. -/
theorem local_move (he : e.Local) (st : State p) (site : Site) : Machine.Local (Move p) (e.move st site) := by
  refine faults_move (fun _ => Fault.isLocal_of_isPlain) (fun f _ => isLocal_reject f)
    (fun o _ => local_siteEval site o) (fun t incoming _ => ?_) (fun _ _ _ h hh => he.hooks.of_hasHook hh _) st ?_
  · exact Queries.phi (fun x _ => local_siteEval site x.1) fun block => faults_fault rfl
  · exact faults_forks (fun _ => Fault.isLocal_of_isPlain) (fun _ => rfl)
      (fun o _ => local_siteEval site o) st.frame

/-- A path that ends at an instruction does not end for the loop bound. -/
theorem isLocal_of_finish (he : e.Local) (h : e.step st = .finish path) {f : Fault}
    (hf : path.ending = .fault f) : f.isLocal = true := by
  refine of_finish_fault (P := fun f => f.isLocal = true) (fun i _ => ?_) h hf
  refine faults_bind ((queries_faults fun _ => Fault.isLocal_of_isPlain).watch fun m hm => he.monitors m hm _) fun _ => ?_
  exact local_move he _ _

/-- **A path that ends for the loop bound** has entered the block as often as the bound says. -/
theorem count_of_bound (he : e.Local) (hst : Trail.Within p e.loopBound st.trail)
    (h : path ∈ e.exploreFrom st) {f : Fault} (hf : path.ending = .fault f) (hkind : f.isLocal = false) :
    ∃ id : BlockId, f = .loopBound id.function id.block e.loopBound ∧
      (path.trail.count id : Int) = e.loopBound := by
  obtain ⟨st', hreaches, hends⟩ := exists_endsAt h
  cases hends with
  | finish hstep =>
    rw [isLocal_of_finish he hstep hf] at hkind
    cases hkind
  | bound hstep hb hin =>
    refine Arrival.count_of_enter ?_ hin hf
    rw [e.trail_of_step hstep hb]
    exact within_of_reaches hst hreaches

end Engine

/-- No path begins with blocks that it has been in. -/
theorem Start.trail_eq {name : String} {start : Start p} (h : Start.of p name = .ok start) :
    start.first.state.trail = [] := by
  obtain ⟨_, _, _, _, _, _, _, _, _, rfl⟩ := Start.exists_of_ok h
  rfl

/-- **Explorations end**, whatever hooks and monitors they are made with: no sequence of steps goes on for ever,
and the last one leaves all paths. A path enters each block at most as often as the loop bound says, so the blocks
that it goes through are bounded; and if it ends for the loop bound, it has entered the block that often. -/
theorem Engine.ends_within_bound (e : Engine p) {name : String} {start : Start p}
    (hstart : Start.of p name = .ok start) (hbound : 0 ≤ e.loopBound) :
    (WellFounded fun y x => e.advance? x = some y) ∧
      (∃ y, Relation.ReflTransGen (fun x y => e.advance? x = some y) start.progress y ∧ e.advance? y = none ∧
        y.finished.reverse = e.pathsOf start) ∧
      ∀ path ∈ e.pathsOf start,
        (∀ id, (path.blocks.count id : Int) ≤ e.loopBound) ∧
          (path.blocks.length : Int) ≤ e.loopBound * p.blockIds.length ∧
          (e.Local → ∀ f, path.ending = .fault f → f.kind = .loopBoundExceeded →
            ∃ id : BlockId, f = .loopBound id.function id.block e.loopBound ∧
              (path.blocks.count id : Int) = e.loopBound) := by
  refine ⟨e.wellFounded_advance?, ?_, fun path hpath => ?_⟩
  · rw [← e.found_progress start]
    exact e.exists_exhausted start.progress
  · have htrail : Trail.Within p e.loopBound start.first.state.trail := by
      rw [Start.trail_eq hstart]
      exact Trail.within_nil hbound
    have hmem : path ∈ e.explore start.first := by
      rwa [e.pathsOf_eq] at hpath
    have hcount : ∀ id, path.blocks.count id = path.trail.count id := fun id => List.count_reverse
    have hlength : path.blocks.length = path.trail.length := List.length_reverse
    simp only [hcount, hlength]
    -- With a bound of zero the first arrival is refused already, and its path has no block.
    cases hin : start.first.enter e.loopBound with
    | ok st =>
      rw [explore_of_ok hin] at hmem
      have hst := Arrival.within_of_enter htrail hin
      have hwithin := within_of_mem hst hmem
      refine ⟨hwithin.count_le, hwithin.length_le, fun he f hf hkind => ?_⟩
      exact count_of_bound he hst hmem hf (by rw [Fault.isLocal, hkind]; rfl)
    | error path' =>
      rw [explore_of_error hin] at hmem
      obtain rfl := List.mem_singleton.mp hmem
      have hwithin : Trail.Within p e.loopBound path.trail := by rwa [(Arrival.of_enter_error hin).2.1]
      refine ⟨hwithin.count_le, hwithin.length_le, fun _ f hf hkind => ?_⟩
      exact Arrival.count_of_enter htrail hin hf

/-! ### A loop that does not end by itself -/

/-- The sort of the fault that an ending is. -/
def Ending.kind? (ending : Ending) : Option FaultKind := (ending.result?.bind Result.fault?).map Fault.kind

theorem Ending.exists_of_kind? {ending : Ending} {k : FaultKind} (h : ending.kind? = some k) :
    ∃ f, ending = .fault f ∧ f.kind = k := by
  cases ending with
  | fault f => exact ⟨f, rfl, Option.some.inj h⟩
  | outcome o => cases o <;> cases h
  | defect d => cases h

namespace Looping

/-- A function with a block that goes back to itself. -/
def looping : Module :=
  ⟨[], [⟨"main", .void, [], false, [⟨"entry", [⟨"", .br "loop"⟩]⟩, ⟨"loop", [⟨"", .br "loop"⟩]⟩]⟩]⟩

/-- The function is explored with a loop bound of two. -/
def context : Context := Context.bounded looping 2 64

/-- The exploration ends with a path that has been in the loop twice. -/
theorem ends_looping : ∃ start, Start.of context.project "main" = .ok start ∧ 0 ≤ context.engine.loopBound ∧
    context.engine.Local ∧ ∃ path ∈ context.engine.pathsOf start,
      path.blocks = [⟨"main", "entry"⟩, ⟨"main", "loop"⟩, ⟨"main", "loop"⟩] ∧
      path.ending = .fault (.loopBound "main" "loop" 2) := by
  have hlocal : context.engine.Local := Context.local_of_make (Context.make_bounded looping 2 64)
  have hbound : 0 ≤ context.engine.loopBound := by decide
  have hseen : (context.pathsWithin 5 "main").map (fun l => l.map fun x => (x.2.blocks, x.2.ending.kind?)) =
      some [([⟨"main", "entry"⟩, ⟨"main", "loop"⟩, ⟨"main", "loop"⟩], some .loopBoundExceeded)] := by
    decide +kernel
  obtain ⟨l, hl, hseen⟩ := Option.map_eq_some_iff.mp hseen
  obtain ⟨x, rfl⟩ : ∃ x, l = [x] := List.length_eq_one_iff.mp (by simpa using congrArg List.length hseen)
  obtain ⟨hblocks, hkind⟩ := Prod.mk.inj (List.head_eq_of_cons_eq hseen)
  obtain ⟨f, hf, hkind⟩ := Ending.exists_of_kind? hkind
  obtain ⟨start, hstart, hexplore, _⟩ := Context.paths_of_pathsWithin hl
  have hmem : x.2 ∈ context.engine.pathsOf start := by
    rw [Engine.pathsOf_eq, hexplore]
    exact List.mem_singleton_self x.2
  obtain ⟨_, _, hpaths⟩ := context.engine.ends_within_bound hstart hbound
  obtain ⟨id, rfl, hcount⟩ := (hpaths x.2 hmem).2.2 hlocal f hf hkind
  -- the only block that the path has been in twice is the loop
  obtain rfl : id = ⟨"main", "loop"⟩ := by
    by_contra hne
    have htwice : List.count id [⟨"main", "entry"⟩, ⟨"main", "loop"⟩, ⟨"main", "loop"⟩] = 2 := by
      rw [hblocks] at hcount
      exact Int.ofNat.inj hcount
    rw [List.count_cons, List.count_cons_of_ne (Ne.symm hne), List.count_cons_of_ne (Ne.symm hne)] at htwice
    split at htwice <;> cases htwice
  exact ⟨start, hstart, hbound, hlocal, x.2, hmem, hblocks, hf⟩

end Looping

end PathSafety
