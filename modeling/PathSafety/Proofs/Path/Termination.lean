import Mathlib.Logic.Relation
import PathSafety.Proofs.Path.Exploration

/-!
# Explorations end

An exploration follows one path at a time and keeps a stack of the arrivals that wait for their turn. Each of
its steps executes an instruction, or takes up an arrival. No bound is put on the length of the stack, and a
step can make it longer; still no sequence of steps goes on for ever.

Contents:

* `Progress`, `Engine.advance?`, `Engine.Progresses` — an exploration under way, and what it does next;
* `Engine.wellFounded_advance?` — every exploration ends;
* `Engine.exists_exhausted` — it ends with the paths that were to be explored;
* `Engine.mem_pathsOf_of_advances` — the paths that it has finished are some of these.
-/

namespace PathSafety

open IR

/-- An exploration under way. -/
structure Progress (p : Project) where
  /-- The path that is followed, if one is. -/
  current : Option (State p)
  /-- The arrivals that wait, the next one first. -/
  waiting : List (Arrival p)
  /-- The paths that have ended, the last one first. -/
  finished : List Path

/-- The beginning of the exploration of a function. -/
def Start.progress {p : Project} (start : Start p) : Progress p := ⟨none, [start.first], []⟩

variable {p : Project} {e : Engine p} {x y : Progress p} {waiting : List (Arrival p)} {finished : List Path}

namespace Engine

/-- Takes up an arrival. -/
def take (e : Engine p) (a : Arrival p) (waiting : List (Arrival p)) (finished : List Path) : Progress p :=
  match a.enter e.loopBound with
  | .ok st => ⟨some st, waiting, finished⟩
  | .error path => ⟨none, waiting, path :: finished⟩

/-- What an exploration does next: the next instruction of the path that is followed, else the next arrival. At
a fork the path goes on with the first arrival, and the others wait. -/
def advance? (e : Engine p) : Progress p → Option (Progress p)
  | ⟨some st, waiting, finished⟩ =>
    match e.step st with
    | .proceed st' => some ⟨some st', waiting, finished⟩
    | .arrive a others => some (e.take a (others ++ waiting) finished)
    | .finish path => some ⟨none, waiting, path :: finished⟩
  | ⟨none, a :: waiting, finished⟩ => some (e.take a waiting finished)
  | ⟨none, [], _⟩ => none

/-- One step of an exploration: the path that is followed goes on, comes to blocks, or ends; where none is followed, the
next arrival is taken up. -/
inductive Progresses (e : Engine p) : Progress p → Progress p → Prop
  | proceed {st st' : State p} {waiting : List (Arrival p)} {finished : List Path} (h : e.step st = .proceed st') :
    Progresses e ⟨some st, waiting, finished⟩ ⟨some st', waiting, finished⟩
  | arrive {st : State p} {a : Arrival p} {others waiting : List (Arrival p)} {finished : List Path}
    (h : e.step st = .arrive a others) : Progresses e ⟨some st, waiting, finished⟩ (e.take a (others ++ waiting) finished)
  | finish {st : State p} {path : Path} {waiting : List (Arrival p)} {finished : List Path}
    (h : e.step st = .finish path) : Progresses e ⟨some st, waiting, finished⟩ ⟨none, waiting, path :: finished⟩
  | resume {a : Arrival p} {waiting : List (Arrival p)} {finished : List Path} :
    Progresses e ⟨none, a :: waiting, finished⟩ (e.take a waiting finished)

theorem progresses_of_advance? (h : e.advance? x = some y) : e.Progresses x y := by
  obtain ⟨current, waiting, finished⟩ := x
  cases current with
  | some st =>
    unfold advance? at h
    dsimp only at h
    cases hstep : e.step st with
    | proceed st' =>
      rw [hstep] at h
      exact Option.some.inj h ▸ .proceed hstep
    | arrive a others =>
      rw [hstep] at h
      exact Option.some.inj h ▸ .arrive hstep
    | finish path =>
      rw [hstep] at h
      exact Option.some.inj h ▸ .finish hstep
  | none =>
    cases waiting with
    | nil => cases h
    | cons a waiting => exact Option.some.inj h ▸ .resume

/-! ## No exploration goes on for ever -/

/-- That an exploration ends, however it got where it is. -/
def Ends (e : Engine p) (x : Progress p) : Prop := Acc (fun y x => e.advance? x = some y) x

theorem ends_of_advance? (h : ∀ y, e.advance? x = some y → e.Ends y) : e.Ends x := Acc.intro x h

/-- Taking up an arrival ends if its path and the rest do. -/
theorem ends_take {a : Arrival p}
    (hpath : ∀ st, a.enter e.loopBound = .ok st → ∀ finished, e.Ends ⟨some st, waiting, finished⟩)
    (hrest : ∀ finished, e.Ends ⟨none, waiting, finished⟩) (finished : List Path) :
    e.Ends (e.take a waiting finished) := by
  unfold take
  cases hin : a.enter e.loopBound with
  | ok st => exact hpath st hin finished
  | error path => exact hrest (path :: finished)

/-- Arrivals that wait are taken up one after another. -/
theorem ends_append {others : List (Arrival p)}
    (hpath : ∀ a ∈ others, ∀ st, a.enter e.loopBound = .ok st → ∀ waiting,
      (∀ finished, e.Ends ⟨none, waiting, finished⟩) → ∀ finished, e.Ends ⟨some st, waiting, finished⟩)
    (hrest : ∀ finished, e.Ends ⟨none, waiting, finished⟩) (finished : List Path) :
    e.Ends ⟨none, others ++ waiting, finished⟩ := by
  induction others generalizing finished with
  | nil => exact hrest finished
  | cons a others ih =>
    have hothers : ∀ finished, e.Ends ⟨none, others ++ waiting, finished⟩ :=
      ih fun b hb => hpath b (List.mem_cons_of_mem a hb)
    apply ends_of_advance?
    intro y hy
    obtain rfl := Option.some.inj hy
    exact ends_take (fun st hin => hpath a List.mem_cons_self st hin _ hothers) hothers finished

/-- A path that is followed ends, and all that it splits into, if the rest does: the induction is on the room
that is left for entering blocks and then on the instructions that are left in the frames. -/
theorem ends_current (e : Engine p) (st : State p) :
    ∀ waiting, (∀ finished, e.Ends ⟨none, waiting, finished⟩) →
      ∀ finished, e.Ends ⟨some st, waiting, finished⟩ := by
  -- A state ends if its own steps do and what waits ends after it, so the statement is about any
  -- list waiting.
  induction st using e.explore_induction with
  | proceed st st' h ih =>
    intro waiting hrest finished
    apply ends_of_advance?
    intro y hy
    obtain rfl : (⟨some st', waiting, finished⟩ : Progress p) = y := by simpa [advance?, h] using hy
    exact ih waiting hrest finished
  | finish st path h =>
    intro waiting hrest finished
    apply ends_of_advance?
    intro y hy
    obtain rfl : (⟨none, waiting, path :: finished⟩ : Progress p) = y := by simpa [advance?, h] using hy
    exact hrest (path :: finished)
  | arrive st a others h ih =>
    intro waiting hrest finished
    have hothers : ∀ finished, e.Ends ⟨none, others ++ waiting, finished⟩ :=
      ends_append (fun b hb => ih b (List.mem_cons_of_mem a hb)) hrest
    apply ends_of_advance?
    intro y hy
    obtain rfl : e.take a (others ++ waiting) finished = y := by simpa [advance?, h] using hy
    exact ends_take (fun st' hin => ih a List.mem_cons_self st' hin _ hothers) hothers finished

/-- **Explorations end.** -/
theorem wellFounded_advance? (e : Engine p) : WellFounded fun y x => e.advance? x = some y := by
  have hwaiting : ∀ (waiting : List (Arrival p)) (finished : List Path), e.Ends ⟨none, waiting, finished⟩ := by
    intro waiting finished
    have hnil : ∀ finished, e.Ends (⟨none, [], finished⟩ : Progress p) := fun finished =>
      ends_of_advance? fun y hy => absurd hy (Option.some_ne_none y).symm
    rw [← List.append_nil waiting]
    exact ends_append (fun a _ st _ => e.ends_current st) hnil finished
  constructor
  rintro ⟨current, waiting, finished⟩
  cases current with
  | none => exact hwaiting waiting finished
  | some st => exact e.ends_current st waiting (hwaiting waiting) finished

/-! ## What explorations end with -/

/-- The paths that were found and those that are still to be found, in order. -/
def found (e : Engine p) (x : Progress p) : List Path :=
  x.finished.reverse ++ (x.current.elim [] e.exploreFrom ++ x.waiting.flatMap e.explore)

theorem found_take (e : Engine p) (a : Arrival p) (waiting : List (Arrival p)) (finished : List Path) :
    e.found (e.take a waiting finished) = finished.reverse ++ (e.explore a ++ waiting.flatMap e.explore) := by
  unfold take
  cases hin : a.enter e.loopBound with
  | ok st => rw [explore_of_ok hin, found, Option.elim_some]
  | error path => simp [explore_of_error hin, found]

/-- A step of an exploration changes nothing about what it finds. -/
theorem found_of_advance? (h : e.advance? x = some y) : e.found y = e.found x := by
  cases progresses_of_advance? h with
  | proceed hstep => simp [found, e.exploreFrom_of_proceed hstep]
  | finish hstep => simp [found, e.exploreFrom_of_finish hstep]
  | arrive hstep =>
    rw [found_take, List.flatMap_append]
    simp [found, e.exploreFrom_of_arrive hstep]
  | resume =>
    rw [found_take]
    rfl

/-- **An exploration is exhausted** after finitely many steps, with all paths found. -/
theorem exists_exhausted (e : Engine p) (x : Progress p) :
    ∃ y, Relation.ReflTransGen (fun x y => e.advance? x = some y) x y ∧ e.advance? y = none ∧
      y.finished.reverse = e.found x := by
  induction x using e.wellFounded_advance?.induction with
  | _ x ih =>
    cases hnext : e.advance? x with
    | some x' =>
      obtain ⟨y, hsteps, hend, hfound⟩ := ih x' hnext
      exact ⟨y, .head hnext hsteps, hend, hfound.trans (found_of_advance? hnext)⟩
    | none =>
      refine ⟨x, .refl, hnext, ?_⟩
      obtain ⟨current, waiting, finished⟩ := x
      cases current with
      | some st => cases hstep : e.step st <;> simp [advance?, hstep] at hnext
      | none =>
        cases waiting with
        | nil => simp [found]
        | cons a waiting => cases hnext

theorem found_of_advances (h : Relation.ReflTransGen (fun x y => e.advance? x = some y) x y) : e.found y = e.found x := by
  induction h with
  | refl => rfl
  | tail _ hnext ih => rw [found_of_advance? hnext, ih]

theorem found_progress (e : Engine p) (start : Start p) : e.found start.progress = e.pathsOf start := by
  rw [pathsOf, paths_eq]
  rfl

/-- A path that an exploration has finished is one of those that it finds. -/
theorem mem_pathsOf_of_advances {start : Start p} {path : Path}
    (h : Relation.ReflTransGen (fun x y => e.advance? x = some y) start.progress x) (hpath : path ∈ x.finished) :
    path ∈ e.pathsOf start := by
  rw [← e.found_progress start, ← found_of_advances h]
  exact List.mem_append_left _ (List.mem_reverse.mpr hpath)

end Engine

end PathSafety
