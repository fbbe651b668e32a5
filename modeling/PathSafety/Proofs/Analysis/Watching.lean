import Mathlib.Data.List.Flatten
import PathSafety.Proofs.Analysis.Evaluate
import PathSafety.Proofs.Hooks.BuiltIn

/-!
# Monitors only look on

A monitor evaluates operands of an instruction before the instruction does. That makes a difference where evaluating
them does something: a global value that is met gets the next address, so which one is met first decides the
addresses. Where it makes none, monitors do nothing to an exploration but end some of its paths.

Contents:

* `Fault.isSafety` — the faults that monitors raise;
* `Machine.Ahead`, `Site.Foreseen` — that what a monitor evaluates may be evaluated ahead of its turn;
* `Site.foreseen_of_looksInert` — registers and integers may be;
* `Engine.unaltered_of_foreseen` — then the instruction does what it does without monitors;
* `Engine.step_unwatched` — a step without monitors is the same, unless a monitor ends the path;
* `Engine.exploreFrom_unwatched`, `Context.sublist_paths_unwatched` — explorations and analyses.
-/

namespace PathSafety

open IR Machine

/-- Whether a fault is a safety violation. Only monitors end paths by these. -/
def Fault.isSafety (f : Fault) : Bool :=
  match f.kind with
  | .safetyViolation | .divisionByZero | .outOfBounds | .nullDereference => true
  | _ => false

/-! ## Looking ahead -/

namespace Machine

variable {α β γ : Type} {s : Setting} {m m₁ : Machine}

/-- That an action gives a value, and then the same value again without doing anything more. -/
def Steady (y : Action β) (m m₁ : Machine) : Prop := ∃ b, y m = .ok b m₁ ∧ y m₁ = .ok b m₁

/-- That an action may be done ahead of another one: it does nothing, or nothing that the other one sees, and the
other one does nothing. What the other one gives has some property. -/
def Ahead (y : Action β) (x : Action α) (P : α → Prop) (m m₁ : Machine) : Prop :=
  Steady y m m₁ ∧ (m₁ = m ∨ ∃ a, P a ∧ x m = .ok a m ∧ x m₁ = .ok a m₁)

/-- What comes of two actions is the same when the second was done ahead. -/
theorem Ahead.bind_eq {y : Action β} {x : Action α} {P : α → Prop} {g : α → Action γ} {f : α → β → Action γ}
    (h : Ahead y x P m m₁) (hg : ∀ a, P a → g a = y >>= f a) : (x >>= g) m₁ = (x >>= g) m := by
  obtain ⟨⟨b, hb, hb₁⟩, rfl | ⟨a, ha, hx, hx₁⟩⟩ := h
  · rfl
  · rw [bind_of_ok hx₁, bind_of_ok hx, hg a ha, bind_of_ok hb₁, bind_of_ok hb]

/-- That an action ends the path by a violation, or leaves one of some machines. -/
def Looks (M : Machine → Prop) (x : Action Unit) : Prop :=
  ∀ m, M m → (∃ f m', x m = .error (.fault f) m' ∧ f.isSafety = true) ∨ ∃ m', M m' ∧ x m = .ok () m'

theorem looks_pure (M : Machine → Prop) : Looks M (pure ()) := fun m hm => Or.inr ⟨m, hm, rfl⟩

/-- Asking whether there is a violation leaves the machine as it is if there is none. -/
theorem ask_or (c : Cond) (f : Fault) (m : Machine) :
    (∃ m', (do if ← sat [c] then fault f : Action Unit) m = .error (.fault f) m') ∨
      (do if ← sat [c] then fault f : Action Unit) m = .ok () m := by
  cases hanswer : (m.condition.sat [c]).1 with
  | true =>
    have hsat : sat [c] m = .ok true { m with condition := (m.condition.sat [c]).2 } := hanswer ▸ rfl
    rw [bind_of_ok hsat]
    exact Or.inl ⟨_, rfl⟩
  | false => exact Or.inr (ask_iff.mpr ⟨rfl, hanswer⟩)

end Machine

namespace Site

variable {s : Setting} {site : Site} {m m₁ : Machine}

/-- That what monitors evaluate may be evaluated ahead of its turn: the divisor of a division ahead of the
dividend, and the indices of an address computation that is to stay inside an object, which has a size, ahead of
the base. -/
structure Foreseen (s : Setting) (site : Site) (m : Machine) : Prop where
  divisor : ∀ op flags a b, site.instr.op = .arith op flags a b → Value.divides op = true →
    ∃ m₁, Ahead (site.eval s b) (site.eval s a) (fun _ => True) m m₁
  offset : ∀ pointer written is, site.instr.op = .gep true pointer written is →
    ∃ size m₁, s.project.layout.bytes (site.routine.scope.accessType pointer written) = .ok size ∧
      Ahead (Machine.offset s (site.eval s) s.pointerBits (site.routine.scope.accessType pointer written) is)
        (site.eval s pointer) (fun v => v.width = s.pointerBits) m m₁

end Site

/-! ### Registers and integers -/

/-- Whether an operand is a register or an integer: evaluating it meets no global value and makes no symbol. -/
def IR.Operand.isInert : Operand → Bool
  | .register _ | .constant _ .null | .constant (.int _) (.int _) => true
  | _ => false

namespace Machine

variable {α β : Type} {s : Setting}

/-- Evaluating a register or an integer leaves the machine as it is. -/
theorem keeps_eq_eval (site : Site) {o : Operand} (h : o.isInert = true) : Keeps Eq (site.eval s o) := by
  unfold Site.eval Machine.eval
  cases o with
  | register n =>
    unfold evalWith
    split
    · exact computes_keeps_eq.pure _
    · exact keeps_fault
  | constant t v =>
    unfold evalWith
    split
    · cases v with
      | null =>
        unfold evalConstant
        exact computes_keeps_eq.pure _
      | int n =>
        cases t with
        | int w =>
          unfold evalConstant
          exact computes_keeps_eq.pure _
        | _ => cases h
      | _ => cases h
    · exact keeps_fault
  | global | assembly => cases h

/-- Whether an action gives a value. -/
def gives (y : Action β) (m : Machine) : Bool :=
  match y m with
  | .ok _ _ => true
  | .error _ _ => false

/-- What gives a value and leaves the machine as it is may be done ahead of anything. -/
theorem Ahead.of_gives {y : Action β} {x : Action α} {P : α → Prop} {m : Machine} (h : Keeps Eq y)
    (hy : gives y m = true) : Ahead y x P m m := by
  unfold gives at hy
  split at hy
  · rename_i b m₁ hb
    obtain rfl := h hb
    exact ⟨⟨b, hb, hb⟩, Or.inl rfl⟩
  · cases hy

end Machine

namespace Site

variable {s : Setting} {site : Site} {m : Machine}

/-- Whether monitors look only at registers and integers, which have values. -/
def looksInert (s : Setting) (site : Site) (m : Machine) : Bool :=
  match site.instr.op with
  | .arith op _ _ b => !Value.divides op || b.isInert && gives (site.eval s b) m
  | .gep true pointer written is =>
    let t := site.routine.scope.accessType pointer written
    is.all Operand.isInert && gives (sizeInBytes s t) m &&
      gives (Machine.offset s (site.eval s) s.pointerBits t is) m
  | _ => true

/-- **Registers and integers** may be evaluated ahead. -/
theorem foreseen_of_looksInert (h : site.looksInert s m = true) : site.Foreseen s m where
  divisor op flags a b hop hdivides := by
    unfold looksInert at h
    rw [hop] at h
    dsimp only at h
    rw [hdivides, Bool.not_true, Bool.false_or, Bool.and_eq_true] at h
    exact ⟨m, .of_gives (keeps_eq_eval site h.1) h.2⟩
  offset pointer written is hop := by
    unfold looksInert at h
    rw [hop] at h
    dsimp only at h
    rw [Bool.and_eq_true, Bool.and_eq_true] at h
    obtain ⟨⟨hinert, hsize⟩, hoffset⟩ := h
    -- Inert operands evaluate without touching the machine, so looking once tells what the monitor
    -- will see.
    have hkeeps : Keeps Eq (Machine.offset s (site.eval s) s.pointerBits
        (site.routine.scope.accessType pointer written) is) := by
      have heval : ∀ o ∈ is, Keeps Eq (site.eval s o) := fun o ho =>
        keeps_eq_eval site (List.all_eq_true.mp hinert o ho)
      refine computes_keeps_eq.offset heval (fun o ho => ?_) _ _
      exact computes_keeps_eq.bind (heval o (List.mem_of_mem_drop ho)) fun v m n m' h => (of_evalNat h).2
    cases hbytes : s.project.layout.bytes (site.routine.scope.accessType pointer written) with
    | ok n => exact ⟨n, m, rfl, .of_gives hkeeps hoffset⟩
    | error err =>
      unfold gives sizeInBytes at hsize
      rw [hbytes] at hsize
      cases err <;> cases hsize

end Site

namespace Checker

variable {s : Setting} {site : Site} {M : Machine → Prop} {m₁ : Machine}

/-- Watching a divisor that has a value. -/
theorem looks_watchDivision {op : ArithOp} {flags : List String} {a b : Operand} {v : Value}
    (hop : site.instr.op = .arith op flags a b) (hdivides : Value.divides op = true) (hm₁ : M m₁)
    (heval : ∀ m, M m → site.eval s b m = .ok v m₁) : Looks M (watchDivision s site) := by
  intro m hm
  unfold watchDivision
  rw [hop]
  dsimp only
  rw [if_pos hdivides, bind_of_ok (heval m hm)]
  rcases ask_or (v.equals 0) (.divisor site.location site.text) m₁ with ⟨m', h⟩ | h
  · exact Or.inl ⟨_, m', h, rfl⟩
  · exact Or.inr ⟨m₁, hm₁, h⟩

/-- Watching an offset that has a value. -/
theorem looks_watchOffset {pointer : Operand} {written : Option Ty} {is : List Operand} {size : Nat} {v : Value}
    (hop : site.instr.op = .gep true pointer written is) (hm₁ : M m₁)
    (hsize : s.project.layout.bytes (site.routine.scope.accessType pointer written) = .ok size)
    (hoffset : ∀ m, M m → Machine.offset s (site.eval s) s.pointerBits
      (site.routine.scope.accessType pointer written) is m = .ok v m₁) : Looks M (watchOffset s site) := by
  intro m hm
  have hbytes : sizeInBytes s (site.routine.scope.accessType pointer written) m = .ok size m := by
    unfold sizeInBytes
    rw [hsize]
    rfl
  have hleaves : valueOr ((Value.ofNat v.width size).cmp .ule v) m₁ =
      .ok (Term.mkCmp .ule (.const (BitVec.ofNat v.width size)) v.term) m₁ := by
    unfold Value.cmp Value.aligned Value.ofNat
    rw [dif_pos rfl]
    rfl
  unfold watchOffset
  rw [hop]
  dsimp only
  rw [bind_of_ok hbytes, bind_of_ok (hoffset m hm), bind_of_ok hleaves]
  rcases ask_or _ (.offset size site.location site.text) m₁ with ⟨m', h⟩ | h
  · exact Or.inl ⟨_, m', h, rfl⟩
  · exact Or.inr ⟨m₁, hm₁, h⟩

theorem watchDivision_of_ne (h : ∀ op flags a b, site.instr.op = .arith op flags a b → Value.divides op = false) :
    watchDivision s site = pure () := by
  unfold watchDivision
  split
  · rename_i hop
    rw [h _ _ _ _ hop, if_neg Bool.false_ne_true]
  · rfl

theorem watchOffset_of_ne (h : ∀ pointer written is, site.instr.op ≠ .gep true pointer written is) :
    watchOffset s site = pure () := by
  unfold watchOffset
  split
  · rename_i hop
    exact absurd hop (h _ _ _)
  · rfl

end Checker

namespace Engine

variable {p : Project} {e : Engine p} {site : Site} {m : Machine}

/-- The engine without monitors. -/
def unwatched (e : Engine p) : Engine p := { e with monitors := [] }

/-- That monitors of checkers leave one of some machines, or end the path by a violation, and that the instruction does
the same on all of these. -/
def Unaltered (e : Engine p) (site : Site) (m : Machine) : Prop :=
  ∃ M : Machine → Prop, M m ∧
    (∀ (k : Checker) monitor, k.monitor? = some monitor → Looks M (monitor e.setting site)) ∧
      ∀ m₁, M m₁ → ∀ st : State p, e.move st site m₁ = e.move st site m

/-- One monitor watches divisions, one address computations. -/
theorem looks_of_monitor? {s : Setting} {M : Machine → Prop} (hdivision : Looks M (Checker.watchDivision s site))
    (hoffset : Looks M (Checker.watchOffset s site)) (k : Checker) (monitor : Monitor)
    (hk : k.monitor? = some monitor) : Looks M (monitor s site) := by
  cases k with
  | nullDereference => cases hk
  | divisionByZero => exact Option.some.inj hk ▸ hdivision
  | outOfBounds => exact Option.some.inj hk ▸ hoffset

/-- What is evaluated ahead of its turn gives the same before it and behind it. -/
theorem eval_again {m₁ x : Machine} (hx : x = m ∨ x = m₁) {β : Type} {y : Action β} {b : β} (h : y m = .ok b m₁)
    (h₁ : y m₁ = .ok b m₁) : y x = .ok b m₁ := by
  rcases hx with rfl | rfl
  · exact h
  · exact h₁

theorem unaltered_division {op : ArithOp} {flags : List String} {a b : Operand} {m₁ : Machine}
    (hop : site.instr.op = .arith op flags a b) (hdivides : Value.divides op = true)
    (hahead : Ahead (site.eval e.setting b) (site.eval e.setting a) (fun _ => True) m m₁) : e.Unaltered site m := by
  obtain ⟨v, hv, hv₁⟩ := hahead.1
  refine ⟨fun x => x = m ∨ x = m₁, Or.inl rfl, looks_of_monitor? ?_ ?_, ?_⟩
  · exact Checker.looks_watchDivision hop hdivides (Or.inr rfl) fun x hx => eval_again hx hv hv₁
  · rw [Checker.watchOffset_of_ne fun pointer written is hgep => nomatch hop.symm.trans hgep]
    exact looks_pure _
  · rintro x (rfl | rfl) st
    · rfl
    · have harith : Machine.arith e.setting site op a b x = Machine.arith e.setting site op a b m :=
        hahead.bind_eq fun _ _ => rfl
      unfold move
      rw [hop]
      simp only [bind, EStateM.bind, harith]

theorem unaltered_offset {pointer : Operand} {written : Option Ty} {is : List Operand} {size : Nat} {m₁ : Machine}
    (hop : site.instr.op = .gep true pointer written is)
    (hsize : e.setting.project.layout.bytes (site.routine.scope.accessType pointer written) = .ok size)
    (hahead : Ahead (Machine.offset e.setting (site.eval e.setting) e.setting.pointerBits
      (site.routine.scope.accessType pointer written) is) (site.eval e.setting pointer)
        (fun v => v.width = e.setting.pointerBits) m m₁) : e.Unaltered site m := by
  obtain ⟨v, hv, hv₁⟩ := hahead.1
  refine ⟨fun x => x = m ∨ x = m₁, Or.inl rfl, looks_of_monitor? ?_ ?_, ?_⟩
  · rw [Checker.watchDivision_of_ne fun _ _ _ _ harith => nomatch hop.symm.trans harith]
    exact looks_pure _
  · exact Checker.looks_watchOffset hop (Or.inr rfl) hsize fun x hx => eval_again hx hv hv₁
  · rintro x (rfl | rfl) st
    · rfl
    · have hgep : Machine.gep e.setting site pointer written is x =
          Machine.gep e.setting site pointer written is m :=
        hahead.bind_eq fun base hbase => by
          dsimp only
          rw [hbase]
      unfold move
      rw [hop]
      simp only [bind, EStateM.bind, hgep]

/-- **Foreseen instructions** do what they do without monitors, wherever monitors let them pass. -/
theorem unaltered_of_foreseen (h : site.Foreseen e.setting m) : e.Unaltered site m := by
  by_cases hdivides : ∃ op flags a b, site.instr.op = .arith op flags a b ∧ Value.divides op = true
  · obtain ⟨op, flags, a, b, hop, hdivides⟩ := hdivides
    obtain ⟨m₁, hahead⟩ := h.divisor op flags a b hop hdivides
    exact unaltered_division hop hdivides hahead
  · by_cases hgep : ∃ pointer written is, site.instr.op = .gep true pointer written is
    · obtain ⟨pointer, written, is, hop⟩ := hgep
      obtain ⟨size, m₁, hsize, hahead⟩ := h.offset pointer written is hop
      exact unaltered_offset hop hsize hahead
    · -- nothing is looked at
      refine ⟨fun x => x = m, rfl, looks_of_monitor? ?_ ?_, ?_⟩
      · rw [Checker.watchDivision_of_ne fun op flags a b hop =>
          Bool.eq_false_iff.mpr fun hd => hdivides ⟨op, flags, a, b, hop, hd⟩]
        exact looks_pure _
      · rw [Checker.watchOffset_of_ne fun pointer written is hop => hgep ⟨pointer, written, is, hop⟩]
        exact looks_pure _
      · rintro x rfl st
        rfl

/-- Looking at a site with several monitors. -/
theorem looks_watch {M : Machine → Prop} {monitors : List Monitor}
    (h : ∀ monitor ∈ monitors, Looks M (monitor e.setting site)) : Looks M (e.watch site monitors) := by
  induction monitors with
  | nil => exact looks_pure M
  | cons monitor rest ih =>
    intro m hm
    unfold watch
    rcases h monitor List.mem_cons_self m hm with ⟨f, m', hf, hsafety⟩ | ⟨m₁, hm₁, hok⟩
    · refine Or.inl ⟨f, m', ?_, hsafety⟩
      simp only [bind, EStateM.bind, hf]
    · rw [bind_of_ok hok]
      exact ih (fun other hother => h other (List.mem_cons_of_mem _ hother)) m₁ hm₁

/-! ## Explorations -/

variable {st st' : State p} {checkers : List Checker} {path : Path}

/-- The states that come up go on from where the first one has been. -/
theorem suffix_of_reaches (h : e.Reaches st st') : st.trail <:+ st'.trail := by
  induction h with
  | refl => exact List.suffix_rfl
  | proceed _ hstep ih => exact (e.remaining_of_step hstep).1 ▸ ih
  | enter _ hstep hb hin ih =>
    obtain rfl := Arrival.eq_of_enter hin
    exact (e.trail_of_step hstep hb ▸ ih).trans (List.suffix_cons _ _)

/-- The paths of a state go on from where it has been. -/
theorem suffix_of_mem (h : path ∈ e.exploreFrom st) : st.trail <:+ path.trail := by
  obtain ⟨st', hreaches, hends⟩ := exists_endsAt h
  exact hends.trail_eq ▸ suffix_of_reaches hreaches

/-- Monitors are not asked about what an instruction does. -/
theorem move_unwatched (e : Engine p) (st : State p) (site : Site) : e.unwatched.move st site = e.move st site := by
  have hsetting : e.unwatched.setting = e.setting := rfl
  unfold move
  cases site.instr.op with
  | switch v default cases =>
    dsimp only
    unfold switch
    simp only [arms_congr hsetting]
    rfl
  | ret v => cases v <;> rfl
  | _ => rfl

section Unwatched

variable (hmonitors : e.monitors = checkers.filterMap Checker.monitor?)
include hmonitors

/-- **A step without monitors** is the same, unless a monitor ends the path by a violation. -/
theorem step_unwatched (h : ∀ i, st.frame.instr? = some i → (st.frame.site i).Foreseen e.setting st.machine) :
    e.step st = e.unwatched.step st ∨
      ∃ path, e.step st = .finish path ∧ path.ending.isFault Fault.isSafety = true := by
  unfold step
  cases hi : st.frame.instr? with
  | none => exact Or.inl rfl
  | some i =>
    dsimp only
    obtain ⟨M, hm, hlooks, hmove⟩ := unaltered_of_foreseen (h i hi)
    have hwatch : Looks M (e.watch (st.frame.site i) e.monitors) := by
      refine looks_watch fun monitor hmonitor => ?_
      rw [hmonitors] at hmonitor
      obtain ⟨k, _, hk⟩ := List.mem_filterMap.mp hmonitor
      exact hlooks k monitor hk
    have hmachine : (st.note (st.frame.site i).location).machine = st.machine := rfl
    rw [hmachine]
    rcases hwatch st.machine hm with ⟨f, m', hf, hsafety⟩ | ⟨m₁, hm₁, hok⟩
    · refine Or.inr ⟨(st.note (st.frame.site i).location).finish m' (.fault f), ?_, hsafety⟩
      simp only [bind, EStateM.bind, hf]
      rfl
    · left
      rw [bind_of_ok hok, hmove m₁ hm₁, ← e.move_unwatched]
      rfl

/-- **Explorations without monitors** have all paths that monitors do not end, in the same order, and each of their
other paths goes on from where a monitor ended one. -/
theorem exploreFrom_unwatched (h : ∀ st', e.Reaches st st' → ∀ i, st'.frame.instr? = some i →
    (st'.frame.site i).Foreseen e.setting st'.machine) :
    ((e.exploreFrom st).filter fun path => !path.ending.isFault Fault.isSafety).Sublist
        (e.unwatched.exploreFrom st) ∧
      ∀ path ∈ e.unwatched.exploreFrom st, path ∈ e.exploreFrom st ∨ ∃ q ∈ e.exploreFrom st,
        q.ending.isFault Fault.isSafety = true ∧ q.trail <:+ path.trail := by
  induction st using e.explore_induction with
  | proceed st st' hstep ih =>
    rcases step_unwatched hmonitors (h st .refl) with heq | ⟨path, hpath, _⟩
    · rw [e.exploreFrom_of_proceed hstep, e.unwatched.exploreFrom_of_proceed (heq.symm.trans hstep)]
      exact ih fun st₁ hst₁ => h st₁ (.trans (.proceed .refl hstep) hst₁)
    · rw [hstep] at hpath
      cases hpath
  | finish st path hstep =>
    rw [e.exploreFrom_of_finish hstep]
    rcases step_unwatched hmonitors (h st .refl) with heq | ⟨path', hpath, hsafety⟩
    · rw [e.unwatched.exploreFrom_of_finish (heq.symm.trans hstep)]
      exact ⟨List.filter_sublist, fun q hq => Or.inl hq⟩
    · obtain rfl := Step.finish.inj (hstep.symm.trans hpath)
      rw [List.filter_cons_of_neg (by simp [hsafety]), List.filter_nil]
      refine ⟨List.nil_sublist _, fun q hq => Or.inr ⟨path, List.mem_singleton_self path, hsafety, ?_⟩⟩
      rw [trail_of_finish hstep]
      exact suffix_of_mem hq
  | arrive st a others hstep ih =>
    rcases step_unwatched hmonitors (h st .refl) with heq | ⟨path, hpath, _⟩
    · rw [e.exploreFrom_of_arrive hstep, e.unwatched.exploreFrom_of_arrive (heq.symm.trans hstep),
        List.filter_flatMap]
      -- arrival by arrival
      have harm : ∀ b ∈ a :: others,
          ((e.explore b).filter fun path => !path.ending.isFault Fault.isSafety).Sublist (e.unwatched.explore b) ∧
            ∀ path ∈ e.unwatched.explore b, path ∈ e.explore b ∨ ∃ q ∈ e.explore b,
              q.ending.isFault Fault.isSafety = true ∧ q.trail <:+ path.trail := by
        intro b hb
        cases hin : b.enter e.loopBound with
        | ok st' =>
          rw [explore_of_ok hin, explore_of_ok (e := e.unwatched) hin]
          exact ih b hb st' hin fun st₁ hst₁ => h st₁ (.trans (.enter .refl hstep hb hin) hst₁)
        | error path =>
          rw [explore_of_error hin, explore_of_error (e := e.unwatched) hin]
          exact ⟨List.filter_sublist, fun q hq => Or.inl hq⟩
      refine ⟨List.Sublist.flatMap_right _ fun b hb => (harm b hb).1, fun path hpath => ?_⟩
      obtain ⟨b, hb, hpath⟩ := List.mem_flatMap.mp hpath
      rcases (harm b hb).2 path hpath with hmem | ⟨q, hq, hcut⟩
      · exact Or.inl (List.mem_flatMap.mpr ⟨b, hb, hmem⟩)
      · exact Or.inr ⟨q, List.mem_flatMap.mpr ⟨b, hb, hq⟩, hcut⟩
    · rw [hstep] at hpath
      cases hpath

end Unwatched

end Engine

/-- Whether a step ends the path. -/
def Step.finishes {p : Project} : Step p → Bool
  | .finish _ => true
  | _ => false

theorem Step.exists_of_finishes {p : Project} {s : Step p} (h : s.finishes = true) : ∃ path, s = .finish path := by
  cases s with
  | finish path => exact ⟨path, rfl⟩
  | _ => cases h

/-! ## Analyses -/

namespace Context

/-- That what monitors evaluate may be evaluated ahead, on all paths of a function. -/
def Foreseen (c : Context) (name : String) : Prop :=
  ∀ start, Start.of c.project name = .ok start → ∀ st, start.first.enter c.engine.loopBound = .ok st →
    ∀ st', c.engine.Reaches st st' → ∀ i, st'.frame.instr? = some i →
      (st'.frame.site i).Foreseen c.engine.setting st'.machine

variable {project : Project} {config : Config} {registry : Registry Hook} {c c' : Context} {names : List String}
  {name : String} {a a' : Analysis}

/-- The paths of a function without monitors. -/
theorem pathsOf_unwatched (hmonitors : c.engine.monitors = c.checkers.filterMap Checker.monitor?)
    (hforeseen : c.Foreseen name) {start : Start c.project} (hstart : Start.of c.project name = .ok start) :
    ((c.engine.pathsOf start).filter fun path => !path.ending.isFault Fault.isSafety).Sublist
        (c.engine.unwatched.pathsOf start) ∧
      ∀ path ∈ c.engine.unwatched.pathsOf start, path ∈ c.engine.pathsOf start ∨ ∃ q ∈ c.engine.pathsOf start,
        q.ending.isFault Fault.isSafety = true ∧ q.trail <:+ path.trail := by
  rw [c.engine.pathsOf_eq, c.engine.unwatched.pathsOf_eq]
  cases hin : start.first.enter c.engine.loopBound with
  | ok st =>
    rw [Engine.explore_of_ok hin, Engine.explore_of_ok (e := c.engine.unwatched) hin]
    exact Engine.exploreFrom_unwatched hmonitors (hforeseen start hstart st hin)
  | error path =>
    rw [Engine.explore_of_error hin, Engine.explore_of_error (e := c.engine.unwatched) hin]
    exact ⟨List.filter_sublist, fun q hq => Or.inl hq⟩

/-- **Monitors only look on.** Where a function is analyzed with monitors and without, and what monitors evaluate may
be evaluated ahead, all paths that do not end by a safety violation come up without monitors as well, with the same
blocks and the same results and in the same order. The other paths without monitors go on from where a monitor ended a
path. -/
theorem sublist_paths_unwatched (hc : make project config registry = .ok c)
    (hc' : make project { config with checkers := names } registry = .ok c')
    (hnames : ∀ k ∈ c'.checkers, k.monitor? = none) (hforeseen : c.Foreseen name) (ha : c.analyze name = .ok a)
    (ha' : c'.analyze name = .ok a') :
    a.exploration.fault = a'.exploration.fault ∧
      (a.exploration.paths.filter fun x => !x.result.isFault Fault.isSafety).Sublist a'.exploration.paths ∧
      ∀ x ∈ a'.exploration.paths, x ∈ a.exploration.paths ∨ ∃ y ∈ a.exploration.paths,
        y.result.isFault Fault.isSafety = true ∧ y.path.blocks <+: x.path.blocks := by
  have hmonitors := monitors_of_make hc
  obtain ⟨checkers, _, rfl⟩ := exists_of_make hc
  have hunwatched : c'.engine.monitors = [] := by
    rw [monitors_of_make hc']
    exact List.filterMap_eq_nil_iff.mpr hnames
  obtain ⟨checkers', _, rfl⟩ := exists_of_make hc'
  obtain ⟨x, hx, ha⟩ := exists_ok_of_bind ha
  obtain rfl := Except.ok.inj ha
  obtain ⟨x', hx', ha'⟩ := exists_ok_of_bind ha'
  obtain rfl := Except.ok.inj ha'
  let e : Engine project := {
    nullChecking := config.nullChecking, loopBound := config.loopBound, callDepth := config.callDepth,
    hooks := registry.hooks project, monitors := checkers.filterMap Checker.monitor? }
  -- Selecting checkers that have no monitor gives the engine without monitors, so the two analyses
  -- explore with `e` and `e.unwatched`.
  have hengine : ({ e with monitors := checkers'.filterMap Checker.monitor? } : Engine project) = e.unwatched := by
    rw [show checkers'.filterMap Checker.monitor? = [] from hunwatched]
    rfl
  have hx' : explore ⟨project, { config with checkers := names }, checkers', e.unwatched⟩ name = .ok x' :=
    hengine ▸ hx'
  obtain ⟨hfault, hsublist⟩ := sublist_paths_of_pathsOf hx hx' fun start hstart =>
    (pathsOf_unwatched hmonitors hforeseen hstart).1
  refine ⟨hfault, hsublist, fun y hy => ?_⟩
  rcases paths_of_explore hx' with ⟨_, _, _, hpaths'⟩ | ⟨start, hstart, _, hpaths'⟩
  · exact absurd (hpaths' ▸ hy) List.not_mem_nil
  · rcases paths_of_explore hx with ⟨_, hstart₁, _⟩ | ⟨start₁, hstart₁, _, hpaths⟩
    · cases hstart.symm.trans hstart₁
    · obtain rfl := Except.ok.inj (hstart.symm.trans hstart₁)
      rw [hpaths'] at hy
      obtain ⟨path, hpath, hof⟩ := List.mem_filterMap.mp hy
      rw [hpaths]
      rcases (pathsOf_unwatched hmonitors hforeseen hstart).2 path hpath with hmem | ⟨q, hq, hsafety, hsuffix⟩
      · exact Or.inl (List.mem_filterMap.mpr ⟨path, hmem, hof⟩)
      · obtain ⟨r, hr, hviolation⟩ := (Option.any_eq_true _ _).mp hsafety
        obtain ⟨_, _, rfl⟩ := Option.map_eq_some_iff.mp hof
        refine Or.inr ⟨⟨q, r⟩, List.mem_filterMap.mpr ⟨q, hq, ?_⟩, hviolation, List.reverse_prefix.mpr hsuffix⟩
        rw [Explored.of?, hr, Option.map_some]

/-! ### A function where looking ahead makes no difference -/

/-- Whether a function has one path, which ends after some steps, and monitors look only at registers and integers
on the way. -/
def looksWithin (c : Context) (n : Nat) (name : String) : Bool :=
  match Start.of c.project name with
  | .error _ => true
  | .ok start =>
    match start.first.enter c.engine.loopBound with
    | .error _ => true
    | .ok st =>
      ((List.range (n + 1)).all fun k => (c.engine.stateAfter? k st).all fun st' =>
        st'.frame.instr?.all fun i => (st'.frame.site i).looksInert c.engine.setting st'.machine) &&
        (c.engine.stateAfter? n st).any fun last => (c.engine.step last).finishes

theorem foreseen_of_looksWithin {n : Nat} (h : c.looksWithin n name = true) : c.Foreseen name := by
  intro start hstart st hin st' hst' i hi
  unfold looksWithin at h
  rw [hstart] at h
  dsimp only at h
  rw [hin] at h
  dsimp only at h
  obtain ⟨hlooks, hends⟩ := Bool.and_eq_true_iff.mp h
  obtain ⟨last, hlast, hfinishes⟩ := (Option.any_eq_true _ _).mp hends
  obtain ⟨path, hpath⟩ := Step.exists_of_finishes hfinishes
  obtain ⟨k, hk, hafter⟩ := Engine.exists_stateAfter?_of_reaches hlast hpath hst'
  have hstate := List.all_eq_true.mp hlooks k (List.mem_range.mpr (Nat.lt_succ_of_le hk))
  rw [hafter, Option.all_some, hi, Option.all_some] at hstate
  exact Site.foreseen_of_looksInert hstate

/-- A function that keeps half of what it is given in an array. -/
def halving : Module :=
  ⟨[], [⟨"main", .int 32, [("x", .int 32)], false, [
    ⟨"entry", [
      ⟨"a", .alloca (.array 2 (.int 32)) none⟩,
      ⟨"p", .gep true (.register "a") (some (.array 2 (.int 32)))
        [.constant (.int 64) (.int 0), .constant (.int 64) (.int 1)]⟩,
      ⟨"q", .arith .udiv [] (.register "x") (.constant (.int 32) (.int 2))⟩,
      ⟨"", .store (.register "q") (.register "p")⟩,
      ⟨"", .ret (some (.register "q"))⟩]⟩]⟩]⟩

/-- The division and the address are watched, and the path of the function is the same without monitors. -/
theorem unwatched_halving : (ofModule halving).Foreseen "main" ∧ ∃ a a' x, (ofModule halving).analyze "main" = .ok a ∧
    (unchecked halving).analyze "main" = .ok a' ∧ a.exploration.paths = [x] ∧ x.result.describe = "Return(_)" ∧
      x ∈ a'.exploration.paths := by
  have hforeseen : (ofModule halving).Foreseen "main" := foreseen_of_looksWithin (n := 4) (by decide +kernel)
  obtain ⟨q, hq, hresults⟩ := Option.map_eq_some_iff.mp
    (show ((ofModule halving).reportWithin 6 "main").map
        (fun q => q.paths.map fun r => (r.result, r.verdict.passed, r.aborted)) = some [("Return(_)", true, false)] by
      decide +kernel)
  obtain ⟨q', hq', _⟩ := Option.map_eq_some_iff.mp
    (show ((unchecked halving).reportWithin 6 "main").map (fun q => q.paths.length) = some 1 by decide +kernel)
  obtain ⟨a, _, ha, rfl, _⟩ := analyze_of_reportWithin hq
  obtain ⟨a', _, ha', _⟩ := analyze_of_reportWithin hq'
  obtain ⟨_, hsublist, _⟩ := sublist_paths_unwatched (make_ofModule halving) (make_unchecked halving)
    (fun k hk => absurd hk List.not_mem_nil) hforeseen ha ha'
  rw [(of_analyze ha).2, report] at hresults
  obtain ⟨x, hx⟩ : ∃ x, a.exploration.paths = [x] :=
    List.length_eq_one_iff.mp (by simpa using congrArg List.length hresults)
  rw [hx] at hresults
  obtain ⟨hresult, hpassed, hnone⟩ : x.result.describe = "Return(_)" ∧
      (Checker.verdict (ofModule halving).checkers x.result).passed = true ∧
        ((Checker.verdict (ofModule halving).checkers x.result).passed = true → x.result.fault? = none) := by
    simpa [PathReport.of] using hresults
  -- The one path passes, so no checker has cut it short and it stays without them.
  have hkept : x ∈ a.exploration.paths.filter fun x => !x.result.isFault Fault.isSafety := by
    rw [hx, List.filter_cons_of_pos (by rw [Result.isFault, hnone hpassed]; rfl)]
    exact List.mem_cons_self
  exact ⟨hforeseen, a, a', x, ha, ha', hx, hresult, hsublist.subset hkept⟩

/-! ### Globals that are met in another order -/

/-- A function that divides the address of one variable by that of another one. -/
def addressQuotient : Module :=
  ⟨[⟨"a", .int 8, none⟩, ⟨"b", .int 8, none⟩], [⟨"main", .int 64, [], false, [
    ⟨"entry", [
      ⟨"q", .arith .udiv [] (.constant (.int 64) (.expression "ptrtoint (i8* @\"a\" to i64)"))
        (.constant (.int 64) (.expression "ptrtoint (i8* @\"b\" to i64)"))⟩,
      ⟨"", .ret (some (.register "q"))⟩]⟩]⟩]⟩

/-- The monitor meets the divisor first, which gets the lower address. -/
theorem results_addressQuotient :
    ((ofModule addressQuotient).reportWithin 3 "main").map (fun q => q.paths.map (·.result)) =
        some ["Return(<BV64 0x1>)"] ∧
      ((unchecked addressQuotient).reportWithin 3 "main").map (fun q => q.paths.map (·.result)) =
        some ["Return(<BV64 0x0>)"] := by
  constructor
  · decide +kernel
  · decide +kernel

end Context

end PathSafety
