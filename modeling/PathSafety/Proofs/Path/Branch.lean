import PathSafety.Proofs.Path.Frame

/-!
# Forks

Where several successors are possible, the path splits into one arm for each. If the conditions of the
successors are such that exactly one of them holds for every input, then every input that meets the condition
of the path meets that of exactly one arm: an impossible successor holds for no input, and where one successor
only is possible its condition need not be added.

Contents:

* `Machine.Narrowed` — a machine that stands for some of the inputs of another;
* `does_feasible`, `does_splitOff` — the possible successors, and the arms that are split off;
* `Forks`, `forks_singleton`, `forks_cons` — the arms of a fork, by how many successors are possible;
* `does_branch` — forks.
-/

namespace PathSafety

open IR Machine

namespace Machine

variable {s : Setting} {T : Table} {m m₁ m₂ : Machine}

/-- That a machine differs from another one in standing for less inputs. -/
structure Narrowed (s : Setting) (T : Table) (m m' : Machine) : Prop where
  sound : Sound s T m'
  meets : ∀ i : Input, i.Meets m'.condition.conds → i.Meets m.condition.conds
  memory : m'.memory = m.memory
  addresses : m'.addresses = m.addresses
  next : m'.nextAddress = m.nextAddress

theorem Asked.narrowed (h : Asked m m₁) (hm : Sound s T m) : Narrowed s T m m₁ := by
  have hsound := h.sound hm
  obtain ⟨q, hq, rfl⟩ := h
  exact ⟨hsound, fun i => by rw [hq]; exact id, rfl, rfl, rfl⟩

/-- Assuming a condition that can hold. -/
theorem narrowed_assume (h : Asked m m₁) (hm : Sound s T m) {c : Cond} (hc : c.Known T)
    (hν : ∃ ν, Term.AllHold ν m.condition.conds ∧ c.Holds ν) :
    Narrowed s T m { m₁ with condition := m₁.condition.assume c } := by
  have hsound := h.sound hm
  have hconds := h.conds
  obtain ⟨q, hq, rfl⟩ := h
  exact {
    sound := {
      symbols := hm.symbols
      conds := List.forall_mem_cons.mpr ⟨hc, hsound.conds⟩
      feasible := hν.imp fun ν h => List.forall_mem_cons.mpr ⟨h.2, by rw [hq]; exact h.1⟩
      known := hm.known
      apart := hm.apart
      positive := hm.positive
      laid := hm.laid.imp fun _ h => ⟨h.eq, h.le, h.apart⟩ }
    meets := fun i hi => by
      have := (Input.meets_cons.mp hi).2
      rwa [hq] at this
    memory := rfl
    addresses := rfl
    next := rfl }

end Machine

variable {s : Setting} {T : Table} {p : Project} {f : Frame p} {m m₁ : Machine} {D : Prop}
  {ss : List (Cond × String)}

/-! ## Successors -/

/-- The possible successors: leaving out the others leaves out none that holds for some input. -/
theorem does_feasible {E : Fault → Machine → Prop} (ss : List (Cond × String)) :
    Does D (Engine.feasible ss) m
      (fun r m' => Asked m m' ∧
        (∀ x ∈ r, x ∈ ss ∧ ∃ ν, Term.AllHold ν m.condition.conds ∧ x.1.Holds ν) ∧
        ∀ P : Cond × String → Bool,
          (∀ x ∈ ss, P x = true → ∃ ν, Term.AllHold ν m.condition.conds ∧ x.1.Holds ν) →
          r.countP P = ss.countP P) E := by
  -- Asking leaves the conditions alone, so the successors left are judged under the same ones as
  -- the first.
  induction ss generalizing m with
  | nil => exact does_pure ⟨.refl m, fun x hx => absurd hx List.not_mem_nil, fun _ _ => rfl⟩
  | cons x ss ih =>
    refine does_bind ((does_sat x.1).mono ?_ fun _ _ h => h)
    rintro b m₁ ⟨h₁, hb⟩
    refine does_bind (ih.mono ?_ fun _ _ h => h)
    rintro r m₂ ⟨h₂, hmem, hcount⟩
    rw [h₁.conds] at hmem hcount
    cases b with
    | true =>
      refine does_pure ⟨h₁.trans h₂, ?_, fun P hP => ?_⟩
      · intro y hy
        rcases List.mem_cons.mp hy with rfl | hy
        · exact ⟨List.mem_cons_self, hb.mp rfl⟩
        · exact ⟨List.mem_cons_of_mem _ (hmem y hy).1, (hmem y hy).2⟩
      · show List.countP P (x :: r) = _
        rw [List.countP_cons, List.countP_cons, hcount P fun y hy => hP y (List.mem_cons_of_mem _ hy)]
    | false =>
      refine does_pure ⟨h₁.trans h₂, fun y hy => ⟨List.mem_cons_of_mem _ (hmem y hy).1, (hmem y hy).2⟩,
        fun P hP => ?_⟩
      have hno : ¬ P x = true := fun hx => Bool.false_ne_true (hb.mpr (hP x List.mem_cons_self hx))
      show List.countP P r = _
      rw [List.countP_cons_of_neg hno, hcount P fun y hy => hP y (List.mem_cons_of_mem _ hy)]

theorem does_jump {E : Fault → Machine → Prop} {target : String}
    (h : (f.routine.function.block? target).isSome) :
    Does D (Engine.jump f target) m (fun g m' => m' = m ∧ f.jump? target = some g) E := by
  obtain ⟨g, hg⟩ := Frame.exists_jump? h
  unfold Engine.jump
  rw [hg]
  exact does_pure ⟨rfl, rfl⟩

/-- The arms that are split off: the same machine with one more condition each. -/
theorem does_splitOff {E : Fault → Machine → Prop}
    (hleads : ∀ x ∈ ss, (f.routine.function.block? x.2).isSome) :
    Does D (Engine.splitOff f ss) m
      (fun r m' => m' = m ∧
        r.map (·.1) = ss.map (fun x => { m with condition := m.condition.assume x.1 }) ∧
        ∀ y ∈ r, ∃ x ∈ ss, y.1 = { m with condition := m.condition.assume x.1 } ∧
          f.jump? x.2 = some y.2) E := by
  induction ss with
  | nil => exact does_pure ⟨rfl, rfl, fun y hy => absurd hy List.not_mem_nil⟩
  | cons x ss ih =>
    refine does_bind ((does_jump (hleads x List.mem_cons_self)).mono ?_ fun _ _ h => h)
    rintro g m₁ ⟨rfl, hg⟩
    refine does_bind (does_get (does_bind ((ih fun y hy => hleads y (List.mem_cons_of_mem _ hy)).mono ?_
      fun _ _ h => h)))
    rintro r m₂ ⟨rfl, hmap, hmem⟩
    refine does_pure ⟨rfl, ?_, ?_⟩
    · rw [List.map_cons, List.map_cons, hmap]
    · intro y hy
      rcases List.mem_cons.mp hy with rfl | hy
      · exact ⟨x, List.mem_cons_self, rfl, hg⟩
      · obtain ⟨z, hz, hy'⟩ := hmem y hy
        exact ⟨z, List.mem_cons_of_mem _ hz, hy'⟩

/-- Among arms that differ by one condition each, an input meets those whose condition holds. -/
theorem countP_arms {i : Input} (hi : i.Meets m.condition.conds) {arms : List (Machine × Frame p)}
    (h : arms.map (·.1) = ss.map fun x => { m with condition := m.condition.assume x.1 }) :
    arms.countP (fun y => decide (i.Meets y.1.condition.conds)) =
      ss.countP fun x => decide (x.1.meaning i.reading = 1#1) := by
  have hcount := congrArg (List.countP fun m : Machine => decide (i.Meets m.condition.conds)) h
  rw [List.countP_map, List.countP_map] at hcount
  refine hcount.trans (List.countP_congr fun x _ => ?_)
  simp only [Function.comp_def, decide_eq_true_iff]
  exact Input.meets_cons.trans (and_iff_left hi)

/-! ## Forks -/

/-- That some arms are those of a fork: each goes to a successor whose condition holds for the inputs of the
arm, and every input goes to one arm. -/
structure Forks (s : Setting) (T : Table) (f : Frame p) (ss : List (Cond × String)) (m : Machine)
    (arms : List (Machine × Frame p)) : Prop where
  arm : ∀ y ∈ arms, Narrowed s T m y.1 ∧ ∃ x ∈ ss, f.jump? x.2 = some y.2 ∧
    ∀ i : Input, i.Meets y.1.condition.conds → x.1.meaning i.reading = 1#1
  one : ∀ i : Input, i.Meets m.condition.conds →
    arms.countP (fun y => decide (i.Meets y.1.condition.conds)) = 1

section Possible

variable {x : Cond × String} {r : List (Cond × String)} {g : Frame p} (hasked : Asked m m₁) (hm : Sound s T m)
include hasked hm

/-- Where one successor only is possible, every input of the path goes there. -/
theorem forks_singleton (hx : x ∈ ss) (hg : f.jump? x.2 = some g)
    (hone : ∀ i : Input, i.Meets m.condition.conds →
      [x].countP (fun x => decide (x.1.meaning i.reading = 1#1)) = 1) : Forks s T f ss m [(m₁, g)] where
  arm y hy := by
    obtain rfl := List.mem_singleton.mp hy
    refine ⟨hasked.narrowed hm, x, hx, hg, fun i hi => ?_⟩
    have hcount := hone i (by rwa [← hasked.conds])
    by_cases hholds : x.1.meaning i.reading = 1#1
    · exact hholds
    · rw [List.countP_cons_of_neg (by simpa using hholds)] at hcount
      cases hcount
  one i hi := by
    have hmeets : i.Meets m₁.condition.conds := by rwa [hasked.conds]
    rw [List.countP_cons_of_pos (by simpa using hmeets)]
    rfl

/-- Where several are, each arm assumes the condition of its own. -/
theorem forks_cons {arms : List (Machine × Frame p)} (hknown : ∀ x ∈ ss, x.1.Known T)
    (hmem : ∀ y ∈ x :: r, y ∈ ss ∧ ∃ ν, Term.AllHold ν m.condition.conds ∧ y.1.Holds ν)
    (hg : f.jump? x.2 = some g)
    (hmap : arms.map (·.1) = r.map fun x => { m₁ with condition := m₁.condition.assume x.1 })
    (harms : ∀ y ∈ arms, ∃ x ∈ r, y.1 = { m₁ with condition := m₁.condition.assume x.1 } ∧ f.jump? x.2 = some y.2)
    (hone : ∀ i : Input, i.Meets m.condition.conds →
      (x :: r).countP (fun x => decide (x.1.meaning i.reading = 1#1)) = 1) :
    Forks s T f ss m (({ m₁ with condition := m₁.condition.assume x.1 }, g) :: arms) where
  arm y hy := by
    rcases List.mem_cons.mp hy with rfl | hy
    · obtain ⟨hx, hpossible⟩ := hmem x List.mem_cons_self
      exact ⟨narrowed_assume hasked hm (hknown x hx) hpossible, x, hx, hg, fun i hi => (Input.meets_cons.mp hi).1⟩
    · obtain ⟨z, hz, hy₁, hjump⟩ := harms y hy
      obtain ⟨hss, hpossible⟩ := hmem z (List.mem_cons_of_mem x hz)
      rw [hy₁]
      exact ⟨narrowed_assume hasked hm (hknown z hss) hpossible, z, hss, hjump,
        fun i hi => (Input.meets_cons.mp hi).1⟩
  one i hi := by
    -- an arm is met by the inputs that meet the condition of its successor
    have hmeets : i.Meets m₁.condition.conds := by rwa [hasked.conds]
    have hall : ((({ m₁ with condition := m₁.condition.assume x.1 } : Machine), g) :: arms).map (·.1) =
        (x :: r).map fun x => { m₁ with condition := m₁.condition.assume x.1 } := by
      rw [List.map_cons, hmap]
      rfl
    rw [← hone i hi]
    exact countP_arms hmeets hall

end Possible

/-- **Forks.** -/
theorem does_branch (hm : Sound s T m) (hknown : ∀ x ∈ ss, x.1.Known T)
    (hleads : ∀ x ∈ ss, (f.routine.function.block? x.2).isSome)
    (hone : ∀ i : Input, i.Meets m.condition.conds →
      ss.countP (fun x => decide (x.1.meaning i.reading = 1#1)) = 1) :
    Does D (Engine.branch f ss) m
      (fun mv m' => ∃ g others, mv = .goto g others ∧ Forks s T f ss m ((m', g) :: others))
      (fun g m' => g.violation? = none ∧ Asked m m') := by
  unfold Engine.branch
  refine does_bind ((does_feasible ss).mono ?_ fun _ _ h => h)
  rintro r m₁ ⟨hasked, hmem, hcount⟩
  -- Of the successors that are possible exactly one holds as well: those left out hold for no input.
  have hcount' : ∀ i : Input, i.Meets m.condition.conds →
      r.countP (fun x => decide (x.1.meaning i.reading = 1#1)) = 1 := by
    intro i hi
    rw [hcount _ fun x hx hholds => ?_, hone i hi]
    refine ⟨i.valuation T, (meets_iff hm.conds i).mp hi, ?_⟩
    rw [Term.Holds, ← (hknown x hx).meaning_eq i]
    exact of_decide_eq_true hholds
  rcases r with _ | ⟨x, _ | ⟨x', others⟩⟩
  · exact does_fault ⟨rfl, hasked⟩
  · have hx := (hmem x List.mem_cons_self).1
    refine does_bind ((does_jump (hleads x hx)).mono ?_ fun _ _ h => h)
    rintro g m₂ ⟨rfl, hg⟩
    exact does_pure ⟨g, [], rfl, forks_singleton hasked hm hx hg hcount'⟩
  · have hx := (hmem x List.mem_cons_self).1
    refine does_bind ((does_splitOff fun y hy =>
      hleads y (hmem y (List.mem_cons_of_mem x hy)).1).mono ?_ fun _ _ h => h)
    rintro arms m₂ ⟨rfl, hmap, harms⟩
    refine does_bind (does_modify (does_bind ((does_jump (hleads x hx)).mono ?_ fun _ _ h => h)))
    rintro g m₃ ⟨rfl, hg⟩
    exact does_pure ⟨g, arms, rfl, forks_cons hasked hm hknown hmem hg hmap harms hcount'⟩

end PathSafety
