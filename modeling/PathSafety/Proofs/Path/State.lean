import PathSafety.Proofs.Path.Move

/-!
# What a path keeps

The machine of a path is sound, the values in the registers of its frames have the widths of their types,
every frame has an instruction left, and every caller stands at the call that it waits for.

Contents:

* `Machine.Onward` — what the machine of a path may become;
* `Waits`, `State.Good` — the invariant of paths;
* `State.Good.next`, `.goto`, `.enter`, `.leave` — every way that control can go keeps it.
-/

namespace PathSafety

open IR Machine

variable {s : Setting} {place : Concrete.Placement} {all : Prop} {T T' : Table} {p : Project} {f g : Frame p}
  {m m' : Machine}

/-! ## Machines -/

namespace Machine

variable {T₁ T₂ : Table} {m₁ m₂ : Machine}

/-- What the machine of a path may become: it stands for some of the inputs, with more symbols and more global
values. -/
structure Onward (s : Setting) (place : Concrete.Placement) (all : Prop) (T : Table) (m : Machine) (T' : Table)
    (m' : Machine) : Prop where
  sound : Sound s T' m'
  table : ∃ new, T' = T ++ new ∧ ∀ o ∈ new, ∃ b j, o = .memory b j
  meets : ∀ i : Input, i.Meets m'.condition.conds → i.Meets m.condition.conds
  addresses : ∀ n v, m.addresses.get? n = some v → m'.addresses.get? n = some v
  next : m.nextAddress ≤ m'.nextAddress
  pristine : ∀ i : Input, Covers s place m' → i.Loads s.project place → i.Meets m'.condition.conds →
    Pristine s i place m → Pristine s i place m'
  filed : all → Covers s place m' → Filed s place T m → Filed s place T' m'

theorem Steps.onward (h : Steps s place all T m T₁ m₁) : Onward s place all T m T₁ m₁ where
  sound := h.sound
  table := h.table
  meets i := (h.meets i).mp
  addresses := h.addresses
  next := h.next
  pristine i hcovers hloads hi := h.pristine i hcovers hloads ((h.meets i).mp hi)
  filed := h.filed

theorem Onward.refl (hm : Sound s T m) : Onward s place all T m T m := (Quiet.refl hm).steps.onward

theorem Onward.trans (h₁ : Onward s place all T m T₁ m₁) (h₂ : Onward s place all T₁ m₁ T₂ m₂) :
    Onward s place all T m T₂ m₂ where
  sound := h₂.sound
  table := by
    obtain ⟨new₁, rfl, hnew₁⟩ := h₁.table
    obtain ⟨new₂, rfl, hnew₂⟩ := h₂.table
    exact ⟨new₁ ++ new₂, List.append_assoc T new₁ new₂, fun o ho =>
      (List.mem_append.mp ho).elim (hnew₁ o) (hnew₂ o)⟩
  meets i hi := h₁.meets i (h₂.meets i hi)
  addresses n v hn := h₂.addresses n v (h₁.addresses n v hn)
  next := Nat.le_trans h₁.next h₂.next
  pristine i hcovers hloads hi hm :=
    h₂.pristine i hcovers hloads hi
      (h₁.pristine i (hcovers.of_addresses h₂.addresses) hloads (h₂.meets i hi) hm)
  filed hall hcovers hm := h₂.filed hall hcovers (h₁.filed hall (hcovers.of_addresses h₂.addresses) hm)

/-- An arm of a fork. -/
theorem Narrowed.onward (h : Narrowed s T m m₁) : Onward s place all T m T m₁ where
  sound := h.sound
  table := ⟨[], (List.append_nil T).symm, fun _ ho => absurd ho List.not_mem_nil⟩
  meets := h.meets
  addresses n v hn := by rwa [h.addresses]
  next := Nat.le_of_eq h.next.symm
  pristine i _ _ _ hm := by
    intro n a g hnone hplace hg hinit k hk
    rw [h.memory]
    exact hm n a g (by rwa [← h.addresses]) hplace hg hinit k hk
  filed _ _ hm := {
    stored := by
      intro n v g hn hg hinit a ha k hk
      rw [h.memory]
      exact hm.stored n v g (by rwa [← h.addresses]) hg hinit a ha k hk
    separate := hm.separate }

theorem Onward.wellTyped (h : Onward s place all T m T₁ m₁) (hf : f.WellTyped s T) : f.WellTyped s T₁ := by
  obtain ⟨new, rfl, _⟩ := h.table
  exact fun n v hn => ⟨(hf n v hn).1.append new, (hf n v hn).2⟩

end Machine

/-! ## States -/

/-- That frames wait for one another: each of them stands at a call of the function above. -/
def Waits : Function → List (Frame p) → Prop
  | _, [] => True
  | fn, f :: fs => (∃ i, f.instr? = some i ∧ (f.site i).Calls fn) ∧ Waits f.routine.function fs

/-- The invariant of paths. -/
structure State.Good (s : Setting) (T : Table) (st : State p) : Prop where
  sound : Sound s T st.machine
  typed : ∀ f ∈ st.frame :: st.callers, f.WellTyped s T
  inRange : ∀ f ∈ st.frame :: st.callers, f.InRange
  waits : Waits st.frame.routine.function st.callers

namespace State.Good

variable {st : State p} {i : Instr}

/-- There is an instruction to execute. -/
theorem exists_instr (h : st.Good s T) : ∃ i, st.frame.instr? = some i :=
  ⟨_, List.getElem?_eq_getElem (h.inRange st.frame List.mem_cons_self)⟩

theorem callers_typed (h : st.Good s T) (hm : Onward s place all T m T' m') :
    ∀ f ∈ st.callers, f.WellTyped s T' :=
  fun f hf => hm.wellTyped (h.typed f (List.mem_cons_of_mem _ hf))

theorem callers_inRange (h : st.Good s T) : ∀ f ∈ st.callers, f.InRange :=
  fun f hf => h.inRange f (List.mem_cons_of_mem _ hf)

end State.Good

section Moves

variable {e : Engine p} {st st' : State p} {i : Instr}

/-- The instructions of frames can be executed. -/
theorem Frame.fits_instr (hfit : Fit e.setting) (hi : f.instr? = some i) :
    Fits.instr e.setting.project f.routine i = true :=
  (hfit.block f.routine_mem f.block_mem).1 i (List.mem_of_getElem? hi)

theorem State.Good.site (h : st.Good e.setting T) (hfit : Fit e.setting) (hi : st.frame.instr? = some i) :
    (st.frame.site i).WellTyped e.setting T := by
  have hfits := Frame.fits_instr hfit hi
  simp only [Fits.instr, Bool.and_eq_true] at hfits
  exact ⟨hfits.1, h.typed st.frame List.mem_cons_self, fun hagrees =>
    Project.agrees_op hagrees st.frame.routine_mem st.frame.block_mem (List.mem_of_getElem? hi)⟩

/-- After an instruction that does not end its block there is another one. -/
theorem Frame.inRange_finish (hfit : Fit e.setting) (hi : f.instr? = some i) (hends : Fits.ends i.op = false)
    (result : Option Value) : (f.finish result).InRange :=
  succ_lt_length (hfit.block f.routine_mem f.block_mem).2.1 hi hends

/-- To the next instruction. -/
theorem State.Good.next (h : st.Good e.setting T) (hfit : Fit e.setting) (hi : st.frame.instr? = some i)
    (hends : Fits.ends i.op = false) {result : Option Value}
    (heffect : Effect e.setting place all (st.frame.site i) T m result T' m')
    (hm : Onward e.setting place all T st.machine T' m') (hst' : st' = { st with
      machine := m', frame := st.frame.finish result, executed := st'.executed }) : st'.Good e.setting T' := by
  rw [hst']
  exact {
    sound := hm.sound
    typed := List.forall_mem_cons.mpr
      ⟨(hm.wellTyped (h.typed st.frame List.mem_cons_self)).finish hi fun v hv =>
        ⟨(heffect.typed v hv).1, width_register_of_fits (Frame.fits_instr hfit hi) (heffect.typed v hv).2⟩,
        h.callers_typed hm⟩
    inRange := List.forall_mem_cons.mpr ⟨Frame.inRange_finish hfit hi hends result, h.callers_inRange⟩
    waits := h.waits }

/-- To the beginning of a block. -/
theorem State.Good.goto (h : st.Good e.setting T) (hfit : Fit e.setting) {target : String}
    (hg : st.frame.jump? target = some g) (hm : Onward e.setting place all T st.machine T m')
    (hst' : st' = { st with
      machine := m', frame := g, trail := st'.trail, executed := st'.executed }) :
    st'.Good e.setting T := by
  obtain ⟨b, _, hroutine, _, hindex, _, hregisters⟩ := Frame.eq_of_jump? hg
  rw [hst']
  exact {
    sound := hm.sound
    -- A jump changes the block only: the registers are the ones typed before.
    typed := List.forall_mem_cons.mpr ⟨by
      unfold Frame.WellTyped
      rw [hroutine, hregisters]
      exact h.typed st.frame List.mem_cons_self, h.callers_typed hm⟩
    inRange := List.forall_mem_cons.mpr ⟨by
      unfold Frame.InRange
      rw [hindex]
      exact length_pos_of_fits (hfit.block g.routine_mem g.block_mem).2.1, h.callers_inRange⟩
    waits := by
      show Waits g.routine.function st.callers
      rw [hroutine]
      exact h.waits }

/-- Into a function. -/
theorem State.Good.enter (h : st.Good e.setting T) (hi : st.frame.instr? = some i)
    (henters : Enters e.setting place (st.frame.site i) T m g m')
    (hm : Onward e.setting place all T st.machine T m') (hst' : st' = { st with
      machine := m', frame := g, callers := st.frame :: st.callers, trail := st'.trail,
      executed := st'.executed }) : st'.Good e.setting T := by
  rw [hst']
  exact {
    sound := hm.sound
    typed := List.forall_mem_cons.mpr ⟨henters.typed, fun f hf => hm.wellTyped (h.typed f hf)⟩
    inRange := List.forall_mem_cons.mpr ⟨henters.inRange, h.inRange⟩
    waits := ⟨⟨i, hi, henters.calls⟩, h.waits⟩ }

/-- Back to the caller. The value that comes back has the width of the call's register, because the caller
stands at a call of the function that is left. -/
theorem State.Good.leave (h : st.Good e.setting T) (hfit : Fit e.setting) {caller : Frame p}
    {callers : List (Frame p)} (hcallers : st.callers = caller :: callers) {result : Option Value}
    (hleaves : Leaves e.setting place (st.frame.site i) T m result m')
    (hm : Onward e.setting place all T st.machine T m') (hst' : st' = { st with
      machine := m', frame := caller.finish result, callers, executed := st'.executed }) :
    st'.Good e.setting T := by
  have htyped := h.callers_typed hm
  have hinRange := h.callers_inRange
  have hwaits := h.waits
  rw [hcallers] at htyped hinRange hwaits
  -- The caller waits at the call that led here, so what it binds has the width its result needs.
  obtain ⟨⟨j, hj, callee, args, hop, htarget, hname⟩, hrest⟩ := hwaits
  have hends : Fits.ends j.op = false := by
    rw [show j.op = .call callee args from hop]
    rfl
  rw [hst']
  exact {
    sound := hm.sound
    typed := List.forall_mem_cons.mpr ⟨(htyped caller List.mem_cons_self).finish hj fun v hv => by
      refine ⟨(hleaves.typed v hv).1, width_register_of_fits (Frame.fits_instr hfit hj) ?_⟩
      rw [show j.op = .call callee args from hop]
      show (Fits.target? caller.routine callee).bind _ = _
      rw [show Fits.target? caller.routine callee = some st.frame.routine.function from htarget,
        Option.bind_some, hname]
      exact (hleaves.typed v hv).2, fun f hf => htyped f (List.mem_cons_of_mem _ hf)⟩
    inRange := List.forall_mem_cons.mpr
      ⟨Frame.inRange_finish hfit hj hends result, fun f hf => hinRange f (List.mem_cons_of_mem _ hf)⟩
    waits := hrest }

end Moves

end PathSafety
