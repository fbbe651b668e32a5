import PathSafety.Proofs.Hooks.Routing
import PathSafety.Proofs.Machine.Block
import PathSafety.Proofs.Path.Frame

/-!
# Calls

A call of an intrinsic does what the intrinsic does; a call of a function with a body, which no hook takes,
enters the function as a run does.

Contents:

* `Engine.Plain` — engines whose projects are well typed and whose hooks leave functions with bodies alone;
* `quietly_evalAll` — arguments;
* `Enters`, `Finishes` — going into a function, and ending the program;
* `does_intrinsic`, `does_inline` — calls.
-/

namespace PathSafety

open IR Machine

variable {s : Setting} {place : Concrete.Placement} {all : Prop} {T : Table} {p : Project} {f g : Frame p}
  {m m₁ : Machine} {D : Prop} {site : Site} {callee : Operand} {args : List Operand} {fn : Function}

/-- That the project of an engine is well typed, and no function with a body is hooked. -/
structure Engine.Plain (e : Engine p) : Prop where
  fit : Fit e.setting
  modules : ∃ modules layout, Project.ofModules? modules layout = some p
  unhooked : ∀ r ∈ p.routines, r.function.isDeclaration = false → e.hooks.byName r.function.name = none

/-! ## Arguments -/

/-- **Arguments** have the widths and the words of their operands. -/
theorem quietly_evalAll (hfit : Fit s) (hsite : site.WellTyped s T) {os : List Operand}
    (htaken : ∀ o ∈ os, o ∈ site.instr.op.taken) (hos : Fits.valued s.project site.routine os = true)
    (hm : Sound s T m) :
    Quietly D s T (site.evalAll s os) m fun vs m' =>
      os.map (Fits.width? s.project site.routine) = vs.map (fun v => some v.width) ∧
        (∀ v ∈ vs, v.Known T) ∧
        ∀ i place cs, Covers s place m' → Represents i site.registers cs →
          os.mapM (Concrete.operand s.project place cs) = some (vs.map (Value.word i)) := by
  induction os generalizing m with
  | nil => exact quietly_pure hm ⟨rfl, fun v hv => absurd hv List.not_mem_nil, fun _ _ _ _ _ => rfl⟩
  | cons o os ih =>
    simp only [Fits.valued, List.all_cons, Bool.and_eq_true] at hos
    obtain ⟨w, hw⟩ := Option.isSome_iff_exists.mp hos.1
    refine quietly_bind (quietly_site_eval hfit hsite (htaken o List.mem_cons_self) hw hm) fun v m₁ h₁ hv => ?_
    obtain ⟨hwidth, hv, _⟩ := hv
    refine quietly_bind (ih (fun o ho => htaken o (List.mem_cons_of_mem _ ho)) hos.2 h₁.sound) fun vs m₂ h₂ hvs => ?_
    obtain ⟨hwidths, hknown, hwords⟩ := hvs
    refine quietly_pure h₂.sound ⟨?_, List.forall_mem_cons.mpr ⟨hv.known, hknown⟩, ?_⟩
    · rw [List.map_cons, List.map_cons, hw, hwidth, hwidths]
    · intro i place cs hcovers hcs
      rw [List.mapM_cons, (hv.quiet h₂).word i place cs hcovers hcs, hwords i place cs hcovers hcs]
      rfl

/-! ## Where calls lead -/

/-- That an instruction calls a function with a body. -/
def Site.Calls (site : Site) (fn : Function) : Prop :=
  ∃ callee args, site.instr.op = .call callee args ∧ Fits.target? site.routine callee = some fn ∧
    Intrinsic.ofName? fn.name = none

/-- That a frame is at the beginning of a function as a run is that goes into it. -/
structure Enters (s : Setting) (place : Concrete.Placement) (site : Site) (T : Table) (m : Machine)
    (g : Frame p) (m' : Machine) : Prop where
  quiet : Quiet s T m m'
  typed : g.WellTyped s T
  inRange : g.InRange
  index : g.index = 0
  calls : site.Calls g.routine.function
  silent : Silent s place site
  exec : ∀ i c entry, Covers s place m' → site.Holds i c → ∃ a, g.Matches i a ∧ a.entry = none ∧
    Concrete.exec s.project place c entry site.instr.op =
      some (.go { c with current := a, callers := c.current :: c.callers })

/-- That an instruction ends the program as a run ends. -/
structure Finishes (s : Setting) (place : Concrete.Placement) (site : Site) (T : Table) (m : Machine)
    (o : Outcome) (m' : Machine) : Prop where
  quiet : Quiet s T m m'
  silent : Silent s place site
  exec : ∀ i c entry, Covers s place m' → site.Holds i c →
    Concrete.exec s.project place c entry site.instr.op = some (.halt (o.halt i))

/-- A call accesses memory only where it copies or fills it. -/
theorem silent_call (hop : site.instr.op = .call callee args)
    (htarget : Fits.target? site.routine callee = some fn)
    (hname : Intrinsic.ofName? fn.name ≠ some .copy ∧ Intrinsic.ofName? fn.name ≠ some .fill) :
    Silent s place site := by
  intro i c hc
  rw [accessed_call hop htarget hc]
  split
  · rename_i h
    exact absurd h hname.1
  · rename_i h
    exact absurd h hname.2
  · rfl

/-! ## Intrinsics -/

/-- **Intrinsics** go to the next instruction or end the program. -/
theorem does_intrinsic (hfit : Fit s) (hsite : site.WellTyped s T) (hm : Sound s T m)
    (hop : site.instr.op = .call callee args) (htarget : Fits.target? site.routine callee = some fn)
    {k : Intrinsic} (hk : Intrinsic.ofName? fn.name = some k) (hproper : Proper s place all site m) :
    Does D (intrinsic s ⟨site, callee, args⟩ fn.name k) m
      (fun o m' => (o = .returnedVoid ∧ ∃ T', Effect s place all site T m none T' m') ∨
        (Engine.resume (p := p) o = .finish o ∧ Finishes s place site T m o m'))
      (Halts s place all site T m) := by
  cases k with
  | abort =>
    refine does_pure (Or.inr ⟨rfl, .refl hm,
      silent_call hop htarget (by rw [hk]; decide), fun i c entry hcovers hc => ?_⟩)
    rw [exec_intrinsic hop htarget hk hc]
    rfl
  | throwing =>
    obtain ⟨o, w, ho, harg, hw⟩ := exists_arg hop htarget hk hsite.fits (j := 0) (by decide)
    unfold intrinsic
    rw [harg]
    refine does_bind (does_pure (does_bind (Does.mono (quietly_site_eval hfit hsite
      (Op.mem_taken hop (List.mem_of_getElem? ho)) hw hm) ?_ fun g m' hg => hg.halts)))
    rintro v m₁ ⟨h₁, _, hv, _⟩
    refine does_pure (Or.inr ⟨rfl, h₁,
      silent_call hop htarget (by rw [hk]; decide), fun i c entry hcovers hc => ?_⟩)
    rw [exec_intrinsic hop htarget hk hc]
    show (do return Concrete.Next.halt (.threw (← Concrete.Config.arg s.project place c args 0))) = _
    rw [arg_eq ho hv hcovers hc]
    rfl
  | marker =>
    -- A marker does nothing, in the engine as in the concrete run.
    refine does_pure (Or.inl ⟨rfl, T, effect_none_of_quiet (.refl hm) hop htarget hk fun i c _ hc =>
      ⟨rfl, silent_call hop htarget (by rw [hk]; decide) i c hc⟩⟩)
  | copy =>
    unfold intrinsic
    refine does_bind ((does_copyBlock hfit hsite hm hop htarget hk hproper).mono ?_ fun _ _ h => h)
    exact fun _ m' h => does_pure (Or.inl ⟨rfl, h⟩)
  | fill =>
    unfold intrinsic
    refine does_bind ((does_fillBlock hfit hsite hm hop htarget hk hproper).mono ?_ fun _ _ h => h)
    exact fun _ m' h => does_pure (Or.inl ⟨rfl, h⟩)

/-! ## Functions with bodies -/

/-- A well-typed call that is none of an intrinsic goes to a function with a body, with arguments of the
widths of the parameters. -/
theorem call_fits (hsite : site.WellTyped s T) (hop : site.instr.op = .call callee args) :
    ∃ fn, Fits.target? site.routine callee = some fn ∧ (Intrinsic.ofName? fn.name = none →
      fn.isDeclaration = false ∧ Fits.valued s.project site.routine args = true ∧
        ∀ x ∈ fn.params.zip args,
          Fits.width? s.project site.routine x.2 = s.project.layout.scalarBits? x.1.2) := by
  have hfits := hsite.fits
  rw [hop] at hfits
  simp only [Fits.op] at hfits
  split at hfits
  · cases hfits
  · rename_i fn htarget
    refine ⟨fn, htarget, fun hname => ?_⟩
    rw [hname] at hfits
    simp only [Bool.and_eq_true, Bool.not_eq_true'] at hfits
    exact ⟨hfits.1.1, hfits.1.2, fun x hx => eq_of_beq (List.all_eq_true.mp hfits.2 x hx)⟩

/-- What operands and values have in common, the parameters to which they are bound have in common. -/
theorem forall_mem_zip {α β γ δ : Type} {ps : List γ} {os : List α} {vs : List β} {F : α → δ} {G : β → δ}
    (H : γ → δ) (h : os.map F = vs.map G) (hos : ∀ x ∈ ps.zip os, F x.2 = H x.1) :
    ∀ x ∈ ps.zip vs, G x.2 = H x.1 := by
  intro x hx
  obtain ⟨k, hk⟩ := List.mem_iff_getElem?.mp hx
  obtain ⟨hp, hv⟩ := List.getElem?_zip_eq_some.mp hk
  have hget := congrArg (·[k]?) h
  simp only [List.getElem?_map, hv, Option.map_some] at hget
  obtain ⟨o, ho, heq⟩ := Option.map_eq_some_iff.mp hget
  rw [← heq]
  exact hos (x.1, o) (List.mem_iff_getElem?.mpr ⟨k, List.getElem?_zip_eq_some.mpr ⟨hp, ho⟩⟩)

/-- The first block of a function that can be executed is not empty. -/
theorem inRange_call (hfit : Fit s) {r : Routine} {hr : r ∈ p.routines} (hr' : r ∈ s.project.routines)
    {vs : List Value} (h : Frame.call? r hr vs = some g) : g.InRange := by
  obtain ⟨b, hb, _, hblock, hindex, _, _⟩ := Frame.eq_of_call? h
  unfold Frame.InRange
  rw [hindex, hblock]
  exact length_pos_of_fits (hfit.block hr' (List.mem_of_head? hb)).2.1

/-- The routine of a called function. -/
theorem Engine.Plain.exists_callee {e : Engine p} (h : e.Plain) {r : Routine} (hr : r ∈ p.routines)
    (htarget : Fits.target? r callee = some fn) :
    ∃ q, p.routineIn? r.module fn.name = some q ∧ q ∈ p.routines ∧ q.function = fn := by
  obtain ⟨modules, layout, hp⟩ := h.modules
  exact Fits.exists_routineIn?_of_target? hp hr htarget

/-- No hook takes a call of a function with a body. -/
theorem Engine.Plain.hookOf?_eq_none {e : Engine p} (h : e.Plain) {r : Routine} (hr : r ∈ p.routines)
    (htarget : Fits.target? r callee = some fn) (hbody : fn.isDeclaration = false) :
    e.hookOf? fn = none := by
  obtain ⟨q, _, hmem, rfl⟩ := h.exists_callee hr htarget
  unfold Engine.hookOf?
  rw [h.unhooked q hmem hbody, hbody]
  rfl

/-- **Calls** of functions with bodies go into the functions. -/
theorem does_inline {e : Engine p} (hplain : e.Plain) (hsite : site.WellTyped e.setting T)
    (hm : Sound e.setting T m) (st : State p) (hroutine : site.routine ∈ p.routines)
    (hop : site.instr.op = .call callee args) (htarget : Fits.target? site.routine callee = some fn)
    (hname : Intrinsic.ofName? fn.name = none) :
    Does D (e.inline st ⟨site, callee, args⟩ fn) m
      (fun mv m' => ∃ g, mv = .enter g ∧ Enters e.setting place site T m g m')
      (Halts e.setting place all site T m) := by
  obtain ⟨fn', htarget', hbody⟩ := call_fits hsite hop
  obtain rfl := Option.some.inj (htarget.symm.trans htarget')
  obtain ⟨hbody, hvalued, hwidths⟩ := hbody hname
  obtain ⟨r, hr, hmem, rfl⟩ := hplain.exists_callee hroutine htarget
  rw [e.inline_eq st ⟨site, callee, args⟩ r.function hr none]
  unfold Engine.along
  dsimp only
  split
  · exact does_bind (does_fault (harmless_refl rfl).halts)
  · refine does_bind (Does.mono (quietly_evalAll hplain.fit hsite (fun o ho => Op.mem_taken hop ho) hvalued hm) ?_
      fun g m' hg => hg.halts)
    rintro vs m₁ ⟨h₁, hwidth, hknown, hwords⟩
    obtain ⟨g, hg⟩ := Frame.exists_call? hmem hbody vs
    rw [hg]
    have hgroutine : g.routine = r := by
      obtain ⟨_, _, h, _⟩ := Frame.eq_of_call? hg
      exact h
    -- Arguments and parameters are zipped: a fitting call passes as many of each, with the widths
    -- agreeing pairwise.
    have hargs := forall_mem_zip (fun param : String × Ty => p.layout.scalarBits? param.2) hwidth hwidths
    refine does_pure ⟨g, rfl, ?_⟩
    exact {
      quiet := h₁
      typed := Frame.wellTyped_call hplain.fit hmem hg fun x hx =>
        ⟨hknown x.2 (List.of_mem_zip hx).2, (hargs x hx).symm⟩
      inRange := inRange_call hplain.fit hmem hg
      index := by
        obtain ⟨_, _, _, _, h, _⟩ := Frame.eq_of_call? hg
        exact h
      calls := ⟨callee, args, hop, by rw [hgroutine]; exact htarget, by rw [hgroutine]; exact hname⟩
      silent := silent_call hop htarget (by rw [hname]; decide)
      exec := by
        intro i c entry hcovers hc
        obtain ⟨a, ha, hmatches, hentry⟩ := Frame.matches_call hg i
        refine ⟨a, hmatches, hentry, ?_⟩
        rw [hop]
        show Concrete.call p place c callee args = _
        unfold Concrete.call
        have hwords : args.mapM (c.eval p place) = some (vs.map (Value.word i)) :=
          hwords i place _ hcovers hc.registers
        rw [target?_of_holds hc, htarget]
        simp only [Option.bind_eq_bind, Option.bind_some, hname, hwords, hc.routine, hr, ha]
        rfl }

end PathSafety
