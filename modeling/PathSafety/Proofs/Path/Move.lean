import PathSafety.Proofs.Machine.Watch
import PathSafety.Proofs.Path.Call
import PathSafety.Proofs.Path.Control

/-!
# What an instruction does

`Moves` says for each way that control can go what an instruction does to the machine and that runs go with
it. The instructions of a well-typed project do no less than that (`does_move`).
-/

namespace PathSafety

open IR Machine

variable {place : Concrete.Placement} {all : Prop} {T : Table} {p : Project} {m m₁ : Machine} {D : Prop}
  {site : Site} {e : Engine p} {st : State p}

/-- That runs go where an instruction sends control. -/
inductive Moves (s : Setting) (place : Concrete.Placement) (all : Prop) (f : Frame p) (site : Site)
    (T : Table) (m : Machine) : Move p → Machine → Prop
  | next {result : Option Value} {T' : Table} {m' : Machine} (ends : Fits.ends site.instr.op = false)
    (named : result = none → ∀ r, allocated site.instr.op r = [])
    (effect : Effect s place all site T m result T' m') : Moves s place all f site T m (.next result) m'
  | goto {g : Frame p} {others : List (Machine × Frame p)} {m' : Machine}
    (splits : Splits s place f site T m ((m', g) :: others)) : Moves s place all f site T m (.goto g others) m'
  | enter {g : Frame p} {m' : Machine} (enters : Enters s place site T m g m') :
    Moves s place all f site T m (.enter g) m'
  | leave {result : Option Value} {m' : Machine} (leaves : Leaves s place site T m result m') :
    Moves s place all f site T m (.leave result) m'
  | finish {o : Outcome} {m' : Machine} (finishes : Finishes s place site T m o m') :
    Moves s place all f site T m (.finish o) m'

/-- An instruction that goes on with a result. -/
theorem does_next {s : Setting} {f : Frame p} {x : Action Value} (hends : Fits.ends site.instr.op = false)
    (hx : Does D x m (fun v m' => ∃ T', Effect s place all site T m (some v) T' m')
      (Halts s place all site T m)) :
    Does D (do return Move.next (some (← x))) m (Moves s place all f site T m) (Halts s place all site T m) := by
  refine does_bind (hx.mono ?_ fun _ _ h => h)
  rintro v m' ⟨T', h⟩
  exact does_pure (.next hends (fun h => nomatch h) h)

/-- **Calls** go on behind the call or end the path, if they are of intrinsics, and enter the called routine else. -/
theorem does_call (hplain : e.Plain) (hsite : site.WellTyped e.setting T) (hm : Sound e.setting T m) (st : State p)
    (hmem : site.routine ∈ p.routines) {callee : Operand} {args : List Operand}
    (hop : site.instr.op = .call callee args) (hproper : Proper e.setting place all site m) :
    Does D (e.call st ⟨site, callee, args⟩) m (Moves e.setting place all st.frame site T m)
      (Halts e.setting place all site T m) := by
  obtain ⟨fn, htarget, hbody⟩ := call_fits hsite hop
  have hcall : Call.target? ⟨site, callee, args⟩ = some fn := htarget
  simp only [Engine.call, hcall]
  cases hk : Intrinsic.ofName? fn.name with
  | some k =>
    refine does_bind ((does_intrinsic (p := p) hplain.fit hsite hm hop htarget hk hproper).mono ?_ fun _ _ h => h)
    rintro o m' (⟨rfl, T', h⟩ | ⟨ho, h⟩)
    · exact does_pure (.next (by rw [hop]; rfl) (fun _ _ => by rw [hop]; rfl) h)
    · exact does_pure (ho ▸ .finish h)
  | none =>
    have hdefined := (hbody hk).1
    simp only [hplain.hookOf?_eq_none hmem htarget hdefined, hdefined]
    refine (does_inline hplain hsite hm st hmem hop htarget hk).mono ?_ fun _ _ h => h
    rintro _ m' ⟨g, rfl, h⟩
    exact .enter h

/-- **Instructions** send control where runs go. -/
theorem does_move (hplain : e.Plain) (hsite : site.WellTyped e.setting T) (hm : Sound e.setting T m)
    (hroutine : st.frame.routine = site.routine) (hmem : site.routine ∈ p.routines)
    (hproper : Proper e.setting place all site m)
    (hdivision : site.DividesByZero e.setting m → D) :
    Does D (e.move st site) m (Moves e.setting place all st.frame site T m)
      (Halts e.setting place all site T m) := by
  have hfit := hplain.fit
  unfold Engine.move
  dsimp only
  -- One specification per instruction; here they are only brought to the kind of move each one
  -- makes.
  cases hop : site.instr.op with
  | arith op flags a b => exact does_next (by rw [hop]; rfl) (does_arith hfit hsite hm hop hdivision)
  | icmp q a b => exact does_next (by rw [hop]; rfl) (does_compare hfit hsite hm hop)
  | cast op v t => exact does_next (by rw [hop]; rfl) (does_cast hfit hsite hm hop)
  | alloca t n => exact does_next (by rw [hop]; rfl) (does_alloca hfit hsite hm hop)
  | load a t => exact does_next (by rw [hop]; rfl) (does_load hfit hsite hm hop hproper)
  | store v a =>
    refine does_bind ((does_store hfit hsite hm hop hproper).mono ?_ fun _ _ h => h)
    rintro _ m' ⟨T', h⟩
    exact does_pure (.next (by rw [hop]; rfl) (fun _ _ => by rw [hop]; rfl) h)
  | gep inbounds a t is => exact does_next (by rw [hop]; rfl) (does_gep hfit hsite hm hop)
  | select c a b => exact does_next (by rw [hop]; rfl) (does_select hfit hsite hm hop)
  | phi t incoming => exact does_next (by rw [hop]; rfl) (does_phi hfit hsite hm hop)
  | call callee args => exact does_call hplain hsite hm st hmem hop hproper
  | br target =>
    refine does_bind ((does_br hsite hm hroutine hop).mono ?_ fun _ _ h => h)
    exact fun g m' h => does_pure (.goto h)
  | condBr c yes no =>
    refine (does_condBr hfit hsite hm hroutine hop).mono ?_ fun _ _ h => h
    rintro _ m' ⟨g, others, rfl, h⟩
    exact .goto h
  | switch v default cases =>
    refine (does_switch hfit hsite hm hroutine hop).mono ?_ fun _ _ h => h
    rintro _ m' ⟨g, others, rfl, h⟩
    exact .goto h
  | ret result =>
    cases result with
    | none => exact does_pure (.leave (leaves_none hm hop))
    | some v =>
      refine does_bind ((does_ret hfit hsite hm hop).mono ?_ fun _ _ h => h)
      exact fun v m' h => does_pure (.leave h)
  | unreachable => exact does_fault (harmless_refl rfl).halts
  | unmodeled u => exact does_fault (harmless_refl rfl).halts

end PathSafety
