import PathSafety.Proofs.IR.Availability
import PathSafety.Proofs.Machine.Local
import PathSafety.Proofs.Path.Calls

/-!
# Every operand has a value

In the form of static single assignment a register is used only where all ways through its function have assigned it.
What a path does in a call of the function is such a way, and the registers of the call keep the results of all that it
has executed. So no operand is met that has no value, and every phi finds a value for the block that control comes from.

Contents:

* `Machine.Supplied` — that an action does not fail for lack of a value;
* `Frame.Placed`, `Convention.results` — that calls under way stand at the end of ways through their functions, with all
  results in their registers, and wait for what is returned to them;
* `Engine.leads_move`, `Engine.sends_move` — where control goes after an instruction;
* `Engine.not_lacksValue_of_mem` — no path lacks a value.
-/

namespace PathSafety

open IR Machine

/-! ## Actions that do not lack values -/

namespace Machine

variable {s : Setting} {α β : Type}

/-- That an action does not fail for lack of a value. -/
def Supplied (α : Type) (x : Action α) : Prop := Faults (fun f => f.lacksValue = false) α x

theorem lacksValue_reject {f : Fault} (h : f.lacksValue = false) : f.reject.lacksValue = false := by
  unfold Fault.reject
  split <;> exact h

theorem queries_supplied : Queries Supplied := queries_faults fun _ => Fault.lacksValue_of_isPlain

theorem composes_supplied : Composes s Supplied :=
  composes_faults (fun _ => Fault.lacksValue_of_isPlain) fun _ => lacksValue_reject

/-- Names that are there get their addresses. -/
theorem supplied_addressWithin (hssa : s.project.Ssa) (depth : Nat) {module : Nat} {name : String}
    (h : (s.project.globalIn? module name).isSome = true) : Supplied Value (addressWithin s depth module name) := by
  induction depth generalizing module name with
  | zero => exact faults_defect _
  | succ depth ih =>
    refine faults_meet (fun _ => Fault.lacksValue_of_isPlain) (fun hnone => ?_) fun g init hg hinit => ?_
    · rw [hnone] at h
      cases h
    · obtain ⟨m, hm, hg⟩ := Option.bind_eq_some_iff.mp hg
      refine queries_supplied.evalWith (fun _ _ n k v _ hv => ih ?_) fun l hl => ?_
      · rw [Project.globalIn?_of_global? hv]
        rfl
      · obtain ⟨n, rfl, hn⟩ := hssa.initials module m hm g (Module.mem_of_global? hg).1 init hinit l hl
        unfold evalWith
        exact ih hn

/-- An operand has a value if its registers and global names have. -/
theorem supplied_eval (hssa : s.project.Ssa) {site : Site} {o : Operand}
    (hregisters : ∀ n, .register n ∈ o.leaves → (site.registers.get? n).isSome = true)
    (hglobals : ∀ n, .global n ∈ o.leaves → (s.project.globalIn? site.routine.module n).isSome = true)
    (hassembly : ∀ t code constraint, .assembly t code constraint ∉ o.leaves) : Supplied Value (site.eval s o) := by
  refine queries_supplied.evalWith (fun _ _ n k v _ hv => supplied_addressWithin hssa _ ?_)
    fun l hl => ?_
  · rw [Project.globalIn?_of_global? hv]
    rfl
  · have hleaf := Operand.isLeaf_of_mem_leaves hl
    unfold evalWith
    cases l with
    | register n =>
      obtain ⟨v, hv⟩ := Option.isSome_iff_exists.mp (hregisters n hl)
      dsimp only
      rw [hv]
      exact faults_pure v
    | global n => exact supplied_addressWithin hssa _ (hglobals n hl)
    | assembly t code constraint => exact absurd hl (hassembly t code constraint)
    | constant => cases hleaf

end Machine

variable {p : Project} {e : Engine p} {f g : Frame p} {i : Instr} {done : List Instr} {st st' : State p}
  {site : Site} {m m' : Machine} {mv : Move p}

/-! ## Calls under way -/

namespace Frame

/-- That a call has come a way through its function: its registers hold the parameters and all results on the way, and
it remembers the block before as the one that it came from. -/
structure Comes (f : Frame p) (done : List Instr) : Prop where
  walk : f.routine.function.Walk f.block f.index done
  parameters : ∀ n ∈ f.routine.function.params.map (·.1), (f.registers.get? n).isSome = true
  results : ∀ d ∈ done, f.routine.scope.hasResult d.op = true → (f.registers.get? d.name).isSome = true
  entered : match f.previous with
    | none => f.routine.function.blocks.head? = some f.block
    | some name => ∃ b k before, b.name = name ∧ f.routine.function.Walk b k before ∧
        f.routine.function.Edge b k f.block ∧ before ⊆ done

/-- That a call has come some way through its function. -/
def Placed (f : Frame p) : Prop := ∃ done, f.Comes done

/-- Registers that are available at a place on the way have values. -/
theorem Comes.get?_isSome (h : f.Comes done) {b : Block} {k : Nat} {before : List Instr}
    (hwalk : f.routine.function.Walk b k before) (hbefore : before ⊆ done) {n : String}
    (hn : f.routine.Available b k n) : (f.registers.get? n).isSome = true := by
  rcases hn with hn | ⟨d, _, rfl, hresult, hdominates⟩
  · exact h.parameters n hn
  · exact h.results d (hbefore (hdominates before hwalk)) hresult

/-- Operands that have values at a place on the way can be evaluated. -/
theorem Comes.supplied_eval (h : f.Comes done) (hssa : e.setting.project.Ssa) {b : Block} {k : Nat}
    {before : List Instr} (hwalk : f.routine.function.Walk b k before) (hbefore : before ⊆ done) {o : Operand}
    (ho : ∀ l ∈ o.leaves, f.routine.Valued p b k l) : Supplied Value ((f.site i).eval e.setting o) :=
  Machine.supplied_eval hssa (fun _ hn => h.get?_isSome hwalk hbefore (ho _ hn)) (fun _ hn => ho _ hn)
    fun _ _ _ hl => ho _ hl

theorem get?_insert_isSome {rs : Registers} {n : String} (h : (rs.get? n).isSome = true) (k : String) (v : Value) :
    ((rs.insert k v).get? n).isSome = true := by
  rw [get?_insert_name]
  split
  · rfl
  · exact h

/-- An instruction that does not end its block is one step further. -/
theorem Comes.finish (h : f.Comes done) (hi : f.instr? = some i) (hends : Fits.ends i.op = false)
    {result : Option Value} (hresult : f.routine.scope.hasResult i.op = true → result.isSome = true) :
    (f.finish result).Comes (i :: done) := by
  have hkept : ∀ n, (f.registers.get? n).isSome = true → ((f.finish result).registers.get? n).isSome = true := by
    intro n hn
    cases result with
    | none => rwa [registers_finish_none]
    | some v =>
      rw [get?_finish hi]
      split
      · rfl
      · exact hn
  refine ⟨.next h.walk hi hends, fun n hn => hkept n (h.parameters n hn), fun d hd hdresult => ?_, ?_⟩
  · rcases List.mem_cons.mp hd with rfl | hd
    · obtain ⟨v, rfl⟩ := Option.isSome_iff_exists.mp (hresult hdresult)
      rw [get?_finish hi, if_pos rfl]
      rfl
    · exact hkept d.name (h.results d hd hdresult)
  -- The edge taken into the block lies behind already, so a finished instruction does not touch it.
  · have hentered := h.entered
    show match f.previous with | none => _ | some name => _
    revert hentered
    cases f.previous with
    | none => exact fun h => h
    | some name =>
      rintro ⟨b, k, before, hname, hwalk, hedge, hbefore⟩
      exact ⟨b, k, before, hname, hwalk, hedge, fun d hd => List.mem_cons_of_mem i (hbefore hd)⟩

/-- What sends control to a block has no result. -/
theorem hasResult_of_target {scope : Scope} {o : Op} {target : String} (h : target ∈ o.targets) :
    scope.hasResult o = false := by
  cases o with
  | br | condBr | switch => rfl
  | _ => exact absurd h List.not_mem_nil

/-- A jump is one step further, from the block that is left. -/
theorem Comes.jump (h : f.Comes done) (hi : f.instr? = some i) {target : String} (htarget : target ∈ i.op.targets)
    (hg : f.jump? target = some g) : g.Comes (i :: done) := by
  obtain ⟨b, hb, hroutine, hblock, hindex, hprevious, hregisters⟩ := eq_of_jump? hg
  have hwalk := Function.Walk.jump h.walk hi htarget hb
  refine ⟨?_, ?_, fun d hd hresult => ?_, ?_⟩
  · rw [hroutine, hblock, hindex]
    exact hwalk
  · rw [hroutine, hregisters]
    exact h.parameters
  · rw [hroutine] at hresult
    rw [hregisters]
    rcases List.mem_cons.mp hd with rfl | hd
    · rw [hasResult_of_target htarget] at hresult
      cases hresult
    · exact h.results d hd hresult
  · rw [hprevious, hroutine, hblock]
    exact ⟨f.block, f.index, done, rfl, h.walk, ⟨i, target, hi, htarget, hb⟩, List.subset_cons_self i done⟩

theorem bind_isSome {params : List (String × Ty)} {args : List Value} (hlength : params.length ≤ args.length)
    (rs : Registers) (n : String) (h : (rs.get? n).isSome = true ∨ n ∈ params.map (·.1)) :
    (((params.zip args).foldl (fun rs x => rs.insert x.1.1 x.2) rs).get? n).isSome = true := by
  induction params generalizing rs args with
  | nil => exact h.resolve_right List.not_mem_nil
  | cons x params ih =>
    cases args with
    | nil => simp at hlength
    | cons v args =>
      refine ih (Nat.le_of_succ_le_succ hlength) _ ?_
      rcases h with h | h
      · exact Or.inl (get?_insert_isSome h _ _)
      · rcases List.mem_cons.mp h with rfl | h
        · exact Or.inl (by rw [get?_insert_name, if_pos rfl]; rfl)
        · exact Or.inr h

/-- A call with an argument for every parameter begins at the entry of its function. -/
theorem comes_call {r : Routine} {hr : r ∈ p.routines} {args : List Value} (h : call? r hr args = some g)
    (hlength : r.function.params.length ≤ args.length) : g.Comes [] := by
  obtain ⟨b, hb, hroutine, hblock, hindex, hprevious, hregisters⟩ := eq_of_call? h
  refine ⟨?_, fun n hn => ?_, fun d hd => absurd hd List.not_mem_nil, ?_⟩
  · obtain ⟨bs, hbs⟩ := List.head?_eq_some_iff.mp hb
    rw [hroutine, hblock, hindex]
    exact .entry hbs
  · rw [hroutine] at hn
    rw [hregisters]
    exact bind_isSome hlength ∅ n (Or.inr hn)
  · rw [hprevious, hroutine, hblock]
    exact hb

/-- A phi finds a value for the block that control comes from. -/
theorem Comes.supplied_phi (h : f.Comes done) (hssa : e.setting.project.Ssa) (hf : f.routine.Ssa e.setting.project)
    (hi : f.instr? = some i) {t : Ty} {incoming : List (Operand × String)} (hop : i.op = .phi t incoming) :
    Supplied Value (phi e.setting (f.site i) incoming) := by
  have hmem : i ∈ f.block.instrs := List.mem_of_getElem? hi
  have hentered := h.entered
  unfold phi
  cases hprevious : f.previous with
  | none =>
    -- there are no phis at the entry
    rw [hprevious] at hentered
    obtain ⟨bs, hbs⟩ := List.head?_eq_some_iff.mp hentered
    have := hf.entry f.block bs hbs i hmem
    rw [hop] at this
    cases this
  | some name =>
    rw [hprevious] at hentered
    obtain ⟨b, k, before, rfl, hwalk, hedge, hbefore⟩ := hentered
    obtain ⟨⟨⟨_, name⟩, hx, hname⟩, hvalued⟩ := hf.incoming f.block f.block_mem i hmem t incoming hop b hwalk.mem k hedge
    have hsite : (f.site i).previous = some b.name := hprevious
    split
    · rename_i v block hfound
      have hblock : (f.site i).previous = some block := by simpa using List.find?_some hfound
      obtain rfl := Option.some.inj (hsite.symm.trans hblock)
      exact h.supplied_eval hssa hwalk hbefore (hvalued _ (List.mem_of_find?_eq_some hfound) rfl)
    · rename_i hnone
      refine absurd ?_ (List.find?_eq_none.mp hnone _ hx)
      show ((f.site i).previous == some name) = true
      rw [hsite, show name = b.name from hname]
      exact beq_self_eq_true _

end Frame

/-- Calls have come some way through their functions. Each that waits goes on with what the call above returns, which
returns something if a result is expected. -/
def Convention.results : Convention p where
  holds := Frame.Placed
  expects g i r := Fits.ends i.op = false ∧ (g.routine.scope.hasResult i.op = true → r.function.ret.isVoid = false)

/-! ## Hooks -/

/-- That a hook does not lack values by itself, and returns something wherever the call expects it. -/
structure Hook.Supplies (s : Setting) (h : Hook) : Prop where
  supplied : ∀ c : Call, (∀ o ∈ c.args, Supplied Value (c.eval s o)) → Supplied Outcome (h s c)
  returns : ∀ (c : Call) (m m' : Machine), h s c m = .ok .returnedVoid m' → c.resultType.isVoid = true

/-- That hooks return something wherever calls expect it, and neither they nor monitors lack values by themselves. -/
structure Engine.Supplies (e : Engine p) : Prop where
  hooks : ∀ h, e.HasHook h → h.Supplies e.setting
  monitors : ∀ monitor ∈ e.monitors, ∀ site : Site,
    (∀ o ∈ site.instr.op.operands, Supplied Value (site.eval e.setting o)) → Supplied Unit (monitor e.setting site)

/-! ## Where control goes -/

/-- That control goes from an instruction of a call to where its function says: a result is there where one is expected,
jumps lead to targets of the instruction, and calls pass what the called function declares. -/
def Move.Leads (f : Frame p) (i : Instr) : Move p → Prop
  | .next result => Fits.ends i.op = false ∧ (f.routine.scope.hasResult i.op = true → result.isSome = true)
  | .goto target others => ∀ g ∈ target :: others.map (·.2), ∃ name ∈ i.op.targets, f.jump? name = some g
  | .enter callee => Fits.ends i.op = false ∧ callee.Comes [] ∧
      (f.routine.scope.hasResult i.op = true → callee.routine.function.ret.isVoid = false)
  | .leave result => ∃ v, i.op = .ret v ∧ (v.isSome = true → result.isSome = true)
  | .finish _ => True

namespace Engine

theorem gives_leads_resume {f : Frame p} {callee : Operand} {args : List Operand} (hop : i.op = .call callee args)
    {x : Action Outcome} (hx : ∀ m m', x m = .ok .returnedVoid m' → f.routine.scope.hasResult i.op = false) :
    Gives (Move.Leads f i) (do return resume (← x)) := by
  intro m mv m' h
  obtain ⟨o, m₁, ho, h⟩ := exists_of_bind h
  obtain ⟨rfl, _⟩ := of_pure h
  have hends : Fits.ends i.op = false := by rw [hop]; rfl
  cases o with
  | returned v => exact ⟨hends, fun _ => rfl⟩
  | returnedVoid => exact ⟨hends, fun hresult => absurd (hresult.symm.trans (hx m m₁ ho)) nofun⟩
  | threw | aborted => trivial

section Moves

variable {modules : List Module} {layout : Layout} (hp : Project.ofModules? modules layout = some p) (hssa : p.Ssa)
  (he : e.Supplies)
include hp hssa he

/-- **Calls** lead to functions with a value for each of their parameters, or past the call with what it returns. -/
theorem leads_call (hi : st.frame.instr? = some i) {callee : Operand} {args : List Operand}
    (hop : i.op = .call callee args) :
    Gives (Move.Leads st.frame i) (e.call st ⟨st.frame.site i, callee, args⟩) := by
  have hr : st.frame.routine.Ssa p := hssa.routines _ st.frame.routine_mem
  have hmem : i ∈ st.frame.block.instrs := List.mem_of_getElem? hi
  have hook : ∀ h, e.HasHook h → Gives (Move.Leads st.frame i) (do
      return resume (← h e.setting ⟨st.frame.site i, callee, args⟩)) := by
    refine fun h hh => gives_leads_resume hop fun m m' hm => ?_
    have hvoid := (he.hooks h hh).returns _ m m' hm
    rw [hop]
    exact Bool.not_eq_true' _ ▸ congrArg not hvoid
  unfold call
  split
  · split
    · exact hook _ (Or.inr (by assumption))
    · exact gives_fault
  · rename_i fn hfn
    have hfn' : Fits.target? st.frame.routine callee = some fn := hfn
    have hresult : st.frame.routine.scope.hasResult i.op = !fn.ret.isVoid := by
      rw [hop]
      exact congrArg (!·.isVoid) (Call.resultType_of_target? hfn)
    split
    · rename_i k hk
      refine gives_leads_resume hop fun _ _ _ => ?_
      rw [hresult, hr.intrinsics _ st.frame.block_mem i hmem callee args hop fn hfn' (by rw [hk]; rfl)]
      rfl
    · split
      · exact hook _ (hasHook_of_hookOf? (by assumption))
      · split
        · exact gives_fault_bind
        · -- the called function itself
          obtain ⟨r, hroutine, _, rfl⟩ := Fits.exists_routineIn?_of_target? hp st.frame.routine_mem hfn'
          intro m mv m' h
          obtain ⟨r', hr', vs, g, hroutine', hvalues, hg, rfl⟩ := gives_entered _ _ h
          obtain rfl := Option.some.inj (hroutine.symm.trans hroutine')
          have harguments := hr.arguments _ st.frame.block_mem i hmem callee args hop _ hfn'
          have hlength := Nat.le_trans harguments (Nat.le_of_eq hvalues.length_eq)
          refine ⟨by rw [hop]; rfl, Frame.comes_call hg hlength, fun h => ?_⟩
          obtain ⟨_, _, hgroutine, _⟩ := Frame.eq_of_call? hg
          rw [hresult, Bool.not_eq_true'] at h
          rwa [hgroutine]

/-- **Instructions** lead to where their functions say. -/
theorem leads_move (hi : st.frame.instr? = some i) : Gives (Move.Leads st.frame i) (e.move st (st.frame.site i)) := by
  have hr : st.frame.routine.Ssa p := hssa.routines _ st.frame.routine_mem
  -- What binds a value stays in its block.
  have bound : Fits.ends i.op = false → ∀ x : Action Value, Gives (Move.Leads st.frame i) (do return .next (some (← x))) :=
    fun hends x => gives_bind fun v => gives_pure ⟨hends, fun _ => rfl⟩
  by_cases hjumps : i.op.Jumps
  · intro m mv m' h
    obtain ⟨g, others, rfl, hgoto⟩ := gives_goto st (st.frame.site i) hjumps h
    exact hgoto
  · unfold move
    dsimp only
    have hsite : (st.frame.site i).instr.op = i.op := rfl
    rw [hsite]
    cases hop : i.op with
    | store =>
      refine gives_bind fun _ => gives_pure ⟨by rw [hop]; rfl, fun hresult => ?_⟩
      rw [hop] at hresult
      cases hresult
    | call callee args => exact leads_call hp hssa he hi hop
    | br | condBr | switch => exact absurd (hop ▸ True.intro) hjumps
    | ret result =>
      cases result with
      | none => exact gives_pure ⟨none, hop, nofun⟩
      | some v => exact gives_bind fun w => gives_pure ⟨some v, hop, fun _ => rfl⟩
    | unreachable | unmodeled => exact gives_fault
    | _ => exact bound (by rw [hop]; rfl) _

/-- **Instructions** leave calls where they have come some way, and return what callers expect. -/
theorem sends_move (hi : st.frame.instr? = some i) (hframe : st.frame.Placed) :
    Gives (Convention.results.Sends st.frame i) (e.move st (st.frame.site i)) := by
  intro m mv m' h
  have hleads := leads_move hp hssa he hi h
  obtain ⟨done, hcomes⟩ := hframe
  cases mv with
  | next result => exact ⟨_, hcomes.finish hi hleads.1 hleads.2⟩
  | goto target others =>
    intro g hg
    obtain ⟨name, hname, hjump⟩ := hleads g hg
    obtain ⟨_, _, hroutine, _⟩ := Frame.eq_of_jump? hjump
    exact ⟨hroutine, _, hcomes.jump hi hname hjump⟩
  | enter callee => exact ⟨⟨[], hleads.2.1⟩, hleads.1, hleads.2.2⟩
  | leave result =>
    rintro g j ⟨before, hg⟩ hj ⟨hends, hvalue⟩
    obtain ⟨v, hop, hresult⟩ := hleads
    have hr : st.frame.routine.Ssa p := hssa.routines _ st.frame.routine_mem
    -- a function that returns something has done so
    have hreturned : g.routine.scope.hasResult j.op = true → result.isSome = true := fun hj =>
      hresult (hr.returns (hvalue hj) _ st.frame.block_mem i (List.mem_of_getElem? hi) v hop)
    exact ⟨_, hg.finish hj hends hreturned⟩
  | finish => trivial

end Moves

end Engine

/-! ## Paths -/

/-- An exploration begins at the entry of a function, with a value for each parameter. -/
theorem Start.placed_of_ok {name : String} {start : Start p} (h : Start.of p name = .ok start) :
    Convention.results.Kept start.first.state := by
  obtain ⟨r, hr, args, m, f, _, _, hparameters, hcall, rfl⟩ := exists_of_ok h
  refine ⟨List.forall_mem_singleton.mpr ⟨[], Frame.comes_call hcall ?_⟩, trivial⟩
  rw [List.length_map]
  exact Nat.le_of_eq (forall₂_parameters hparameters).length_eq

namespace Engine

variable {modules : List Module} {layout : Layout} (hp : Project.ofModules? modules layout = some p) (hssa : p.Ssa)
  (he : e.Supplies)
include hssa he

/-- The operands of the next instruction have values, and so it does not fail for lack of one. -/
theorem supplied_act (hst : Convention.results.Kept st) (hi : st.frame.instr? = some i) :
    Supplied (Move p) (e.act st i) := by
  obtain ⟨done, hcomes⟩ := hst.frames _ List.mem_cons_self
  have hr : st.frame.routine.Ssa p := hssa.routines _ st.frame.routine_mem
  have heval : ∀ o ∈ i.op.operands, Supplied Value ((st.frame.site i).eval e.setting o) := fun o ho =>
    hcomes.supplied_eval hssa hcomes.walk (List.Subset.refl done)
      (hr.uses _ st.frame.block_mem _ i hi o ho)
  refine faults_bind (queries_supplied.watch fun monitor hmonitor => ?_) fun _ => ?_
  · exact he.monitors monitor hmonitor _ heval
  · refine faults_move (fun _ => Fault.lacksValue_of_isPlain) (fun _ => lacksValue_reject) heval
      (fun t incoming hop => hcomes.supplied_phi hssa hr hi hop) (fun callee args hop h hh => ?_) _
      (faults_forks (fun _ => Fault.lacksValue_of_isPlain) (fun _ => rfl) heval _)
    refine (he.hooks h hh).supplied _ fun o ho => heval o ?_
    have hop : i.op = .call callee args := hop
    rw [hop]
    exact ho

include hp

/-- **No path lacks a value**: where all functions are in the form of static single assignment and hooks return
something wherever calls expect it, no path ends at an operand without a value or at a phi without an incoming one, be it
inside a hook. -/
theorem not_lacksValue_of_mem {name : String} {start : Start p} (hstart : Start.of p name = .ok start) :
    ∀ path ∈ e.pathsOf start, ∀ f, path.ending = .fault f → f.lacksValue = false := by
  intro path hpath f hf
  have hplaced := Start.placed_of_ok hstart
  rw [pathsOf_eq] at hpath
  cases hin : start.first.enter e.loopBound with
  | error path' =>
    rw [explore_of_error hin] at hpath
    obtain rfl := List.mem_singleton.mp hpath
    obtain rfl := Ending.fault.inj ((Arrival.of_enter_error hin).2.2.symm.trans hf)
    rfl
  | ok st =>
    rw [explore_of_ok hin] at hpath
    obtain ⟨st', hreaches, hends⟩ := exists_endsAt hpath
    have hst' := Convention.kept_of_reaches
      (fun st hst i hi => sends_move hp hssa he hi (hst.frames _ List.mem_cons_self)) hreaches (hplaced.enter hin)
    cases hends with
    | finish hstep =>
      exact of_finish_fault (P := fun f => f.lacksValue = false) (fun i hi => supplied_act hssa he hst' hi) hstep hf
    | bound _ _ hin =>
      obtain rfl := Ending.fault.inj ((Arrival.of_enter_error hin).2.2.symm.trans hf)
      rfl

end Engine

end PathSafety
