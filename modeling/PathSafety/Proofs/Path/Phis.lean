import Mathlib.Data.List.Induction
import PathSafety.Proofs.IR.Operands
import PathSafety.Proofs.Path.CallStack

/-!
# Phis

The phis at the head of a block are executed one after another, and each writes into the registers that the next one reads.
So a phi that takes the register of an earlier phi of its block takes what this one has just been bound to, and not what the
register held where the block was entered. All others are bound to what their operand is worth there.

Contents:

* `Machine.eval_congr` — operands depend only on the registers in them;
* `IR.Instr.incoming?`, `IR.Instr.source?` — what comes into a phi;
* `Engine.Assigns` — what the phis of a list leave behind, executed in order;
* `Engine.assigns_of_phis` — that they leave it, or end the path;
* `Swapping.assigns_swapping` — two registers that were to be swapped and end up equal.
-/

namespace PathSafety

open IR Machine

namespace Machine

/-! ## Operands -/

variable {s : Setting} {address : Addressing} {module : Nat} {rs rs' : Registers}

mutual

/-- An operand depends only on the registers in it. -/
theorem evalWith_congr {o : Operand} (h : ∀ n, .register n ∈ o.leaves → rs.get? n = rs'.get? n) :
    evalWith s address module rs o = evalWith s address module rs' o := by
  cases o with
  | register n =>
    unfold evalWith
    rw [h n (by simp [Operand.leaves])]
  | global | assembly =>
    unfold evalWith
    rfl
  | constant t v =>
    rw [Operand.leaves] at h
    unfold evalWith
    cases s.project.layout.bits? t with
    | none => rfl
    | some bits => exact evalConstant_congr h t bits

theorem evalConstant_congr {v : ConstantValue} (h : ∀ n, .register n ∈ v.leaves → rs.get? n = rs'.get? n) (t : Ty)
    (bits : Nat) : evalConstant s address module rs t bits v = evalConstant s address module rs' t bits v := by
  cases v with
  | elements es =>
    rw [ConstantValue.leaves] at h
    unfold evalConstant
    dsimp only
    rw [evalAll_congr h]
  | null | undef | int | real | bytes | expression =>
    unfold evalConstant
    rfl

theorem evalAll_congr {os : List Operand} (h : ∀ n, .register n ∈ Operand.leavesOf os → rs.get? n = rs'.get? n)
    (limit : Nat) : evalAll s address module rs limit os = evalAll s address module rs' limit os := by
  cases os with
  | nil =>
    cases limit <;> unfold evalAll <;> rfl
  | cons o os =>
    cases limit with
    | zero =>
      unfold evalAll
      rfl
    | succ limit =>
      rw [Operand.leavesOf] at h
      unfold evalAll
      have ho : ∀ n, .register n ∈ o.leaves → rs.get? n = rs'.get? n := by
        intro n hn
        exact h n (List.mem_append_left _ hn)
      have hos : ∀ n, .register n ∈ Operand.leavesOf os → rs.get? n = rs'.get? n := by
        intro n hn
        exact h n (List.mem_append_right _ hn)
      rw [evalWith_congr ho, evalAll_congr hos]

end

theorem eval_congr {o : Operand} (h : ∀ n, .register n ∈ o.leaves → rs.get? n = rs'.get? n) :
    eval s module rs o = eval s module rs' o :=
  evalWith_congr h

/-- A register has the value that it holds. -/
theorem of_eval_register {n : String} {v : Value} {m m' : Machine} (h : eval s module rs (.register n) m = .ok v m') :
    rs.get? n = some v := by
  unfold eval evalWith at h
  cases hn : rs.get? n with
  | none =>
    rw [hn] at h
    exact absurd h not_fault
  | some u =>
    rw [hn] at h
    rw [(of_pure h).1]

end Machine

/-! ## What comes into a phi -/

/-- What comes into a phi, and from where. -/
def IR.Instr.incoming? (i : Instr) : Option (List (Operand × String)) :=
  match i.op with
  | .phi _ incoming => some incoming
  | _ => none

/-- The operand of a phi for the block that its own was entered from. -/
def IR.Instr.source? (i : Instr) (previous : Option String) : Option Operand :=
  i.incoming?.bind fun incoming => (incoming.find? fun x => previous == some x.2).map (·.1)

variable {p : Project} {e : Engine p} {st st' : State p} {i : Instr} {phis rest : List Instr}

namespace Engine

/-! ## Phis in order -/

/-- What one of the phis of a list is bound to: if its operand is the register of an earlier one, to what this one is bound
to; if the operand has no register of an earlier one, to its value with the registers at the beginning. -/
def Binds (e : Engine p) (st st' : State p) (before : List Instr) (i : Instr) : Prop :=
  ∃ o v, i.source? st.frame.previous = some o ∧ st'.frame.registers.get? i.name = some v ∧
    (∀ n ∈ before.map (·.name), o = .register n → st'.frame.registers.get? n = some v) ∧
    ((∀ n ∈ before.map (·.name), .register n ∉ o.leaves) → ∃ between m m', e.stateAfter? before.length st = some between ∧
      e.watch (between.frame.site i) e.monitors between.machine = .ok () m ∧
        (st.frame.site i).eval e.setting o m = .ok v m')

/-- What phis leave behind that are executed in order: each is bound, and nothing else on the path is changed than the
machine. -/
structure Assigns (e : Engine p) (st : State p) (phis : List Instr) (st' : State p) : Prop where
  after : e.stateAfter? phis.length st = some st'
  callers : st'.callers = st.callers
  trail : st'.trail = st.trail
  routine : st'.frame.routine = st.frame.routine
  block : st'.frame.block = st.frame.block
  index : st'.frame.index = st.frame.index + phis.length
  previous : st'.frame.previous = st.frame.previous
  others : ∀ n ∉ phis.map (·.name), st'.frame.registers.get? n = st.frame.registers.get? n
  binds : ∀ before i rest, phis = before ++ i :: rest → e.Binds st st' before i

/-- Executing a phi evaluates what comes in. -/
theorem act_phi {mv : Move p} {m : Machine} {incoming : List (Operand × String)} (hincoming : i.incoming? = some incoming)
    (hact : e.act st i st.machine = .ok mv m) : ∃ o v m₁, i.source? st.frame.previous = some o ∧ mv = .next (some v) ∧
      e.watch (st.frame.site i) e.monitors st.machine = .ok () m₁ ∧ (st.frame.site i).eval e.setting o m₁ = .ok v m := by
  obtain ⟨_, m₁, hwatch, hmove⟩ := exists_of_bind hact
  have hsource : i.source? st.frame.previous =
      (incoming.find? fun x => st.frame.previous == some x.2).map (·.1) := by
    unfold Instr.source?
    rw [hincoming]
    rfl
  have hsite : (st.frame.site i).instr.op = i.op := rfl
  unfold move at hmove
  dsimp only at hmove
  rw [hsite] at hmove
  unfold Instr.incoming? at hincoming
  -- What has incoming values is a phi.
  cases hop : i.op with
  | phi t incoming' =>
    rw [hop] at hincoming hmove
    obtain rfl := Option.some.inj hincoming
    obtain ⟨v, m₂, hv, hmove⟩ := exists_of_bind hmove
    obtain ⟨rfl, rfl⟩ := of_pure hmove
    unfold Machine.phi at hv
    have hprevious : (st.frame.site i).previous = st.frame.previous := rfl
    rw [hprevious] at hv
    cases hfind : incoming'.find? fun x => st.frame.previous == some x.2 with
    | none =>
      rw [hfind] at hv
      exact absurd hv not_fault
    | some x =>
      rw [hfind] at hv hsource
      exact ⟨x.1, v, m₁, hsource, rfl, hwatch, hv⟩
  | _ =>
    rw [hop] at hincoming
    cases hincoming

/-- No phis leave everything as it is. -/
theorem assigns_nil (e : Engine p) (st : State p) : e.Assigns st [] st where
  after := rfl
  callers := rfl
  trail := rfl
  routine := rfl
  block := rfl
  index := rfl
  previous := rfl
  others := fun _ _ => rfl
  binds := by
    intro before i rest h
    simp at h

section Snoc

variable {st₁ st₂ : State p} (h : e.Assigns st phis st₁) (hi : st₁.frame.instr? = some i)
include h hi

/-- The phi that has just been executed reads the registers that the others have left. -/
theorem Assigns.binds_last (hname : i.name ∉ phis.map (·.name)) {o : Operand} {v : Value} {m m' : Machine}
    (hsource : i.source? st₁.frame.previous = some o)
    (hwatch : e.watch (st₁.frame.site i) e.monitors st₁.machine = .ok () m)
    (heval : (st₁.frame.site i).eval e.setting o m = .ok v m') (hst₂ : st₂.frame = st₁.frame.finish (some v)) :
    e.Binds st st₂ phis i := by
  refine ⟨o, v, h.previous ▸ hsource, ?_, fun n hn ho => ?_, fun hleaves => ?_⟩
  · rw [hst₂, Frame.get?_finish hi, if_pos rfl]
  · subst ho
    have hne : ¬ i.name = n := by
      intro heq
      exact hname (heq ▸ hn)
    rw [hst₂, Frame.get?_finish hi, if_neg hne]
    exact of_eval_register heval
  · refine ⟨st₁, m, m', h.after, hwatch, ?_⟩
    have hmodule : st₁.frame.routine.module = st.frame.routine.module := congrArg _ h.routine
    have hcongr : ∀ n, .register n ∈ o.leaves → st₁.frame.registers.get? n = st.frame.registers.get? n := by
      intro n hn
      exact h.others n fun hmem => hleaves n hmem hn
    have heval : eval e.setting st₁.frame.routine.module st₁.frame.registers o m = .ok v m' := heval
    rw [hmodule, eval_congr hcongr] at heval
    exact heval

/-- What was bound before stays, phis having different names. -/
theorem Assigns.binds_kept (hname : i.name ∉ phis.map (·.name)) {v : Value}
    (hst₂ : st₂.frame = st₁.frame.finish (some v)) {before rest : List Instr} {j : Instr}
    (hphis : phis = before ++ j :: rest) : e.Binds st st₂ before j := by
  have hkeeps : ∀ n ∈ phis.map (·.name), st₂.frame.registers.get? n = st₁.frame.registers.get? n := by
    intro n hn
    have hne : ¬ i.name = n := by
      intro heq
      exact hname (heq ▸ hn)
    rw [hst₂, Frame.get?_finish hi, if_neg hne]
  have hmem : ∀ n ∈ before.map (·.name), n ∈ phis.map (·.name) := by
    intro n hn
    rw [hphis, List.map_append]
    exact List.mem_append_left _ hn
  have hj : j.name ∈ phis.map (·.name) := by
    rw [hphis]
    simp
  obtain ⟨o, v, hsource, hbound, hregister, hother⟩ := h.binds before j rest hphis
  refine ⟨o, v, hsource, (hkeeps _ hj).trans hbound, fun n hn ho => ?_, hother⟩
  exact (hkeeps n (hmem n hn)).trans (hregister n hn ho)

/-- **One more phi** binds its register to what the operand is worth now, and what those before it
have bound stays. -/
theorem Assigns.snoc (hname : i.name ∉ phis.map (·.name)) {o : Operand} {v : Value} {m m' : Machine}
    (hsource : i.source? st₁.frame.previous = some o)
    (hwatch : e.watch (st₁.frame.site i) e.monitors st₁.machine = .ok () m)
    (heval : (st₁.frame.site i).eval e.setting o m = .ok v m')
    (hstep : (st₁.note (st₁.frame.site i).location).follow m' (.next (some v)) = e.step st₁)
    (hst₂ : e.step st₁ = .proceed st₂) : e.Assigns st (phis ++ [i]) st₂ := by
  obtain rfl := Step.proceed.inj (hstep.trans hst₂)
  constructor
  · rw [List.length_append, stateAfter?_add, h.after, Option.bind_some]
    show e.stateAfter? 1 st₁ = _
    unfold stateAfter?
    rw [hst₂]
    rfl
  · exact h.callers
  · exact h.trail
  · exact h.routine
  · exact h.block
  · rw [List.length_append, ← Nat.add_assoc, ← h.index]
    rfl
  · exact h.previous
  · intro n hn
    rw [List.map_append, List.mem_append, not_or] at hn
    have hne : ¬ i.name = n := by
      intro heq
      exact hn.2 (List.mem_singleton.mpr heq.symm)
    exact ((Frame.get?_finish hi v n).trans (if_neg hne)).trans (h.others n hn.1)
  · intro before j rest hsplit
    rcases List.eq_nil_or_concat rest with rfl | ⟨rest, k, rfl⟩
    · obtain ⟨rfl, hij⟩ := List.append_inj' hsplit rfl
      obtain rfl := (List.cons.inj hij).1
      exact h.binds_last hi hname hsource hwatch heval rfl
    · rw [List.concat_eq_append, ← List.cons_append, ← List.append_assoc] at hsplit
      exact h.binds_kept hi hname rfl (List.append_inj' hsplit rfl).1

end Snoc

/-- **Phis are executed in order**: a path that comes to a block either ends at one of its phis, or gets behind them with
each bound. One whose operand is no earlier phi of the block has the value of this operand where the block was entered; one
whose operand is an earlier phi has the new value of this phi. -/
theorem assigns_of_phis (hindex : st.frame.index = 0) (hblock : st.frame.block.instrs = phis ++ rest)
    (hphis : ∀ i ∈ phis, i.incoming?.isSome) (hnames : (phis.map (·.name)).Nodup) :
    (∃ k < phis.length, ∃ between path, e.stateAfter? k st = some between ∧ e.step between = .finish path ∧
      ∀ o, path.ending ≠ .outcome o) ∨ ∃ st', e.Assigns st phis st' := by
  -- From the end: the last phi runs in the state the ones before it have led to.
  induction phis using List.reverseRecOn generalizing rest with
  | nil => exact Or.inr ⟨st, assigns_nil e st⟩
  | append_singleton phis i ih =>
    rw [List.append_assoc] at hblock
    rw [List.map_append] at hnames
    have hlength : (phis ++ [i]).length = phis.length + 1 := List.length_append
    rcases ih hblock (fun j hj => hphis j (List.mem_append_left _ hj)) (List.nodup_append.mp hnames).1 with
      ⟨k, hk, hends⟩ | ⟨st₁, hst₁⟩
    · exact Or.inl ⟨k, by omega, hends⟩
    have hi : st₁.frame.instr? = some i := by
      unfold Frame.instr?
      rw [hst₁.block, hst₁.index, hindex, hblock]
      simp
    obtain ⟨incoming, hincoming⟩ := Option.isSome_iff_exists.mp (hphis i (by simp))
    cases hact : e.act st₁ i st₁.machine with
    | error failure m =>
      have hstep : e.step st₁ = .finish ((st₁.note (st₁.frame.site i).location).finish m failure.ending) := by
        rw [step_of_instr? hi, hact]
      refine Or.inl ⟨phis.length, by omega, st₁, _, hst₁.after, hstep, fun o => ?_⟩
      cases failure <;> nofun
    | ok mv m' =>
      obtain ⟨o, v, m, hsource, rfl, hwatch, heval⟩ := act_phi hincoming hact
      have hstep : e.step st₁ = (st₁.note (st₁.frame.site i).location).follow m' (.next (some v)) := by
        rw [step_of_instr? hi, hact]
      have hname : i.name ∉ phis.map (·.name) := by
        intro hmem
        exact (List.nodup_append.mp hnames).2.2 _ hmem _ (List.mem_singleton_self _) rfl
      exact Or.inr ⟨_, hst₁.snoc hi hname hsource hwatch heval hstep.symm hstep⟩

/-- A path that gets further does not end before. -/
theorem not_finish_of_stateAfter? {k n : Nat} {between : State p} {path : Path} (h : e.stateAfter? n st = some st')
    (hk : k < n) (hbetween : e.stateAfter? k st = some between) : e.step between ≠ .finish path := by
  obtain ⟨j, rfl⟩ := Nat.exists_eq_add_of_lt hk
  intro hstep
  rw [Nat.add_assoc, stateAfter?_add, hbetween, Option.bind_some] at h
  unfold stateAfter? at h
  rw [hstep] at h
  cases h

end Engine

namespace Swapping

/-- A loop that swaps two registers. -/
def swapping : Module where
  globals := []
  functions := [⟨"main", .int 32, [], false,
    [⟨"entry", [⟨"", .br "loop"⟩]⟩,
      ⟨"loop", [
        ⟨"a", .phi (.int 32) [(.constant (.int 32) (.int 1), "entry"), (.register "b", "loop")]⟩,
        ⟨"b", .phi (.int 32) [(.constant (.int 32) (.int 2), "entry"), (.register "a", "loop")]⟩,
        ⟨"", .br "loop"⟩]⟩]⟩]

/-- The project of this module. -/
def project : Project := (Project.ofModules? [swapping] ⟨[], 64⟩).get rfl

/-- An engine with nothing special about it. -/
def engine : Engine project := {}

/-- Where the exploration begins. -/
def start : Start project := (Start.of project "main").toOption.get rfl

/-- The exploration where the loop is entered for the second time. -/
def again : Progress project := (engine.advances? 5 start.progress).get (by decide +kernel)

/-- The path that is there. -/
def swapped : State project := again.current.get (by decide +kernel)

/-- The constants that are in the registers of a state. -/
def constants (st : State project) : Option Nat × Option Nat :=
  ((st.frame.registers.get? "a").bind (·.const?), (st.frame.registers.get? "b").bind (·.const?))

/-- The registers are to be swapped where the loop is entered for the second time, but they end up equal: the second phi
takes what the first one has just been bound to. -/
theorem assigns_swapping :
    (swapped.frame.block.name = "loop" ∧ swapped.frame.previous = some "loop" ∧ constants swapped = (some 1, some 2)) ∧
      ∃ st', engine.Assigns swapped (swapped.frame.block.instrs.take 2) st' ∧ constants st' = (some 2, some 2) := by
  have hafter : (engine.stateAfter? 2 swapped).any (fun st' => decide (constants st' = (some 2, some 2))) = true := by
    decide +kernel
  obtain ⟨st', hst', hvalues⟩ := (Option.any_eq_true _ _).mp hafter
  refine ⟨by decide +kernel, st', ?_, of_decide_eq_true hvalues⟩
  have hindex : swapped.frame.index = 0 := by decide +kernel
  have hblock : swapped.frame.block.instrs = swapped.frame.block.instrs.take 2 ++ swapped.frame.block.instrs.drop 2 :=
    (List.take_append_drop 2 _).symm
  rcases engine.assigns_of_phis hindex hblock (by decide +kernel) (by decide +kernel) with
    ⟨k, hk, between, path, hbetween, hstep, _⟩ | ⟨st₁, hst₁⟩
  · exact absurd hstep (Engine.not_finish_of_stateAfter? hst' hk hbetween)
  · obtain rfl := Option.some.inj (hst₁.after.symm.trans hst')
    exact hst₁

end Swapping

end PathSafety
