import PathSafety.Proofs.Machine.Allocation
import PathSafety.Proofs.Machine.Separation
import PathSafety.Proofs.Path.Globals

/-!
# Allocations on a path

The storage that a path hands out, instruction by instruction. A fork copies the supply of addresses, so that a path
which is split off hands out from where the other one stood, and what both have from before is the same. So the blocks
of each path lie one behind another, and a store into one of them is not seen by loads of the others.

Contents:

* `Engine.Asks`, `Engine.StepHands` — what an instruction asks for, and the blocks that it hands out;
* `Engine.HandsOut`, `Engine.PathHands` — the blocks that a path hands out;
* `Engine.call_cases`, `Engine.move_cases`, `Engine.exists_stepHands` — that every instruction is accounted for, with
  hooks and monitors that are built in;
* `Engine.supply_of_next`, `Engine.supply_of_endsAt` — that a path goes on with the supply that its instruction leaves;
* `Engine.exists_handsOut`, `Engine.exists_pathHands` — that every path is accounted for;
* `Extent.Separate`, `Extent.Apart.separate` — stores and loads in different blocks;
* `Engine.allocations_never_alias` — that allocations never alias.
-/

namespace PathSafety

open IR Machine

variable {p : Project} {e : Engine p} {st st' first : State p} {path : Path} {i : Instr} {bs cs : List Extent}
  {start : Start p}

namespace Engine

/-! ## What a path hands out -/

/-- The bits of storage that the next instruction of a path asks for, after the monitors have let it pass: an allocation
for as many objects as it is to, and a call what it asks the hook for that it goes to. -/
inductive Asks (e : Engine p) (st : State p) : Nat → Prop
  | alloca {site : Site} {m : Machine} {t : Ty} {count : Option Operand} {size bits : Nat}
    (hstarts : e.Starts st site m) (hop : site.instr.op = .alloca t count) (hsize : p.layout.bits? t = some size)
    (hbits : Times e.setting site m size count bits) : Asks e st bits
  | call {site : Site} {m : Machine} {callee : Operand} {args : List Operand} {b : SandboxHook} {bits : Nat}
    (hstarts : e.Starts st site m) (hop : site.instr.op = .call callee args)
    (hhook : e.Handles ⟨site, callee, args⟩ b) (hbits : Requests e.setting ⟨site, callee, args⟩ m b bits) :
    Asks e st bits

/-- The blocks that the next instruction of a path hands out. They are those of the names that it meets, all of which it
leads to. If it asks for storage, and does not fail, there is one more, where the pointer points that it gives. -/
inductive StepHands (e : Engine p) (st : State p) : List Extent → Prop
  | stuck (hi : st.frame.instr? = none) : StepHands e st []
  | names {i : Instr} {met : List Meeting} (hi : st.frame.instr? = some i)
    (hmet : Meetings e.setting st.machine (left (e.act st i) st.machine) met)
    (hleads : ∀ y ∈ met, st.LeadsTo y.name y.module)
    (hnone : ∀ mv m, e.act st i st.machine = .ok mv m → ∀ bits, ¬ e.Asks st bits) : StepHands e st (blocks met)
  | given {i : Instr} {bits a : Nat} {v : Value} {m : Machine} {met : List Meeting} (hi : st.frame.instr? = some i)
    (hasks : e.Asks st bits) (hact : e.act st i st.machine = .ok (.next (some v)) m) (hv : v.const? = some a)
    (hmet : Meetings e.setting st.machine m met) (hleads : ∀ y ∈ met, st.LeadsTo y.name y.module) :
    StepHands e st (blocks met ++ [⟨a, max 1 (byteCount bits)⟩])

/-- The blocks that a path has handed out from one state to another, in order. -/
inductive HandsOut (e : Engine p) (first : State p) : State p → List Extent → Prop
  | refl : HandsOut e first first []
  | next {st st' : State p} {bs cs : List Extent} (h : HandsOut e first st bs) (hcs : e.StepHands st cs)
    (hnext : e.Next st st') : HandsOut e first st' (bs ++ cs)

/-- The blocks that a path has handed out at its end. -/
inductive PathHands (e : Engine p) (start : Start p) (path : Path) : List Extent → Prop
  | entry (hin : start.first.enter e.loopBound = .error path) : PathHands e start path []
  | ends {first st : State p} {bs cs : List Extent} (hin : start.first.enter e.loopBound = .ok first)
    (hbs : e.HandsOut first st bs) (hcs : e.StepHands st cs) (hends : e.EndsAt st path) :
    PathHands e start path (bs ++ cs)

/-! ## The machine that an instruction leaves -/

/-- The machine that the next instruction of a path leaves. -/
def leftBy (e : Engine p) (st : State p) : Machine :=
  match st.frame.instr? with
  | none => st.machine
  | some i => left (e.act st i) st.machine

theorem leftBy_of_none (hi : st.frame.instr? = none) : e.leftBy st = st.machine := by
  unfold leftBy
  rw [hi]

theorem leftBy_of_instr? (hi : st.frame.instr? = some i) : e.leftBy st = left (e.act st i) st.machine := by
  unfold leftBy
  rw [hi]

theorem leftBy_of_ok {mv : Move p} {m : Machine} (hi : st.frame.instr? = some i)
    (hact : e.act st i st.machine = .ok mv m) : e.leftBy st = m := by
  rw [leftBy_of_instr? hi, left_of_ok hact]

theorem leftBy_of_error {failure : Failure} {m : Machine} (hi : st.frame.instr? = some i)
    (hact : e.act st i st.machine = .error failure m) : e.leftBy st = m := by
  rw [leftBy_of_instr? hi, left_of_error hact]

/-! ## Instructions -/

section Instructions

variable (he : e.BuiltIn) {site : Site} {m : Machine}

/-- The names that an instruction leads to. -/
def reached (p : Project) (site : Site) (n : String) (j : Nat) : Prop :=
  site.instr.op.LeadsTo p site.routine.module n j

theorem onlyMeets_operand (site : Site) {o : Operand} (ho : o ∈ site.instr.op.taken) :
    OnlyMeets e.setting (reached p site) Value (site.eval e.setting o) :=
  onlyMeets_siteEval (site.instr.op.followsInitials_leadsTo p _) site fun _ _ h => ⟨o, ho, .refers h⟩

theorem onlyMeets_number (site : Site) {o : Operand} (ho : o ∈ site.instr.op.operands) :
    OnlyMeets e.setting (reached p site) Nat (site.eval e.setting o >>= evalNat) :=
  onlyMeets_bind (onlyMeets_operand site (Op.mem_taken rfl ho)) onlyMeets_evalNat

include he

theorem onlyMeets_watch (site : Site) : OnlyMeets e.setting (reached p site) Unit (e.watch site e.monitors) := by
  refine queries_onlyMeets.watch fun monitor hmonitor => ?_
  obtain ⟨k, hk⟩ := he.monitors monitor hmonitor
  exact queries_onlyMeets.checker (fun o ho => onlyMeets_operand site (Op.mem_taken rfl ho))
    (fun o ho => onlyMeets_number site ho) hk

/-- **Calls** give the storage that they ask a hook for, or ask for none and hand out none. -/
theorem call_cases {callee : Operand} {args : List Operand} (hstarts : e.Starts st site m)
    (hop : site.instr.op = .call callee args) (st' : State p) :
    Fulfils e.setting (reached p site) (e.Asks st) (fun v => .next (some v)) (e.call st' ⟨site, callee, args⟩) m ∨
      OnlyMeets e.setting (reached p site) (Move p) (e.call st' ⟨site, callee, args⟩) ∧ ∀ bits, ¬ e.Asks st bits := by
  have heval : ∀ o ∈ args, OnlyMeets e.setting (reached p site) Value (site.eval e.setting o) := fun o ho =>
    onlyMeets_operand site (Op.mem_taken hop ho)
  have hP : ∀ {b}, e.Handles ⟨site, callee, args⟩ b →
      ∀ bits, Requests e.setting ⟨site, callee, args⟩ m b bits → e.Asks st bits := fun hhook _ h =>
    .call hstarts hop hhook h
  have hresumed : ∀ {x : Action Outcome}, OnlyMeets e.setting (reached p site) Outcome x →
      OnlyMeets e.setting (reached p site) (Move p) (do return resume (← x)) := fun hx =>
    onlyMeets_bind hx fun o => onlyMeets_pure _
  by_cases hasks : ∃ bits, e.Asks st bits
  · -- what asks for storage is a call to a hook that gives some
    left
    obtain ⟨bits, hasks⟩ := hasks
    cases hasks with
    | alloca hstarts' hop' =>
      obtain ⟨rfl, _⟩ := hstarts.unique hstarts'
      rw [hop] at hop'
      cases hop'
    | call hstarts' hop' hhook hbits =>
      obtain ⟨rfl, rfl⟩ := hstarts.unique hstarts'
      rw [hop] at hop'
      cases hop'
      obtain ⟨h, hhandler, hrun⟩ := hhook
      rw [call_of_handler? hhandler, hrun]
      exact (fulfils_of_requests heval hbits (hP ⟨h, hhandler, hrun⟩)).map resume
  · have hnone : ∀ bits, ¬ e.Asks st bits := fun bits h => hasks ⟨bits, h⟩
    obtain ⟨h, hhandler, hcall⟩ | ⟨f, k, _, _, hcall⟩ | ⟨f, hcall⟩ | ⟨f, hcall⟩ :=
      e.cases_of_call st' ⟨site, callee, args⟩
    all_goals rw [hcall]
    · rcases builtIn_of_handler? he hhandler ⟨site, callee, args⟩ with ⟨b, hb⟩ | ⟨b, hb⟩ | ⟨f, hf⟩
      · rw [hb]
        rcases fulfils_or_onlyMeets heval (hP ⟨h, hhandler, hb⟩) with hgives | ⟨honly, _⟩
        · exact Or.inl (hgives.map resume)
        · exact Or.inr ⟨hresumed honly, hnone⟩
      · rw [hb]
        exact Or.inr ⟨hresumed (queries_onlyMeets.plain _ heval b), hnone⟩
      · rw [hf]
        exact Or.inr ⟨hresumed (onlyMeets_fault f), hnone⟩
    · exact Or.inr ⟨hresumed (operates_onlyMeets.intrinsic onlyMeets_read _ heval _ k), hnone⟩
    · exact Or.inr ⟨queries_onlyMeets.inline heval st' f, hnone⟩
    · exact Or.inr ⟨onlyMeets_fault f, hnone⟩

/-- **Instructions** give the storage that they ask for, or ask for none and hand out none. -/
theorem move_cases (hstarts : e.Starts st site m) (st' : State p) :
    Fulfils e.setting (reached p site) (e.Asks st) (fun v => .next (some v)) (e.move st' site) m ∨
      OnlyMeets e.setting (reached p site) (Move p) (e.move st' site) ∧ ∀ bits, ¬ e.Asks st bits := by
  have heval : ∀ o ∈ site.instr.op.operands, OnlyMeets e.setting (reached p site) Value (site.eval e.setting o) :=
    fun o ho => onlyMeets_operand site (Op.mem_taken rfl ho)
  by_cases halloca : ∃ t count, site.instr.op = .alloca t count
  · obtain ⟨t, count, hop⟩ := halloca
    rw [hop] at heval
    left
    unfold move
    rw [hop]
    have hgives : Fulfils e.setting (reached p site) (e.Asks st) (fun v => v) (alloca e.setting site t count) m :=
      fulfils_alloca heval fun size bits hsize hbits => .alloca hstarts hop hsize hbits
    exact hgives.map fun v => Move.next (some v)
  · by_cases hcall : ∃ callee args, site.instr.op = .call callee args
    · obtain ⟨callee, args, hop⟩ := hcall
      unfold move
      rw [hop]
      exact call_cases he hstarts hop st'
    · right
      refine ⟨?_, fun bits hasks => ?_⟩
      · refine operates_onlyMeets.move onlyMeets_read heval (fun o ho => onlyMeets_number site ho)
          (fun t count hop => absurd ⟨t, count, hop⟩ halloca) (fun t incoming hop => ?_) st'
          (fun callee args hop => absurd ⟨callee, args, hop⟩ hcall) (fun successors hsuccessors => ?_)
          (fun op flags a b hop => ?_)
        · exact Queries.phi (fun x hx => onlyMeets_operand site (Op.mem_taken_phi hop hx)) fun _ => onlyMeets_fault _
        · exact onlyMeets_bind (queries_onlyMeets.successors heval hsuccessors) fun ss =>
            queries_onlyMeets.branch onlyMeets_get (fun _ => onlyMeets_of_quiet fun _ => ⟨rfl, rfl⟩)
              (fun _ => onlyMeets_fault _) _ ss
        · rw [hop] at heval
          exact onlyMeets_bind (heval a List.mem_cons_self) fun u =>
            onlyMeets_bind (heval b (by simp [Op.operands])) fun v => onlyMeets_valueOr _
      · cases hasks with
        | alloca hstarts' hop =>
          obtain ⟨rfl, _⟩ := hstarts.unique hstarts'
          exact halloca ⟨_, _, hop⟩
        | call hstarts' hop =>
          obtain ⟨rfl, _⟩ := hstarts.unique hstarts'
          exact hcall ⟨_, _, hop⟩

/-- **Every instruction is accounted for**, and nothing is missing in its account. -/
theorem exists_stepHands (st : State p) :
    ∃ bs, e.StepHands st bs ∧ Balances e.setting st.machine (e.leftBy st) bs := by
  cases hi : st.frame.instr? with
  | none => exact ⟨[], .stuck hi, leftBy_of_none hi ▸ balances_nil rfl⟩
  | some i =>
    rw [leftBy_of_instr? hi]
    have hleads : ∀ n j, reached p (st.frame.site i) n j → st.LeadsTo n j := fun n j h => ⟨i, hi, h⟩
    -- what asks for nothing hands out storage only to names
    have hnames : (∃ met, Accounts e.setting (reached p (st.frame.site i)) st.machine (left (e.act st i) st.machine)
        met) →
        (∀ mv m, e.act st i st.machine = .ok mv m → ∀ bits, ¬ e.Asks st bits) →
          ∃ bs, e.StepHands st bs ∧ Balances e.setting st.machine (left (e.act st i) st.machine) bs := by
      rintro ⟨met, hmet⟩ hnone
      exact ⟨_, .names hi hmet.toMeetings (fun y hy => hleads _ _ (hmet.allowed y hy)) hnone, hmet.balances⟩
    have hwatches := onlyMeets_watch he (st.frame.site i)
    cases hwatch : e.watch (st.frame.site i) e.monitors st.machine with
    | error failure m =>
      have hact : e.act st i st.machine = .error failure m := by
        unfold act
        simp only [bind, EStateM.bind, hwatch]
      refine hnames ?_ fun mv m' h => ?_
      · rw [left_of_error hact]
        exact hwatches.of_error hwatch
      · rw [hact] at h
        cases h
    | ok _ m =>
      rcases move_cases he ⟨i, hi, rfl, hwatch⟩ (st.note (st.frame.site i).location) with hmove | ⟨honly, hnone⟩
      · have hgives : Fulfils e.setting (reached p (st.frame.site i)) (e.Asks st) (fun v => .next (some v)) (e.act st i)
            st.machine := fulfils_bind hwatches fun _ m' h => by
          obtain ⟨_, rfl⟩ := EStateM.Result.ok.inj (hwatch.symm.trans h)
          exact hmove
        cases hact : e.act st i st.machine with
        | error failure m' =>
          refine hnames ?_ fun mv m' h => ?_
          · rw [left_of_error hact]
            exact hgives.of_error hact
          · rw [hact] at h
            cases h
        | ok mv m' =>
          obtain ⟨bits, v, met, hasks, rfl, hgrants⟩ := hgives.of_ok hact
          obtain ⟨a, ha, hhands⟩ := hgrants.block
          have hgiven := StepHands.given hi hasks hact ha hgrants.toMeetings fun y hy => hleads _ _ (hgrants.allowed y hy)
          rw [left_of_ok hact]
          exact ⟨_, hgiven, hgrants.balances hhands⟩
      · exact hnames (onlyMeets_bind hwatches (fun _ => honly) st.machine) fun _ _ _ => hnone

end Instructions

/-! ## The supply of addresses -/

/-- What is split off at a fork has the supply of the path that it is split off from. -/
theorem supply_of_split {l : Location} {mv : Move p} {m m' : Machine}
    (h : e.move (st.note l) (st.frame.site i) m = .ok mv m') : ∀ x ∈ mv.split, x.1.supply = m'.supply := by
  by_cases hforks : i.op.Forks
  · obtain ⟨successors, hsuccessors⟩ : ∃ successors, e.successors? (st.frame.site i) = some successors :=
      e.exists_successors? hforks
    rw [move_of_successors? hsuccessors] at h
    obtain ⟨ss, m₁, _, h⟩ := exists_of_bind h
    obtain ⟨r, m₂, _, hselects⟩ := selects_possible 0 ss m₁
    rcases branch_of_selects hselects with ⟨_, _, _, hfailed⟩ | ⟨copies, g, others, m₃, hcopies, hbranch, hmap⟩
    · cases hfailed.symm.trans h
    · obtain ⟨rfl, rfl⟩ := EStateM.Result.ok.inj (hbranch.symm.trans h)
      -- all of them are copies of one machine, with different conditions
      have hcopied : ∀ x ∈ (m₃, g) :: others, x.1.supply = m₂.supply := by
        rw [← hmap]
        intro x hx
        obtain ⟨y, hy, rfl⟩ := List.mem_map.mp hx
        obtain ⟨z, _, _, hz⟩ := (of_copies? hcopies).2 y hy
        rw [hz]
        unfold Machine.choose
        split <;> rfl
      intro x hx
      rw [hcopied x (List.mem_cons_of_mem _ hx), hcopied (m₃, g) List.mem_cons_self]
  · have hsite : ¬ (st.frame.site i).instr.op.Forks := hforks
    have hsplit : mv.split = [] := gives_move _ hsite h
    rw [hsplit]
    exact List.forall_mem_nil _

/-- An arrival has the supply that the instruction before has left. -/
theorem supply_of_arrive {a b : Arrival p} {others : List (Arrival p)} (h : e.step st = .arrive a others)
    (hb : b ∈ a :: others) : b.state.machine.supply = (e.leftBy st).supply := by
  obtain ⟨i, mv, m, hi, hrun, hfollow⟩ := act_of_arrive h
  rw [leftBy_of_ok hi hrun]
  obtain ⟨_, m₁, _, hmove⟩ := exists_of_bind hrun
  rcases of_follow_arrive hfollow b hb with hmachine | ⟨x, hx, hmachine⟩
  · rw [hmachine]
  · rw [hmachine]
    exact supply_of_split hmove x hx

/-- A path goes on with the supply that its instruction has left. -/
theorem supply_of_next (h : e.Next st st') : st'.machine.supply = (e.leftBy st).supply := by
  cases h with
  | proceed h =>
    obtain ⟨i, mv, m, hi, hrun, hfollow⟩ := act_of_proceed h
    rw [leftBy_of_ok hi hrun, (of_follow_proceed hfollow).1]
  | enter h hb hin =>
    obtain rfl := Arrival.eq_of_enter hin
    exact supply_of_arrive h hb

/-- A path ends with the supply that its last instruction has left. -/
theorem supply_of_endsAt (h : e.EndsAt st path) : path.machine.supply = (e.leftBy st).supply := by
  cases h with
  | finish h =>
    obtain ⟨hi, hstep⟩ | ⟨i, mv, m, hi, hrun, hstep⟩ | ⟨i, failure, m, hi, hrun, hstep⟩ := step_cases h
    · obtain rfl := Step.finish.inj hstep
      rw [leftBy_of_none hi]
      rfl
    · rw [leftBy_of_ok hi hrun, (of_follow_finish hstep.symm).2.1]
    · obtain rfl := Step.finish.inj hstep
      rw [leftBy_of_error hi hrun]
      rfl
  | bound h hb hin =>
    rw [(Arrival.of_enter_error hin).1]
    exact supply_of_arrive h hb

/-! ## Paths -/

/-- **A path on its way** is accounted for. Forks do not matter: it has moved its supply on by its own blocks. -/
theorem exists_handsOut (he : e.BuiltIn) (h : e.Reaches first st) :
    ∃ bs, e.HandsOut first st bs ∧ Balances e.setting first.machine st.machine bs := by
  have hnext : ∀ {st st' : State p} {bs}, e.HandsOut first st bs → Balances e.setting first.machine st.machine bs →
      e.Next st st' → ∃ bs, e.HandsOut first st' bs ∧ Balances e.setting first.machine st'.machine bs := by
    intro st st' bs hbs hbalances hnext
    obtain ⟨cs, hcs, hstep⟩ := exists_stepHands he st
    exact ⟨bs ++ cs, hbs.next hcs hnext, hbalances.append (hstep.of_supply (supply_of_next hnext))⟩
  induction h with
  | refl => exact ⟨[], .refl, balances_nil rfl⟩
  | proceed _ hstep ih =>
    obtain ⟨bs, hbs, hbalances⟩ := ih
    exact hnext hbs hbalances (.proceed hstep)
  | enter _ hstep hb hin ih =>
    obtain ⟨bs, hbs, hbalances⟩ := ih
    exact hnext hbs hbalances (.enter hstep hb hin)

/-- **A path at its end** is accounted for. -/
theorem exists_pathHands (he : e.BuiltIn) (hpath : path ∈ e.pathsOf start) :
    ∃ bs, e.PathHands start path bs ∧ Balances e.setting start.first.state.machine path.machine bs := by
  rw [pathsOf_eq] at hpath
  cases hin : start.first.enter e.loopBound with
  | error path' =>
    rw [explore_of_error hin] at hpath
    obtain rfl := List.mem_singleton.mp hpath
    refine ⟨[], .entry hin, balances_nil ?_⟩
    rw [(Arrival.of_enter_error hin).1]
  | ok first =>
    rw [explore_of_ok hin] at hpath
    obtain ⟨st, hreaches, hends⟩ := exists_endsAt hpath
    obtain ⟨bs, hbs, hbalances⟩ := exists_handsOut he hreaches
    obtain ⟨cs, hcs, hstep⟩ := exists_stepHands he st
    refine ⟨bs ++ cs, .ends hin hbs hcs hends, ?_⟩
    obtain rfl := Arrival.eq_of_enter hin
    exact hbalances.append (hstep.of_supply (supply_of_endsAt hends))

end Engine

/-! ## Stores and loads -/

namespace Extent

/-- That a store into one block is not seen in another one. Whatever is stored in bytes of the first block, the bytes of
the second one stay as they are, and a load of some of them returns what it would with the memory from before. -/
def Separate (s : Setting) (b c : Extent) : Prop :=
  ∀ (m m' : Machine) (target v : Value) (a : Nat), write s target v m = .ok () m' → m.target? target = some a →
    (∀ x, a ≤ x → x < a + byteCount v.width → b.Has x) →
      Memory.AgreeOn c.Has m.memory m'.memory ∧
        ∀ address bits, ReadsOn c.Has m' address (byteCount bits) →
          (read s address bits).run' m' = (read s address bits).run' { m' with memory := m.memory }

theorem separate_of_not_has {s : Setting} {b c : Extent} (h : ∀ x, c.Has x → ¬ b.Has x) : Separate s b c := by
  intro m m' target v a hwrite htarget hin
  have hout : ∀ x, c.Has x → ¬ (a ≤ x ∧ x < a + byteCount v.width) := by
    intro x hx hbytes
    exact h x hx (hin x hbytes.1 hbytes.2)
  exact ⟨agreeOn_of_write hwrite htarget hout, fun address bits hreads => read_of_write hwrite htarget hout hreads⟩

/-- **Blocks that are apart** are separate, both ways. -/
theorem Apart.separate {s : Setting} {b c : Extent} (h : b.Apart c) : Separate s b c ∧ Separate s c b := by
  constructor
  · exact separate_of_not_has fun x hc hb => h.not_has hb hc
  · exact separate_of_not_has fun x hb => h.not_has hb

end Extent

/-- That blocks never alias. -/
structure NeverAlias (s : Setting) (bs : List Extent) : Prop where
  aligned : ∀ b ∈ bs, 16 ∣ b.address
  /-- The null address is in none of them. -/
  positive : ∀ b ∈ bs, ¬ b.Has 0
  /-- None of them wraps around. -/
  below : ∀ b ∈ bs, b.address + b.size ≤ 2 ^ s.pointerBits
  /-- There are unused bytes between any two. -/
  apart : bs.Pairwise Extent.Apart
  /-- A store into one of two is not seen in the other. -/
  separate : bs.Pairwise fun b c => Extent.Separate s b c ∧ Extent.Separate s c b

/-- **Blocks that lie one behind another** never alias. -/
theorem neverAlias_of_laid {s : Setting} {a : Nat} (h : Extent.Laid (2 ^ s.pointerBits) a bs)
    (hle : a + Extent.strides bs ≤ 2 ^ s.pointerBits) (ha : 16 ∣ a) (hpos : 0 < a) : NeverAlias s bs where
  aligned := h.dvd hle ha
  positive b hb hzero := by
    have hge := (h.bounds hle b hb).1
    have hle := hzero.1
    omega
  below b hb := by
    have hend := (h.bounds hle b hb).2
    omega
  apart := h.pairwise hle
  separate := (h.pairwise hle).imp Extent.Apart.separate

/-- **Allocations never alias.** All storage that a path hands out is accounted for, instruction by instruction: the
blocks of global names, which their addresses point to, and the blocks that instructions ask for, which begin at the
pointers that they give. The supply of addresses has moved on by just these blocks. As long as it has not run over, the
blocks begin at multiples of the alignment and lie apart, none of them holds the null address, and a store into one of
them is not seen in the others. -/
theorem Engine.allocations_never_alias (he : e.BuiltIn) {name : String} (hstart : Start.of p name = .ok start)
    (hpath : path ∈ e.pathsOf start) :
    ∃ bs, e.PathHands start path bs ∧ path.machine.nextAddress = allocationBase + Extent.strides bs ∧
      (∀ n v, path.machine.addresses.get? n = some v → ∃ b ∈ bs, v.const? = some b.address) ∧
        ∀ handed, handed <+: bs → allocationBase + Extent.strides handed ≤ 2 ^ p.layout.pointerBits →
          NeverAlias e.setting handed := by
  obtain ⟨haddresses, hbase⟩ := machine_of_start hstart
  obtain ⟨bs, hbs, hbalances⟩ := exists_pathHands he hpath
  refine ⟨bs, hbs, hbase ▸ hbalances.next, fun n v hn => hbalances.begun n v ?_ hn, ?_⟩
  · rw [haddresses]
    rfl
  · have hlaid := hbalances.laid
    rw [hbase] at hlaid
    rintro handed ⟨rest, rfl⟩ hle
    have hhanded : Extent.Laid (2 ^ e.setting.pointerBits) allocationBase handed := (Extent.laid_append.mp hlaid).1
    apply neverAlias_of_laid hhanded hle
    · decide
    · decide

namespace Allocating

/-- A function that has storage of its own, storage from a hook, and a global variable. -/
def module : Module where
  globals := [⟨"g", .int 32, some (.constant (.int 32) (.int 5))⟩]
  functions := [
    ⟨"make", .ptrTo (.int 64) 0, [], false, []⟩,
    ⟨"main", .int 32, [], false, [⟨"entry", [
      ⟨"x", .alloca (.int 1) none⟩,
      ⟨"y", .call (.global "make") []⟩,
      ⟨"", .store (.constant (.int 64) (.int 7)) (.register "y")⟩,
      ⟨"", .store (.constant (.int 1) (.int 1)) (.register "x")⟩,
      ⟨"r", .load (.global "g") (some (.int 32))⟩,
      ⟨"", .ret (some (.register "r"))⟩]⟩]⟩]

/-- The project of this module. -/
def project : Project := (Project.ofModules? [module] ⟨[], 64⟩).get rfl

/-- An engine with the default hook of the sandbox. -/
def engine : Engine project := { hooks := { default := some fun s c => SandboxHook.default.run s c } }

theorem builtIn_engine : engine.BuiltIn where
  byName _ _ h := nomatch h
  default h hh := by
    obtain rfl := Option.some.inj hh
    exact fun c => Or.inl ⟨.default, rfl⟩
  monitors _ h := absurd h List.not_mem_nil

/-- Where the exploration begins. -/
def main : Start project := (Start.of project "main").toOption.get rfl

/-- The exploration at its end. -/
def ended : Progress project := (engine.advances? 7 main.progress).get (by decide +kernel)

/-- What the path of this function hands out are blocks that never alias, and one of them is that of the variable. -/
theorem neverAlias_allocating : ∃ path ∈ engine.pathsOf main, path.machine.nextAddress = allocationBase + 96 ∧
    ∃ bs, engine.PathHands main path bs ∧ Extent.strides bs = 96 ∧ NeverAlias engine.setting bs ∧
      ∃ v, path.machine.addresses.get? "g" = some v ∧ ∃ b ∈ bs, v.const? = some b.address := by
  have hstart : Start.of project "main" = .ok main := rfl
  have hended : engine.advances? 7 main.progress = some ended := (Option.some_get _).symm
  obtain ⟨path, hpath, hnext, hmet⟩ : ∃ path ∈ ended.finished, path.machine.nextAddress = allocationBase + 96 ∧
      (path.machine.addresses.get? "g").isSome = true := by
    decide +kernel
  obtain ⟨v, hv⟩ := Option.isSome_iff_exists.mp hmet
  have hmem := Engine.mem_pathsOf_of_advances (Engine.advances_of_advances? hended) hpath
  obtain ⟨bs, hbs, hadvances, hbegun, hnever⟩ := Engine.allocations_never_alias builtIn_engine hstart hmem
  have hstrides : Extent.strides bs = 96 := by omega
  refine ⟨path, hmem, hnext, bs, hbs, hstrides, hnever bs List.prefix_rfl ?_, v, hv, hbegun "g" v hv⟩
  rw [hstrides]
  decide

end Allocating

end PathSafety
