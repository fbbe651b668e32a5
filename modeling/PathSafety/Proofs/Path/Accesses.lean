import PathSafety.Proofs.Machine.Composes

/-!
# What instructions read and write

An instruction reads memory at most once and writes it at most once: a load and a store, the block operations,
and the hooks that look into wrappers. So a relation between machines that evaluating keeps is kept by a step
of a path as soon as these accesses keep it, and forks as well.

Contents:

* `Engine.Reads`, `Engine.Writes` — the accesses of an instruction;
* `gives_move` — that only forks split a path;
* `keeps_move` — what an instruction keeps;
* `exists_of_step`, `keeps_step` — what a step of a path is, and what it keeps.
-/

namespace PathSafety

open IR Machine

variable {p : Project} {e : Engine p}

/-! ## The accesses of an instruction -/

/-- The hook that a call goes to. -/
def Engine.handler? (e : Engine p) (c : Call) : Option Hook :=
  match c.target? with
  | none => e.hooks.default
  | some f => if (Intrinsic.ofName? f.name).isSome then none else e.hookOf? f

theorem Engine.builtIn_of_handler? (he : e.BuiltIn) {c : Call} {h : Hook} (hh : e.handler? c = some h) :
    h.BuiltIn e.setting := by
  have hhas : e.HasHook h := by
    unfold handler? at hh
    split at hh
    · exact Or.inr hh
    · split at hh
      · cases hh
      · exact hasHook_of_hookOf? hh
  rcases hhas with ⟨n, hn⟩ | hdefault
  · exact he.byName n h hn
  · exact he.default h hdefault

/-- Where a call goes: to a hook, to an intrinsic, into the called routine, or nowhere. -/
theorem Engine.cases_of_call (e : Engine p) (st : State p) (c : Call) :
    (∃ hook, e.handler? c = some hook ∧ e.call st c = do return resume (← hook e.setting c)) ∨
    (∃ f k, c.target? = some f ∧ Intrinsic.ofName? f.name = some k ∧
      e.call st c = do return resume (← intrinsic e.setting c f.name k)) ∨
    (∃ f, e.call st c = e.inline st c f) ∨ ∃ g, e.call st c = fault g := by
  unfold call handler?
  cases c.target? with
  | none =>
    cases hdefault : e.hooks.default with
    | none => exact Or.inr (Or.inr (Or.inr ⟨_, rfl⟩))
    | some hook => exact Or.inl ⟨hook, rfl, rfl⟩
  | some f =>
    dsimp only
    -- In the order the engine asks: built in, hooked, and only then a body to inline.
    cases hk : Intrinsic.ofName? f.name with
    | some k => exact Or.inr (Or.inl ⟨f, k, rfl, hk, rfl⟩)
    | none =>
      cases hhook : e.hookOf? f with
      | some hook =>
        rw [if_neg (by simp)]
        exact Or.inl ⟨hook, rfl, rfl⟩
      | none =>
        by_cases hdecl : f.isDeclaration = true
        · simp only [hdecl, if_true]
          exact Or.inr (Or.inr (Or.inr ⟨_, rfl⟩))
        · simp only [hdecl]
          exact Or.inr (Or.inr (Or.inl ⟨f, rfl⟩))

theorem Engine.call_of_handler? {c : Call} {h : Hook} (hh : e.handler? c = some h) (st : State p) :
    e.call st c = do return resume (← h e.setting c) := by
  unfold handler? at hh
  unfold call
  cases htarget : c.target? with
  | none =>
    rw [htarget] at hh
    dsimp only at hh ⊢
    rw [hh]
  | some f =>
    rw [htarget] at hh
    dsimp only at hh ⊢
    cases hk : Intrinsic.ofName? f.name with
    | some k =>
      rw [hk] at hh
      cases hh
    | none =>
      rw [hk] at hh
      rw [show e.hookOf? f = some h from hh]

/-- That a call goes to a hook that does with it what a built-in hook does. -/
def Engine.Handles (e : Engine p) (c : Call) (b : SandboxHook) : Prop :=
  ∃ h, e.handler? c = some h ∧ h e.setting c = b.run e.setting c

/-- The read of an instruction: where, and the machine that is left when all is evaluated for it. -/
inductive Engine.Reads (e : Engine p) (site : Site) (m : Machine) : Value → Machine → Prop
  | load {pointer : Operand} {written : Option Ty} {address : Value} {m₁ : Machine}
    (hop : site.instr.op = .load pointer written)
    (haddress : site.eval e.setting pointer m = .ok address m₁) : Reads e site m address m₁
  /-- A copy reads its block before it writes it. -/
  | copy {callee : Operand} {args : List Operand} {f : Function} {dest source : Value} {o : Operand}
    {n : Nat} {m₁ m₂ : Machine} (hop : site.instr.op = .call callee args)
    (htarget : (Call.mk site callee args).target? = some f) (hcopy : Intrinsic.ofName? f.name = some .copy)
    (hoperands : blockOperands e.setting ⟨site, callee, args⟩ f.name m = .ok (dest, n) m₁) (hn : n ≠ 0)
    (ho : args[1]? = some o) (hsource : site.eval e.setting o m₁ = .ok source m₂) :
    Reads e site m source m₂
  /-- Taking a payload out of a wrapper reads the wrapper. -/
  | payload {callee : Operand} {args : List Operand} {a : Operand} {b : SandboxHook} {wrapper : Value}
    {m₁ : Machine} (hop : site.instr.op = .call callee args)
    (hhook : e.Handles ⟨site, callee, args⟩ b) (hb : b = .unsafeUnverified ∨ b = .taintedDeref)
    (ha : args[0]? = some a) (hwrapper : site.eval e.setting a m = .ok wrapper m₁) :
    Reads e site m wrapper m₁
  /-- An assignment and an index may follow a reference that they are given as second argument. -/
  | reference {callee : Operand} {args : List Operand} {a o : Operand} {b : SandboxHook} {first v : Value}
    {m₁ m₂ : Machine} (hop : site.instr.op = .call callee args)
    (hhook : e.Handles ⟨site, callee, args⟩ b) (hb : b = .taintedAssign ∨ b = .taintedIndex)
    (ha : args[0]? = some a) (hfirst : site.eval e.setting a m = .ok first m₁) (ho : args[1]? = some o)
    (hpointer : ((Call.mk site callee args).typeOf o).isPointer = true)
    (hv : site.eval e.setting o m₁ = .ok v m₂) : Reads e site m v m₂

/-- The write of an instruction: where and what, and the machine that is left when all is evaluated for it. -/
inductive Engine.Writes (e : Engine p) (site : Site) (m : Machine) : Value → Value → Machine → Prop
  /-- A store evaluates the pointer before the value. -/
  | store {v a : Operand} {address w : Value} {m₁ m₂ : Machine} (hop : site.instr.op = .store v a)
    (haddress : site.eval e.setting a m = .ok address m₁) (hvalue : site.eval e.setting v m₁ = .ok w m₂) :
    Writes e site m address w m₂
  | copy {callee : Operand} {args : List Operand} {f : Function} {dest source block : Value} {o : Operand}
    {n : Nat} {m₁ m₂ m₃ : Machine} (hop : site.instr.op = .call callee args)
    (htarget : (Call.mk site callee args).target? = some f) (hcopy : Intrinsic.ofName? f.name = some .copy)
    (hoperands : blockOperands e.setting ⟨site, callee, args⟩ f.name m = .ok (dest, n) m₁) (hn : n ≠ 0)
    (ho : args[1]? = some o) (hsource : site.eval e.setting o m₁ = .ok source m₂)
    (hblock : read e.setting source (8 * n) m₂ = .ok block m₃) : Writes e site m dest block m₃
  /-- A fill writes one byte again and again. -/
  | fill {callee : Operand} {args : List Operand} {f : Function} {dest byte : Value} {o : Operand}
    {n : Nat} {m₁ m₂ : Machine} (hop : site.instr.op = .call callee args)
    (htarget : (Call.mk site callee args).target? = some f) (hfill : Intrinsic.ofName? f.name = some .fill)
    (hoperands : blockOperands e.setting ⟨site, callee, args⟩ f.name m = .ok (dest, n) m₁) (hn : n ≠ 0)
    (ho : args[1]? = some o) (hbyte : site.eval e.setting o m₁ = .ok byte m₂) :
    Writes e site m dest (Value.concat (List.replicate n (byte.resize 8))) m₂
  | assign {callee : Operand} {args : List Operand} {dest v payload : Value} {a o : Operand}
    {m₁ m₂ m₃ : Machine} (hop : site.instr.op = .call callee args)
    (hhook : e.Handles ⟨site, callee, args⟩ .taintedAssign) (ha : args[0]? = some a)
    (hdest : site.eval e.setting a m = .ok dest m₁) (ho : args[1]? = some o)
    (hv : site.eval e.setting o m₁ = .ok v m₂)
    (hpayload : Fetched e.setting ⟨site, callee, args⟩ true o v m₂ payload m₃) :
    Writes e site m dest payload m₃

/-- That the next instruction of a path leads to a name, as the module `j` has it. -/
def State.LeadsTo (st : State p) (n : String) (j : Nat) : Prop :=
  ∃ i, st.frame.instr? = some i ∧ i.op.LeadsTo p st.frame.routine.module n j

theorem State.followsInitials_leadsTo (st : State p) : p.FollowsInitials st.LeadsTo := by
  rintro n j g init n' j' ⟨i, hi, hleads⟩ hg hinit hn'
  exact ⟨i, hi, i.op.followsInitials_leadsTo p _ hleads hg hinit hn'⟩

/-- What the next instruction of a path evaluates meets names to which it leads. -/
theorem State.keeps_taken {R : Machine → Machine → Prop} {st : State p} (hR : Admits e.setting st.LeadsTo R) :
    ∀ i, st.frame.instr? = some i → ∀ o ∈ i.op.taken, Keeps R ((st.frame.site i).eval e.setting o) :=
  fun i hi o ho => keeps_siteEval hR st.followsInitials_leadsTo (st.frame.site i) fun _ _ hn => ⟨i, hi, o, ho, .refers hn⟩

/-! ## What instructions keep -/

/-- The paths that are split off where control goes. -/
def Move.split : Move p → List (Machine × Frame p)
  | .goto _ others => others
  | _ => []

variable {R : Machine → Machine → Prop} {site : Site} {m m' : Machine} {f g : Frame p}

namespace Engine

theorem of_jump {target : String} (h : jump f target m = .ok g m') : m = m' := by
  unfold jump at h
  cases hg : f.jump? target with
  | none =>
    rw [hg] at h
    exact absurd h not_defect
  | some g' =>
    rw [hg] at h
    exact (of_pure h).2

/-- Splitting off paths leaves the machine; the split off ones differ in their conditions. -/
theorem of_splitOff {ss : List (Cond × String)} {others : List (Machine × Frame p)}
    (h : splitOff f ss m = .ok others m') :
    m = m' ∧ ∀ x ∈ others, ∃ y ∈ ss, x.1 = { m with condition := m.condition.assume y.1 } := by
  induction ss generalizing m m' others with
  | nil =>
    obtain ⟨rfl, rfl⟩ := of_pure h
    exact ⟨rfl, fun x hx => absurd hx List.not_mem_nil⟩
  | cons s ss ih =>
    obtain ⟨c, target⟩ := s
    obtain ⟨g, m₁, hjump, h⟩ := exists_of_bind h
    obtain rfl := of_jump hjump
    obtain ⟨m₂, m₃, hget, h⟩ := exists_of_bind h
    cases hget
    obtain ⟨rest, m₄, hrest, h⟩ := exists_of_bind h
    obtain ⟨rfl, hothers⟩ := ih hrest
    obtain ⟨rfl, rfl⟩ := of_pure h
    refine ⟨rfl, List.forall_mem_cons.mpr ⟨⟨(c, target), List.mem_cons_self, rfl⟩, fun x hx => ?_⟩⟩
    obtain ⟨y, hy, hx⟩ := hothers x hx
    exact ⟨y, List.mem_cons_of_mem _ hy, hx⟩

theorem split_resume (o : Outcome) : (resume o : Move p).split = [] := by cases o <;> rfl

/-- Entering a routine splits nothing off. -/
theorem gives_inline (st : State p) (c : Call) (fn : Function) :
    Gives (fun mv : Move p => mv.split = []) (e.inline st c fn) := by
  unfold inline
  dsimp only
  split
  · exact gives_fault_bind
  · refine gives_bind fun args => ?_
    split
    · exact gives_defect
    · split
      · exact gives_pure rfl
      · exact gives_defect

/-- Calling splits nothing off. -/
theorem gives_call (st : State p) (c : Call) : Gives (fun mv : Move p => mv.split = []) (e.call st c) := by
  have resumed : ∀ x : Action Outcome, Gives (fun mv : Move p => mv.split = []) (do return resume (← x)) :=
    fun x => gives_bind fun o => gives_pure (split_resume o)
  unfold call
  split
  · split
    · exact resumed _
    · exact gives_fault
  · split
    · exact resumed _
    · split
      · exact resumed _
      · split
        · exact gives_fault_bind
        · exact gives_inline st c _

/-- Only forks split paths off. -/
theorem gives_move (st : State p) (hforks : ¬ site.instr.op.Forks) :
    Gives (fun mv : Move p => mv.split = []) (e.move st site) := by
  have bound : ∀ x : Action Value, Gives (fun mv : Move p => mv.split = []) (do return .next (some (← x))) :=
    fun x => gives_bind fun v => gives_pure rfl
  unfold move
  dsimp only
  cases hop : site.instr.op with
  | store => exact gives_bind fun _ => gives_pure rfl
  | call => exact gives_call st _
  | br => exact gives_bind fun g => gives_pure rfl
  | condBr | switch => exact absurd (hop ▸ True.intro) hforks
  | ret result =>
    cases result with
    | none => exact gives_pure rfl
    | some v => exact gives_bind fun w => gives_pure rfl
  | unreachable | unmodeled => exact gives_fault
  | _ => exact bound _

section Keeping

variable (hR : Allows R)
include hR

/-- A fork keeps a relation on the path itself and on those that are split off. -/
theorem keeps_branch (hassume : ∀ m c, R m { m with condition := m.condition.assume c })
    {ss : List (Cond × String)} {mv : Move p} (h : branch f ss m = .ok mv m') :
    R m m' ∧ ∀ x ∈ mv.split, R m x.1 := by
  unfold branch at h
  obtain ⟨arms, m₁, hfeasible, h⟩ := exists_of_bind h
  have hm₁ : R m m₁ := (queries_keeps hR).feasible ss hfeasible
  split at h
  · exact absurd h not_fault
  · obtain ⟨g, m₂, hjump, h⟩ := exists_of_bind h
    obtain rfl := of_jump hjump
    obtain ⟨rfl, rfl⟩ := of_pure h
    exact ⟨hm₁, fun x hx => absurd hx List.not_mem_nil⟩
  · rename_i c target others _
    obtain ⟨arms, m₂, hsplit, h⟩ := exists_of_bind h
    obtain ⟨rfl, hothers⟩ := of_splitOff hsplit
    obtain ⟨_, m₃, hthis, h⟩ := exists_of_bind h
    obtain ⟨g, m₄, hjump, h⟩ := exists_of_bind h
    obtain rfl := of_jump hjump
    obtain ⟨rfl, rfl⟩ := of_pure h
    refine ⟨hR.trans hm₁ (keeps_assume hassume c hthis), fun x hx => ?_⟩
    obtain ⟨y, _, hy⟩ := hothers x hx
    rw [hy]
    exact hR.trans hm₁ (hassume m₁ y.1)

variable (heval : ∀ o ∈ site.instr.op.taken, Keeps R (site.eval e.setting o))
include heval

theorem keeps_watch (hbuiltin : e.BuiltIn) : Keeps R (e.watch site e.monitors) := by
  have hQ := queries_keeps hR
  refine hQ.watch fun monitor hmonitor => ?_
  obtain ⟨k, hk⟩ := hbuiltin.monitors monitor hmonitor
  exact hQ.checker (fun o ho => heval o (Op.mem_taken rfl ho))
    (fun o ho => keeps_bind hR (heval o (Op.mem_taken rfl ho)) (keeps_evalNat hR)) hk

variable (hreads : ∀ address m₁, e.Reads site m address m₁ →
    ∀ bits v m₂, read e.setting address bits m₁ = .ok v m₂ → R m₁ m₂)
  (hwrites : ∀ address v m₁, e.Writes site m address v m₁ →
    ∀ m₂, write e.setting address v m₁ = .ok () m₂ → R m₁ m₂)
include hreads

/-- Following a reference keeps a relation that reads keep. -/
theorem keeps_fetched {callee : Operand} {args : List Operand} {b : SandboxHook} {byReference : Bool}
    (hop : site.instr.op = .call callee args) (hhook : e.Handles ⟨site, callee, args⟩ b)
    (hb : b = .taintedAssign ∨ b = .taintedIndex) {a o : Operand} {first v payload : Value} {m₁ m₂ : Machine}
    (ha : args[0]? = some a) (hfirst : site.eval e.setting a m = .ok first m₁) (ho : args[1]? = some o)
    (hv : site.eval e.setting o m₁ = .ok v m₂)
    (h : Fetched e.setting ⟨site, callee, args⟩ byReference o v m₂ payload m') : R m m' := by
  have harg : ∀ {i o}, args[i]? = some o → Keeps R (site.eval e.setting o) := fun h =>
    heval _ (Op.mem_taken hop (List.mem_of_getElem? h))
  have hm₂ : R m m₂ := hR.trans (harg ha hfirst) (harg ho hv)
  cases h with
  | own _ => exact hm₂
  | stored href _ _ hread =>
    have hpointer := (Bool.and_eq_true_iff.mp href).2
    exact hR.trans hm₂ (hreads v m₂ (.reference hop hhook hb ha hfirst ho hpointer hv) _ _ _ hread)

include hwrites

/-- A built-in hook keeps a relation that the accesses of the call keep. -/
theorem keeps_hook {h : Hook} (hbuiltin : h.BuiltIn e.setting) {callee : Operand} {args : List Operand}
    (hop : site.instr.op = .call callee args) (hhandler : e.handler? ⟨site, callee, args⟩ = some h)
    {o : Outcome} (hrun : h e.setting ⟨site, callee, args⟩ m = .ok o m') : R m m' := by
  have hQ := prepares_keeps hR e.setting
  have harg : ∀ o ∈ args, Keeps R (site.eval e.setting o) := fun o ho => heval o (Op.mem_taken hop ho)
  rcases hbuiltin ⟨site, callee, args⟩ with ⟨b, hb⟩ | ⟨b, hb⟩ | ⟨g, hg⟩
  · rw [hb] at hrun
    have hhook : e.Handles ⟨site, callee, args⟩ b := ⟨h, hhandler, hb⟩
    have hbody := exists_body hrun
    -- Two hooks of the sandbox read a wrapped payload and nothing else.
    have payload : b = .unsafeUnverified ∨ b = .taintedDeref →
        SandboxHook.readPayload e.setting ⟨site, callee, args⟩ m = .ok o m' → R m m' := by
      intro hb hbody
      obtain ⟨a, wrapper, m₁, width, v, ha, hwrapper, hread⟩ := exists_of_readPayload hbody
      exact hR.trans (harg a (List.mem_of_getElem? ha) hwrapper)
        (hreads wrapper m₁ (.payload hop hhook hb ha hwrapper) _ _ _ hread)
    cases b with
    | unsafeUnverified => exact payload (Or.inl rfl) hbody
    | taintedDeref => exact payload (Or.inr rfl) hbody
    | taintedAssign =>
      obtain ⟨a, dest, m₁, b, v, m₂, w, m₃, ha, hdest, hb', hv, hpayload, hwrite⟩ :=
        exists_of_writePayload hbody
      have hm₃ : R m m₃ := keeps_fetched hR heval hreads hop hhook (Or.inl rfl) ha hdest hb' hv hpayload
      exact hR.trans hm₃ (hwrites dest w m₃ (.assign hop hhook ha hdest hb' hv hpayload) m' hwrite)
    | taintedIndex =>
      obtain ⟨a, base, m₁, b, v, m₂, index, ha, hbase, hb', hv, hindex⟩ := exists_of_elementAddress hbody
      exact keeps_fetched hR heval hreads hop hhook (Or.inr rfl) ha hbase hb' hv hindex
    | stdArrayIndex =>
      obtain ⟨a, base, m₁, b, v, m₂, index, ha, hbase, hb', hv, hindex⟩ := exists_of_elementAddress hbody
      cases hindex with
      | own _ => exact hR.trans (harg a (List.mem_of_getElem? ha) hbase) (harg b (List.mem_of_getElem? hb') hv)
      | stored href _ _ _ => cases href
    | mallocInSandbox => exact hQ.allocateObjects ⟨site, callee, args⟩ harg hbody
    | default => exact hQ.unknownResult _ hbody
  · rw [hb] at hrun
    exact hQ.plain ⟨site, callee, args⟩ harg b hrun
  · rw [hg] at hrun
    exact absurd hrun not_fault

/-- An intrinsic keeps a relation that its accesses keep. -/
theorem keeps_intrinsic {callee : Operand} {args : List Operand} (hop : site.instr.op = .call callee args)
    {fn : Function} (htarget : (Call.mk site callee args).target? = some fn) {i : Intrinsic}
    (hi : Intrinsic.ofName? fn.name = some i) {o : Outcome}
    (h : Machine.intrinsic e.setting ⟨site, callee, args⟩ fn.name i m = .ok o m') : R m m' := by
  have hQ := prepares_keeps hR e.setting
  have harg : ∀ o ∈ args, Keeps R (site.eval e.setting o) := fun o ho => heval o (Op.mem_taken hop ho)
  cases i with
  | abort => exact keeps_pure hR h
  | throwing => exact hQ.argBind _ 0 (fun a ha => keeps_bind hR (harg a ha) fun v => keeps_pure hR) h
  | marker => exact keeps_pure hR h
  | copy =>
    -- A block of no bytes reads and writes nothing; otherwise the access is one of those assumed
    -- harmless.
    obtain ⟨_, m₁, hcopy, h⟩ := exists_of_bind h
    obtain ⟨_, rfl⟩ := of_pure h
    obtain ⟨dest, n, m₂, hoperands, hrest⟩ := exists_of_copyBlock hcopy
    have hm₂ : R m m₂ := hQ.blockOperands ⟨site, callee, args⟩ harg _ hoperands
    rcases hrest with rfl | ⟨hn, o, source, m₃, block, m₄, ho, hsource, hblock, hwrite⟩
    · exact hm₂
    · have hm₄ : R m m₄ := hR.trans (hR.trans hm₂ (harg o (List.mem_of_getElem? ho) hsource))
        (hreads source m₃ (.copy hop htarget hi hoperands hn ho hsource) _ _ _ hblock)
      exact hR.trans hm₄
        (hwrites dest block m₄ (.copy hop htarget hi hoperands hn ho hsource hblock) _ hwrite)
  | fill =>
    obtain ⟨_, m₁, hfill, h⟩ := exists_of_bind h
    obtain ⟨_, rfl⟩ := of_pure h
    obtain ⟨dest, n, m₂, hoperands, hrest⟩ := exists_of_fillBlock hfill
    have hm₂ : R m m₂ := hQ.blockOperands ⟨site, callee, args⟩ harg _ hoperands
    rcases hrest with rfl | ⟨hn, o, byte, m₃, ho, hbyte, hwrite⟩
    · exact hm₂
    · have hm₃ : R m m₃ := hR.trans hm₂ (harg o (List.mem_of_getElem? ho) hbyte)
      exact hR.trans hm₃ (hwrites dest _ m₃ (.fill hop htarget hi hoperands hn ho hbyte) _ hwrite)

/-- A call keeps a relation that its accesses keep. -/
theorem keeps_call (hbuiltin : e.BuiltIn) {st : State p} {callee : Operand} {args : List Operand}
    (hop : site.instr.op = .call callee args) {mv : Move p}
    (h : e.call st ⟨site, callee, args⟩ m = .ok mv m') : R m m' := by
  have resumed : ∀ {x : Action Outcome}, (∀ o m₁, x m = .ok o m₁ → R m m₁) →
      (do return resume (← x) : Action (Move p)) m = .ok mv m' → R m m' := by
    intro x hx h
    obtain ⟨o, m₁, hrun, h⟩ := exists_of_bind h
    obtain ⟨rfl, rfl⟩ := of_pure h
    exact hx o m₁ hrun
  obtain ⟨hook, hhandler, hcall⟩ | ⟨f, k, htarget, hk, hcall⟩ | ⟨f, hcall⟩ | ⟨g, hcall⟩ :=
    e.cases_of_call st ⟨site, callee, args⟩
  all_goals rw [hcall] at h
  · have hbuiltin := builtIn_of_handler? hbuiltin hhandler
    exact resumed (fun o m₁ => keeps_hook hR heval hreads hwrites hbuiltin hop hhandler) h
  · exact resumed (fun o m₁ => keeps_intrinsic hR heval hreads hwrites hop htarget hk) h
  · exact (queries_keeps hR).inline (c := ⟨site, callee, args⟩)
      (fun o ho => heval o (Op.mem_taken hop ho)) st f h
  · exact absurd h not_fault

/-- **Instructions** keep a relation that their writes keep, on the path itself and on those split off. -/
theorem keeps_move (hbuiltin : e.BuiltIn)
    (hassume : site.instr.op.Forks → ∀ m c, R m { m with condition := m.condition.assume c })
    {st : State p} {mv : Move p}
    (h : e.move st site m = .ok mv m') : R m m' ∧ ∀ x ∈ mv.split, R m x.1 := by
  have hQ := prepares_keeps hR e.setting
  have hoperand : ∀ o ∈ site.instr.op.operands, Keeps R (site.eval e.setting o) := fun o ho =>
    heval o (Op.mem_taken rfl ho)
  by_cases hforks : site.instr.op.Forks
  · obtain ⟨successors, hsuccessors⟩ := e.exists_successors? hforks
    rw [move_of_successors? hsuccessors] at h
    obtain ⟨ss, m₁, hss, h⟩ := exists_of_bind h
    have hm₁ : R m m₁ := hQ.successors hoperand hsuccessors hss
    obtain ⟨hm', hothers⟩ := keeps_branch hR (hassume hforks) h
    exact ⟨hR.trans hm₁ hm', fun x hx => hR.trans hm₁ (hothers x hx)⟩
  · -- nothing is split off, so only the machine that the instruction leaves is to be looked at
    refine ⟨?_, fun x hx => absurd (gives_move st hforks h ▸ hx) List.not_mem_nil⟩
    by_cases haccess : site.instr.op.Accesses
    · unfold move at h
      cases hop : site.instr.op with
      | load a t =>
        rw [hop] at h
        obtain ⟨v, m₁, hload, h⟩ := exists_of_bind h
        obtain ⟨rfl, rfl⟩ := of_pure h
        obtain ⟨bits, m₂, hbits, hload⟩ := exists_of_bind hload
        obtain rfl := of_sized hbits
        obtain ⟨address, m₃, haddress, hread⟩ := exists_of_bind hload
        have ha := heval a (Op.mem_taken hop List.mem_cons_self) haddress
        exact hR.trans ha (hreads address m₃ (.load hop haddress) _ _ _ hread)
      | store v a =>
        rw [hop] at h
        obtain ⟨_, m₁, hstore, h⟩ := exists_of_bind h
        obtain ⟨rfl, rfl⟩ := of_pure h
        obtain ⟨address, m₂, haddress, hstore⟩ := exists_of_bind hstore
        obtain ⟨w, m₃, hvalue, hwrite⟩ := exists_of_bind hstore
        have ha := heval a (Op.mem_taken hop (by simp [Op.operands])) haddress
        have hv := heval v (Op.mem_taken hop List.mem_cons_self) hvalue
        exact hR.trans (hR.trans ha hv) (hwrites address w m₃ (.store hop haddress hvalue) _ hwrite)
      | call callee args =>
        rw [hop] at h
        exact keeps_call hR heval hreads hwrites hbuiltin hop h
      | _ =>
        rw [hop] at haccess
        exact haccess.elim
    · refine hQ.move hoperand (fun o ho => keeps_bind hR (hoperand o ho) (keeps_evalNat hR))
        (fun t count hop => ?_) (fun t incoming hop => ?_) haccess st
        (fun successors h => absurd (forks_of_successors? h) hforks) (fun op flags a b hop => ?_) h
      · rw [hop] at hoperand
        exact hQ.alloca hoperand t
      · refine Queries.phi (Q := fun _ x => Keeps R x) (fun x hx => heval x.1 ?_) fun block => keeps_fault
        exact Op.mem_taken_phi hop hx
      · rw [hop] at hoperand
        exact keeps_bind hR (hoperand a List.mem_cons_self) fun v =>
          keeps_bind hR (hoperand b (by simp [Op.operands])) fun w => keeps_valueOr hR

end Keeping

/-! ### Steps of a path -/

/-- That the monitors let the next instruction of a path pass, which then starts on a machine. -/
def Starts (e : Engine p) (st : State p) (site : Site) (m : Machine) : Prop :=
  ∃ i, st.frame.instr? = some i ∧ site = st.frame.site i ∧ e.watch site e.monitors st.machine = .ok () m

/-- A step that does not end the path is the move of an instruction that the monitors let pass. -/
theorem exists_of_step (e : Engine p) (st : State p) :
    (∃ path, e.step st = .finish path) ∨ ∃ site m₀ mv m', e.Starts st site m₀ ∧
      e.move (st.note site.location) site m₀ = .ok mv m' ∧
        e.step st = (st.note site.location).follow m' mv := by
  unfold step
  cases hi : st.frame.instr? with
  | none => exact Or.inl ⟨_, rfl⟩
  | some i =>
    dsimp only
    have hmachine : (st.note (st.frame.site i).location).machine = st.machine := rfl
    rw [hmachine]
    cases hrun : (do
        e.watch (st.frame.site i) e.monitors
        e.move (st.note (st.frame.site i).location) (st.frame.site i) : Action (Move p)) st.machine with
    | error failure m' => exact Or.inl ⟨_, rfl⟩
    | ok mv m' =>
      obtain ⟨_, m₀, hwatch, hmove⟩ := exists_of_bind hrun
      exact Or.inr ⟨st.frame.site i, m₀, mv, m', ⟨i, hi, rfl, hwatch⟩, hmove, rfl⟩

theorem Starts.unique {st : State p} {site' : Site} (h : e.Starts st site m) (h' : e.Starts st site' m') :
    site' = site ∧ m' = m := by
  obtain ⟨i, hi, rfl, hwatch⟩ := h
  obtain ⟨i', hi', rfl, hwatch'⟩ := h'
  obtain rfl := Option.some.inj (hi.symm.trans hi')
  obtain ⟨_, rfl⟩ := EStateM.Result.ok.inj (hwatch.symm.trans hwatch')
  exact ⟨rfl, rfl⟩

theorem step_of_move {st : State p} {mv : Move p} {m₀ : Machine} (hstarts : e.Starts st site m₀)
    (hmove : e.move (st.note site.location) site m₀ = .ok mv m') :
    e.step st = (st.note site.location).follow m' mv := by
  obtain ⟨i, hi, rfl, hwatch⟩ := hstarts
  have hact : (do
      e.watch (st.frame.site i) e.monitors
      e.move (st.note (st.frame.site i).location) (st.frame.site i) : Action (Move p)) st.machine =
        .ok mv m' := by
    rw [bind_of_ok hwatch]
    exact hmove
  have hmachine : (st.note (st.frame.site i).location).machine = st.machine := rfl
  unfold step
  rw [hi]
  dsimp only
  rw [hmachine, hact]

/-- Going on without entering a block is going on behind the instruction, or in the caller behind its call. -/
theorem follow_proceed_cases {st st' : State p} {mv : Move p} (h : st.follow m' mv = .proceed st') :
    (∃ result, mv = .next result ∧ st' = { st with machine := m', frame := st.frame.finish result }) ∨
      ∃ result caller callers, mv = .leave result ∧ st.callers = caller :: callers ∧
        st' = { st with machine := m', frame := caller.finish result, callers } := by
  cases mv with
  | next result => exact Or.inl ⟨result, rfl, (Step.proceed.inj h).symm⟩
  | leave result =>
    unfold State.follow at h
    cases hc : st.callers with
    | nil =>
      rw [hc] at h
      cases h
    | cons caller callers =>
      rw [hc] at h
      exact Or.inr ⟨result, caller, callers, rfl, rfl, (Step.proceed.inj h).symm⟩
  | goto | enter | finish => cases h

/-- Arriving at blocks is going there, on the path itself or on one that is split off, or entering a routine. -/
theorem follow_arrive_cases {st : State p} {mv : Move p} {a b : Arrival p} {others : List (Arrival p)}
    (h : st.follow m' mv = .arrive a others) (hb : b ∈ a :: others) :
    (∃ target split, mv = .goto target split ∧ ∃ x ∈ (m', target) :: split, ∃ executed,
        b.state = { st with machine := x.1, frame := x.2, executed }) ∨
      ∃ callee, mv = .enter callee ∧
        b.state = { st with machine := m', frame := callee, callers := st.frame :: st.callers } := by
  cases mv with
  | goto target split =>
    obtain ⟨rfl, rfl⟩ := Step.arrive.inj h
    refine Or.inl ⟨target, split, rfl, ?_⟩
    rcases List.mem_cons.mp hb with rfl | hb
    · exact ⟨_, List.mem_cons_self, st.executed, rfl⟩
    · obtain ⟨x, hx, rfl⟩ := List.mem_map.mp hb
      exact ⟨x, List.mem_cons_of_mem _ hx, [], rfl⟩
  | enter callee =>
    obtain ⟨rfl, rfl⟩ := Step.arrive.inj h
    obtain rfl := List.mem_singleton.mp hb
    exact Or.inr ⟨callee, rfl, rfl⟩
  | leave result =>
    unfold State.follow at h
    dsimp only at h
    split at h <;> cases h
  | next | finish => cases h

/-- A path proceeds with the machine that its move leaves, and not by going to a block. -/
theorem of_follow_proceed {st st' : State p} {mv : Move p} (h : st.follow m' mv = .proceed st') :
    st'.machine = m' ∧ ∀ target others, mv ≠ .goto target others := by
  rcases follow_proceed_cases h with ⟨_, rfl, rfl⟩ | ⟨_, _, _, rfl, _, rfl⟩
  · exact ⟨rfl, nofun⟩
  · exact ⟨rfl, nofun⟩

/-- Paths arrive with the machine that the move leaves, or with one that it splits off. -/
theorem of_follow_arrive {st : State p} {mv : Move p} {a : Arrival p} {others : List (Arrival p)}
    (h : st.follow m' mv = .arrive a others) :
    ∀ b ∈ a :: others, b.state.machine = m' ∨ ∃ x ∈ mv.split, b.state.machine = x.1 := by
  intro b hb
  rcases follow_arrive_cases h hb with ⟨target, split, rfl, x, hx, _, hstate⟩ | ⟨_, rfl, hstate⟩
  · rcases List.mem_cons.mp hx with rfl | hx
    · exact Or.inl (congrArg State.machine hstate)
    · exact Or.inr ⟨x, hx, congrArg State.machine hstate⟩
  · exact Or.inl (congrArg State.machine hstate)

/-- **A step** keeps a relation that its accesses keep, wherever the path goes on. -/
theorem keeps_step (hR : Allows R)
    (hassume : ∀ m c, R m { m with condition := m.condition.assume c }) (hbuiltin : e.BuiltIn)
    {st : State p}
    (heval : ∀ i, st.frame.instr? = some i → ∀ o ∈ i.op.taken, Keeps R ((st.frame.site i).eval e.setting o))
    (hreads : ∀ site m, e.Starts st site m → ∀ address m₁, e.Reads site m address m₁ →
      ∀ bits v m₂, read e.setting address bits m₁ = .ok v m₂ → R m₁ m₂)
    (hwrites : ∀ site m, e.Starts st site m → ∀ address v m₁, e.Writes site m address v m₁ →
      ∀ m₂, write e.setting address v m₁ = .ok () m₂ → R m₁ m₂) :
    (∀ st', e.step st = .proceed st' → R st.machine st'.machine) ∧
      ∀ a others, e.step st = .arrive a others → ∀ b ∈ a :: others, R st.machine b.state.machine := by
  -- Either the step stops at once, or the checkers run and the instruction moves.
  rcases e.exists_of_step st with ⟨path, hpath⟩ | ⟨site, m₀, mv, m', hstarts, hmove, hstep⟩
  · rw [hpath]
    exact ⟨nofun, nofun⟩
  · have hsite : ∀ o ∈ site.instr.op.taken, Keeps R (site.eval e.setting o) := by
      obtain ⟨i, hi, rfl, _⟩ := hstarts
      exact heval i hi
    have hm₀ : R st.machine m₀ := by
      obtain ⟨_, _, _, hwatch⟩ := hstarts
      exact keeps_watch hR hsite hbuiltin hwatch
    obtain ⟨hm', hothers⟩ := keeps_move hR hsite (hreads site m₀ hstarts) (hwrites site m₀ hstarts) hbuiltin
      (fun _ => hassume) hmove
    rw [hstep]
    refine ⟨fun st' h => ?_, fun a others h b hb => ?_⟩
    · rw [(of_follow_proceed h).1]
      exact hR.trans hm₀ hm'
    · rcases of_follow_arrive h b hb with hb | ⟨x, hx, hb⟩
      · rw [hb]
        exact hR.trans hm₀ hm'
      · rw [hb]
        exact hR.trans hm₀ (hothers x hx)

end Engine

end PathSafety
