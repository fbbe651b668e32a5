import PathSafety.Proofs.Hooks.BuiltIn

/-!
# Properties of actions

Whatever the machine does is put together from a few basic actions. So a property that these have, and that
passes on to actions that are done one after another, is one of everything that is evaluated, executed or done
by a hook.

Contents:

* `Machine.Operates`, `Machine.Composes` — that basic actions have a property, all but setting storage apart or all;
* `Operates.store`, `Operates.copyBlock`, … — what writes memory, from the operands that it evaluates;
* `Operates.sandbox`, `Composes.builtIn` — hooks;
* `Engine.Hooked`, `Engine.HasHook` — what all hooks of an engine do;
* `Operates.move`, `Composes.call`, `Composes.move` — calls and instructions of paths.
-/

namespace PathSafety

open IR

namespace Machine

/-- That writing, and doing something of which faults are rejected, have a property, besides asking and computing. -/
structure Operates (s : Setting) (Q : (α : Type) → Action α → Prop) : Prop extends Queries Q where
  write : ∀ address v, Q Unit (write s address v)
  guarded : ∀ {α : Type} {x : Action α}, Q α x → Q α (guarded x)

/-- That all basic actions of a machine have a property, and that it passes on. -/
structure Composes (s : Setting) (Q : (α : Type) → Action α → Prop) : Prop extends Operates s Q, Prepares s Q

variable {s : Setting} {Q : (α : Type) → Action α → Prop}

namespace Operates

variable (hQ : Operates s Q)
include hQ

variable {site : Site}

/-- A store evaluates its address first. -/
theorem store {a b : Operand} (ha : Q Value (site.eval s a)) (hb : Q Value (site.eval s b)) :
    Q Unit (store s site b a) :=
  hQ.bind ha fun address => hQ.bind hb fun w => hQ.write address w

theorem fillBlock (c : Call) (heval : ∀ o ∈ c.args, Q Value (c.eval s o)) (name : String) :
    Q Unit (fillBlock s c name) := by
  refine hQ.bind (hQ.blockOperands c heval name) fun operands => ?_
  dsimp only
  split
  · exact hQ.argBind c 1 fun o ho => hQ.bind (heval o ho) fun byte => hQ.write _ _
  · exact hQ.pure ()

/-! ## Reading -/

section Reading

variable (hread : ∀ address bits, Q Value (Machine.read s address bits))
include hread

theorem load {a : Operand} (ha : Q Value (site.eval s a)) (t : Option Ty) : Q Value (load s site a t) :=
  hQ.bind (hQ.sized _) fun bits => hQ.bind ha fun address => hread address bits

variable (c : Call) (heval : ∀ o ∈ c.args, Q Value (c.eval s o))
include heval

theorem copyBlock (name : String) : Q Unit (copyBlock s c name) := by
  refine hQ.bind (hQ.blockOperands c heval name) fun operands => ?_
  dsimp only
  split
  · refine hQ.argBind c 1 fun o ho => hQ.bind (heval o ho) fun source => ?_
    exact hQ.bind (hread source _) fun block => hQ.write _ block
  · exact hQ.pure ()

theorem intrinsic (name : String) (i : Intrinsic) : Q Outcome (intrinsic s c name i) := by
  cases i with
  | abort => exact hQ.pure _
  | throwing =>
    exact hQ.argBind c 0 fun a ha => hQ.bind (heval a ha) fun v => hQ.pure _
  | marker => exact hQ.pure _
  | copy => exact hQ.bind (hQ.copyBlock hread c heval name) fun _ => hQ.pure _
  | fill => exact hQ.bind (hQ.fillBlock c heval name) fun _ => hQ.pure _

theorem readPayload : Q Outcome (SandboxHook.readPayload s c) := by
  refine hQ.bind (hQ.sizeOf _) fun width => hQ.argBind c 0 fun a ha => ?_
  exact hQ.bind (heval a ha) fun wrapper => hQ.bind (hread wrapper width) fun v => hQ.pure _

theorem writePayload : Q Outcome (SandboxHook.writePayload s c) := by
  refine hQ.argBind c 0 fun a ha => hQ.bind (heval a ha) fun dest => ?_
  refine hQ.argBind c 1 fun o ho => hQ.bind (heval o ho) fun v => ?_
  dsimp only
  split
  · refine hQ.bind (hQ.pointee _) fun t => hQ.bind (hQ.sizeOf t) fun width => ?_
    refine hQ.bind (hread v width) fun payload => hQ.bind (hQ.write dest payload) fun _ => ?_
    split
    · exact hQ.pure _
    · exact hQ.pure _
  · refine hQ.bind (hQ.pure v) fun payload => hQ.bind (hQ.write dest payload) fun _ => ?_
    split
    · exact hQ.pure _
    · exact hQ.pure _

theorem elementAddress (byReference : Bool) : Q Outcome (SandboxHook.elementAddress s c byReference) := by
  refine hQ.argBind c 0 fun a ha => hQ.bind (heval a ha) fun base => ?_
  refine hQ.argBind c 1 fun o ho => hQ.bind (heval o ho) fun index => ?_
  have hrest : ∀ index : Value, Q Outcome (do
      let element ← Call.pointee c.resultType
      let size ← Machine.sizeInBytes s element
      let offset ← Machine.valueOr (Value.arith .mul (index.resize base.width) (.ofNat base.width size))
      return .returned (← Machine.valueOr (Value.arith .add base offset))) := by
    intro index
    refine hQ.bind (hQ.pointee _) fun element => hQ.bind (hQ.sizeInBytes element) fun size => ?_
    refine hQ.bind (hQ.valueOr (Value.arith_ne_divisionByZero rfl _ _)) fun offset => ?_
    exact hQ.bind (hQ.valueOr (Value.arith_ne_divisionByZero rfl _ _)) fun v => hQ.pure _
  dsimp only
  split
  · refine hQ.bind (hQ.pointee _) fun t => hQ.bind (hQ.sizeOf t) fun width => ?_
    exact hQ.bind (hread index width) hrest
  · exact hQ.bind (hQ.pure index) hrest

/-- **The sandbox hooks**, as far as the two that set storage apart have a property. -/
theorem sandbox (b : SandboxHook)
    (hstorage : b = .mallocInSandbox ∨ b = .default → Q Outcome (SandboxHook.body s c b)) : Q Outcome (b.run s c) := by
  have hbody : Q Outcome (SandboxHook.body s c b) := by
    cases b with
    | unsafeUnverified => exact hQ.readPayload hread c heval
    | taintedDeref => exact hQ.readPayload hread c heval
    | taintedAssign => exact hQ.writePayload hread c heval
    | taintedIndex => exact hQ.elementAddress hread c heval true
    | stdArrayIndex => exact hQ.elementAddress hread c heval false
    | mallocInSandbox => exact hstorage (Or.inl rfl)
    | default => exact hstorage (Or.inr rfl)
  unfold SandboxHook.run
  split
  · refine hQ.bind ?_ fun _ => hQ.guarded hbody
    unfold Call.expect
    split
    · exact hQ.pure _
    · exact hQ.fault _ rfl
  · exact hQ.guarded hbody

end Reading

end Operates

namespace Composes

variable (hQ : Composes s Q) (hread : ∀ address bits, Q Value (Machine.read s address bits))
  (c : Call) (heval : ∀ o ∈ c.args, Q Value (c.eval s o))
include hQ hread heval

/-- **The sandbox hooks.** -/
theorem sandbox (b : SandboxHook) : Q Outcome (b.run s c) := by
  refine hQ.toOperates.sandbox hread c heval b ?_
  rintro (rfl | rfl)
  · exact hQ.allocateObjects c heval
  · exact hQ.unknownResult c

/-- Hooks that do what a built-in one does, or end the path. -/
theorem builtIn {h : Hook} (hh : h.BuiltIn s) (hfault : ∀ f, Q Outcome (Machine.fault f)) :
    Q Outcome (h s c) := by
  rcases hh c with ⟨b, hb⟩ | ⟨b, hb⟩ | ⟨f, hf⟩
  · rw [hb]
    exact hQ.sandbox hread c heval b
  · rw [hb]
    exact hQ.plain c heval b
  · rw [hf]
    exact hfault f

end Composes

end Machine

/-! ## Engines -/

namespace Engine

variable {p : Project} {e : Engine p} {Q : (α : Type) → Action α → Prop}

/-- That all that the hooks of an engine do has a property. -/
structure Hooked (e : Engine p) (P : Action Outcome → Prop) : Prop where
  byName : ∀ n h, e.hooks.byName n = some h → ∀ c, P (h e.setting c)
  default : ∀ h, e.hooks.default = some h → ∀ c, P (h e.setting c)

/-- That a hook is one of an engine. -/
def HasHook (e : Engine p) (h : Hook) : Prop := (∃ n, e.hooks.byName n = some h) ∨ e.hooks.default = some h

theorem hasHook_of_hookOf? {f : Function} {h : Hook} (hh : e.hookOf? f = some h) : e.HasHook h := by
  unfold hookOf? at hh
  split at hh
  · rename_i k hk
    obtain rfl := Option.some.inj hh
    exact Or.inl ⟨f.name, hk⟩
  · split at hh
    · exact Or.inr hh
    · cases hh

theorem Hooked.of_hasHook {P : Action Outcome → Prop} (he : e.Hooked P) {h : Hook} (hh : e.HasHook h) (c : Call) :
    P (h e.setting c) := by
  rcases hh with ⟨n, hn⟩ | hdefault
  · exact he.byName n h hn c
  · exact he.default h hdefault c

end Engine

namespace Machine

variable {p : Project} {e : Engine p} {Q : (α : Type) → Action α → Prop}

namespace Operates

variable (hQ : Operates e.setting Q) (hread : ∀ address bits, Q Value (Machine.read e.setting address bits))
include hQ hread

/-- **Instructions**, as far as their operands, allocations, calls, forks, phis and divisions have a property. -/
theorem move {site : Site} (heval : ∀ o ∈ site.instr.op.operands, Q Value (site.eval e.setting o))
    (hnumber : ∀ o ∈ site.instr.op.operands, Q Nat (site.eval e.setting o >>= Machine.evalNat))
    (halloca : ∀ t count, site.instr.op = .alloca t count → Q Value (alloca e.setting site t count))
    (hphi : ∀ t incoming, site.instr.op = .phi t incoming → Q Value (Machine.phi e.setting site incoming))
    (st : State p) (hcall : ∀ callee args, site.instr.op = .call callee args → Q (Move p) (e.call st ⟨site, callee, args⟩))
    (hforks : ∀ successors, e.successors? site = some successors → Q (Move p) (successors >>= Engine.branch st.frame))
    (harith : ∀ op flags a b, site.instr.op = .arith op flags a b → Q Value (Machine.arith e.setting site op a b)) :
    Q (Move p) (e.move st site) := by
  -- A move that touches memory is one of three instructions; every other one only prepares values.
  by_cases haccess : site.instr.op.Accesses
  · cases hop : site.instr.op with
    | load a t =>
      rw [hop] at heval
      unfold Engine.move
      rw [hop]
      exact hQ.bind (hQ.load hread (heval a (by simp [Op.operands])) t) fun v => hQ.pure _
    | store v a =>
      rw [hop] at heval
      unfold Engine.move
      rw [hop]
      exact hQ.bind (hQ.store (heval a (by simp [Op.operands])) (heval v (by simp [Op.operands]))) fun _ => hQ.pure _
    | call callee args =>
      unfold Engine.move
      rw [hop]
      exact hcall callee args hop
    | _ =>
      rw [hop] at haccess
      exact haccess.elim
  · exact hQ.toQueries.move heval hnumber halloca hphi haccess st hforks harith

end Operates

namespace Composes

variable (hQ : Composes e.setting Q) (hread : ∀ address bits, Q Value (Machine.read e.setting address bits))
include hQ hread

theorem call {c : Call} (heval : ∀ o ∈ c.args, Q Value (c.eval e.setting o))
    (hhooks : ∀ h, e.HasHook h → Q Outcome (h e.setting c)) (st : State p) : Q (Move p) (e.call st c) := by
  unfold Engine.call
  split
  · split
    · exact hQ.bind (hhooks _ (Or.inr (by assumption))) fun o => hQ.pure _
    · exact hQ.fault _ rfl
  · split
    · exact hQ.bind (hQ.intrinsic hread c heval _ _) fun o => hQ.pure _
    · split
      · exact hQ.bind (hhooks _ (Engine.hasHook_of_hookOf? (by assumption))) fun o => hQ.pure _
      · split
        · exact hQ.faultBind rfl
        · exact hQ.inline heval st _

/-- **Instructions**, as far as their operands, forks, phis, hooks and divisions have a property. -/
theorem move {site : Site} (heval : ∀ o ∈ site.instr.op.operands, Q Value (site.eval e.setting o))
    (hnumber : ∀ o ∈ site.instr.op.operands, Q Nat (site.eval e.setting o >>= Machine.evalNat))
    (hphi : ∀ t incoming, site.instr.op = .phi t incoming → Q Value (Machine.phi e.setting site incoming))
    (hhooks : ∀ callee args, site.instr.op = .call callee args →
      ∀ h, e.HasHook h → Q Outcome (h e.setting ⟨site, callee, args⟩))
    (st : State p)
    (hforks : ∀ successors, e.successors? site = some successors → Q (Move p) (successors >>= Engine.branch st.frame))
    (harith : ∀ op flags a b, site.instr.op = .arith op flags a b → Q Value (Machine.arith e.setting site op a b)) :
    Q (Move p) (e.move st site) := by
  refine hQ.toOperates.move hread heval hnumber (fun t count hop => ?_) hphi st (fun callee args hop => ?_) hforks harith
  · rw [hop] at heval
    exact hQ.alloca heval t
  · rw [hop] at heval
    exact hQ.call hread heval (hhooks callee args hop) st

end Composes

end Machine

end PathSafety
