import PathSafety.Analysis.Basic
import PathSafety.Hooks.Plain
import PathSafety.Proofs.Machine.Computes

/-!
# Properties of what leaves memory alone

Most of what a machine does neither reads nor writes memory: besides computing with values it asks whether conditions
can hold, and sets storage apart. So a property that these have as well is one of all instructions but loads, stores and
calls, of forks and monitors, and of the hooks that do not look into wrappers. Only an allocation and two hooks set
storage apart by themselves; everything else is a matter of asking.

Contents:

* `Machine.Queries`, `Machine.Prepares` — that asking and setting storage apart have a property, besides computing;
* `Computes.sized`, `Computes.sizeOf`, `Computes.pointee` — sizes of types and what pointers point to;
* `Queries.cast`, `Queries.plain`, … — instructions and calls, from the operands that they evaluate;
* `Queries.readBytesAt`, `Queries.read` — reading, from the bytes that are read;
* `Prepares.alloca`, `Prepares.allocateObjects`, … — what sets storage apart;
* `Engine.successors?`, `Queries.branch` — forks;
* `Queries.move`, `Queries.checker` — instructions of paths, and the monitors of checkers.
-/

namespace PathSafety

open IR

namespace Machine

/-- That asking the path condition has a property, as computing with new symbols does. -/
structure Queries (Q : (α : Type) → Action α → Prop) : Prop extends ComputesSymbols Q where
  sat : ∀ extra, Q Bool (sat extra)

/-- That setting storage apart has it as well. -/
structure Prepares (s : Setting) (Q : (α : Type) → Action α → Prop) : Prop extends Queries Q where
  allocate : ∀ bits, Q Value (allocate s bits)

variable {s : Setting} {Q : (α : Type) → Action α → Prop}

/-! ## Sizes of types -/

namespace Computes

variable (hQ : Computes Q)
include hQ

theorem sized (t : Ty) : Q Nat (sized s t) := by
  unfold Machine.sized
  split
  · exact hQ.fault _ rfl
  · exact hQ.fault _ rfl
  · exact hQ.pure _

theorem sizeOf (t : Ty) : Q Nat (Call.sizeOf s t) := by
  unfold Call.sizeOf
  split
  · exact hQ.pure _
  · exact hQ.fault _ rfl

theorem pointee (t : Ty) : Q Ty (Call.pointee t) := by
  unfold Call.pointee
  split
  · exact hQ.fault _ rfl
  · split
    · exact hQ.pure _
    · exact hQ.fault _ rfl

/-- Bytes at one of several addresses. -/
theorem readAny (hbytes : ∀ a n, Q Value (readBytes a n)) (address : Value) (n first : Nat) (others : List Nat) :
    Q Value (readAny address n first others) := by
  induction others generalizing first with
  | nil => exact hbytes first n
  | cons a others ih =>
    refine hQ.bind (hbytes first n) fun v => hQ.bind (ih a) fun rest => ?_
    exact hQ.valueOr (Value.aligned_ne_divisionByZero v rest _)

end Computes

/-! ## Null checks -/

namespace Queries

variable (hQ : Queries Q)
include hQ

theorem checkNull (address : Value) : Q Unit (checkNull s address) := by
  unfold Machine.checkNull
  split
  · refine hQ.bind (hQ.sat _) fun b => ?_
    split
    · exact hQ.fault _ rfl
    · exact hQ.pure ()
  · exact hQ.pure ()

/-! ## Sites -/

/-- An operand, where lacking a value has the property as well. -/
theorem eval (hunbound : Q Value (Machine.fault .unboundOperand))
    (haddress : ∀ module name, Q Value (Machine.address s module name)) (site : Site) (o : Operand) :
    Q Value (site.eval s o) :=
  hQ.evalAny hunbound haddress site.routine.module site.registers o

variable {site : Site}

theorem evalEach {os : List Operand} (heval : ∀ o ∈ os, Q Value (site.eval s o)) :
    Q (List Value) (site.evalAll s os) := by
  induction os with
  | nil => exact hQ.pure _
  | cons o os ih =>
    obtain ⟨ho, hos⟩ := List.forall_mem_cons.mp heval
    exact hQ.bind ho fun v => hQ.bind (ih hos) fun vs => hQ.pure _

section Instructions

variable {a b c : Operand} (ha : Q Value (site.eval s a)) (hb : Q Value (site.eval s b))
include ha

include hb in
theorem compare (q : IntPredicate) : Q Value (compare s site q a b) := by
  refine hQ.bind ha fun v => hQ.bind hb fun w => ?_
  refine hQ.bind (hQ.valueOr ?_) fun c => hQ.pure _
  have hcmp : ∀ (op : CmpOp) (v w : Value), v.cmp op w ≠ .error .divisionByZero := fun op v w =>
    Value.aligned_ne_divisionByZero v w _
  cases q with
  | ne =>
    intro h
    cases hc : v.cmp .eq w with
    | ok c =>
      rw [IntPredicate.condition, hc] at h
      cases h
    | error err =>
      rw [IntPredicate.condition, hc] at h
      exact hcmp .eq v w (hc.trans (congrArg _ (Except.error.inj h)))
  | _ => exact hcmp _ _ _

theorem cast (op : CastOp) (t : Ty) : Q Value (cast s site op a t) :=
  hQ.bind ha fun _ => hQ.bind (hQ.sized t) fun _ => hQ.pure _

include hb in
theorem select (hc : Q Value (site.eval s c)) : Q Value (select s site c a b) := by
  refine hQ.bind hc fun condition => hQ.bind ha fun v => hQ.bind hb fun w => ?_
  exact hQ.valueOr (Value.aligned_ne_divisionByZero v w _)

end Instructions

omit hQ in
/-- A phi, where having no incoming value has the property as well. -/
theorem phi {incoming : List (Operand × String)} (heval : ∀ x ∈ incoming, Q Value (site.eval s x.1))
    (hnone : ∀ block, Q Value (Machine.fault (.noIncoming block site.text))) :
    Q Value (phi s site incoming) := by
  unfold Machine.phi
  split
  · rename_i hfound
    exact heval _ (List.mem_of_find?_eq_some hfound)
  · exact hnone _

/-! ## Calls -/

section Calls

variable (c : Call)

/-- What is done with an argument. -/
theorem argBind {β : Type} {f : Operand → Action β} (i : Nat) (hf : ∀ o ∈ c.args, Q β (f o)) :
    Q β (c.arg i >>= f) := by
  unfold Call.arg
  split
  · rw [pure_bind]
    exact hf _ (List.mem_of_getElem? (by assumption))
  · have heq : ((Machine.defect .missingIndex : Action Operand) >>= f) = Machine.defect .missingIndex := rfl
    rw [heq]
    exact hQ.missing

variable (heval : ∀ o ∈ c.args, Q Value (c.eval s o))
include heval

theorem blockOperands (name : String) : Q (Value × Nat) (blockOperands s c name) := by
  refine hQ.argBind c 0 fun a ha => hQ.bind (heval a ha) fun dest => ?_
  refine hQ.argBind c 2 fun o ho => hQ.bind (heval o ho) fun length => ?_
  dsimp only
  split
  · exact hQ.faultBind rfl
  · rename_i hlength
    exact hQ.bind (hQ.evalNat length (Bool.not_eq_true _ ▸ hlength)) fun n => hQ.pure _

theorem plain (b : PlainHook) : Q Outcome (b.run s c) := by
  cases b with
  | abort => exact hQ.pure _
  | void => exact hQ.pure _
  | throwFirst => exact hQ.argBind c 0 fun a ha => hQ.bind (heval a ha) fun v => hQ.pure _
  | first => exact hQ.argBind c 0 fun a ha => hQ.bind (heval a ha) fun v => hQ.pure _

end Calls

/-! ## Reading -/

section Reading

variable (hbytes : ∀ a n, Q Value (readBytes a n))
include hbytes

/-- Bytes at an address that may have several values. -/
theorem readBytesAt (hget : ∀ {f : Machine → Action Value}, (∀ m, Q Value (f m)) → Q Value (get >>= f))
    (hassume : ∀ c, Q Unit (assume c)) (hnone : Q Value (defect .noAddress)) (address : Value) (n : Nat) :
    Q Value (readBytesAt address n) := by
  unfold Machine.readBytesAt
  split
  · exact hbytes _ n
  · refine hget fun m => ?_
    split
    · exact hQ.readAny hbytes address n _ _
    · exact hQ.bind (hassume _) fun _ => hbytes _ n
    · exact hnone
    · exact hnone

end Reading

theorem read {address : Value} {bits : Nat} (hbytes : Q Value (Machine.readBytesAt address (byteCount bits))) :
    Q Value (read s address bits) := by
  refine hQ.bind (hQ.checkNull address) fun _ => hQ.bind hbytes fun v => ?_
  split
  · exact hQ.pure v
  · split
    · exact hQ.mismatch
    · exact hQ.pure _

end Queries

/-! ## Setting storage apart -/

namespace Prepares

variable (hQ : Prepares s Q)
include hQ

theorem alloca {site : Site} {count : Option Operand} (heval : ∀ o ∈ count.toList, Q Value (site.eval s o)) (t : Ty) :
    Q Value (alloca s site t count) := by
  refine hQ.bind (hQ.sized t) fun bits => ?_
  split
  · exact hQ.allocate bits
  · refine hQ.bind (heval _ (by simp)) fun n => ?_
    split
    · exact hQ.faultBind rfl
    · rename_i hn
      exact hQ.bind (hQ.evalNat n (Bool.not_eq_true _ ▸ hn)) fun count => hQ.allocate _

theorem unknownResult (c : Call) : Q Outcome (SandboxHook.unknownResult s c) := by
  unfold SandboxHook.unknownResult
  dsimp only
  split
  · exact hQ.pure _
  · split
    · exact hQ.bind (hQ.fresh _ _) fun v => hQ.pure _
    · exact hQ.bind (hQ.fresh _ _) fun v => hQ.pure _
    · exact hQ.bind (hQ.allocate _) fun v => hQ.pure _
  · split
    · exact hQ.bind (hQ.fresh _ _) fun v => hQ.pure _
    · exact hQ.bind (hQ.fresh _ _) fun v => hQ.pure _
    · exact hQ.bind (hQ.allocate _) fun v => hQ.pure _
  · split
    · exact hQ.fault _ rfl
    · split
      · exact hQ.faultBind rfl
      · exact hQ.bind (hQ.sizeOf _) fun bits => hQ.bind (hQ.fresh _ _) fun v => hQ.pure _

theorem allocateObjects (c : Call) (heval : ∀ o ∈ c.args, Q Value (c.eval s o)) :
    Q Outcome (SandboxHook.allocateObjects s c) := by
  refine hQ.bind (hQ.pointee _) fun element => hQ.bind (hQ.sizeOf element) fun bits => ?_
  dsimp only
  split
  · exact hQ.faultBind rfl
  · split
    · exact hQ.bind (hQ.allocate bits) fun v => hQ.pure _
    · refine hQ.bind (heval _ (List.mem_of_getElem? (by assumption))) fun n => ?_
      split
      · exact hQ.faultBind rfl
      · rename_i hn
        refine hQ.bind (hQ.evalNat n (Bool.not_eq_true _ ▸ hn)) fun k => ?_
        exact hQ.bind (hQ.allocate _) fun v => hQ.pure _

end Prepares

end Machine

/-! ## Engines -/

/-- Whether an instruction accesses memory, or may do so in a call. -/
def IR.Op.Accesses : Op → Prop
  | .load .. | .store .. | .call .. => True
  | _ => False

/-- Whether an instruction chooses among several ways to go on. -/
def IR.Op.Forks : Op → Prop
  | .condBr .. | .switch .. => True
  | _ => False

namespace Engine

variable {p : Project} {e : Engine p} {Q : (α : Type) → Action α → Prop}

/-- The successors that an instruction chooses among, with their conditions: of a conditional branch the one for
true and the one for false, of a switch its cases in order and then the default. -/
def successors? (e : Engine p) (site : Site) : Option (Action (List (Cond × String))) :=
  match site.instr.op with
  | .condBr c yes no => some do
    let v ← site.eval e.setting c
    return [(v.equals 1, yes), (v.equals 0, no)]
  | .switch v default cases => some do
    let v ← site.eval e.setting v
    let arms ← switch.arms e site v cases
    return arms ++ [(Term.mkAll (arms.map fun (c, _) => c.mkNot), default)]
  | _ => none

/-- Instructions that choose have successors. -/
theorem exists_successors? (e : Engine p) {site : Site} (h : site.instr.op.Forks) :
    ∃ successors, e.successors? site = some successors := by
  unfold successors?
  cases hop : site.instr.op with
  | condBr | switch => exact ⟨_, rfl⟩
  | _ =>
    rw [hop] at h
    exact h.elim

theorem forks_of_successors? {site : Site} {successors : Action (List (Cond × String))}
    (h : e.successors? site = some successors) : site.instr.op.Forks := by
  unfold successors? at h
  cases hop : site.instr.op with
  | condBr | switch => exact True.intro
  | _ =>
    rw [hop] at h
    cases h

/-- An instruction that chooses is a fork among its successors. -/
theorem move_of_successors? {successors : Action (List (Cond × String))}
    (h : e.successors? site = some successors) (st : State p) :
    e.move st site = successors >>= branch st.frame := by
  unfold successors? at h
  unfold move
  dsimp only
  cases hop : site.instr.op with
  | condBr c yes no =>
    rw [hop] at h
    obtain rfl := Option.some.inj h
    simp only [bind_assoc, pure_bind]
  | switch v default cases =>
    rw [hop] at h
    obtain rfl := Option.some.inj h
    simp only [switch, bind_assoc, pure_bind]
  | _ =>
    rw [hop] at h
    cases h

end Engine

/-! ## Instructions of paths -/

namespace Machine

variable {s : Setting} {p : Project} {e : Engine p} {Q : (α : Type) → Action α → Prop} {site : Site}

namespace Queries

variable (hQ : Queries Q)
include hQ

theorem jump (f : Frame p) (target : String) : Q (Frame p) (Engine.jump f target) := by
  unfold Engine.jump
  split
  · exact hQ.pure _
  · exact hQ.missing

theorem feasible (ss : List (Cond × String)) : Q (List (Cond × String)) (Engine.feasible ss) := by
  induction ss with
  | nil => exact hQ.pure _
  | cons x ss ih => exact hQ.bind (hQ.sat _) fun possible => hQ.bind ih fun rest => hQ.pure _

/-- A fork, which adds to the path condition where there is a choice. -/
theorem branch (hget : ∀ {α : Type} {f : Machine → Action α}, (∀ m, Q α (f m)) → Q α (get >>= f))
    (hassume : ∀ c, Q Unit (assume c)) (hdead : ∀ l, Q (Move p) (Machine.fault (.noSuccessor l)))
    (f : Frame p) (ss : List (Cond × String)) : Q (Move p) (Engine.branch f ss) := by
  have hsplit : ∀ ss : List (Cond × String), Q (List (Machine × Frame p)) (Engine.splitOff f ss) := by
    intro ss
    induction ss with
    | nil => exact hQ.pure _
    | cons x ss ih =>
      refine hQ.bind (hQ.jump f _) fun g => hget fun m => ?_
      exact hQ.bind ih fun others => hQ.pure _
  refine hQ.bind (hQ.feasible ss) fun ss => ?_
  split
  · exact hdead _
  · exact hQ.bind (hQ.jump f _) fun g => hQ.pure _
  · refine hQ.bind (hsplit _) fun others => hQ.bind (hassume _) fun _ => ?_
    exact hQ.bind (hQ.jump f _) fun g => hQ.pure _

theorem arms {cases : List (Operand × String)} (heval : ∀ o ∈ cases.map (·.1), Q Value (site.eval e.setting o))
    (v : Value) : Q (List (Cond × String)) (Engine.switch.arms e site v cases) := by
  induction cases with
  | nil => exact hQ.pure _
  | cons x rest ih =>
    obtain ⟨hx, hrest⟩ := List.forall_mem_cons.mp heval
    refine hQ.bind hx fun k => ?_
    refine hQ.bind (hQ.valueOr (Value.aligned_ne_divisionByZero _ _ _)) fun c => ?_
    exact hQ.bind (ih hrest) fun arms => hQ.pure _

/-- What an instruction chooses among. -/
theorem successors (heval : ∀ o ∈ site.instr.op.operands, Q Value (site.eval e.setting o))
    {successors : Action (List (Cond × String))} (h : e.successors? site = some successors) :
    Q (List (Cond × String)) successors := by
  unfold Engine.successors? at h
  cases hop : site.instr.op with
  | condBr c yes no =>
    rw [hop] at h heval
    obtain rfl := Option.some.inj h
    exact hQ.bind (heval c (by simp [Op.operands])) fun v => hQ.pure _
  | switch v default cases =>
    rw [hop] at h heval
    obtain rfl := Option.some.inj h
    refine hQ.bind (heval v List.mem_cons_self) fun w => ?_
    exact hQ.bind (hQ.arms (fun o ho => heval o (List.mem_cons_of_mem v ho)) w) fun arms => hQ.pure _
  | _ =>
    rw [hop] at h
    cases h

theorem inline {c : Call} (heval : ∀ o ∈ c.args, Q Value (c.eval e.setting o)) (st : State p) (f : Function) :
    Q (Move p) (e.inline st c f) := by
  unfold Engine.inline
  dsimp only
  split
  · exact hQ.faultBind rfl
  · refine hQ.bind (hQ.evalEach heval) fun args => ?_
    split
    · exact hQ.missing
    · split
      · exact hQ.pure _
      · exact hQ.missing

/-- **Instructions that access no memory**, as far as their operands, allocations, forks, phis and divisions have a
property. -/
theorem move (heval : ∀ o ∈ site.instr.op.operands, Q Value (site.eval e.setting o))
    (hnumber : ∀ o ∈ site.instr.op.operands, Q Nat (site.eval e.setting o >>= Machine.evalNat))
    (halloca : ∀ t count, site.instr.op = .alloca t count → Q Value (alloca e.setting site t count))
    (hphi : ∀ t incoming, site.instr.op = .phi t incoming → Q Value (Machine.phi e.setting site incoming))
    (haccess : ¬ site.instr.op.Accesses) (st : State p)
    (hforks : ∀ successors, e.successors? site = some successors → Q (Move p) (successors >>= Engine.branch st.frame))
    (harith : ∀ op flags a b, site.instr.op = .arith op flags a b → Q Value (Machine.arith e.setting site op a b)) :
    Q (Move p) (e.move st site) := by
  have bound : ∀ {x : Action Value}, Q Value x → Q (Move p) (do return .next (some (← x))) :=
    fun hx => hQ.bind hx fun v => hQ.pure _
  cases hsuccessors : e.successors? site with
  | some successors =>
    rw [Engine.move_of_successors? hsuccessors]
    exact hforks successors hsuccessors
  | none => ?_
  unfold Engine.move
  dsimp only
  cases hop : site.instr.op with
  | arith op flags a b => exact bound (harith op flags a b hop)
  | icmp q a b =>
    rw [hop] at heval
    exact bound (hQ.compare (heval a (by simp [Op.operands])) (heval b (by simp [Op.operands])) q)
  | cast op v t =>
    rw [hop] at heval
    exact bound (hQ.cast (heval v (by simp [Op.operands])) op t)
  | alloca t count => exact bound (halloca t count hop)
  | load | store | call => exact absurd (hop ▸ True.intro) haccess
  | gep inbounds a t is =>
    rw [hop] at heval hnumber
    refine bound (hQ.bind (heval a List.mem_cons_self) fun base => ?_)
    refine hQ.bind (hQ.offset (fun o ho => heval o (List.mem_cons_of_mem a ho))
      (fun o ho => hnumber o (List.mem_cons_of_mem a (List.mem_of_mem_drop ho))) _ _) fun o => ?_
    exact hQ.valueOr (Value.arith_ne_divisionByZero rfl _ _)
  | select c a b =>
    rw [hop] at heval
    exact bound (hQ.select (heval a (by simp [Op.operands])) (heval b (by simp [Op.operands]))
      (heval c (by simp [Op.operands])))
  | phi t incoming => exact bound (hphi t incoming hop)
  | br target => exact hQ.bind (hQ.jump st.frame target) fun g => hQ.pure _
  | condBr | switch =>
    -- these are the forks
    rw [Engine.successors?, hop] at hsuccessors
    cases hsuccessors
  | ret result =>
    cases result with
    | none => exact hQ.pure _
    | some v =>
      rw [hop] at heval
      exact hQ.bind (heval v (by simp [Op.operands])) fun w => hQ.pure _
  | unreachable => exact hQ.fault _ rfl
  | unmodeled u => exact hQ.fault _ rfl

/-- **The monitors** of checkers. -/
theorem checker (heval : ∀ o ∈ site.instr.op.operands, Q Value (site.eval s o))
    (hnumber : ∀ o ∈ site.instr.op.operands, Q Nat (site.eval s o >>= Machine.evalNat)) {k : Checker}
    {monitor : Monitor} (hk : k.monitor? = some monitor) : Q Unit (monitor s site) := by
  -- Null dereferences are watched where memory is accessed; only the other two checkers bring a
  -- monitor.
  cases k with
  | nullDereference => cases hk
  | divisionByZero =>
    obtain rfl := Option.some.inj hk
    unfold Checker.watchDivision
    split
    · rename_i hop
      rw [hop] at heval
      split
      · refine hQ.bind (heval _ (by simp [Op.operands])) fun v => hQ.bind (hQ.sat _) fun b => ?_
        split
        · exact hQ.fault _ rfl
        · exact hQ.pure _
      · exact hQ.pure _
    · exact hQ.pure _
  | outOfBounds =>
    obtain rfl := Option.some.inj hk
    unfold Checker.watchOffset
    split
    · rename_i hop
      rw [hop] at heval hnumber
      refine hQ.bind (hQ.sizeInBytes _) fun size => ?_
      refine hQ.bind (hQ.offset (fun o ho => heval o (List.mem_cons_of_mem _ ho))
        (fun o ho => hnumber o (List.mem_cons_of_mem _ (List.mem_of_mem_drop ho))) _ _) fun offset => ?_
      refine hQ.bind (hQ.valueOr (Value.aligned_ne_divisionByZero _ _ _)) fun leaves => ?_
      refine hQ.bind (hQ.sat _) fun b => ?_
      split
      · exact hQ.fault _ rfl
      · exact hQ.pure _
    · exact hQ.pure _

/-- Looking at a site is looking at it with each monitor. -/
theorem watch {monitors : List Monitor} (hmonitors : ∀ monitor ∈ monitors, Q Unit (monitor e.setting site)) :
    Q Unit (e.watch site monitors) := by
  induction monitors with
  | nil => exact hQ.pure ()
  | cons monitor rest ih =>
    refine hQ.bind (hmonitors monitor List.mem_cons_self) fun _ => ?_
    exact ih fun n hn => hmonitors n (List.mem_cons_of_mem _ hn)

end Queries

end Machine

end PathSafety
