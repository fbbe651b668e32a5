import PathSafety.Proofs.Hooks.BuiltIn
import PathSafety.Proofs.Machine.Contents

/-!
# Payloads of wrappers

A value that is written at a known address can be read back at every width of no more bytes: widening it to whole bytes
and cutting what is read undo one another. Assigning to a wrapper writes a payload, and taking it out reads it, each as wide
as types at the call say, so a wrapper gives back the low bits of what was assigned to it.

What is assigned through a pointer is read first. It is all read before anything is written, so the wrappers may overlap;
but a read that leaves out bytes gives a narrower payload than the type says, and nothing is said of such reads.

Contents:

* `Machine.Stored`, `exists_read_of_stored` — what was written is read;
* `SandboxHook.Recovers`, `recovers_of_stored` — what is taken out of a wrapper;
* `exists_assign_own`, `exists_assign_stored` — what is assigned to one;
* `SandboxHook.written_is_read` — the laws for memory and for wrappers.
-/

namespace PathSafety

open IR Machine

namespace Machine

variable {s : Setting} {address : Value} {a w bits : Nat} {m : Machine}

/-- That memory has the bytes of a term from an address on. -/
def Stored {w : Nat} (m : Memory) (a : Nat) (p : Term w) : Prop :=
  ∀ k < byteCount w, m.get? (a + k) ≠ none ∧ ∀ ν β, m.holds ν β (a + k) = (p.denote ν).extractLsb' (8 * k) 8

theorem stored_store (m : Memory) (a : Nat) (v : Value) :
    Stored (m.store a (v.resize (8 * byteCount v.width)) (byteCount v.width)) a v.term := by
  intro k hk
  refine ⟨?_, fun ν β => ?_⟩
  · obtain ⟨c, hc, _⟩ := @Memory.get?_store_of_mem m (v.resize (8 * byteCount v.width)) a (byteCount v.width) (a + k)
      ⟨by omega, by omega⟩
    rw [hc]
    exact Option.some_ne_none c
  · rw [Memory.holds_store, if_pos ⟨by omega, by omega⟩, Nat.add_sub_cancel_left]
    exact byte_resize_whole v ν hk

theorem Stored.of_agree {m m' : Memory} {p : Term w} (h : Stored m a p)
    (hagree : Memory.AgreeOn (fun x => a ≤ x ∧ x < a + byteCount w) m m') : Stored m' a p := by
  intro k hk
  have hcell := hagree (a + k) ⟨by omega, by omega⟩
  obtain ⟨hsome, hbytes⟩ := h k hk
  refine ⟨hcell ▸ hsome, fun ν β => ?_⟩
  rw [← hbytes ν β]
  unfold Memory.holds
  rw [hcell]

/-- **What is stored** is read at every width of no more bytes, and reading it changes nothing. -/
theorem exists_read_of_stored {p : Term w} (h : Stored m.memory a p) (ha : address.const? = some a)
    (hnull : s.nullChecking = true → a ≠ 0) (hbits : bits ≠ 0) (hle : byteCount bits ≤ byteCount w) :
    ∃ t : Term bits, read s address bits m = .ok ⟨t⟩ m ∧ ∀ ν, t.denote ν = (p.denote ν).setWidth bits := by
  have hknown : ∀ x, a ≤ x → x < a + byteCount bits → m.memory.get? x ≠ none := by
    intro x h1 h2
    have hx := (h (x - a) (by omega)).1
    rwa [Nat.add_sub_cancel' h1] at hx
  obtain ⟨v, hload⟩ := @Memory.exists_load_of_known m.memory a (byteCount bits) m.nextSymbol hknown
  have hwidth : v.width = 8 * byteCount bits := by
    have hwhole := Memory.whole_of_known hknown m.nextSymbol
    rwa [hload] at hwhole
  obtain ⟨t, hread, ht⟩ := exists_read_of_load ha hnull hbits hload hwidth
  refine ⟨t, hread, fun ν => ?_⟩
  rw [ht ν fun _ => 0]
  exact ofNat_number_of_bytes _ fun k hk => (h k (by omega)).2 ν _

end Machine

namespace SandboxHook

variable {s : Setting} {c : Call} {o₀ o₁ : Operand} {dest v : Value} {a b w : Nat} {m m₀ m₁ : Machine}

/-- The operations that assign to a wrapper. -/
def assigning : List String := ["rlbox::tainted_volatile::operator=", "rlbox::tainted::operator="]

/-- The operations that take the payload out of a wrapper. -/
def takingOut : List String :=
  ["rlbox::tainted_base_impl::UNSAFE_unverified", "rlbox::tainted_base_impl::unverified_safe_because",
    "rlbox::tainted_base_impl::operator*"]

/-- That a call has as many arguments as a hook accepts. -/
def Accepts (h : SandboxHook) (c : Call) : Prop :=
  ∀ accepted, h.arity? = some accepted → accepted.accepts c.args.length = true

theorem run_of_accepts {h : SandboxHook} {o : Outcome} (haccepts : h.Accepts c) (hbody : body s c h m = .ok o m₁) :
    h.run s c m = .ok o m₁ := by
  unfold run
  cases harity : h.arity? with
  | none => exact guarded_ok hbody
  | some accepted =>
    have hexpect : c.expect accepted m = .ok c.args m := by
      unfold Call.expect
      rw [if_pos (haccepts accepted harity)]
      rfl
    show (do
      let _ ← c.expect accepted
      guarded (body s c h) : Action Outcome) m = _
    rw [bind_of_ok hexpect]
    exact guarded_ok hbody

/-- What an assignment gives: the destination, if anything. -/
def assigned (c : Call) (dest : Value) : Outcome :=
  match c.resultType with
  | .void => .returnedVoid
  | _ => .returned dest

/-- That whatever is taken out of a wrapper at an address, as long as its bytes stay, is the low bits of a term. -/
def Recovers (s : Setting) (a : Nat) {w : Nat} (p : Term w) (m : Machine) : Prop :=
  ∀ (name : String) (h : SandboxHook) (c : Call) (o : Operand) (wrapper : Value) (m₁ m₂ : Machine) (bits : Nat),
    name ∈ takingOut → (name, h) ∈ table → h.Accepts c → c.args[0]? = some o → c.eval s o m₁ = .ok wrapper m₂ →
      wrapper.const? = some a → s.project.layout.bits? c.resultType = some bits → bits ≠ 0 →
        byteCount bits ≤ byteCount w → Memory.AgreeOn (fun x => a ≤ x ∧ x < a + byteCount w) m.memory m₂.memory →
          ∃ t : Term bits, h.run s c m₁ = .ok (.returned ⟨t⟩) m₂ ∧ ∀ ν, t.denote ν = (p.denote ν).setWidth bits

/-- The operations that take payloads out all read them. -/
theorem body_of_takingOut {name : String} {h : SandboxHook} (hname : name ∈ takingOut) (htable : (name, h) ∈ table) :
    body s c h = readPayload s c := by
  have hall : ∀ entry ∈ table, entry.1 ∈ takingOut → entry.2 = unsafeUnverified ∨ entry.2 = taintedDeref := by decide
  rcases hall (name, h) htable hname with rfl | rfl <;> rfl

theorem eq_taintedAssign {name : String} {h : SandboxHook} (hname : name ∈ assigning) (htable : (name, h) ∈ table) :
    h = taintedAssign := by
  have hall : ∀ entry ∈ table, entry.1 ∈ assigning → entry.2 = taintedAssign := by decide
  exact hall (name, h) htable hname

/-- What is stored in a wrapper can be taken out of it. -/
theorem recovers_of_stored {p : Term w} (h : Stored m.memory a p) (hnull : s.nullChecking = true → a ≠ 0) :
    Recovers s a p m := by
  intro name hook c o wrapper m₁ m₂ bits hname htable haccepts ho hwrapper ha hsize hbits hle hagree
  obtain ⟨t, hread, ht⟩ := exists_read_of_stored (h.of_agree hagree) ha hnull hbits hle
  refine ⟨t, run_of_accepts haccepts ?_, ht⟩
  rw [body_of_takingOut hname htable]
  unfold readPayload
  rw [bind_of_ok (sizeOf_of_bits? hsize), bind_of_ok (arg_of_getElem? ho), bind_of_ok hwrapper, bind_of_ok hread]
  rfl

/-- How an assignment ends: the payload is written. -/
theorem write_payload {payload : Value} (ha : dest.const? = some a) (hnull : s.nullChecking = true → a ≠ 0) :
    (do
      Machine.write s dest payload
      match c.resultType with
      | .void => return .returnedVoid
      | _ => return .returned dest : Action Outcome) m =
      .ok (assigned c dest) { m with
        memory := m.memory.store a (payload.resize (8 * byteCount payload.width)) (byteCount payload.width) } := by
  rw [bind_of_ok (write_of_const? ha hnull payload)]
  unfold assigned
  cases c.resultType <;> rfl

section Assigning

variable (hargs : c.args = [o₀, o₁]) (hdest : c.eval s o₀ m₀ = .ok dest m₁) (ha : dest.const? = some a)
  (hnull : s.nullChecking = true → a ≠ 0) (hv : c.eval s o₁ m₁ = .ok v m)
include hargs hdest ha hnull hv

/-- An assignment writes the payload that its second argument stands for: its value, or what a pointer points to. -/
theorem run_taintedAssign {payload : Value} {m' : Machine}
    (hpayload : (c.typeOf o₁).isPointer = false ∧ v = payload ∧ m = m' ∨
      (c.typeOf o₁).isPointer = true ∧ ∃ t w, Call.pointee (c.typeOf o₁) m = .ok t m ∧ Call.sizeOf s t m = .ok w m ∧
        Machine.read s v w m = .ok payload m') :
    taintedAssign.run s c m₀ = .ok (assigned c dest) { m' with
      memory := m'.memory.store a (payload.resize (8 * byteCount payload.width)) (byteCount payload.width) } := by
  refine run_of_accepts (fun accepted haccepted => ?_) ?_
  · obtain rfl := Option.some.inj haccepted
    rw [hargs]
    rfl
  · have h₀ : c.args[0]? = some o₀ := by rw [hargs]; rfl
    have h₁ : c.args[1]? = some o₁ := by rw [hargs]; rfl
    show writePayload s c m₀ = _
    unfold writePayload
    rw [bind_of_ok (arg_of_getElem? h₀), bind_of_ok hdest, bind_of_ok (arg_of_getElem? h₁), bind_of_ok hv]
    dsimp only
    rcases hpayload with ⟨hown, rfl, rfl⟩ | ⟨hpointer, t, w, hpointee, hsize, hread⟩
    · rw [if_neg (by rw [hown]; exact Bool.false_ne_true)]
      exact write_payload ha hnull
    · rw [if_pos hpointer, bind_of_ok hpointee, bind_of_ok hsize, bind_of_ok hread]
      exact write_payload ha hnull

/-- **Assigning a value.** -/
theorem exists_assign_own (hown : (c.typeOf o₁).isPointer = false) :
    ∃ memory, taintedAssign.run s c m₀ = .ok (assigned c dest) { m with memory } ∧
      (∀ ν β, memory.holds ν β = Word.store (m.memory.holds ν β) a ⟨v.term.denote ν⟩) ∧
      Recovers s a v.term { m with memory } := by
  have hrun := run_taintedAssign hargs hdest ha hnull hv (Or.inl ⟨hown, rfl, rfl⟩)
  exact ⟨_, hrun, fun ν β => funext fun x => holds_of_write v ν β x, recovers_of_stored (stored_store _ a v) hnull⟩

/-- **Assigning what is stored** in a wrapper, where all of it is read. -/
theorem exists_assign_stored {t : Ty} (hpointer : (c.typeOf o₁).isPointer = true)
    (htyped : (c.typeOf o₁).isOpaque = false) (hpointee : (c.typeOf o₁).pointee? = some t)
    (hbits : s.project.layout.bits? t = some w) (hw : w ≠ 0) (hb : v.const? = some b)
    (hnull' : s.nullChecking = true → b ≠ 0) (hwhole : m.memory.Whole b (byteCount w)) :
    ∃ (p : Term w) (named memory : Memory) (nextSymbol : Nat),
      taintedAssign.run s c m₀ = .ok (assigned c dest) { m with memory, nextSymbol } ∧
      m.memory.Named m.nextSymbol named nextSymbol ∧
      (∀ ν β, p.denote ν = BitVec.ofNat w (number (named.holds ν β) b (byteCount w)) ∧
        memory.holds ν β = Word.store (named.holds ν β) a ⟨p.denote ν⟩) ∧
      Recovers s a p { m with memory, nextSymbol } := by
  cases hload : m.memory.load m.nextSymbol b (byteCount w) with
  | mk u rest =>
    obtain ⟨named, nextSymbol⟩ := rest
    have hwidth : u.width = 8 * byteCount w := by
      have h := hwhole m.nextSymbol
      rwa [hload] at h
    obtain ⟨p, hread, hp⟩ := exists_read_of_load hb hnull' hw hload hwidth
    have hrun := run_taintedAssign hargs hdest ha hnull hv
      (Or.inr ⟨hpointer, t, w, pointee_of_pointee? hpointer htyped hpointee, sizeOf_of_bits? hbits, hread⟩)
    refine ⟨p, named, _, nextSymbol, hrun, Memory.named_of_load hload, fun ν β => ⟨hp ν β, ?_⟩,
      recovers_of_stored (stored_store named a ⟨p⟩) hnull⟩
    exact funext fun x => @holds_of_write { m with memory := named, nextSymbol } a ⟨p⟩ ν β x

end Assigning

/-- **What is written is what is read.** Let an address be a number, not zero where null pointers are looked for. A value
that is written there is read at every width of no more bytes, cut or widened with zeros, and reads of other bytes do not
see it. An assignment to a wrapper there writes its payload and changes no other bytes, and what is taken out afterwards is
the low bits of the payload: of the value that is assigned, or, for a typed pointer to such an address, of what is stored
there, if all of it is read. The two wrappers may overlap. -/
theorem written_is_read {a : Nat} (hnull : s.nullChecking = true → a ≠ 0) :
    (∀ (address v : Value) (m : Machine), address.const? = some a →
      ∃ memory, Machine.write s address v m = .ok () { m with memory } ∧
        (∀ bits, bits ≠ 0 → byteCount bits ≤ byteCount v.width →
          ∃ t : Term bits, Machine.read s address bits { m with memory } = .ok ⟨t⟩ { m with memory } ∧
            ∀ ν, t.denote ν = (v.term.denote ν).setWidth bits) ∧
        ∀ other bits, ReadsOn (fun x => ¬ (a ≤ x ∧ x < a + byteCount v.width)) m other (byteCount bits) →
          (Machine.read s other bits).run' { m with memory } = (Machine.read s other bits).run' m) ∧
    ∀ (name : String) (h : SandboxHook) (c : Call) (o₀ o₁ : Operand) (dest v : Value) (m₀ m₁ m : Machine),
      name ∈ assigning → (name, h) ∈ table → c.args = [o₀, o₁] → c.eval s o₀ m₀ = .ok dest m₁ → dest.const? = some a →
        c.eval s o₁ m₁ = .ok v m →
          ((c.typeOf o₁).isPointer = false →
            ∃ memory, h.run s c m₀ = .ok (assigned c dest) { m with memory } ∧
              (∀ ν β, memory.holds ν β = Word.store (m.memory.holds ν β) a ⟨v.term.denote ν⟩) ∧
              Recovers s a v.term { m with memory }) ∧
          ∀ t w b, (c.typeOf o₁).isPointer = true → (c.typeOf o₁).isOpaque = false → (c.typeOf o₁).pointee? = some t →
            s.project.layout.bits? t = some w → w ≠ 0 → v.const? = some b → (s.nullChecking = true → b ≠ 0) →
              m.memory.Whole b (byteCount w) →
                ∃ (p : Term w) (named memory : Memory) (nextSymbol : Nat),
                  h.run s c m₀ = .ok (assigned c dest) { m with memory, nextSymbol } ∧
                  m.memory.Named m.nextSymbol named nextSymbol ∧
                  (∀ ν β, p.denote ν = BitVec.ofNat w (number (named.holds ν β) b (byteCount w)) ∧
                    memory.holds ν β = Word.store (named.holds ν β) a ⟨p.denote ν⟩) ∧
                  Recovers s a p { m with memory, nextSymbol } := by
  refine ⟨fun address v m ha => ?_, fun name h c o₀ o₁ dest v m₀ m₁ m hname htable hargs hdest ha hv => ?_⟩
  · have hwrite := write_of_const? (m := m) ha hnull v
    refine ⟨_, hwrite, fun bits hbits hle => ?_, fun other bits hreads => ?_⟩
    · exact exists_read_of_stored (stored_store m.memory a v) ha hnull hbits hle
    · refine read_of_write hwrite ?_ (fun _ hx => hx) hreads
      unfold target?
      rw [ha]
  -- One hook stands behind all the assigning names: its argument is the value itself, or a pointer
  -- to it.
  · obtain rfl := eq_taintedAssign hname htable
    exact ⟨exists_assign_own hargs hdest ha hnull hv, fun t w b hpointer htyped hpointee hbits hw hb hnull' hwhole =>
      exists_assign_stored hargs hdest ha hnull hv hpointer htyped hpointee hbits hw hb hnull' hwhole⟩

end SandboxHook

/-! ### A wrapper assigned to one that begins in it -/

namespace Wrapped

/-- A wrapper of twenty bits. -/
def wrapper : Ty := .ptrTo (.int 20) 0

/-- A function with two wrappers, and the operations on them. -/
def described : Module :=
  ⟨[], [⟨"rlbox::tainted::operator=", .void, [("to", wrapper), ("from", wrapper)], false, []⟩,
    ⟨"rlbox::tainted_base_impl::UNSAFE_unverified", .int 12, [("from", wrapper)], false, []⟩,
    ⟨"main", .void, [("to", wrapper), ("from", wrapper)], false, [⟨"entry", [⟨"", .ret none⟩]⟩]⟩]⟩

def setting : Setting := ⟨(Project.ofModules? [described] ⟨[], 64⟩).get rfl, true⟩

/-- A call where the wrappers are at addresses that follow each other. -/
def call (callee : String) (args : List Operand) : Call where
  site := {
    routine := setting.project.routines.head (by decide)
    registers := ((∅ : Registers).insert "to" (.ofNat 64 0x1002)).insert "from" (.ofNat 64 0x1001)
    block := "entry"
    index := 0
    previous := none
    instr := ⟨"", .ret none⟩ }
  callee := .global callee
  args := args

def assign : Call := call "rlbox::tainted::operator=" [.register "to", .register "from"]

def takeOut : Call := call "rlbox::tainted_base_impl::UNSAFE_unverified" [.register "to"]

def machine : Machine := { Machine.initial with memory := (∅ : Memory).store 0x1001 (.ofNat 24 0x30201) 3 }

theorem eval_to (callee : String) (args : List Operand) (m : Machine) :
    (call callee args).eval setting (.register "to") m = .ok (.ofNat 64 0x1002) m := by
  have hget : (call callee args).site.registers.get? "to" = some (.ofNat 64 0x1002) := rfl
  unfold Call.eval Site.eval Machine.eval Machine.evalWith
  rw [hget]
  rfl

theorem eval_from (m : Machine) : assign.eval setting (.register "from") m = .ok (.ofNat 64 0x1001) m := by
  have hget : assign.site.registers.get? "from" = some (.ofNat 64 0x1001) := rfl
  unfold Call.eval Site.eval Machine.eval Machine.evalWith
  rw [hget]
  rfl

theorem number_machine (ν : Valuation) (β : Bytes) : number (machine.memory.holds ν β) 0x1001 3 = 0x30201 := by
  have hbytes : ∀ k < 3, machine.memory.holds ν β (0x1001 + k) = (BitVec.ofNat 24 0x30201).extractLsb' (8 * k) 8 := by
    intro k hk
    unfold machine
    rw [Memory.holds_store, if_pos ⟨by omega, by omega⟩, Nat.add_sub_cancel_left]
    rfl
  rw [number_bytes _ (Nat.le_refl 24) hbytes]
  rfl

end Wrapped

namespace SandboxHook

open Wrapped in
/-- The payload has twenty bits, of which twelve are taken out. -/
theorem written_is_read_wrapped : ∃ m, taintedAssign.run setting assign machine = .ok .returnedVoid m ∧
    ∃ t : Term 12, unsafeUnverified.run setting takeOut m = .ok (.returned ⟨t⟩) m ∧ ∀ ν, t.denote ν = 0x201 := by
  obtain ⟨_, hcalls⟩ := @written_is_read setting 0x1002 (by decide)
  obtain ⟨_, hstored⟩ := hcalls "rlbox::tainted::operator=" taintedAssign assign _ _ _ _ machine machine machine
    (by decide) (by decide) rfl (eval_to _ _ machine) rfl (eval_from machine)
  obtain ⟨p, named, memory, nextSymbol, hassign, hnamed, hbytes, hrecovers⟩ :=
    hstored (.int 20) 20 0x1001 rfl rfl rfl rfl (by decide) rfl (by decide) fun _ => rfl
  obtain ⟨t, htake, ht⟩ := hrecovers "rlbox::tainted_base_impl::UNSAFE_unverified" unsafeUnverified takeOut (.register "to")
    _ _ _ 12 (by decide) (by decide) (fun _ h => Option.some.inj h ▸ rfl) rfl (eval_to _ _ _) rfl rfl (by decide)
    (by decide) fun _ _ => rfl
  refine ⟨_, hassign, t, htake, fun ν => ?_⟩
  rw [ht, (hbytes ν fun _ => 0).1, hnamed.eq_holds]
  show (BitVec.ofNat 20 (number (machine.memory.holds ν _) 0x1001 3)).setWidth 12 = _
  rw [number_machine]
  decide

end SandboxHook

end PathSafety
