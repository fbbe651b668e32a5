import PathSafety.Proofs.Analysis.Made
import PathSafety.Proofs.Machine.Keeps

/-!
# Built-in hooks and intrinsics

What the hooks and intrinsics that come with the library do to a machine: they evaluate arguments, and some of
them read or write memory once or twice. Those that do are taken apart here; what the others do is told by
`Machine.Prepares`.

Contents:

* `Hook.BuiltIn`, `Engine.BuiltIn` — engines with no other hooks and monitors than the built-in ones;
* `Registry.builtIn_sandbox`, `Context.builtIn_of_make` — where there are such engines;
* `exists_of_copyBlock`, `exists_of_writePayload`, … — what calls that access memory come to;
* `exists_body` — a built-in hook does what its body does.
-/

namespace PathSafety

open IR Machine

/-! ## Built-in hooks -/

/-- That a hook does with every call what a built-in hook does, or ends the path. -/
def Hook.BuiltIn (s : Setting) (h : Hook) : Prop :=
  ∀ c, (∃ b : SandboxHook, h s c = b.run s c) ∨ (∃ b : PlainHook, h s c = b.run s c) ∨
    ∃ f, h s c = Machine.fault f

/-- That the hooks and monitors of an engine are built in. -/
structure Engine.BuiltIn {p : Project} (e : Engine p) : Prop where
  byName : ∀ n h, e.hooks.byName n = some h → Hook.BuiltIn e.setting h
  default : ∀ h, e.hooks.default = some h → Hook.BuiltIn e.setting h
  monitors : ∀ monitor ∈ e.monitors, ∃ k : Checker, k.monitor? = some monitor

/-- That all hooks of a registry have a property. -/
def Registry.All (P : Hook → Prop) (r : Registry Hook) : Prop :=
  (∀ n h, (n, h) ∈ r.entries → P h) ∧ ∀ h, r.default = some h → P h

/-- That all hooks of a registry are built in. -/
def Registry.BuiltIn (s : Setting) (r : Registry Hook) : Prop :=
  (∀ n h, (n, h) ∈ r.entries → Hook.BuiltIn s h) ∧ ∀ h, r.default = some h → Hook.BuiltIn s h

namespace Registry

variable {s : Setting} {r : Registry Hook}

/-- A hook that is found is one of the entries. -/
theorem mem_of_findHook {symbol : String} {found : String × Hook}
    (h : r.findHook symbol = .ok (some found)) : found ∈ r.entries := by
  have of_hook? : ∀ {n k}, r.hook? n = some k → (n, k) ∈ r.entries := by
    intro n k hk
    obtain ⟨l₁, l₂, heq, _⟩ := List.lookup_eq_some_iff.mp hk
    rw [heq]
    exact List.mem_append_right _ List.mem_cons_self
  unfold findHook at h
  split at h
  · rename_i hook hk
    obtain rfl := Option.some.inj (Except.ok.inj h)
    exact of_hook? hk
  · cases hnames : Name.candidates symbol with
    | error f =>
      rw [hnames] at h
      cases h
    | ok names =>
      rw [hnames] at h
      have hlookup : r.lookup? names = some found := Except.ok.inj h
      obtain ⟨n, _, hn⟩ := List.exists_of_findSome?_eq_some hlookup
      obtain ⟨k, hk, rfl⟩ := Option.map_eq_some_iff.mp hn
      exact of_hook? hk

/-- Sending calls to built-in hooks is built in. -/
theorem builtIn_dispatch (hr : r.BuiltIn s) : Hook.BuiltIn s r.dispatch := by
  intro c
  unfold dispatch
  split
  · exact Or.inr (Or.inr ⟨_, rfl⟩)
  · split
    · exact Or.inr (Or.inr ⟨_, rfl⟩)
    · rename_i found hfound
      exact hr.1 _ _ (mem_of_findHook hfound) c
    · split
      · rename_i hook hhook
        exact hr.2 hook hhook c
      · exact Or.inr (Or.inr ⟨_, rfl⟩)

theorem mem_put {name : String} {hook : Hook} {entries : List (String × Hook)} {x : String × Hook}
    (h : x ∈ put name hook entries) : x = (name, hook) ∨ x ∈ entries := by
  induction entries with
  | nil => exact Or.inl (List.mem_singleton.mp h)
  | cons y entries ih =>
    unfold put at h
    split at h
    · rcases List.mem_cons.mp h with rfl | h
      · exact Or.inl rfl
      · exact Or.inr (List.mem_cons_of_mem _ h)
    · rcases List.mem_cons.mp h with rfl | h
      · exact Or.inr List.mem_cons_self
      · exact (ih h).imp_right (List.mem_cons_of_mem _)

theorem All.register {P : Hook → Prop} {name : String} {hook : Hook} {t : Registry Hook} (hr : r.All P)
    (hhook : P hook) (h : r.register name hook = .ok t) : t.All P := by
  unfold Registry.register at h
  split at h
  · cases h
  · obtain rfl := Except.ok.inj h
    refine ⟨fun n k hmem => ?_, hr.2⟩
    rcases mem_put hmem with heq | hmem
    · obtain ⟨rfl, rfl⟩ := Prod.mk.inj heq
      exact hhook
    · exact hr.1 n k hmem

theorem All.registerEach {P : Hook → Prop} {entries : List (String × Hook)} {t : Registry Hook}
    (hr : r.All P) (hentries : ∀ x ∈ entries, P x.2) (h : r.registerEach entries = .ok t) : t.All P := by
  induction entries generalizing r with
  | nil =>
    obtain rfl := Except.ok.inj h
    exact hr
  | cons x entries ih =>
    obtain ⟨hx, hentries⟩ := List.forall_mem_cons.mp hentries
    obtain ⟨r₁, hregister, hrest⟩ := exists_ok_of_bind h
    exact ih (hr.register hx hregister) hentries hrest

/-- What all sandbox hooks have, all hooks of their registry have. -/
theorem all_sandbox {P : Hook → Prop} (hP : ∀ b : SandboxHook, P b.run) : Registry.sandbox.All P := by
  have hempty : ({} : Registry Hook).All P := by
    constructor
    · intro n h hmem
      exact absurd hmem List.not_mem_nil
    · intro h hdefault
      cases hdefault
  unfold Registry.sandbox
  split
  · rename_i t ht
    obtain ⟨r₁, heach, hdefault⟩ := exists_ok_of_bind ht
    have hr₁ : r₁.All P := by
      refine hempty.registerEach (fun x hx => ?_) heach
      obtain ⟨y, _, rfl⟩ := List.mem_map.mp hx
      exact hP y.2
    unfold setDefault at hdefault
    split at hdefault
    · cases hdefault
    · obtain rfl := Except.ok.inj hdefault
      exact ⟨hr₁.1, fun hook hhook => Option.some.inj hhook ▸ hP .default⟩
  · exact hempty

/-- The registry of the sandbox hooks has no others. -/
theorem builtIn_sandbox (s : Setting) : Registry.sandbox.BuiltIn s :=
  all_sandbox fun b _ => Or.inl ⟨b, rfl⟩

end Registry

/-- An analysis that is made with built-in hooks explores with no others. -/
theorem Context.builtIn_of_make {project : Project} {config : Config} {r : Registry Hook} {c : Context}
    (hr : ∀ s, r.BuiltIn s) (h : Context.make project config r = .ok c) : c.engine.BuiltIn := by
  refine {
    byName := fun n hook hhook => eq_dispatch_of_make h (Or.inl ⟨n, hhook⟩) ▸ Registry.builtIn_dispatch (hr _)
    default := fun hook hhook => eq_dispatch_of_make h (Or.inr hhook) ▸ Registry.builtIn_dispatch (hr _)
    monitors := fun monitor hmonitor => ?_ }
  rw [monitors_of_make h] at hmonitor
  obtain ⟨k, _, hk⟩ := List.mem_filterMap.mp hmonitor
  exact ⟨k, hk⟩

/-! ## Calls -/

namespace Machine

variable {α : Type} {s : Setting}

/-- That all that an action gives has a property. -/
def Gives (P : α → Prop) (x : Action α) : Prop := ∀ ⦃m a m'⦄, x m = .ok a m' → P a

theorem gives_bind {β : Type} {P : β → Prop} {x : Action α} {f : α → Action β} (hf : ∀ a, Gives P (f a)) :
    Gives P (x >>= f) := by
  intro m b m' h
  obtain ⟨a, m₁, _, hf'⟩ := exists_of_bind h
  exact hf a hf'

theorem gives_pure {P : α → Prop} {a : α} (h : P a) : Gives P (pure a) := fun _ _ _ ha => (of_pure ha).1 ▸ h

theorem gives_fault {P : α → Prop} {g : Fault} : Gives P (fault g) := fun _ _ _ h => absurd h not_fault

theorem gives_defect {P : α → Prop} {d : Defect} : Gives P (defect d) := fun _ _ _ h => absurd h not_defect

theorem gives_fault_bind {β : Type} {P : β → Prop} {g : Fault} {f : α → Action β} :
    Gives P ((fault g : Action α) >>= f) := by
  intro m b m' h
  obtain ⟨_, _, hfault, _⟩ := exists_of_bind h
  exact absurd hfault not_fault

/-! ### Bodies of hooks -/

section Guarded

variable {x : Action α} {m m' : Machine}

theorem guarded_ok {a : α} (h : x m = .ok a m') : guarded x m = .ok a m' := by
  unfold guarded
  simp only [tryCatch, tryCatchThe, MonadExceptOf.tryCatch]
  delta EStateM.tryCatch
  dsimp only
  rw [h]

/-- Faults are passed on as rejected ones. -/
theorem guarded_fault {f : Fault} (h : x m = .error (.fault f) m') : guarded x m = .error (.fault f.reject) m' := by
  unfold guarded
  simp only [tryCatch, tryCatchThe, MonadExceptOf.tryCatch]
  delta EStateM.tryCatch
  dsimp only
  rw [h]
  rfl

theorem guarded_defect {d : Defect} (h : x m = .error (.defect d) m') : guarded x m = .error (.defect d) m' := by
  unfold guarded
  simp only [tryCatch, tryCatchThe, MonadExceptOf.tryCatch]
  delta EStateM.tryCatch
  dsimp only
  rw [h]
  rfl

/-- What a guarded action gives, the action gives. -/
theorem of_guarded {a : α} (h : guarded x m = .ok a m') : x m = .ok a m' := by
  cases hx : x m with
  | ok b m₁ => rwa [guarded_ok hx] at h
  | error g m₁ =>
    cases g with
    | fault f =>
      rw [guarded_fault hx] at h
      cases h
    | defect d =>
      rw [guarded_defect hx] at h
      cases h

end Guarded

/-! ### What calls are made of -/

variable {c : Call} {m m' : Machine}

theorem of_arg {i : Nat} {o : Operand} (h : c.arg i m = .ok o m') : c.args[i]? = some o ∧ m = m' := by
  unfold Call.arg at h
  cases ha : c.args[i]? with
  | none =>
    rw [ha] at h
    exact absurd h not_defect
  | some a =>
    rw [ha] at h
    obtain ⟨rfl, rfl⟩ := of_pure h
    exact ⟨rfl, rfl⟩

theorem arg_of_getElem? {i : Nat} {o : Operand} (h : c.args[i]? = some o) : c.arg i m = .ok o m := by
  unfold Call.arg
  rw [h]
  rfl

theorem sizeOf_of_bits? {t : Ty} {n : Nat} (h : s.project.layout.bits? t = some n) : Call.sizeOf s t m = .ok n m := by
  unfold Call.sizeOf
  rw [h]
  rfl

theorem pointee_of_pointee? {t u : Ty} (hpointer : t.isPointer = true) (htyped : t.isOpaque = false)
    (h : t.pointee? = some u) : Call.pointee t m = .ok u m := by
  unfold Call.pointee
  rw [hpointer, htyped, h]
  rfl

theorem of_sizeOf {t : Ty} {n : Nat} (h : Call.sizeOf s t m = .ok n m') : m = m' := computes_keeps_eq.sizeOf t h

theorem of_pointee {t u : Ty} (h : Call.pointee t m = .ok u m') : m = m' := computes_keeps_eq.pointee t h

/-- What a copy comes to. -/
theorem exists_of_copyBlock {name : String} (h : copyBlock s c name m = .ok () m') :
    ∃ dest n m₁, blockOperands s c name m = .ok (dest, n) m₁ ∧
      (m₁ = m' ∨ n ≠ 0 ∧ ∃ o source m₂ block m₃, c.args[1]? = some o ∧ c.eval s o m₁ = .ok source m₂ ∧
        read s source (8 * n) m₂ = .ok block m₃ ∧ write s dest block m₃ = .ok () m') := by
  unfold copyBlock at h
  obtain ⟨⟨dest, n⟩, m₁, hoperands, h⟩ := exists_of_bind h
  refine ⟨dest, n, m₁, hoperands, ?_⟩
  dsimp only at h
  split at h
  · rename_i hn
    obtain ⟨o, m₂, harg, h⟩ := exists_of_bind h
    obtain ⟨ho, rfl⟩ := of_arg harg
    obtain ⟨source, m₃, hsource, h⟩ := exists_of_bind h
    obtain ⟨block, m₄, hblock, h⟩ := exists_of_bind h
    exact Or.inr ⟨hn, o, source, m₃, block, m₄, ho, hsource, hblock, h⟩
  · exact Or.inl (of_pure h).2

/-- What a fill comes to. -/
theorem exists_of_fillBlock {name : String} (h : fillBlock s c name m = .ok () m') :
    ∃ dest n m₁, blockOperands s c name m = .ok (dest, n) m₁ ∧
      (m₁ = m' ∨ n ≠ 0 ∧ ∃ o byte m₂, c.args[1]? = some o ∧ c.eval s o m₁ = .ok byte m₂ ∧
        write s dest (Value.concat (List.replicate n (byte.resize 8))) m₂ = .ok () m') := by
  unfold fillBlock at h
  obtain ⟨⟨dest, n⟩, m₁, hoperands, h⟩ := exists_of_bind h
  refine ⟨dest, n, m₁, hoperands, ?_⟩
  dsimp only at h
  split at h
  · rename_i hn
    obtain ⟨o, m₂, harg, h⟩ := exists_of_bind h
    obtain ⟨ho, rfl⟩ := of_arg harg
    obtain ⟨byte, m₃, hbyte, h⟩ := exists_of_bind h
    exact Or.inr ⟨hn, o, byte, m₃, ho, hbyte, h⟩
  · exact Or.inl (of_pure h).2

/-- What a call reads through a pointer to a wrapper. -/
theorem exists_of_readPayload {o : Outcome} (h : SandboxHook.readPayload s c m = .ok o m') :
    ∃ a wrapper m₁ width v, c.args[0]? = some a ∧ c.eval s a m = .ok wrapper m₁ ∧
      read s wrapper width m₁ = .ok v m' := by
  unfold SandboxHook.readPayload at h
  obtain ⟨width, _, hsize, h⟩ := exists_of_bind h
  obtain rfl := of_sizeOf hsize
  obtain ⟨a, _, harg, h⟩ := exists_of_bind h
  obtain ⟨ha, rfl⟩ := of_arg harg
  obtain ⟨wrapper, m₁, hwrapper, h⟩ := exists_of_bind h
  obtain ⟨v, m₂, hread, h⟩ := exists_of_bind h
  obtain ⟨_, rfl⟩ := of_pure h
  exact ⟨a, wrapper, m₁, width, v, ha, hwrapper, hread⟩

/-- What the value of an operand stands for where references are followed: a pointer stands for what is
stored there. -/
inductive Fetched (s : Setting) (c : Call) (byReference : Bool) (o : Operand) (v : Value) (m : Machine) :
    Value → Machine → Prop
  | own (h : (byReference && (c.typeOf o).isPointer) = false) : Fetched s c byReference o v m v m
  | stored {t : Ty} {width : Nat} {payload : Value} {m' : Machine}
    (h : (byReference && (c.typeOf o).isPointer) = true) (ht : Call.pointee (c.typeOf o) m = .ok t m)
    (hwidth : Call.sizeOf s t m = .ok width m) (hread : read s v width m = .ok payload m') :
    Fetched s c byReference o v m payload m'

/-- Following a reference and going on. -/
theorem exists_of_fetch {β : Type} (byReference : Bool) {r : Bool} {o : Operand} {v : Value}
    {k : Value → Action β} {b : β} (hr : r = (byReference && (c.typeOf o).isPointer))
    (h : (if r = true then (do
          let t ← Call.pointee (c.typeOf o)
          let width ← Call.sizeOf s t
          let payload ← read s v width
          k payload)
        else (do
          let payload ← pure v
          k payload) : Action β) m = .ok b m') :
    ∃ payload m₁, Fetched s c byReference o v m payload m₁ ∧ k payload m₁ = .ok b m' := by
  subst hr
  -- Passed by reference, the payload is read through the pointer; otherwise it is the value.
  split at h
  · rename_i href
    obtain ⟨t, _, hpointee, h⟩ := exists_of_bind h
    obtain rfl := of_pointee hpointee
    obtain ⟨width, _, hsize, h⟩ := exists_of_bind h
    obtain rfl := of_sizeOf hsize
    obtain ⟨payload, m₁, hread, h⟩ := exists_of_bind h
    exact ⟨payload, m₁, .stored href hpointee hsize hread, h⟩
  · rename_i href
    obtain ⟨payload, m₁, hpayload, h⟩ := exists_of_bind h
    obtain ⟨rfl, rfl⟩ := of_pure hpayload
    exact ⟨v, m, .own (by simpa using href), h⟩

/-- What an assignment to a wrapper comes to. -/
theorem exists_of_writePayload {o : Outcome} (h : SandboxHook.writePayload s c m = .ok o m') :
    ∃ a dest m₁ b v m₂ payload m₃, c.args[0]? = some a ∧ c.eval s a m = .ok dest m₁ ∧
      c.args[1]? = some b ∧ c.eval s b m₁ = .ok v m₂ ∧ Fetched s c true b v m₂ payload m₃ ∧
      write s dest payload m₃ = .ok () m' := by
  unfold SandboxHook.writePayload at h
  obtain ⟨a, _, harg, h⟩ := exists_of_bind h
  obtain ⟨ha, rfl⟩ := of_arg harg
  obtain ⟨dest, m₁, hdest, h⟩ := exists_of_bind h
  obtain ⟨b, _, harg, h⟩ := exists_of_bind h
  obtain ⟨hb, rfl⟩ := of_arg harg
  obtain ⟨v, m₂, hv, h⟩ := exists_of_bind h
  dsimp only at h
  obtain ⟨payload, m₃, hpayload, h⟩ := exists_of_fetch true rfl h
  obtain ⟨_, m₄, hwrite, h⟩ := exists_of_bind h
  have heq : m₄ = m' := by
    cases ht : c.resultType <;> rw [ht] at h <;> exact (of_pure h).2
  exact ⟨a, dest, m₁, b, v, m₂, payload, m₃, ha, hdest, hb, hv, hpayload, heq ▸ hwrite⟩

/-- What the address of an element comes to. -/
theorem exists_of_elementAddress {byReference : Bool} {o : Outcome}
    (h : SandboxHook.elementAddress s c byReference m = .ok o m') :
    ∃ a base m₁ b v m₂ index, c.args[0]? = some a ∧ c.eval s a m = .ok base m₁ ∧
      c.args[1]? = some b ∧ c.eval s b m₁ = .ok v m₂ ∧ Fetched s c byReference b v m₂ index m' := by
  unfold SandboxHook.elementAddress at h
  obtain ⟨a, _, harg, h⟩ := exists_of_bind h
  obtain ⟨ha, rfl⟩ := of_arg harg
  obtain ⟨base, m₁, hbase, h⟩ := exists_of_bind h
  obtain ⟨b, _, harg, h⟩ := exists_of_bind h
  obtain ⟨hb, rfl⟩ := of_arg harg
  obtain ⟨v, m₂, hv, h⟩ := exists_of_bind h
  dsimp only at h
  -- From here on the hook only computes; the machine stays where the index was fetched.
  obtain ⟨index, m₃, hindex, h⟩ := exists_of_fetch byReference rfl h
  obtain ⟨element, _, hpointee, h⟩ := exists_of_bind h
  obtain rfl := of_pointee hpointee
  obtain ⟨size, _, hsize, h⟩ := exists_of_bind h
  obtain rfl := of_sizeInBytes hsize
  obtain ⟨offset, _, hoffset, h⟩ := exists_of_bind h
  obtain ⟨_, rfl⟩ := of_valueOr hoffset
  obtain ⟨address, _, haddress, h⟩ := exists_of_bind h
  obtain ⟨_, rfl⟩ := of_valueOr haddress
  obtain ⟨_, rfl⟩ := of_pure h
  exact ⟨a, base, m₁, b, v, m₂, index, ha, hbase, hb, hv, hindex⟩

theorem of_expect {c : Call} {accepted : Arity} {args : List Operand} {m m' : Machine}
    (h : c.expect accepted m = .ok args m') : m = m' := by
  unfold Call.expect at h
  split at h
  · exact (of_pure h).2
  · exact absurd h not_fault

/-- A built-in hook does to the machine what its body does. -/
theorem exists_body {c : Call} {b : SandboxHook} {m m' : Machine} {o : Outcome} (h : b.run s c m = .ok o m') :
    SandboxHook.body s c b m = .ok o m' := by
  unfold SandboxHook.run at h
  cases hb : b.arity? with
  | none =>
    rw [hb] at h
    exact of_guarded h
  | some accepted =>
    rw [hb] at h
    obtain ⟨_, m₁, harity, h⟩ := exists_of_bind h
    obtain rfl := of_expect harity
    exact of_guarded h

end Machine

end PathSafety
