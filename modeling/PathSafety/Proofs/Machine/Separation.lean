import PathSafety.Proofs.Machine.Meets

/-!
# What a read sees

A read looks only at the cells of the bytes that it reads, and at nothing else in memory. So of two memories that agree on
some addresses it makes the same on these, and leaves memories that still agree. A write changes only the cells of its own
bytes, and a read of other bytes does not see it.

Contents:

* `Memory.AgreeOn` — that memories agree on some addresses;
* `AgreeOn.loadBytes`, `AgreeOn.load` — reading memories that agree;
* `Machine.Alike` — machines that differ only in memory, and not on some addresses;
* `Machine.sources`, `Machine.alike_read` — where a read goes, and that it does the same on such machines;
* `Machine.agreeOn_of_write`, `Machine.read_of_write` — reading what has not been written.
-/

namespace PathSafety

namespace Memory

variable {S : Nat → Prop} {m m' : Memory}

/-- That memories have the same cells at some addresses. -/
def AgreeOn (S : Nat → Prop) (m m' : Memory) : Prop := ∀ x, S x → m'.get? x = m.get? x

theorem AgreeOn.contains (h : AgreeOn S m m') {a : Nat} (ha : S a) : m'.contains a = m.contains a := by
  rw [Bool.eq_iff_iff, contains_iff, contains_iff, h a ha]

theorem AgreeOn.insert (h : AgreeOn S m m') (a : Nat) (c : Cell) : AgreeOn S (m.insert a c) (m'.insert a c) := by
  intro x hx
  rw [get?_insert, get?_insert, h x hx]

theorem AgreeOn.storeTerm {w : Nat} {t : Term w} {size : Option Nat} {a place n : Nat} (h : AgreeOn S m m') :
    AgreeOn S (m.storeTerm a t size place n) (m'.storeTerm a t size place n) := by
  induction n generalizing m m' a place with
  | zero => exact h
  | succ n ih =>
    unfold Memory.storeTerm
    exact ih (h.insert a _)

theorem AgreeOn.store (h : AgreeOn S m m') (a : Nat) (v : Value) (n : Nat) : AgreeOn S (m.store a v n) (m'.store a v n) :=
  h.storeTerm

/-- A write is seen only where it goes. -/
theorem agreeOn_store {v : Value} {a n : Nat} (h : ∀ x, S x → ¬ (a ≤ x ∧ x < a + n)) : AgreeOn S m (m.store a v n) :=
  fun x hx => get?_store_of_not_mem (h x hx)

/-! ## Reading -/

theorem AgreeOn.unknownRun (h : AgreeOn S m m') {a n : Nat} (hS : ∀ x, a ≤ x → x < a + n → S x) :
    m'.unknownRun a n = m.unknownRun a n := by
  induction n generalizing a with
  | zero => rfl
  | succ n ih =>
    unfold Memory.unknownRun
    rw [h.contains (hS a (Nat.le_refl a) (by omega)), ih fun x h1 h2 => hS x (by omega) (by omega)]

theorem AgreeOn.pieceFrom (h : AgreeOn S m m') {a n : Nat} {c : Cell} (hS : ∀ x, a < x → x ≤ a + n → S x) :
    m'.pieceFrom a c n = m.pieceFrom a c n := by
  induction n generalizing a c with
  | zero => rfl
  | succ n ih =>
    unfold Memory.pieceFrom
    rw [h (a + 1) (hS (a + 1) (by omega) (by omega))]
    split
    · rfl
    · split
      · rfl
      · rw [ih fun x h1 h2 => hS x (by omega) (by omega)]

/-- **Reading bytes** that memories agree on: the same comes out, and the memories still agree. -/
theorem AgreeOn.loadBytes {a n : Nat} (h : AgreeOn S m m') (fuel supply : Nat) (hS : ∀ x, a ≤ x → x < a + n → S x) :
    ∃ parts after after' supply', m.loadBytes fuel supply a n = (parts, after, supply') ∧
      m'.loadBytes fuel supply a n = (parts, after', supply') ∧ AgreeOn S after after' := by
  induction fuel generalizing m m' supply a n with
  | zero => cases n <;> exact ⟨[], m, m', supply, rfl, rfl, h⟩
  | succ fuel ih =>
    cases n with
    | zero => exact ⟨[], m, m', supply, rfl, rfl, h⟩
    | succ n =>
      unfold Memory.loadBytes
      rw [h a (hS a (Nat.le_refl a) (by omega))]
      cases m.get? a with
      | some c =>
        -- the rest of a piece, and unknown bytes behind it
        dsimp only
        have hlength := length_pieceFrom_le (m := m) a c n
        rw [h.pieceFrom fun x h1 h2 => hS x (by omega) (by omega)]
        generalize hbytes : c.byte :: m.pieceFrom a c n = bytes
        have hpos : bytes.length = (m.pieceFrom a c n).length + 1 := by rw [← hbytes, List.length_cons]
        rw [h.unknownRun fun x h1 h2 => hS x (by omega) (by omega)]
        generalize (if (a + bytes.length) % pageSize = 0 then 0
          else m.unknownRun (a + bytes.length) (min (c.size - bytes.length) (n + 1 - bytes.length))) = skipped
        have hrest : ∀ x, a + bytes.length + skipped ≤ x →
            x < a + bytes.length + skipped + (n + 1 - bytes.length - skipped) → S x := by
          intro x h1 h2
          exact hS x (by omega) (by omega)
        obtain ⟨parts, after, after', supply', hrun, hrun', hafter⟩ := ih h supply hrest
        rw [hrun, hrun']
        exact ⟨_, after, after', supply', rfl, rfl, hafter⟩
      | none =>
        -- one symbol for a run of unknown bytes
        dsimp only
        rw [h.unknownRun hS]
        generalize hrun : max 1 (m.unknownRun a (n + 1)) = run
        have hle := unknownRun_le (m := m) a (n + 1)
        have hrest : ∀ x, a + run ≤ x → x < a + run + (n + 1 - run) → S x := by
          intro x h1 h2
          exact hS x (by omega) (by omega)
        obtain ⟨parts, after, after', supply', hload, hload', hafter⟩ := ih (h.store a _ run) (supply + 1) hrest
        rw [hload, hload']
        exact ⟨_, after, after', supply', rfl, rfl, hafter⟩

theorem AgreeOn.load {a n : Nat} (h : AgreeOn S m m') (supply : Nat) (hS : ∀ x, a ≤ x → x < a + n → S x) :
    ∃ v after after' supply', m.load supply a n = (v, after, supply') ∧ m'.load supply a n = (v, after', supply') ∧
      AgreeOn S after after' := by
  obtain ⟨parts, after, after', supply', hrun, hrun', hafter⟩ := h.loadBytes n supply hS
  unfold Memory.load
  rw [hrun, hrun']
  exact ⟨_, after, after', supply', rfl, rfl, hafter⟩

end Memory

namespace Machine

variable {S : Nat → Prop} {s : Setting} {m m' : Machine} {α β : Type}

/-! ## Machines that differ in memory -/

/-- That machines differ only in memory, and not on some addresses. -/
structure Alike (S : Nat → Prop) (m m' : Machine) : Prop where
  rest : m' = { m with memory := m'.memory }
  memory : Memory.AgreeOn S m.memory m'.memory

theorem Alike.condition (h : Alike S m m') : m'.condition = m.condition := by
  rw [h.rest]

theorem Alike.nextSymbol (h : Alike S m m') : m'.nextSymbol = m.nextSymbol := by
  rw [h.rest]

/-- That actions come to the same, on machines that differ only in memory. -/
inductive ComesAlike (S : Nat → Prop) : EStateM.Result Failure Machine α → EStateM.Result Failure Machine α → Prop
  | ok {a : α} {m m' : Machine} (h : Alike S m m') : ComesAlike S (.ok a m) (.ok a m')
  | error {failure : Failure} {m m' : Machine} (h : Alike S m m') : ComesAlike S (.error failure m) (.error failure m')

theorem ComesAlike.bind {x : Action α} {f : α → Action β} (hx : ComesAlike S (x m) (x m'))
    (hf : ∀ a m₁ m₁', x m = .ok a m₁ → Alike S m₁ m₁' → ComesAlike S (f a m₁) (f a m₁')) :
    ComesAlike S ((x >>= f) m) ((x >>= f) m') := by
  generalize hr : x m = r at hx
  generalize hr' : x m' = r' at hx
  cases hx with
  | ok h =>
    rw [bind_of_ok hr, bind_of_ok hr']
    exact hf _ _ _ hr h
  | error h =>
    simp only [Bind.bind, EStateM.bind, hr, hr']
    exact .error h

/-- What an action returns is the same where it comes to the same. -/
theorem ComesAlike.run'_eq {x : Action α} (h : ComesAlike S (x m) (x m')) : x.run' m = x.run' m' := by
  unfold EStateM.run'
  unfold EStateM.run
  generalize x m = r at h
  generalize x m' = r' at h
  cases h <;> rfl

/-- Where a read goes: to the address if it is constant, else to its possible values or to the one that is picked. -/
def sources (m : Machine) (address : Value) : List Nat :=
  match address.const? with
  | some a => [a]
  | none =>
    match m.condition.possible address.term readSpan with
    | .inl l => l
    | .inr a => a.toList

/-- That all bytes of a read are at some addresses. -/
def ReadsOn (S : Nat → Prop) (m : Machine) (address : Value) (n : Nat) : Prop :=
  ∀ a ∈ m.sources address, ∀ x, a ≤ x → x < a + n → S x

theorem alike_pure (h : Alike S m m') (a : α) : ComesAlike S ((pure a : Action α) m) ((pure a : Action α) m') := .ok h

theorem alike_fault (h : Alike S m m') (f : Fault) : ComesAlike S ((fault f : Action α) m) ((fault f : Action α) m') :=
  .error h

theorem alike_defect (h : Alike S m m') (d : Defect) :
    ComesAlike S ((defect d : Action α) m) ((defect d : Action α) m') :=
  .error h

/-- Conditions are asked for whatever is in memory. -/
theorem alike_sat (h : Alike S m m') (extra : List Cond) : ComesAlike S (sat extra m) (sat extra m') := by
  rw [h.rest]
  exact .ok ⟨rfl, h.memory⟩

theorem alike_assume (h : Alike S m m') (c : Cond) : ComesAlike S (assume c m) (assume c m') := by
  rw [h.rest]
  exact .ok ⟨rfl, h.memory⟩

theorem alike_checkNull (h : Alike S m m') (address : Value) :
    ComesAlike S (checkNull s address m) (checkNull s address m') := by
  unfold checkNull
  split
  · refine (alike_sat h _).bind fun b m₁ m₁' _ h₁ => ?_
    split
    · exact alike_fault h₁ _
    · exact alike_pure h₁ ()
  · exact alike_pure h ()

theorem alike_valueOr (h : Alike S m m') (r : Except ValueError α) : ComesAlike S (valueOr r m) (valueOr r m') := by
  unfold valueOr
  split
  · exact alike_pure h _
  · exact alike_defect h _
  · exact alike_defect h _

/-! ## Reading on such machines -/

theorem readBytes_of_load {a n supply : Nat} {v : Value} {memory : Memory}
    (h : m.memory.load m.nextSymbol a n = (v, memory, supply)) :
    readBytes a n m = .ok v { m with memory, nextSymbol := supply } := by
  show EStateM.Result.ok (m.memory.load m.nextSymbol a n).1
    { m with
      memory := (m.memory.load m.nextSymbol a n).2.1
      nextSymbol := (m.memory.load m.nextSymbol a n).2.2 } = _
  rw [h]

theorem alike_readBytes (h : Alike S m m') {a n : Nat} (hS : ∀ x, a ≤ x → x < a + n → S x) :
    ComesAlike S (readBytes a n m) (readBytes a n m') := by
  obtain ⟨v, after, after', supply, hload, hload', hafter⟩ := h.memory.load m.nextSymbol hS
  rw [readBytes_of_load hload, readBytes_of_load (h.nextSymbol ▸ hload'), h.rest]
  exact .ok ⟨rfl, hafter⟩

theorem alike_readAny (h : Alike S m m') (address : Value) {n first : Nat} {others : List Nat}
    (hS : ∀ a ∈ first :: others, ∀ x, a ≤ x → x < a + n → S x) :
    ComesAlike S (readAny address n first others m) (readAny address n first others m') := by
  induction others generalizing m m' first with
  | nil => exact alike_readBytes h (hS first List.mem_cons_self)
  | cons a others ih =>
    obtain ⟨hfirst, hothers⟩ := List.forall_mem_cons.mp hS
    refine (alike_readBytes h hfirst).bind fun v m₁ m₁' _ h₁ => ?_
    exact (ih h₁ hothers).bind fun rest m₂ m₂' _ h₂ => alike_valueOr h₂ _

theorem alike_readBytesAt (h : Alike S m m') {address : Value} {n : Nat} (hS : ReadsOn S m address n) :
    ComesAlike S (readBytesAt address n m) (readBytesAt address n m') := by
  unfold ReadsOn sources at hS
  unfold readBytesAt
  cases hconst : address.const? with
  | some a =>
    rw [hconst] at hS
    exact alike_readBytes h (hS a List.mem_cons_self)
  | none =>
    rw [hconst] at hS
    -- both machines are looked at, and their conditions are the same
    have hget : ∀ (f : Machine → Action Value) (m : Machine), (get >>= f) m = f m m := fun _ _ => rfl
    dsimp only
    rw [hget, hget, h.condition]
    cases hpossible : m.condition.possible address.term readSpan with
    | inl l =>
      rw [hpossible] at hS
      cases l with
      | nil => exact alike_defect h _
      | cons a others => exact alike_readAny h address hS
    | inr picked =>
      rw [hpossible] at hS
      cases picked with
      | none => exact alike_defect h _
      | some a =>
        exact (alike_assume h _).bind fun _ m₁ m₁' _ h₁ => alike_readBytes h₁ (hS a (by simp))

/-- **A read** does the same on machines that do not differ where it goes. -/
theorem alike_read (h : Alike S m m') {address : Value} {bits : Nat} (hS : ReadsOn S m address (byteCount bits)) :
    ComesAlike S (read s address bits m) (read s address bits m') := by
  refine (alike_checkNull h address).bind fun _ m₁ m₁' hnull h₁ => ?_
  obtain rfl := of_checkNull hnull
  refine (alike_readBytesAt h₁ hS).bind fun v m₂ m₂' _ h₂ => ?_
  split
  · exact alike_pure h₂ v
  · split
    · exact alike_defect h₂ _
    · exact alike_pure h₂ _

/-! ## Reading what has not been written -/

/-- A write leaves the bytes alone that it does not go to. -/
theorem agreeOn_of_write {target v : Value} {a : Nat} (hwrite : write s target v m = .ok () m')
    (htarget : m.target? target = some a) (hout : ∀ x, S x → ¬ (a ≤ x ∧ x < a + byteCount v.width)) :
    Memory.AgreeOn S m.memory m'.memory := by
  obtain ⟨b, hb, hmemory, _⟩ := exists_of_write hwrite
  obtain rfl := Option.some.inj (htarget.symm.trans hb)
  rw [hmemory]
  exact Memory.agreeOn_store hout

/-- **What has not been written** is read as if nothing had been: a write that goes to other bytes is not seen. -/
theorem read_of_write {target address v : Value} {a bits : Nat} (hwrite : write s target v m = .ok () m')
    (htarget : m.target? target = some a) (hout : ∀ x, S x → ¬ (a ≤ x ∧ x < a + byteCount v.width))
    (hS : ReadsOn S m' address (byteCount bits)) :
    (read s address bits).run' m' = (read s address bits).run' { m' with memory := m.memory } := by
  have hagree := agreeOn_of_write hwrite htarget hout
  have halike : Alike S m' { m' with memory := m.memory } := ⟨rfl, fun x hx => (hagree x hx).symm⟩
  exact (alike_read halike hS).run'_eq

end Machine

end PathSafety
