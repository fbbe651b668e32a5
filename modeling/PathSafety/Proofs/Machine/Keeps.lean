import PathSafety.Proofs.Machine.Prepares

/-!
# What actions keep

Relations between the machine that an action starts on and the one that it leaves, whatever the project. An
action that only evaluates and reads at known addresses is made of a few things: questions to the path
condition, new symbols, storage set apart, bytes read, and global values met for the first time. What these
keep, all of it keeps.

Contents:

* `exists_of_bind` — what one action after another comes to;
* `Keeps`, `computes_keeps` — that a relation leads from every machine to what an action makes of it;
* `Allows`, `Admits` — that a relation allows what evaluating is made of, without meeting global names or with it;
* `prepares_keeps`, `keeps_siteEval` — evaluating, and what else leaves memory alone, keeps such a relation;
* `keeps_read` — reading keeps it if settling on an address does.
-/

namespace PathSafety.Machine

open IR

variable {α β : Type}

/-! ## Actions one after another -/

/-- What comes of two actions comes of the second after the first. -/
theorem exists_of_bind {x : Action α} {f : α → Action β} {m m' : Machine} {b : β}
    (h : (x >>= f) m = .ok b m') : ∃ a m₁, x m = .ok a m₁ ∧ f a m₁ = .ok b m' := by
  simp only [bind, EStateM.bind] at h
  split at h
  · rename_i a m₁ hx
    exact ⟨a, m₁, hx, h⟩
  · cases h

/-- Where two actions fail, the first does, or the second after it. -/
theorem error_of_bind {x : Action α} {f : α → Action β} {m m' : Machine} {g : Failure}
    (h : (x >>= f) m = .error g m') :
    x m = .error g m' ∨ ∃ a m₁, x m = .ok a m₁ ∧ f a m₁ = .error g m' := by
  simp only [bind, EStateM.bind] at h
  split at h
  · rename_i a m₁ hx
    exact Or.inr ⟨a, m₁, hx, h⟩
  · rename_i g' m₁ hx
    cases h
    exact Or.inl hx

theorem bind_of_ok {x : Action α} {f : α → Action β} {m m₁ : Machine} {a : α} (h : x m = .ok a m₁) :
    (x >>= f) m = f a m₁ := by
  simp only [bind, EStateM.bind, h]

theorem of_pure {a b : α} {m m' : Machine} (h : (pure a : Action α) m = .ok b m') : a = b ∧ m = m' := by
  cases h
  exact ⟨rfl, rfl⟩

theorem not_fault {f : Fault} {m m' : Machine} {a : α} : (fault f : Action α) m ≠ .ok a m' := nofun

theorem not_defect {d : Defect} {m m' : Machine} {a : α} : (defect d : Action α) m ≠ .ok a m' := nofun

theorem of_valueOr {r : Except ValueError α} {m m' : Machine} {a : α} (h : valueOr r m = .ok a m') :
    r = .ok a ∧ m = m' := by
  cases r with
  | ok b =>
    obtain ⟨rfl, rfl⟩ := of_pure h
    exact ⟨rfl, rfl⟩
  | error e => cases e <;> exact absurd h not_defect

theorem of_sat {extra : List Cond} {m m' : Machine} {b : Bool} (h : sat extra m = .ok b m') :
    b = (m.condition.sat extra).1 ∧ m' = { m with condition := (m.condition.sat extra).2 } := by
  cases h
  exact ⟨rfl, rfl⟩

/-- Asking whether conditions can hold leaves the machine as it is if they cannot: only a yes is remembered. -/
theorem of_sat_false {extra : List Cond} {m m' : Machine} (h : sat extra m = .ok false m') : m = m' := by
  obtain ⟨hb, hm'⟩ := of_sat h
  rw [hm']
  unfold PathCondition.sat at hb ⊢
  split
  · rename_i w hw
    rw [hw] at hb
    cases hb
  · rfl

/-- A number is one that the path condition gives. -/
theorem of_evalNat {v : Value} {m m' : Machine} {n : Nat} (h : evalNat v m = .ok n m') :
    m.condition.anyValue? v.term = some n ∧ m = m' := by
  unfold evalNat at h
  rw [bind_of_ok (rfl : (get : Action Machine) m = .ok m m)] at h
  cases hn : m.condition.anyValue? v.term with
  | none =>
    rw [hn] at h
    exact absurd h not_defect
  | some k =>
    rw [hn] at h
    obtain ⟨rfl, rfl⟩ := of_pure h
    exact ⟨rfl, rfl⟩

/-- The number of a constant. -/
theorem evalNat_of_const? {v : Value} {m : Machine} {n : Nat} (hv : v.const? = some n) : evalNat v m = .ok n m := by
  obtain ⟨b, hb, rfl⟩ := Option.map_eq_some_iff.mp hv
  unfold evalNat
  rw [bind_of_ok (rfl : (get : Action Machine) m = .ok m m), PathCondition.anyValue?_of_const? hb]
  rfl

/-- A question that ends the path if the answer is yes is passed if it is no, which leaves the machine as it is. -/
theorem ask_iff {extra : List Cond} {f : Fault} {m m' : Machine} :
    (do if ← sat extra then fault f : Action Unit) m = .ok () m' ↔ m' = m ∧ (m.condition.sat extra).1 = false := by
  have hrun : sat extra m = .ok (m.condition.sat extra).1 { m with condition := (m.condition.sat extra).2 } := rfl
  rw [bind_of_ok hrun]
  cases hanswer : (m.condition.sat extra).1 with
  | true => exact ⟨fun h => absurd h not_fault, fun h => absurd h.2 Bool.noConfusion⟩
  | false =>
    rw [hanswer] at hrun
    obtain heq := of_sat_false hrun
    rw [← heq]
    exact ⟨fun h => ⟨(of_pure h).2.symm, rfl⟩, fun h => h.1 ▸ rfl⟩

/-- A null check that passes leaves the machine as it is. -/
theorem of_checkNull {s : Setting} {address : Value} {m m' : Machine}
    (h : checkNull s address m = .ok () m') : m = m' := by
  unfold checkNull at h
  split at h
  · exact (ask_iff.mp h).1.symm
  · exact (of_pure h).2

/-- That a relation leads from every machine to the one that an action leaves. -/
def Keeps (R : Machine → Machine → Prop) (x : Action α) : Prop :=
  ∀ ⦃m a m'⦄, x m = .ok a m' → R m m'

/-- That a relation between machines allows what evaluating is made of, but for meeting global names. -/
structure Allows (R : Machine → Machine → Prop) : Prop where
  refl : ∀ m, R m m
  trans : ∀ {m₁ m₂ m₃}, R m₁ m₂ → R m₂ m₃ → R m₁ m₃
  ask : ∀ m extra, R m { m with condition := (m.condition.sat extra).2 }
  symbol : ∀ m, R m { m with nextSymbol := m.nextSymbol + 1 }
  reserve : ∀ m bits, R m { m with nextAddress := m.nextAddress + stride bits }
  bytes : ∀ a n, Keeps R (readBytes a n)

/-- That a relation between machines allows what evaluating is made of, where global names are met as some modules have
them. Meeting a name is allowed if it is as far as evaluating its initial value is. -/
structure Admits (s : Setting) (A : String → Nat → Prop) (R : Machine → Machine → Prop) : Prop extends Allows R where
  meet : ∀ depth module name m a m', A name module → m.addresses.get? name = none →
    (∀ g init, s.project.globalIn? module name = some (.data g) → g.init = some init →
      Keeps R (evalWith s (addressWithin s depth) module ∅ init)) →
      addressWithin s (depth + 1) module name m = .ok a m' → R m m'

variable {s : Setting} {A : String → Nat → Prop} {R : Machine → Machine → Prop} {x : Action α} {f : α → Action β}

theorem keeps_fault {g : Fault} : Keeps R (fault g : Action α) := fun _ _ _ h => absurd h not_fault

theorem keeps_fault_bind {g : Fault} : Keeps R ((fault g : Action α) >>= f) := by
  intro m b m' h
  obtain ⟨_, _, hfault, _⟩ := exists_of_bind h
  exact absurd hfault not_fault

theorem keeps_defect {d : Defect} : Keeps R (defect d : Action α) := fun _ _ _ h => absurd h not_defect

/-- Computing with constants leaves the machine as it is, so it keeps what is kept by doing nothing and by doing one
thing after another. -/
theorem computes_keeps (hrefl : ∀ m, R m m) (htrans : ∀ {m₁ m₂ m₃}, R m₁ m₂ → R m₂ m₃ → R m₁ m₃) :
    Computes fun _ x => Keeps R x where
  pure a m b m' h := by
    obtain ⟨_, rfl⟩ := of_pure h
    exact hrefl m
  bind hx hf m b m' h := by
    obtain ⟨a, m₁, hx', hf'⟩ := exists_of_bind h
    exact htrans (hx hx') (hf a hf')
  fault _ _ := keeps_fault
  mismatch := @fun _ => keeps_defect
  missing := @fun _ => keeps_defect
  evalNat v _ m n m' h := by
    obtain ⟨_, rfl⟩ := of_evalNat h
    exact hrefl m

/-- Computing with constants leaves the machine as it is. -/
theorem computes_keeps_eq : Computes fun _ x => Keeps Eq x := computes_keeps (fun _ => rfl) Eq.trans

theorem of_sizeInBytes {t : Ty} {m m' : Machine} {n : Nat} (h : sizeInBytes s t m = .ok n m') : m = m' :=
  computes_keeps_eq.sizeInBytes t h

theorem of_sized {t : Ty} {m m' : Machine} {n : Nat} (h : sized s t m = .ok n m') : m = m' :=
  computes_keeps_eq.sized t h

/-- A name that has been met has its address, so giving names addresses keeps what meeting them keeps. -/
theorem keeps_of_meet (hrefl : ∀ m, R m m)
    (hmeet : ∀ depth module name, A name module →
      (∀ {module name}, A name module → Keeps R (addressWithin s depth module name)) →
        ∀ m a m', m.addresses.get? name = none → addressWithin s (depth + 1) module name m = .ok a m' → R m m')
    (depth : Nat) {module : Nat} {name : String} (h : A name module) : Keeps R (addressWithin s depth module name) := by
  induction depth generalizing module name with
  | zero => exact keeps_defect
  | succ depth ih =>
    intro m a m' haddress
    cases hmet : m.addresses.get? name with
    | none => exact hmeet depth module name h ih m a m' hmet haddress
    | some b =>
      unfold addressWithin at haddress
      rw [bind_of_ok (rfl : (get : Action Machine) m = .ok m m), hmet] at haddress
      obtain ⟨_, rfl⟩ := of_pure haddress
      exact hrefl m

section Actions

variable (hR : Allows R)
include hR

theorem keeps_pure {a : α} : Keeps R (pure a : Action α) := (computes_keeps hR.refl hR.trans).pure a

theorem keeps_bind (hx : Keeps R x) (hf : ∀ a, Keeps R (f a)) : Keeps R (x >>= f) :=
  (computes_keeps hR.refl hR.trans).bind hx hf

theorem keeps_get : Keeps R (get : Action Machine) := by
  intro m a m' h
  cases h
  exact hR.refl m

theorem keeps_valueOr {r : Except ValueError α} : Keeps R (valueOr r) := by
  cases r with
  | ok a => exact keeps_pure hR
  | error e => cases e <;> exact keeps_defect

theorem keeps_allocate (bits : Nat) : Keeps R (allocate s bits) := by
  intro m a m' h
  cases h
  exact hR.reserve m bits

theorem keeps_fresh (name : String) (bits : Int) : Keeps R (fresh name bits) := by
  unfold fresh
  split
  · exact keeps_fault_bind
  · intro m a m' h
    cases h
    exact hR.symbol m

theorem keeps_sat (extra : List Cond) : Keeps R (sat extra) := by
  intro m b m' h
  cases h
  exact hR.ask m extra

theorem keeps_evalNat (v : Value) : Keeps R (evalNat v) := by
  intro m n m' h
  obtain ⟨_, rfl⟩ := of_evalNat h
  exact hR.refl m

/-! ## Evaluating -/

/-- Computing and asking keep what is allowed. -/
theorem queries_keeps : Queries fun _ x => Keeps R x where
  toComputes := computes_keeps hR.refl hR.trans
  fresh := fun name bits => keeps_fresh hR name bits
  sat := keeps_sat hR

/-- What leaves memory alone keeps what is allowed, as far as meeting global names does. -/
theorem prepares_keeps (s : Setting) : Prepares s fun _ x => Keeps R x where
  toQueries := queries_keeps hR
  allocate := keeps_allocate hR

end Actions

section Evaluating

section

variable (hR : Admits s A R) (hA : s.project.FollowsInitials A)
include hR hA

/-- Global names get their addresses by what is allowed. -/
theorem keeps_addressWithin (depth : Nat) {module : Nat} {name : String} (h : A name module) :
    Keeps R (addressWithin s depth module name) := by
  refine keeps_of_meet hR.refl (fun depth module name h ih m a m' hmet haddress => ?_) depth h
  refine hR.meet depth module name m a m' h hmet (fun g init hg hinit => ?_) haddress
  exact (queries_keeps hR.toAllows).evalRefers keeps_fault ∅ fun n j hn => ih (hA h hg hinit hn)

/-- Operands, of which global names may be met as deeply as that. -/
theorem keeps_evalWith (depth : Nat) {module : Nat} (rs : Registers) {o : Operand}
    (ho : ∀ n j, o.RefersTo s.project module n j → A n j) :
    Keeps R (evalWith s (addressWithin s depth) module rs o) :=
  (queries_keeps hR.toAllows).evalRefers keeps_fault rs fun n j hn => keeps_addressWithin hR hA depth (ho n j hn)

theorem keeps_siteEval (site : Site) {o : Operand}
    (ho : ∀ n j, o.RefersTo s.project site.routine.module n j → A n j) : Keeps R (site.eval s o) :=
  keeps_evalWith hR hA _ site.registers ho

end

/-! Where all names are allowed, all operands are. -/

variable (hR : Admits s (fun _ _ => True) R)
include hR

theorem Admits.anyAddress (depth module : Nat) (name : String) : Keeps R (addressWithin s depth module name) :=
  keeps_addressWithin hR (fun _ _ _ _ _ _ _ _ _ _ => trivial) depth trivial

theorem Admits.anyOperand (depth module : Nat) (rs : Registers) (o : Operand) :
    Keeps R (evalWith s (addressWithin s depth) module rs o) :=
  keeps_evalWith hR (fun _ _ _ _ _ _ _ _ _ _ => trivial) depth rs fun _ _ _ => trivial

theorem Admits.anyEval (site : Site) (o : Operand) : Keeps R (site.eval s o) := hR.anyOperand _ _ site.registers o

end Evaluating

/-! ## Reading -/

section Reading

variable (hR : Allows R) (hassume : ∀ m c, R m { m with condition := m.condition.assume c })
include hR hassume

omit hR in
theorem keeps_assume (c : Cond) : Keeps R (assume c) := by
  intro m a m' h
  cases h
  exact hassume m c

theorem keeps_read (address : Value) (bits : Nat) : Keeps R (read s address bits) :=
  (queries_keeps hR).read <|
    (queries_keeps hR).readBytesAt hR.bytes (fun h => keeps_bind hR (keeps_get hR) h) (keeps_assume hassume)
      keeps_defect address _

end Reading

end PathSafety.Machine
