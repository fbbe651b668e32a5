import PathSafety.Proofs.Machine.Keeps

/-!
# Meeting a global name

A global name gets its address where it is met first, and keeps it. Modules that have the name share the address, but not
the initial value: what is written is the initial value of the one module through which the name was met, and nothing if
that module only declares the variable. Evaluating an initial value meets further names, which lie behind. So what is
written for one name is not written over for another.

Contents:

* `Machine.target?`, `Machine.exists_of_write` — where a write goes, and what it does;
* `Machine.Meets`, `Machine.cases_of_meet` — that a name is met for the first time, through a module;
* `Machine.Extends`, `Machine.Precedes`, `Machine.Kept` — what actions keep that write nothing at some bytes;
* `Machine.Met`, `Machine.Begun` — that a name is met on the way, and that its storage holds its initial value;
* `Machine.Begins`, `Machine.admits_begins` — that all names that are met begin like this;
* `Machine.address_of_met`, `Machine.YieldsFrom` — references to names that have been met;
* `Machine.read_of_forall` — reading bytes that are there.
-/

namespace PathSafety

open IR Machine

/-! ## Memory -/

namespace Memory

/-- Making a symbol for unknown bytes leaves the bytes that are there. -/
theorem get?_loadBytes {fuel : Nat} {m m' : Memory} {supply supply' a n x : Nat} {c : Cell} {vs : List Value}
    (h : loadBytes fuel m supply a n = (vs, m', supply')) (hx : m.get? x = some c) : m'.get? x = some c := by
  induction fuel generalizing m m' supply supply' a n vs with
  | zero =>
    unfold loadBytes at h
    cases n <;> cases h <;> exact hx
  | succ fuel ih =>
    cases n with
    | zero =>
      unfold loadBytes at h
      cases h
      exact hx
    | succ n =>
      unfold loadBytes at h
      dsimp only at h
      split at h
      · obtain ⟨-, rfl, -⟩ := h
        exact ih rfl hx
      · rename_i hnone
        obtain ⟨-, rfl, -⟩ := h
        refine ih rfl ?_
        rw [get?_store_of_not_mem, hx]
        -- a byte that is there lies in no run of unknown bytes
        rintro ⟨hle, hlt⟩
        rcases Nat.eq_or_lt_of_le hle with rfl | hlt'
        · rw [hnone] at hx
          cases hx
        · have hin : x < a + m.unknownRun a (n + 1) := by omega
          rw [get?_of_lt_unknownRun hle hin] at hx
          cases hx

theorem get?_load {m m' : Memory} {supply supply' a n x : Nat} {c : Cell} {v : Value}
    (h : m.load supply a n = (v, m', supply')) (hx : m.get? x = some c) : m'.get? x = some c := by
  unfold load at h
  dsimp only at h
  cases h
  exact get?_loadBytes rfl hx

end Memory

namespace Value

/-- Byte `k` of a value, as memory holds it. -/
def byte (v : Value) (k : Nat) : Byte := (v.resize (8 * byteCount v.width)).term.mkSlice (8 * k) 8

end Value

namespace Machine

variable {s : Setting} {A : String → Nat → Prop} {X : Nat → Prop} {m m' m₁ m₂ m₃ : Machine} {module x : Nat}
  {n name : String} {a v w : Value}

/-! ## Writing -/

/-- Where a write goes: to the greatest of the possible addresses. -/
def target? (m : Machine) (address : Value) : Option Nat :=
  match address.const? with
  | some a => some a
  | none => m.condition.greatest? address.term

/-- What a write does to memory. -/
theorem exists_of_write {address : Value} (h : write s address v m = .ok () m') :
    ∃ a, m.target? address = some a ∧
      m'.memory = m.memory.store a (v.resize (8 * byteCount v.width)) (byteCount v.width) ∧
      m'.addresses = m.addresses ∧ m'.nextAddress = m.nextAddress := by
  unfold write at h
  obtain ⟨_, m₁, hnull, h⟩ := exists_of_bind h
  obtain rfl := of_checkNull hnull
  unfold target?
  dsimp only at h
  cases hconst : address.const? with
  | some a =>
    rw [hconst] at h
    cases h
    exact ⟨a, rfl, rfl, rfl, rfl⟩
  | none =>
    rw [hconst] at h
    obtain ⟨m₂, m₃, hget, h⟩ := exists_of_bind h
    cases hget
    dsimp only
    -- A symbolic address is made concrete: the greatest possible one is assumed and written to.
    cases hgreatest : m.condition.greatest? address.term with
    | none =>
      rw [hgreatest] at h
      exact absurd h not_defect
    | some a =>
      rw [hgreatest] at h
      obtain ⟨_, m₄, hassume, h⟩ := exists_of_bind h
      cases hassume
      cases h
      exact ⟨a, rfl, rfl, rfl, rfl⟩

/-- Writing at an address that has been handed out: the bytes of the value are there, and all others stay. -/
theorem cells_of_write (hx : x < m.nextAddress) (h : write s (.ofNat s.pointerBits x) v m = .ok () m')
    (hroom : m'.nextAddress ≤ 2 ^ s.pointerBits) :
    (∀ k < byteCount v.width, ∃ c, m'.memory.get? (x + k) = some c ∧ c.byte = v.byte k) ∧
      ∀ y, y < x ∨ x + byteCount v.width ≤ y → m'.memory.get? y = m.memory.get? y := by
  obtain ⟨b, htarget, hmemory, _, hnext⟩ := exists_of_write h
  have hb : b = x := by
    rw [← Option.some.inj htarget]
    exact Nat.mod_eq_of_lt (by omega)
  subst hb
  refine ⟨fun k hk => ?_, fun y hy => ?_⟩
  · obtain ⟨c, hc, hbyte⟩ := @Memory.get?_store_of_mem m.memory (v.resize (8 * byteCount v.width)) b
      (byteCount v.width) (b + k) ⟨by omega, by omega⟩
    refine ⟨c, hmemory ▸ hc, ?_⟩
    rw [hbyte, Nat.add_sub_cancel_left]
    rfl
  · rw [hmemory, Memory.get?_store_of_not_mem (by omega)]

/-! ## Meeting a name -/

/-- That a name is met for the first time, through a module. -/
def Meets (s : Setting) (module : Nat) (n : String) (m : Machine) (v : Value) (m' : Machine) : Prop :=
  m.addresses.get? n = none ∧ ∃ depth, addressWithin s depth module n m = .ok v m'

/-- That the initial value that a module gives a name comes to `w` where the name is met in `m₁`, with the storage of the
name set apart already. -/
def InitialAt (s : Setting) (module : Nat) (n : String) (g : Global) (init : Operand) (m₁ : Machine) (w : Value)
    (m₃ : Machine) : Prop :=
  ∃ depth, evalWith s (addressWithin s depth) module ∅ init (entered s m₁ n (storage s g)) = .ok w m₃

/-- That a value is one of an initial value that a module gives. -/
def Initial (s : Setting) (module : Nat) (init : Operand) (w : Value) : Prop :=
  ∃ depth m m', evalWith s (addressWithin s depth) module ∅ init m = .ok w m'

/-- That initial values are not larger than their variables. -/
def InitialsFit (s : Setting) : Prop :=
  ∀ module n g init, s.project.globalIn? module n = some (.data g) → g.init = some init →
    ∀ w, Initial s module init w → byteCount w.width ≤ max 1 (byteCount (storage s g))

/-- What comes of meeting a name: storage for what the module has under the name, and the initial value there
if the module gives one. -/
theorem cases_of_meet {depth : Nat} (hname : m.addresses.get? name = none)
    (h : addressWithin s (depth + 1) module name m = .ok a m') :
    a = .ofNat s.pointerBits m.nextAddress ∧
      ((∃ f, s.project.globalIn? module name = some (.code f) ∧ m' = entered s m name 8) ∨
        ∃ g, s.project.globalIn? module name = some (.data g) ∧
          ((g.init = none ∧ m' = entered s m name (storage s g)) ∨
            ∃ init w m₁, g.init = some init ∧
              evalWith s (addressWithin s depth) module ∅ init (entered s m name (storage s g)) = .ok w m₁ ∧
              write s (.ofNat s.pointerBits m.nextAddress) w m₁ = .ok () m')) := by
  unfold addressWithin at h
  obtain ⟨m₀, m₁, hget, h⟩ := exists_of_bind h
  cases hget
  rw [hname] at h
  dsimp only at h
  cases hg : s.project.globalIn? module name with
  | none =>
    rw [hg] at h
    exact absurd h not_fault
  | some gv =>
    rw [hg] at h
    -- Met for the first time: entered, and then initialized where there is an initializer.
    cases gv with
    | code f =>
      cases h
      exact ⟨rfl, Or.inl ⟨f, rfl, rfl⟩⟩
    | data g =>
      obtain ⟨b, m₂, henter, h⟩ := exists_of_bind h
      cases henter
      cases hinit : g.init with
      | none =>
        rw [hinit] at h
        cases h
        exact ⟨rfl, Or.inr ⟨g, rfl, Or.inl ⟨hinit, rfl⟩⟩⟩
      | some init =>
        rw [hinit] at h
        obtain ⟨w, m₃, heval, h⟩ := exists_of_bind h
        obtain ⟨_, m₄, hwrite, h⟩ := exists_of_bind h
        obtain ⟨rfl, rfl⟩ := of_pure h
        exact ⟨rfl, Or.inr ⟨g, rfl, Or.inr ⟨init, w, m₃, hinit, heval, hwrite⟩⟩⟩

/-- A name is met with as many variables to be met as there are. -/
theorem Meets.exists_depth (h : Meets s module n m v m') :
    ∃ depth, addressWithin s (depth + 1) module n m = .ok v m' := by
  obtain ⟨_, depth, hdepth⟩ := h
  cases depth with
  | zero => exact absurd hdepth not_defect
  | succ depth => exact ⟨depth, hdepth⟩

/-! ## What is kept -/

/-- That the names that were met keep their addresses. -/
def Extends (m m' : Machine) : Prop :=
  ∀ n v, m.addresses.get? n = some v → m'.addresses.get? n = some v

theorem extends_refl (m : Machine) : Extends m m := fun _ _ h => h

theorem Extends.trans (h₁ : Extends m m₁) (h₂ : Extends m₁ m₂) : Extends m m₂ := fun n v hn => h₂ n v (h₁ n v hn)

/-- That one machine comes before another: names keep their addresses, and the supply of addresses only moves on. -/
structure Precedes (m m' : Machine) : Prop where
  addresses : Extends m m'
  next : m.nextAddress ≤ m'.nextAddress

theorem precedes_of_eq (haddresses : m'.addresses = m.addresses) (hnext : m.nextAddress ≤ m'.nextAddress) :
    Precedes m m' where
  addresses n v h := by rwa [haddresses]
  next := hnext

theorem precedes_refl (m : Machine) : Precedes m m := ⟨extends_refl m, Nat.le_refl _⟩

theorem Precedes.trans (h₁ : Precedes m m₁) (h₂ : Precedes m₁ m₂) : Precedes m m₂ where
  addresses := h₁.addresses.trans h₂.addresses
  next := Nat.le_trans h₁.next h₂.next

theorem precedes_entered {bits : Nat} (hname : m.addresses.get? name = none) :
    Precedes m (entered s m name bits) where
  addresses := addresses_entered hname
  next := Nat.le_add_right _ _

theorem precedes_of_write {address : Value} (h : write s address v m = .ok () m') : Precedes m m' := by
  obtain ⟨b, _, _, haddresses, hnext⟩ := exists_of_write h
  exact precedes_of_eq haddresses (Nat.le_of_eq hnext.symm)

/-- Evaluating leads to later machines. -/
theorem admits_precedes (s : Setting) {A : String → Nat → Prop} : Admits s A Precedes where
  refl := precedes_refl
  trans := Precedes.trans
  ask m _ := precedes_of_eq rfl (Nat.le_refl _)
  symbol m := precedes_of_eq rfl (Nat.le_refl _)
  reserve m bits := precedes_of_eq rfl (Nat.le_add_right _ _)
  bytes a n m v m' h := by
    cases h
    exact precedes_of_eq rfl (Nat.le_refl _)
  meet depth module name m a m' _ hname heval h := by
    obtain ⟨_, ⟨_, _, rfl⟩ | ⟨g, hg, ⟨_, rfl⟩ | ⟨init, w, m₁, hinit, hw, hwrite⟩⟩⟩ := cases_of_meet hname h
    · exact precedes_entered hname
    · exact precedes_entered hname
    · exact (precedes_entered hname).trans ((heval g init hg hinit hw).trans (precedes_of_write hwrite))

/-- What is kept as long as nothing is written at the bytes in `X`: these, as far as they lie below the next address. As
numbers addresses may lie beyond what pointers hold; nothing is said of bytes then. -/
structure Kept (s : Setting) (X : Nat → Prop) (m m' : Machine) : Prop extends Precedes m m' where
  cell : m'.nextAddress ≤ 2 ^ s.pointerBits → ∀ x, X x → x < m.nextAddress →
    ∀ c, m.memory.get? x = some c → m'.memory.get? x = some c

theorem Kept.trans (h₁ : Kept s X m m₁) (h₂ : Kept s X m₁ m₂) : Kept s X m m₂ where
  toPrecedes := h₁.toPrecedes.trans h₂.toPrecedes
  cell hroom x hx hlt c hc := by
    have hnext₁ := h₁.next
    have hnext₂ := h₂.next
    exact h₂.cell hroom x hx (by omega) c (h₁.cell (by omega) x hx hlt c hc)

/-! ## The names that are met on the way -/

/-- That a name is met through a module on the way from `m` to `m'`, namely between `m₁` and `m₂`. -/
structure Met (s : Setting) (module : Nat) (n : String) (v : Value) (m m₁ m₂ m' : Machine) : Prop where
  before : Precedes m m₁
  meets : Meets s module n m₁ v m₂
  after : Precedes m₂ m'

/-- That the storage of a name that was met in `m₁` holds the initial value that a module gives it, but for bytes outside
`X`. The value is what the initial value comes to where the name is met, and `m'` has the addresses that are in it. -/
def Begun (s : Setting) (X : Nat → Prop) (module : Nat) (n : String) (m₁ m' : Machine) : Prop :=
  ∀ g init, s.project.globalIn? module n = some (.data g) → g.init = some init →
    ∃ w m₃, InitialAt s module n g init m₁ w m₃ ∧ Precedes m₃ m' ∧
      m₁.nextAddress + byteCount w.width < m₃.nextAddress ∧
        (m'.nextAddress ≤ 2 ^ s.pointerBits → ∀ k < byteCount w.width, X (m₁.nextAddress + k) →
          ∃ c, m'.memory.get? (m₁.nextAddress + k) = some c ∧ c.byte = w.byte k)

/-- Initial values stay as long as their bytes do. -/
theorem Begun.later (h : Begun s X module n m₁ m) (hm' : Precedes m m')
    (hcells : m'.nextAddress ≤ 2 ^ s.pointerBits → ∀ x, X x → m₁.nextAddress ≤ x → x < m.nextAddress →
      ∀ c, m.memory.get? x = some c → m'.memory.get? x = some c) : Begun s X module n m₁ m' := by
  intro g init hg hinit
  obtain ⟨w, m₃, hw, hm₃, hin, hbytes⟩ := h g init hg hinit
  refine ⟨w, m₃, hw, hm₃.trans hm', hin, fun hroom k hk hx => ?_⟩
  have hnext := hm'.next
  have hnext₃ := hm₃.next
  obtain ⟨c, hc, hbyte⟩ := hbytes (by omega) k hk hx
  exact ⟨c, hcells hroom _ hx (by omega) (by omega) c hc, hbyte⟩

/-- What an action does that writes nothing at the bytes in `X`: it keeps them, and meets only names that are allowed,
which begin with their initial values. -/
structure Begins (s : Setting) (A : String → Nat → Prop) (X : Nat → Prop) (m m' : Machine) : Prop
    extends Kept s X m m' where
  met : ∀ n v, m.addresses.get? n = none → m'.addresses.get? n = some v →
    ∃ module m₁ m₂, A n module ∧ Met s module n v m m₁ m₂ m' ∧ Begun s X module n m₁ m'

/-- A machine that has met no other names. -/
theorem Begins.of_addresses (haddresses : m'.addresses = m.addresses) (hnext : m.nextAddress ≤ m'.nextAddress)
    (hcell : ∀ x, X x → ∀ c, m.memory.get? x = some c → m'.memory.get? x = some c) : Begins s A X m m' where
  toPrecedes := precedes_of_eq haddresses hnext
  cell _ x hx _ := hcell x hx
  met n v hnone hsome := by
    rw [haddresses, hnone] at hsome
    cases hsome

theorem Begins.trans (h₁ : Begins s A X m m₁) (h₂ : Begins s A X m₁ m₂) : Begins s A X m m₂ where
  toKept := h₁.toKept.trans h₂.toKept
  met n v hnone hsome := by
    cases hmet : m₁.addresses.get? n with
    | none =>
      obtain ⟨module, m₃, m₄, hallowed, hmeets, hbegun⟩ := h₂.met n v hmet hsome
      exact ⟨module, m₃, m₄, hallowed, { hmeets with before := h₁.toPrecedes.trans hmeets.before }, hbegun⟩
    | some u =>
      obtain rfl := Option.some.inj ((h₂.addresses n u hmet).symm.trans hsome)
      obtain ⟨module, m₃, m₄, hallowed, hmeets, hbegun⟩ := h₁.met n u hnone hmet
      refine ⟨module, m₃, m₄, hallowed, { hmeets with after := hmeets.after.trans h₂.toPrecedes }, ?_⟩
      exact hbegun.later h₂.toPrecedes fun hroom x hx _ hlt => h₂.cell hroom x hx hlt

/-- Setting storage apart gives an address to one name. -/
theorem eq_of_entered {bits : Nat} (hnone : m.addresses.get? n = none)
    (hsome : (entered s m name bits).addresses.get? n = some v) :
    name = n ∧ v = .ofNat s.pointerBits m.nextAddress := by
  have hget : (entered s m name bits).addresses.get? n =
      if name = n then some (.ofNat s.pointerBits m.nextAddress) else m.addresses.get? n :=
    get?_insert_name _ _ _ _
  rw [hget] at hsome
  split at hsome
  · rename_i hn
    exact ⟨hn, (Option.some.inj hsome).symm⟩
  · rw [hnone] at hsome
    cases hsome

/-- Meeting a name of no initial value. -/
theorem begins_entered {bits : Nat} (hallowed : A name module)
    (hmeets : Meets s module name m a (entered s m name bits))
    (hinit : ∀ g init, s.project.globalIn? module name = some (.data g) → g.init ≠ some init) :
    Begins s A X m (entered s m name bits) where
  toPrecedes := precedes_entered hmeets.1
  cell _ _ _ _ _ hc := hc
  met n v hnone hsome := by
    obtain ⟨depth, h⟩ := hmeets.exists_depth
    obtain ⟨rfl, rfl⟩ := eq_of_entered hnone hsome
    obtain ⟨rfl, _⟩ := cases_of_meet hmeets.1 h
    exact ⟨module, m, _, hallowed, ⟨precedes_refl m, hmeets, precedes_refl _⟩,
      fun g init hg hi => absurd hi (hinit g init hg)⟩

/-- Meeting a name of some initial value: evaluating this value may meet other names, which get their storage
behind that of the name itself; then it is written. -/
theorem begins_initialized (hfit : InitialsFit s) {depth : Nat} {g : Global} {init : Operand}
    (hallowed : A name module) (hmeets : Meets s module name m (.ofNat s.pointerBits m.nextAddress) m')
    (hg : s.project.globalIn? module name = some (.data g)) (hinit : g.init = some init)
    (hw : evalWith s (addressWithin s depth) module ∅ init (entered s m name (storage s g)) = .ok w m₁)
    (hbegins : Begins s A X (entered s m name (storage s g)) m₁)
    (hwrite : write s (.ofNat s.pointerBits m.nextAddress) w m₁ = .ok () m') : Begins s A X m m' := by
  have hsize := hfit module name g init hg hinit w ⟨depth, _, m₁, hw⟩
  have hstride := lt_stride (storage s g)
  have hentered : (entered s m name (storage s g)).nextAddress = m.nextAddress + stride (storage s g) := rfl
  have hnext₁ := hbegins.next
  have hwritten : Precedes m₁ m' := precedes_of_write hwrite
  obtain ⟨_, _, _, haddresses, hnext⟩ := exists_of_write hwrite
  have hm₁ : Precedes m m₁ := (precedes_entered hmeets.1).trans hbegins.toPrecedes
  -- the value lies between the address of the name and the next address of `entered`
  have hcells := cells_of_write (by omega) hwrite
  have hout : m'.nextAddress ≤ 2 ^ s.pointerBits → ∀ x,
      x < m.nextAddress ∨ (entered s m name (storage s g)).nextAddress ≤ x →
        m'.memory.get? x = m₁.memory.get? x := fun hroom x hx => (hcells hroom).2 x (by omega)
  refine {
    toPrecedes := hm₁.trans hwritten
    cell := fun hroom x hx hlt c hc => ?_
    met := fun n v hnone hsome => ?_ }
  · rw [hout hroom x (Or.inl hlt)]
    exact hbegins.cell (by omega) x hx (by omega) c hc
  · rw [haddresses] at hsome
    cases hmet : (entered s m name (storage s g)).addresses.get? n with
    | some u =>
      -- the name itself
      obtain rfl := Option.some.inj ((hbegins.addresses n u hmet).symm.trans hsome)
      obtain ⟨rfl, rfl⟩ := eq_of_entered hnone hmet
      refine ⟨module, m, m', hallowed, ⟨precedes_refl m, hmeets, precedes_refl m'⟩, fun g' init' hg' hinit' => ?_⟩
      obtain rfl := GlobalValue.data.inj (Option.some.inj (hg.symm.trans hg'))
      obtain rfl := Option.some.inj (hinit.symm.trans hinit')
      exact ⟨w, m₁, ⟨depth, hw⟩, hwritten, by omega, fun hroom k hk _ => (hcells hroom).1 k hk⟩
    | none =>
      -- another name, met in evaluating the initial value
      obtain ⟨i, m₃, m₄, hallowed', hother, hbegun⟩ := hbegins.met n v hmet hsome
      refine ⟨i, m₃, m₄, hallowed', ⟨(precedes_entered hmeets.1).trans hother.before, hother.meets,
        hother.after.trans hwritten⟩, hbegun.later hwritten fun hroom x _ hge _ c hc => ?_⟩
      have hbefore := hother.before.next
      rw [hout hroom x (Or.inr (by omega))]
      exact hc

/-- **Evaluating and reading** write nothing where something is already, and meet names that begin with their initial
values. -/
theorem admits_begins (hfit : InitialsFit s) (A : String → Nat → Prop) (X : Nat → Prop) : Admits s A (Begins s A X) where
  refl m := .of_addresses rfl (Nat.le_refl _) fun _ _ _ h => h
  trans := Begins.trans
  ask m extra := .of_addresses rfl (Nat.le_refl _) fun _ _ _ h => h
  symbol m := .of_addresses rfl (Nat.le_refl _) fun _ _ _ h => h
  reserve m bits := .of_addresses rfl (Nat.le_add_right _ _) fun _ _ _ h => h
  bytes a n := by
    intro m v m' h
    cases h
    exact .of_addresses rfl (Nat.le_refl _) fun _ _ _ hc => Memory.get?_load rfl hc
  meet depth module name m a m' hallowed hname heval h := by
    have hmeets : Meets s module name m a m' := ⟨hname, depth + 1, h⟩
    obtain ⟨rfl, ⟨f, hf, rfl⟩ | ⟨g, hg, ⟨hinit, rfl⟩ | ⟨init, w, m₁, hinit, hw, hwrite⟩⟩⟩ :=
      cases_of_meet hname h
    · refine begins_entered hallowed hmeets fun g init hg => ?_
      rw [hf] at hg
      cases hg
    · refine begins_entered hallowed hmeets fun g' init hg' hinit' => ?_
      obtain rfl := GlobalValue.data.inj (Option.some.inj (hg.symm.trans hg'))
      rw [hinit] at hinit'
      cases hinit'
    · exact begins_initialized hfit hallowed hmeets hg hinit hw (heval g init hg hinit hw) hwrite

theorem begins_assume (m : Machine) (c : Cond) :
    Begins s A X m { m with condition := m.condition.assume c } :=
  .of_addresses rfl (Nat.le_refl _) fun _ _ _ h => h

/-- A write elsewhere. -/
theorem begins_of_write {address : Value} (h : write s address v m = .ok () m')
    (hX : ∀ b, m.target? address = some b → ∀ x, X x → ¬ (b ≤ x ∧ x < b + byteCount v.width)) : Begins s A X m m' := by
  obtain ⟨b, htarget, hmemory, haddresses, hnext⟩ := exists_of_write h
  refine .of_addresses haddresses (Nat.le_of_eq hnext.symm) fun x hx c hc => ?_
  rw [hmemory, Memory.get?_store_of_not_mem (hX b htarget x hx)]
  exact hc

/-! ## References -/

/-- A name that was met has one address for all modules. -/
theorem address_of_met (hmet : m.addresses.get? n = some v) : address s module n m = .ok v m := by
  unfold address addressWithin
  rw [bind_of_ok (rfl : (get : Action Machine) m = .ok m m), hmet]
  rfl

/-- That a constant expression on a name, if `text` is one, has its value from an address of the name: a
conversion is the address itself, an address computation lies an offset away. -/
def YieldsFrom (s : Setting) (module : Nat) (n : String) (v : Value) (x : Action Value) (text : List Char)
    (bits : Nat) (m : Machine) : Prop :=
  (ExpressionShape.of? s.project text = some (.reference module n) → x m = .ok (v.resize bits) m) ∧
    ∀ g indices, ExpressionShape.of? s.project text = some (.element module g n indices) →
      x m = (do
        let o ← offset s (fun (i : Nat × Int) => return .ofInt i.1 i.2) v.width g.ty indices
        valueOr (Value.arith .add v o)) m

theorem yieldsFrom_of_met {fuel bits : Nat} {text : List Char} (hmet : m.addresses.get? n = some v) :
    YieldsFrom s module n v (evalExpression s (address s) (fuel + 1) text bits) text bits m := by
  obtain ⟨f, _, heq⟩ := evalExpression_eq s (address s) fuel bits text
  have haddress : address s module n m = .ok v m := address_of_met hmet
  refine ⟨fun hshape => ?_, fun g indices hshape => ?_⟩
  · rw [heq, hshape]
    show (do return (← address s module n).resize bits : Action Value) m = _
    rw [bind_of_ok haddress]
    rfl
  · rw [heq, hshape]
    exact bind_of_ok haddress

/-! ## Reading -/

/-- An address that cannot be zero passes the null check. -/
theorem checkNull_of_not_possible {address : Value} (hno : ¬ m.condition.Possible address.term 0) :
    checkNull s address m = .ok () m := by
  unfold checkNull
  split
  · have hfalse : (m.condition.sat [address.equals 0]).1 = false := by
      rw [Bool.eq_false_iff]
      intro hsat
      obtain ⟨ν, hν, hzero⟩ := PathCondition.sat_iff.mp hsat
      exact hno ⟨ν, hν, (PathCondition.holds_equals (Nat.two_pow_pos _)).mp hzero⟩
    have hsat : sat [address.equals 0] m =
        .ok false { m with condition := (m.condition.sat [address.equals 0]).2 } := by
      rw [← hfalse]
      rfl
    have hnull : (do
        if ← sat [address.equals 0] then
          fault (.nullPointer address.width address.const?) : Action Unit) m =
        .ok () { m with condition := (m.condition.sat [address.equals 0]).2 } := by
      rw [bind_of_ok hsat]
      rfl
    rw [hnull]
    -- only a yes is remembered
    unfold PathCondition.sat at hfalse ⊢
    split
    · rename_i hfound
      rw [hfound] at hfalse
      cases hfalse
    · rfl
  · rfl

/-- **Bytes that are there** are read as they are. -/
theorem read_of_forall {k : Nat} {f : Nat → Byte} (hpos : 0 < x) (hlt : x < 2 ^ s.pointerBits)
    (h : ∀ j < k, ∃ c, m.memory.get? (x + j) = some c ∧ c.byte = f j) :
    read s (.ofNat s.pointerBits x) (8 * k) m = .ok (Value.concat ((List.range k).map fun j => ⟨f j⟩)) m := by
  have hnot : ¬ m.condition.Possible (Value.ofNat s.pointerBits x).term 0 := by
    rintro ⟨ν, _, hzero⟩
    have hx : (BitVec.ofNat s.pointerBits x).toNat = 0 := hzero
    rw [BitVec.toNat_ofNat, Nat.mod_eq_of_lt hlt] at hx
    omega
  have hconst : (Value.ofNat s.pointerBits x).const? = some x := congrArg some (Nat.mod_eq_of_lt hlt)
  have hcount : byteCount (8 * k) = k := by
    unfold byteCount
    omega
  have hbytes : readBytesAt (.ofNat s.pointerBits x) k m =
      .ok (Value.concat ((List.range k).map fun j => ⟨f j⟩)) m := by
    unfold readBytesAt
    rw [hconst]
    -- Every byte is stored already, so the load makes up no symbol and leaves the memory alone.
    have hload : m.memory.load m.nextSymbol x k =
        (Value.concat ((List.range k).map fun j => ⟨f j⟩), m.memory, m.nextSymbol) := by
      unfold Memory.load
      rw [Memory.loadBytes_of_forall (Nat.le_refl k) h]
    show EStateM.Result.ok (m.memory.load m.nextSymbol x k).1
      { m with
        memory := (m.memory.load m.nextSymbol x k).2.1
        nextSymbol := (m.memory.load m.nextSymbol x k).2.2 } = _
    rw [hload]
  unfold read
  rw [bind_of_ok (checkNull_of_not_possible hnot), hcount, bind_of_ok hbytes, if_pos rfl]
  rfl

/-- A byte that is there is read as it is. -/
theorem read_of_cell {c : Cell} (hc : m.memory.get? x = some c) (hpos : 0 < x) (hlt : x < 2 ^ s.pointerBits) :
    read s (.ofNat s.pointerBits x) 8 m = .ok ⟨c.byte⟩ m := by
  refine read_of_forall (k := 1) (f := fun _ => c.byte) hpos hlt fun j hj => ⟨c, ?_, rfl⟩
  obtain rfl : j = 0 := by omega
  exact hc

end Machine

end PathSafety
