import PathSafety.Proofs.Machine.Composes
import PathSafety.Proofs.Machine.Keeps

/-!
# Storage that is handed out

The machine hands out storage from a supply of addresses that only moves on. Whatever evaluates, reads or writes hands
out storage only to global names that are met for the first time: each of them gets a block that its address points to,
as large as its module has it, and the supply moves on by these blocks and by nothing else. What else is handed out is
asked for. As long as the supply has not run over, blocks lie one behind another, at multiples of the alignment and with
unused bytes between them.

Contents:

* `Extent`, `Extent.Apart` — blocks of storage, and that there are unused bytes between;
* `Extent.Laid`, `Laid.bounds`, `Laid.pairwise`, `Laid.dvd` — blocks that lie one behind another;
* `Machine.left`, `Machine.Hands` — the machine that an action leaves, and the blocks that are handed out in between;
* `Machine.Meeting`, `Machine.Meetings` — the names that are met between two machines, with their blocks;
* `Machine.Balances` — that an account of blocks is complete;
* `Machine.OnlyMeets` — that an action hands out storage only to names;
* `operates_onlyMeets`, `onlyMeets_siteEval` — that all that a machine does is of this kind, but for allocating;
* `Machine.Grants`, `Machine.Fulfils` — that storage is given on request;
* `Machine.Requests`, `fulfils_alloca`, `fulfils_allocateObjects` — what is asked for, and that it is given.
-/

namespace PathSafety

open IR

/-- A block of storage: the address of its first byte, and how many bytes there are. -/
structure Extent where
  address : Nat
  size : Nat

namespace Extent

/-- Whether a byte is in a block. -/
def Has (b : Extent) (x : Nat) : Prop := b.address ≤ x ∧ x < b.address + b.size

/-- That a block lies behind another one, with some bytes unused between them. -/
def Apart (b c : Extent) : Prop := b.address + b.size + Machine.alignment ≤ c.address

/-- How far the supply moves on for a block. -/
def stride (b : Extent) : Nat := (b.size + (2 * Machine.alignment - 1)) / Machine.alignment * Machine.alignment

theorem dvd_stride (b : Extent) : Machine.alignment ∣ b.stride := Nat.dvd_mul_left _ _

/-- The gap behind a block is unused. -/
theorem size_add_le_stride (b : Extent) : b.size + Machine.alignment ≤ b.stride := by
  unfold stride Machine.alignment
  omega

theorem Apart.not_has {b c : Extent} (h : b.Apart c) {x : Nat} (hb : b.Has x) : ¬ c.Has x := by
  unfold Apart at h
  unfold Has at hb ⊢
  omega

/-- How far the supply moves on for some blocks. -/
def strides (bs : List Extent) : Nat := (bs.map stride).sum

@[simp] theorem strides_nil : strides [] = 0 := rfl

@[simp] theorem strides_cons (b : Extent) (bs : List Extent) : strides (b :: bs) = b.stride + strides bs := by
  simp [strides]

@[simp] theorem strides_append (bs cs : List Extent) : strides (bs ++ cs) = strides bs + strides cs := by
  simp [strides]

/-- That blocks lie one behind another from an address on, where `limit` addresses are told apart. -/
def Laid (limit : Nat) : Nat → List Extent → Prop
  | _, [] => True
  | a, b :: bs => b.address = a % limit ∧ Laid limit (a + b.stride) bs

variable {limit a : Nat} {bs cs : List Extent}

theorem laid_append : Laid limit a (bs ++ cs) ↔ Laid limit a bs ∧ Laid limit (a + strides bs) cs := by
  induction bs generalizing a with
  | nil => simp [Laid]
  | cons b bs ih => simp [Laid, ih, and_assoc, Nat.add_assoc]

/-- A block that lies below the limit begins where the supply stands. -/
theorem Laid.head {b : Extent} (h : Laid limit a (b :: bs)) (hle : a + strides (b :: bs) ≤ limit) :
    b.address = a ∧ Laid limit (a + b.stride) bs ∧ a + b.stride + strides bs ≤ limit := by
  rw [strides_cons] at hle
  have hgap := b.size_add_le_stride
  unfold Machine.alignment at hgap
  have hlt : a < limit := by omega
  exact ⟨h.1.trans (Nat.mod_eq_of_lt hlt), h.2, by omega⟩

/-- All blocks lie between the ends, with their gaps. -/
theorem Laid.bounds (h : Laid limit a bs) (hle : a + strides bs ≤ limit) :
    ∀ b ∈ bs, a ≤ b.address ∧ b.address + b.size + Machine.alignment ≤ a + strides bs := by
  induction bs generalizing a with
  | nil => exact List.forall_mem_nil _
  | cons b bs ih =>
    obtain ⟨rfl, hrest, hle'⟩ := h.head hle
    have hgap := b.size_add_le_stride
    rw [strides_cons]
    refine List.forall_mem_cons.mpr ⟨by omega, fun b' hb' => ?_⟩
    have := ih hrest hle' b' hb'
    omega

/-- **Blocks are apart**, whichever of them are taken. -/
theorem Laid.pairwise (h : Laid limit a bs) (hle : a + strides bs ≤ limit) : bs.Pairwise Apart := by
  induction bs generalizing a with
  | nil => exact .nil
  | cons b bs ih =>
    obtain ⟨rfl, hrest, hle'⟩ := h.head hle
    refine List.pairwise_cons.mpr ⟨fun b' hb' => ?_, ih hrest hle'⟩
    have hge := (hrest.bounds hle' b' hb').1
    have hgap := b.size_add_le_stride
    unfold Apart
    omega

theorem Laid.dvd (h : Laid limit a bs) (hle : a + strides bs ≤ limit) (ha : Machine.alignment ∣ a) :
    ∀ b ∈ bs, Machine.alignment ∣ b.address := by
  induction bs generalizing a with
  | nil => exact List.forall_mem_nil _
  | cons b bs ih =>
    obtain ⟨rfl, hrest, hle'⟩ := h.head hle
    exact List.forall_mem_cons.mpr ⟨ha, ih hrest hle' (Nat.dvd_add ha b.dvd_stride)⟩

end Extent

namespace Machine

variable {s : Setting} {m m' : Machine} {α β : Type} {bs cs : List Extent}

/-! ## What actions hand out -/

/-- The machine that an action leaves, also where it fails. -/
def left (x : Action α) (m : Machine) : Machine :=
  match x m with
  | .ok _ m' | .error _ m' => m'

theorem left_of_ok {x : Action α} {a : α} (h : x m = .ok a m') : left x m = m' := by
  unfold left
  rw [h]

theorem left_of_error {x : Action α} {failure : Failure} (h : x m = .error failure m') : left x m = m' := by
  unfold left
  rw [h]

theorem left_bind_of_ok {x : Action α} {f : α → Action β} {a : α} (h : x m = .ok a m') :
    left (x >>= f) m = left (f a) m' := by
  unfold left
  rw [bind_of_ok h]

theorem left_bind_of_error {x : Action α} {f : α → Action β} {failure : Failure} (h : x m = .error failure m') :
    left (x >>= f) m = m' := by
  have hbind : (x >>= f) m = .error failure m' := by simp only [bind, EStateM.bind, h]
  exact left_of_error hbind

theorem left_guarded (x : Action α) (m : Machine) : left (guarded x) m = left x m := by
  cases h : x m with
  | ok a m' => rw [left_of_ok (guarded_ok h), left_of_ok h]
  | error failure m' =>
    cases failure with
    | fault f => rw [left_of_error (guarded_fault h), left_of_error h]
    | defect d => rw [left_of_error (guarded_defect h), left_of_error h]

/-- What is handed out between two machines: the supply has moved on by what the blocks take, and they lie one behind
another from where it stood. -/
structure Hands (s : Setting) (m m' : Machine) (bs : List Extent) : Prop where
  next : m'.nextAddress = m.nextAddress + Extent.strides bs
  laid : Extent.Laid (2 ^ s.pointerBits) m.nextAddress bs

theorem Hands.append (h₁ : Hands s m m₁ bs) (h₂ : Hands s m₁ m' cs) : Hands s m m' (bs ++ cs) where
  next := by rw [h₂.next, h₁.next, Extent.strides_append, Nat.add_assoc]
  laid := Extent.laid_append.mpr ⟨h₁.laid, h₁.next ▸ h₂.laid⟩

theorem hands_nil (h : m'.nextAddress = m.nextAddress) : Hands s m m' [] := ⟨h, trivial⟩

theorem const?_ofNat (w a : Nat) : (Value.ofNat w a).const? = some (a % 2 ^ w) := congrArg some (BitVec.toNat_ofNat _ _)

/-- One block is handed out where the supply stands. -/
theorem hands_stride (bits : Nat) (h : m'.nextAddress = m.nextAddress + stride bits) :
    Hands s m m' [⟨m.nextAddress % 2 ^ s.pointerBits, max 1 (byteCount bits)⟩] := ⟨h, rfl, trivial⟩

/-! ## Names that are met -/

/-- A global name that is met for the first time: the module that has it, and the block that it gets. -/
structure Meeting where
  name : String
  module : Nat
  block : Extent

/-- The bits that are set apart for a global value: those of a variable, and a byte for a function. -/
def setApart (s : Setting) : GlobalValue → Nat
  | .code _ => 8
  | .data g => storage s g

/-- The names that are met between two machines. They are new, and no others get an address. The address of each of them
is where its block begins, and the block is as large as its module has it. -/
structure Meetings (s : Setting) (m m' : Machine) (met : List Meeting) : Prop where
  distinct : (met.map Meeting.name).Nodup
  new : ∀ y ∈ met, m.addresses.get? y.name = none
  others : ∀ n, n ∉ met.map Meeting.name → m'.addresses.get? n = m.addresses.get? n
  address : ∀ y ∈ met, ∃ v, m'.addresses.get? y.name = some v ∧ v.const? = some y.block.address
  size : ∀ y ∈ met, ∃ g, s.project.globalIn? y.module y.name = some g ∧
    y.block.size = max 1 (byteCount (setApart s g))

variable {met met' : List Meeting}

theorem Meetings.append (h₁ : Meetings s m m₁ met) (h₂ : Meetings s m₁ m' met') : Meetings s m m' (met ++ met') := by
  -- a name that is met has an address, so it is not met again
  have hold : ∀ y ∈ met, y.name ∉ met'.map Meeting.name := by
    intro y hy hmem
    obtain ⟨z, hz, hname⟩ := List.mem_map.mp hmem
    obtain ⟨v, hv, _⟩ := h₁.address y hy
    have hnone := h₂.new z hz
    rw [hname, hv] at hnone
    cases hnone
  refine {
    distinct := ?_
    new := fun y hy => ?_
    others := fun n hn => ?_
    address := fun y hy => ?_
    size := fun y hy => ?_ }
  · rw [List.map_append]
    refine List.nodup_append.mpr ⟨h₁.distinct, h₂.distinct, fun n hn n' hn' heq => ?_⟩
    obtain ⟨y, hy, rfl⟩ := List.mem_map.mp hn
    exact hold y hy (heq ▸ hn')
  · rcases List.mem_append.mp hy with hy | hy
    · exact h₁.new y hy
    · have hnone := h₂.new y hy
      have hnot : y.name ∉ met.map Meeting.name := by
        intro hmem
        obtain ⟨z, hz, hname⟩ := List.mem_map.mp hmem
        exact hold z hz (List.mem_map.mpr ⟨y, hy, hname.symm⟩)
      rwa [h₁.others y.name hnot] at hnone
  · rw [List.map_append, List.mem_append, not_or] at hn
    exact (h₂.others n hn.2).trans (h₁.others n hn.1)
  · rcases List.mem_append.mp hy with hy | hy
    · rw [h₂.others y.name (hold y hy)]
      exact h₁.address y hy
    · exact h₂.address y hy
  · rcases List.mem_append.mp hy with hy | hy
    · exact h₁.size y hy
    · exact h₂.size y hy

theorem meetings_nil (h : m'.addresses = m.addresses) : Meetings s m m' [] where
  distinct := .nil
  new := List.forall_mem_nil _
  others n _ := by rw [h]
  address := List.forall_mem_nil _
  size := List.forall_mem_nil _

/-- A name that is met keeps its address as long as other names are met. -/
theorem Meetings.get?_of_some (h : Meetings s m m' met) {n : String} {v : Value} (hn : m.addresses.get? n = some v) :
    m'.addresses.get? n = some v := by
  rw [h.others n, hn]
  intro hmem
  obtain ⟨y, hy, rfl⟩ := List.mem_map.mp hmem
  rw [h.new y hy] at hn
  cases hn

/-- A name that gets an address is met. -/
theorem Meetings.exists_of_new (h : Meetings s m m' met) {n : String} {v : Value} (hnone : m.addresses.get? n = none)
    (hn : m'.addresses.get? n = some v) : ∃ y ∈ met, y.name = n ∧ v.const? = some y.block.address := by
  by_cases hmem : n ∈ met.map Meeting.name
  · obtain ⟨y, hy, rfl⟩ := List.mem_map.mp hmem
    obtain ⟨u, hu, hconst⟩ := h.address y hy
    obtain rfl := Option.some.inj (hu.symm.trans hn)
    exact ⟨y, hy, rfl, hconst⟩
  · rw [h.others n hmem, hnone] at hn
    cases hn

/-- The blocks of names that are met. -/
def blocks (met : List Meeting) : List Extent := met.map Meeting.block

theorem blocks_append (met met' : List Meeting) : blocks (met ++ met') = blocks met ++ blocks met' := List.map_append

/-- That an account of what is handed out between two machines is complete: the supply has moved on by these blocks, and
the addresses that names have got are theirs. -/
structure Balances (s : Setting) (m m' : Machine) (bs : List Extent) : Prop extends Hands s m m' bs where
  kept : ∀ n v, m.addresses.get? n = some v → m'.addresses.get? n = some v
  begun : ∀ n v, m.addresses.get? n = none → m'.addresses.get? n = some v → ∃ b ∈ bs, v.const? = some b.address

theorem Meetings.balances (h : Meetings s m m' met) (hhands : Hands s m m' (blocks met ++ cs)) :
    Balances s m m' (blocks met ++ cs) where
  toHands := hhands
  kept _ _ := h.get?_of_some
  begun n v hnone hn := by
    obtain ⟨y, hy, _, hv⟩ := h.exists_of_new hnone hn
    exact ⟨y.block, List.mem_append_left _ (List.mem_map_of_mem hy), hv⟩

theorem Balances.append (h₁ : Balances s m m₁ bs) (h₂ : Balances s m₁ m' cs) : Balances s m m' (bs ++ cs) where
  toHands := h₁.toHands.append h₂.toHands
  kept n v hn := h₂.kept n v (h₁.kept n v hn)
  begun n v hnone hn := by
    cases hmet : m₁.addresses.get? n with
    | none =>
      obtain ⟨b, hb, hv⟩ := h₂.begun n v hmet hn
      exact ⟨b, List.mem_append_right _ hb, hv⟩
    | some u =>
      obtain rfl := Option.some.inj ((h₂.kept n u hmet).symm.trans hn)
      obtain ⟨b, hb, hv⟩ := h₁.begun n u hnone hmet
      exact ⟨b, List.mem_append_left _ hb, hv⟩

/-- The supply of addresses of a machine, and the addresses of the names that have been met. -/
def supply (m : Machine) := (m.nextAddress, m.addresses)

theorem balances_nil (h : m'.supply = m.supply) : Balances s m m' [] where
  toHands := hands_nil (congrArg Prod.fst h)
  kept n v hn := by rwa [show m'.addresses = m.addresses from congrArg Prod.snd h]
  begun n v hnone hn := by
    rw [show m'.addresses = m.addresses from congrArg Prod.snd h, hnone] at hn
    cases hn

/-- What is left does not depend on anything but the supply. -/
theorem Balances.of_supply (h : Balances s m m₁ bs) (hsupply : m'.supply = m₁.supply) : Balances s m m' bs := by
  have happend := h.append (balances_nil hsupply)
  rwa [List.append_nil] at happend

/-! ## Handing out storage only to names -/

/-- That the names that are met between two machines are allowed, and that storage is handed out to nothing else. -/
structure Accounts (s : Setting) (A : String → Nat → Prop) (m m' : Machine) (met : List Meeting) : Prop
    extends Meetings s m m' met where
  hands : Hands s m m' (blocks met)
  allowed : ∀ y ∈ met, A y.name y.module

variable {A : String → Nat → Prop}

theorem Accounts.append (h₁ : Accounts s A m m₁ met) (h₂ : Accounts s A m₁ m' met') :
    Accounts s A m m' (met ++ met') where
  toMeetings := h₁.toMeetings.append h₂.toMeetings
  hands := blocks_append met met' ▸ h₁.hands.append h₂.hands
  allowed := List.forall_mem_append.mpr ⟨h₁.allowed, h₂.allowed⟩

theorem Accounts.balances (h : Accounts s A m m' met) : Balances s m m' (blocks met) := by
  have hhands : Hands s m m' (blocks met ++ []) := (List.append_nil (blocks met)).symm ▸ h.hands
  exact List.append_nil (blocks met) ▸ h.toMeetings.balances hhands

theorem accounts_nil (haddresses : m'.addresses = m.addresses) (hnext : m'.nextAddress = m.nextAddress) :
    Accounts s A m m' [] where
  toMeetings := meetings_nil haddresses
  hands := hands_nil hnext
  allowed := List.forall_mem_nil _

/-- Entering a name. -/
theorem accounts_entered {name : String} {module : Nat} {g : GlobalValue} (hname : m.addresses.get? name = none)
    (hg : s.project.globalIn? module name = some g) (hallowed : A name module) :
    Accounts s A m (entered s m name (setApart s g))
      [⟨name, module, ⟨m.nextAddress % 2 ^ s.pointerBits, max 1 (byteCount (setApart s g))⟩⟩] where
  distinct := List.pairwise_singleton _ _
  new := List.forall_mem_singleton.mpr hname
  others _ hn := (get?_insert_name _ _ _ _).trans (if_neg fun h => hn (List.mem_singleton.mpr h.symm))
  address := List.forall_mem_singleton.mpr ⟨_, get?_entered_self, const?_ofNat _ _⟩
  size := List.forall_mem_singleton.mpr ⟨g, hg, rfl⟩
  hands := hands_stride (setApart s g) rfl
  allowed := List.forall_mem_singleton.mpr hallowed

/-- That an action hands out storage only to names that it meets, and that these are allowed. This is said of what it
leaves where it fails as well. -/
def OnlyMeets (s : Setting) (A : String → Nat → Prop) (α : Type) (x : Action α) : Prop :=
  ∀ m, ∃ met, Accounts s A m (left x m) met

/-- An action that leaves the supply and the names as they are. -/
theorem onlyMeets_of_quiet {x : Action α}
    (h : ∀ m, (left x m).addresses = m.addresses ∧ (left x m).nextAddress = m.nextAddress) : OnlyMeets s A α x :=
  fun m => ⟨[], accounts_nil (h m).1 (h m).2⟩

theorem OnlyMeets.of_ok {x : Action α} (hx : OnlyMeets s A α x) {a : α} (h : x m = .ok a m') :
    ∃ met, Accounts s A m m' met := left_of_ok h ▸ hx m

theorem OnlyMeets.of_error {x : Action α} (hx : OnlyMeets s A α x) {failure : Failure} (h : x m = .error failure m') :
    ∃ met, Accounts s A m m' met := left_of_error h ▸ hx m

theorem onlyMeets_bind {x : Action α} {f : α → Action β} (hx : OnlyMeets s A α x) (hf : ∀ a, OnlyMeets s A β (f a)) :
    OnlyMeets s A β (x >>= f) := by
  intro m
  cases hrun : x m with
  | ok a m' =>
    obtain ⟨met, hmet⟩ := hx.of_ok hrun
    obtain ⟨met', hmet'⟩ := hf a m'
    rw [left_bind_of_ok hrun]
    exact ⟨met ++ met', hmet.append hmet'⟩
  | error failure m' =>
    rw [left_bind_of_error hrun]
    exact hx.of_error hrun

theorem onlyMeets_pure (a : α) : OnlyMeets s A α (pure a) := onlyMeets_of_quiet fun _ => ⟨rfl, rfl⟩

theorem onlyMeets_fault (f : Fault) : OnlyMeets s A α (fault f) := onlyMeets_of_quiet fun _ => ⟨rfl, rfl⟩

theorem onlyMeets_defect (d : Defect) : OnlyMeets s A α (defect d) := onlyMeets_of_quiet fun _ => ⟨rfl, rfl⟩

/-- Looking at the machine. -/
theorem onlyMeets_get {f : Machine → Action α} (h : ∀ m, OnlyMeets s A α (f m)) : OnlyMeets s A α (get >>= f) :=
  onlyMeets_bind (onlyMeets_of_quiet fun _ => ⟨rfl, rfl⟩) h

theorem onlyMeets_evalNat (v : Value) : OnlyMeets s A Nat (evalNat v) := by
  refine onlyMeets_get fun m => ?_
  split
  · exact onlyMeets_pure _
  · exact onlyMeets_defect _

/-- Computing and asking meet no names. -/
theorem queries_onlyMeets : Queries (OnlyMeets s A) where
  pure := onlyMeets_pure
  bind := onlyMeets_bind
  fault f _ := onlyMeets_fault f
  mismatch := onlyMeets_defect _
  missing := onlyMeets_defect _
  fresh name bits := by
    unfold fresh
    split
    · exact onlyMeets_bind (onlyMeets_fault _) fun _ => onlyMeets_of_quiet fun _ => ⟨rfl, rfl⟩
    · exact onlyMeets_of_quiet fun _ => ⟨rfl, rfl⟩
  sat _ := onlyMeets_of_quiet fun _ => ⟨rfl, rfl⟩
  evalNat v _ := onlyMeets_evalNat v

theorem onlyMeets_write (address v : Value) : OnlyMeets s A Unit (write s address v) := by
  have hstore : ∀ a, OnlyMeets s A Unit (modify fun m =>
      { m with memory := m.memory.store a (v.resize (8 * byteCount v.width)) (byteCount v.width) }) :=
    fun a => onlyMeets_of_quiet fun _ => ⟨rfl, rfl⟩
  refine onlyMeets_bind (queries_onlyMeets.checkNull address) fun _ => ?_
  dsimp only
  split
  · exact hstore _
  · refine onlyMeets_get fun m => ?_
    split
    · exact onlyMeets_defect _
    · exact onlyMeets_bind (onlyMeets_of_quiet fun _ => ⟨rfl, rfl⟩) fun _ => hstore _

/-- **What a machine does** hands out storage only to names, but for allocating. -/
theorem operates_onlyMeets : Operates s (OnlyMeets s A) where
  toQueries := queries_onlyMeets
  write := onlyMeets_write
  guarded hx m := by
    rw [left_guarded]
    exact hx m

theorem onlyMeets_read (address : Value) (bits : Nat) : OnlyMeets s A Value (read s address bits) :=
  queries_onlyMeets.read <|
    queries_onlyMeets.readBytesAt (fun _ _ => onlyMeets_of_quiet fun _ => ⟨rfl, rfl⟩) onlyMeets_get
      (fun _ => onlyMeets_of_quiet fun _ => ⟨rfl, rfl⟩) (onlyMeets_defect _) address _

theorem onlyMeets_valueOr (r : Except ValueError α) : OnlyMeets s A α (valueOr r) := by
  unfold valueOr
  split
  · exact onlyMeets_pure _
  · exact onlyMeets_defect _
  · exact onlyMeets_defect _

/-! ## Evaluating -/

/-- **Global names** get their storage where they are met for the first time, and their initial values what these refer
to. -/
theorem onlyMeets_addressWithin (hA : s.project.FollowsInitials A) (depth : Nat) {module : Nat} {name : String}
    (hallowed : A name module) : OnlyMeets s A Value (addressWithin s depth module name) := by
  induction depth generalizing module name with
  | zero => exact onlyMeets_defect _
  | succ depth ih =>
    intro m
    unfold addressWithin
    rw [left_bind_of_ok (rfl : (get : Action Machine) m = .ok m m)]
    dsimp only
    have henter : ∀ bits, (do
        let a ← allocate s bits
        modify fun m => { m with addresses := m.addresses.insert name a }
        return a : Action Value) m = .ok (.ofNat s.pointerBits m.nextAddress) (entered s m name bits) := fun _ => rfl
    cases hname : m.addresses.get? name with
    | some a => exact onlyMeets_pure a m
    | none =>
      cases hg : s.project.globalIn? module name with
      | none => exact onlyMeets_fault _ m
      | some v =>
        have hentered := accounts_entered hname hg hallowed
        cases v with
        | code f => exact ⟨_, left_of_ok (henter 8) ▸ hentered⟩
        | data g =>
          dsimp only
          rw [left_bind_of_ok (henter _)]
          cases hinit : g.init with
          | none => exact ⟨_, hentered⟩
          | some init =>
            -- an initial value may refer to further names, which are met behind this one
            have hrest : OnlyMeets s A Value (do
                let v ← evalWith s (addressWithin s depth) module ∅ init
                write s (.ofNat s.pointerBits m.nextAddress) v
                return .ofNat s.pointerBits m.nextAddress) := by
              refine onlyMeets_bind ?_ fun v => onlyMeets_bind (onlyMeets_write _ v) fun _ => onlyMeets_pure _
              exact queries_onlyMeets.evalRefers (onlyMeets_fault _) ∅ fun n j hn =>
                ih (hA hallowed hg hinit hn)
            obtain ⟨met, hmet⟩ := hrest (entered s m name (storage s g))
            exact ⟨_, hentered.append hmet⟩

theorem onlyMeets_siteEval (hA : s.project.FollowsInitials A) (site : Site) {o : Operand}
    (ho : ∀ n j, o.RefersTo s.project site.routine.module n j → A n j) : OnlyMeets s A Value (site.eval s o) :=
  queries_onlyMeets.evalRefers (onlyMeets_fault _) site.registers fun n j hn =>
    onlyMeets_addressWithin hA _ (ho n j hn)

/-! ## Asking for storage -/

/-- What a machine gives on request: names have got storage, and behind theirs comes a block of so many bits, which
begins where the pointer points. -/
structure Grants (s : Setting) (A : String → Nat → Prop) (m m' : Machine) (met : List Meeting) (bits : Nat) (v : Value) :
    Prop extends Meetings s m m' met where
  allowed : ∀ y ∈ met, A y.name y.module
  block : ∃ a, v.const? = some a ∧ Hands s m m' (blocks met ++ [⟨a, max 1 (byteCount bits)⟩])

theorem Accounts.grants {bits : Nat} {v : Value} (h₁ : Accounts s A m m₁ met) (h₂ : Grants s A m₁ m' met' bits v) :
    Grants s A m m' (met ++ met') bits v where
  toMeetings := h₁.toMeetings.append h₂.toMeetings
  allowed := List.forall_mem_append.mpr ⟨h₁.allowed, h₂.allowed⟩
  block := by
    obtain ⟨a, ha, hhands⟩ := h₂.block
    refine ⟨a, ha, ?_⟩
    rw [blocks_append, List.append_assoc]
    exact h₁.hands.append hhands

/-- That an action on a machine gives storage of as many bits as `P` says, and nothing but what `give` makes of the
pointer to it. Where it fails only names have got storage. -/
def Fulfils (s : Setting) (A : String → Nat → Prop) (P : Nat → Prop) (give : Value → α) (x : Action α) (m : Machine) :
    Prop :=
  match x m with
  | .ok r m' => ∃ bits v met, P bits ∧ r = give v ∧ Grants s A m m' met bits v
  | .error _ m' => ∃ met, Accounts s A m m' met

variable {P : Nat → Prop} {give : Value → α} {x : Action α}

theorem Fulfils.of_ok (hx : Fulfils s A P give x m) {r : α} (h : x m = .ok r m') :
    ∃ bits v met, P bits ∧ r = give v ∧ Grants s A m m' met bits v := by
  unfold Fulfils at hx
  rwa [h] at hx

theorem Fulfils.of_error (hx : Fulfils s A P give x m) {failure : Failure} (h : x m = .error failure m') :
    ∃ met, Accounts s A m m' met := by
  unfold Fulfils at hx
  rwa [h] at hx

theorem fulfils_of_error {failure : Failure} (h : x m = .error failure m') (hm : ∃ met, Accounts s A m m' met) :
    Fulfils s A P give x m := by
  unfold Fulfils
  rwa [h]

theorem fulfils_fault_bind {f : Fault} {g : β → Action α} : Fulfils s A P give ((fault f : Action β) >>= g) m :=
  fulfils_of_error rfl ⟨[], accounts_nil rfl rfl⟩

theorem fulfils_allocate {bits : Nat} (hP : P bits) : Fulfils s A P (fun v => v) (allocate s bits) m := by
  refine ⟨bits, _, [], hP, rfl, { toMeetings := meetings_nil rfl, allowed := List.forall_mem_nil _, block := ?_ }⟩
  exact ⟨_, const?_ofNat _ m.nextAddress, hands_stride bits rfl⟩

/-- Something else comes first. -/
theorem fulfils_bind {y : Action β} {f : β → Action α} (hy : OnlyMeets s A β y)
    (hf : ∀ b m', y m = .ok b m' → Fulfils s A P give (f b) m') : Fulfils s A P give (y >>= f) m := by
  cases hrun : y m with
  | error failure m' =>
    have herror : (y >>= f) m = .error failure m' := by simp only [bind, EStateM.bind, hrun]
    exact fulfils_of_error herror (hy.of_error hrun)
  | ok b m₁ =>
    obtain ⟨met, hmet⟩ := hy.of_ok hrun
    have hrest := hf b m₁ hrun
    unfold Fulfils at hrest ⊢
    rw [bind_of_ok hrun]
    split at hrest
    · obtain ⟨bits, v, met', hP, hr, hgrants⟩ := hrest
      exact ⟨bits, v, met ++ met', hP, hr, hmet.grants hgrants⟩
    · obtain ⟨met', hmet'⟩ := hrest
      exact ⟨met ++ met', hmet.append hmet'⟩

/-- Something is made of what is given. -/
theorem Fulfils.map (hx : Fulfils s A P give x m) (f : α → β) :
    Fulfils s A P (fun v => f (give v)) (do return f (← x)) m := by
  cases hrun : x m with
  | error failure m' =>
    have herror : (do return f (← x) : Action β) m = .error failure m' := by simp only [bind, EStateM.bind, hrun]
    exact fulfils_of_error herror (hx.of_error hrun)
  | ok r m' =>
    obtain ⟨bits, v, met, hP, rfl, hgrants⟩ := hx.of_ok hrun
    unfold Fulfils
    rw [bind_of_ok hrun]
    exact ⟨bits, v, met, hP, rfl, hgrants⟩

theorem Fulfils.guarded (hx : Fulfils s A P give x m) : Fulfils s A P give (guarded x) m := by
  cases hrun : x m with
  | ok r m' =>
    unfold Fulfils
    rw [guarded_ok hrun]
    exact hx.of_ok hrun
  | error failure m' =>
    cases failure with
    | fault f => exact fulfils_of_error (guarded_fault hrun) (hx.of_error hrun)
    | defect d => exact fulfils_of_error (guarded_defect hrun) (hx.of_error hrun)

/-! ## What is asked for -/

/-- So many bits as many times as an operand says, which is evaluated on a machine; once without an operand. -/
inductive Times (s : Setting) (site : Site) (m : Machine) (bits : Nat) : Option Operand → Nat → Prop
  | once : Times s site m bits none bits
  | count {o : Operand} {v : Value} {k : Nat} {m' : Machine} (ho : site.eval s o m = .ok v m')
    (hk : v.const? = some k) : Times s site m bits (some o) (bits * k)

/-- The bits that a call asks a hook for: the one that allocates objects for as many as the second argument says of what
the returned pointer points to, and the default hook for one of it. -/
inductive Requests (s : Setting) (c : Call) (m : Machine) : SandboxHook → Nat → Prop
  | objects {t : Ty} {size bits : Nat} (ht : c.resultType.pointee? = some t)
    (hsize : s.project.layout.bits? t = some size) (hbits : Times s c.site m size c.args[1]? bits) :
    Requests s c m .mallocInSandbox bits
  | unknown {t : Ty} {bits : Nat} (htyped : c.resultType.isOpaque = false) (ht : c.resultType.pointee? = some t)
    (hbits : s.project.layout.bits? t = some bits) (hne : bits ≠ 0) : Requests s c m .default bits

theorem gives_sized (t : Ty) : Gives (fun n => s.project.layout.bits? t = some n) (sized s t) := by
  unfold sized
  split
  · exact gives_fault
  · exact gives_fault
  · exact gives_pure (by assumption)

theorem gives_sizeOf (t : Ty) : Gives (fun n => s.project.layout.bits? t = some n) (Call.sizeOf s t) := by
  unfold Call.sizeOf
  split
  · exact gives_pure (by assumption)
  · exact gives_fault

theorem gives_pointee (t : Ty) : Gives (fun u => t.pointee? = some u) (Call.pointee t) := by
  unfold Call.pointee
  split
  · exact gives_fault
  · split
    · exact gives_pure (by assumption)
    · exact gives_fault

section Granting

variable {site : Site} {c : Call}

/-- **Allocations** give storage for as many objects as they are to. -/
theorem fulfils_alloca {count : Option Operand} {t : Ty}
    (heval : ∀ o ∈ count.toList, OnlyMeets s A Value (site.eval s o))
    (hP : ∀ size bits, s.project.layout.bits? t = some size → Times s site m size count bits → P bits) :
    Fulfils s A P (fun v => v) (alloca s site t count) m := by
  unfold alloca
  refine fulfils_bind (queries_onlyMeets.sized t) fun size m₁ hsized => ?_
  have hsize := gives_sized t hsized
  obtain rfl := of_sized hsized
  cases count with
  | none => exact fulfils_allocate (hP size size hsize .once)
  | some o =>
    refine fulfils_bind (heval o List.mem_cons_self) fun v m₂ hv => ?_
    split
    · exact fulfils_fault_bind
    · rename_i hsymbolic
      obtain ⟨k, hk⟩ := exists_const?_of_not_isSymbolic hsymbolic
      refine fulfils_bind (onlyMeets_evalNat v) fun k' m₃ hk' => ?_
      obtain ⟨rfl, rfl⟩ := EStateM.Result.ok.inj ((evalNat_of_const? hk).symm.trans hk')
      exact fulfils_allocate (hP size _ hsize (.count hv hk))

/-- The default hook gives the storage that it is asked for. -/
theorem unknownResult_of_requests {bits : Nat} (h : Requests s c m .default bits) :
    SandboxHook.unknownResult s c = do return .returned (← allocate s bits) := by
  cases h with
  | @unknown t _ htyped ht hbits hne =>
    unfold SandboxHook.unknownResult
    -- what points to something is a pointer
    cases hresult : c.resultType with
    | ptrTo u k =>
      rw [hresult] at htyped ht
      dsimp only
      rw [htyped, ht]
      dsimp only [Option.bind_some]
      rw [hbits]
      cases bits with
      | zero => exact absurd rfl hne
      | succ n => rfl
    | _ =>
      rw [hresult] at ht
      cases ht

/-- The default hook hands out storage only where it is asked for some. -/
theorem onlyMeets_unknownResult (h : ∀ bits, ¬ Requests s c m .default bits) :
    OnlyMeets s A Outcome (SandboxHook.unknownResult s c) := by
  have hfresh : ∀ (name : String) (bits : Int), OnlyMeets s A Outcome (do return .returned (← fresh name bits)) :=
    fun name bits => onlyMeets_bind (queries_onlyMeets.fresh name bits) fun v => onlyMeets_pure _
  have hnone : ∀ n, n ≠ 0 →
      (if c.resultType.isOpaque then none else c.resultType.pointee?.bind s.project.layout.bits?) ≠ some n := by
    intro n hn hbits
    split at hbits
    · cases hbits
    · rename_i htyped
      obtain ⟨t, ht, hbits⟩ := Option.bind_eq_some_iff.mp hbits
      exact h n (.unknown (Bool.not_eq_true _ ▸ htyped) ht hbits hn)
  unfold SandboxHook.unknownResult
  dsimp only
  split
  · exact onlyMeets_pure _
  rotate_right
  · split
    · exact onlyMeets_fault _
    · split
      · exact queries_onlyMeets.faultBind rfl
      · exact onlyMeets_bind (queries_onlyMeets.sizeOf _) fun bits => hfresh _ _
  -- a pointer of either form, which is not said to point to anything
  all_goals
    split
    · exact hfresh _ _
    · exact hfresh _ _
    · rename_i n hn hbits
      exact absurd hbits (hnone n hn)

variable (heval : ∀ o ∈ c.args, OnlyMeets s A Value (c.eval s o))
include heval

/-- **Objects in the sandbox** are given storage for as many as there are to be. -/
theorem fulfils_allocateObjects (hP : ∀ bits, Requests s c m .mallocInSandbox bits → P bits) :
    Fulfils s A P .returned (SandboxHook.allocateObjects s c) m := by
  unfold SandboxHook.allocateObjects
  refine fulfils_bind (queries_onlyMeets.pointee _) fun t m₁ hpointee => ?_
  refine fulfils_bind (queries_onlyMeets.sizeOf t) fun size m₂ hsizeOf => ?_
  have ht := gives_pointee _ hpointee
  have hsize := gives_sizeOf t hsizeOf
  obtain rfl := of_pointee hpointee
  obtain rfl := of_sizeOf hsizeOf
  dsimp only
  split
  · exact fulfils_fault_bind
  · split
    · rename_i hnone
      exact (fulfils_allocate (hP size (.objects ht hsize (hnone ▸ .once)))).map _
    · rename_i o ho
      refine fulfils_bind (heval o (List.mem_of_getElem? ho)) fun v m₃ hv => ?_
      split
      · exact fulfils_fault_bind
      · rename_i hsymbolic
        obtain ⟨k, hk⟩ := exists_const?_of_not_isSymbolic hsymbolic
        refine fulfils_bind (onlyMeets_evalNat v) fun k' m₄ hk' => ?_
        obtain ⟨rfl, rfl⟩ := EStateM.Result.ok.inj ((evalNat_of_const? hk).symm.trans hk')
        exact (fulfils_allocate (hP _ (.objects ht hsize (ho ▸ .count hv hk)))).map _

omit heval in
/-- A hook gives what its body gives. -/
theorem fulfils_run {b : SandboxHook} {give : Value → Outcome}
    (hbody : Fulfils s A P give (SandboxHook.body s c b) m) : Fulfils s A P give (b.run s c) m := by
  unfold SandboxHook.run
  split
  · have hexpect : ∀ accepted, OnlyMeets s A (List Operand) (c.expect accepted) := by
      intro accepted
      unfold Call.expect
      split
      · exact onlyMeets_pure _
      · exact onlyMeets_fault _
    refine fulfils_bind (hexpect _) fun _ m₁ harity => ?_
    obtain rfl := of_expect harity
    exact hbody.guarded
  · exact hbody.guarded

/-- **A hook that is asked for storage** gives it. -/
theorem fulfils_of_requests {b : SandboxHook} {bits : Nat} (h : Requests s c m b bits)
    (hP : ∀ bits, Requests s c m b bits → P bits) : Fulfils s A P .returned (b.run s c) m := by
  apply fulfils_run
  cases h with
  | objects => exact fulfils_allocateObjects heval hP
  | unknown htyped ht hbits hne =>
    have h : Requests s c m .default bits := .unknown htyped ht hbits hne
    unfold SandboxHook.body
    rw [unknownResult_of_requests h]
    exact (fulfils_allocate (hP bits h)).map _

/-- **Hooks** give storage on request, and hand out none without. -/
theorem fulfils_or_onlyMeets {b : SandboxHook} (hP : ∀ bits, Requests s c m b bits → P bits) :
    Fulfils s A P .returned (b.run s c) m ∨
      OnlyMeets s A Outcome (b.run s c) ∧ ∀ bits, ¬ Requests s c m b bits := by
  by_cases hobjects : b = .mallocInSandbox
  · subst hobjects
    exact Or.inl (fulfils_run (fulfils_allocateObjects heval hP))
  · by_cases hasks : ∃ bits, Requests s c m b bits
    · obtain ⟨bits, h⟩ := hasks
      exact Or.inl (fulfils_of_requests heval h hP)
    · have hnone : ∀ bits, ¬ Requests s c m b bits := fun bits h => hasks ⟨bits, h⟩
      refine Or.inr ⟨operates_onlyMeets.sandbox onlyMeets_read c heval b ?_, hnone⟩
      rintro (h | rfl)
      · exact absurd h hobjects
      · exact onlyMeets_unknownResult hnone

end Granting

end Machine

end PathSafety
