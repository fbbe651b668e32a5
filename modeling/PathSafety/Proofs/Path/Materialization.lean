import PathSafety.Proofs.Path.Initializers

/-!
# Global variables come to be once

The first reference to a global variable sets storage apart and writes the initial value there, and so do the references
in this value for the variables that they are to. In between, variables have addresses and nothing in their storage yet.
So what holds of all variables at the end does not hold at every moment. It is said of what a whole action adds: the
names that it meets lie behind the storage from before, the names in their initial values have been met by its end, and
so have these values been written. Storage is handed out upwards and only once, so none of this is undone by what comes
later, unless the program stores something to a variable itself, or addresses run out.

Contents:

* `Machine.Lies`, `Machine.Holds` — where a variable lies, and what is there;
* `Machine.Materializes` — what an action adds;
* `Engine.StoresTo`, `Engine.Untouched` — instructions that store something to a variable, and paths without them;
* `Engine.MetBefore`, `Engine.MetBy` — the module through which a path has met a name;
* `Machine.Materialized`, `Engine.globals_materialize` — the variables that a path has met.
-/

namespace PathSafety

open IR Machine

namespace Machine

variable {s : Setting} {A : String → Nat → Prop} {W : String → Prop} {m m' m₁ m₂ m₃ : Machine}
  {i module depth bits x : Nat} {n name : String}
  {v : Value} {g : Global} {init : Operand}

/-! ## A variable in memory -/

/-- That a name lies at an address, as a module has it, and that the names in its initial value have been met. -/
structure Lies (s : Setting) (i : Nat) (n : String) (x : Nat) (m : Machine) : Prop where
  address : m.addresses.get? n = some (.ofNat s.pointerBits x)
  found : (s.project.globalIn? i n).isSome
  room : ∀ g, s.project.globalIn? i n = some (.data g) → x + max 1 (byteCount (storage s g)) < m.nextAddress
  refers : ∀ g init, s.project.globalIn? i n = some (.data g) → g.init = some init →
    ∀ r ∈ init.names s.project, ∃ v, m.addresses.get? r = some v

/-- That the bytes from an address on are those of the initial value of a name, which is what it evaluates to where the
names in it have the addresses that they have. -/
def Holds (s : Setting) (i : Nat) (n : String) (x : Nat) (m : Machine) : Prop :=
  ∀ g init, s.project.globalIn? i n = some (.data g) → g.init = some init →
    ∃ w : Value, s.project.layout.bits? g.ty = some w.width ∧
      (∀ k < byteCount w.width, ∃ c, m.memory.get? (x + k) = some c ∧ c.byte = w.byte k) ∧
        Rereads Value.Like (eval s i ∅ init) (init.names s.project) w m

/-- Where bytes are written that are those of a name. -/
def Hits (s : Setting) (m : Machine) (n : String) (b count : Nat) : Prop :=
  ∃ i g x k, s.project.globalIn? i n = some (.data g) ∧ m.addresses.get? n = some (.ofNat s.pointerBits x) ∧
    x < 2 ^ s.pointerBits ∧ k < max 1 (byteCount (storage s g)) ∧ b ≤ x + k ∧ x + k < b + count

/-- What is as wide as a variable has room in its storage. -/
theorem byteCount_le_storage {bits : Nat} (h : s.project.layout.bits? g.ty = some bits) :
    byteCount bits ≤ max 1 (byteCount (storage s g)) := by
  unfold storage
  rw [h, Option.getD_some]
  dsimp only
  split
  · rename_i hzero
    rw [hzero]
    exact Nat.zero_le _
  · exact Nat.le_max_right _ _

theorem Lies.later (h : Lies s i n x m) (hm : Grows s m m') : Lies s i n x m' where
  address := hm.addresses n _ h.address
  found := h.found
  room g hg := Nat.lt_of_lt_of_le (h.room g hg) hm.next
  refers g init hg hinit r hr := (h.refers g init hg hinit r hr).imp fun v hv => hm.addresses r v hv

/-- What is in the storage of a name stays, as far as memory does. -/
theorem Holds.later (h : Holds s i n x m) (hm : Grows s m m')
    (hcells : ∀ g, s.project.globalIn? i n = some (.data g) → ∀ k < max 1 (byteCount (storage s g)),
      ∀ c, m.memory.get? (x + k) = some c → m'.memory.get? (x + k) = some c) : Holds s i n x m' := by
  intro g init hg hinit
  obtain ⟨w, hw, hbytes, hagain⟩ := h g init hg hinit
  refine ⟨w, hw, fun k hk => ?_, hagain.later hm.addresses⟩
  obtain ⟨c, hc, hbyte⟩ := hbytes k hk
  exact ⟨c, hcells g hg k (Nat.lt_of_lt_of_le hk (byteCount_le_storage hw)) c hc, hbyte⟩

/-! ## What an action adds -/

/-- What an action adds to a machine: names are met as allowed, and lie behind the storage from before. The initial values
of those of which `W` says that nothing is stored to them are written, and stay, as long as addresses do not run out. -/
structure Materializes (s : Setting) (A : String → Nat → Prop) (W : String → Prop) (m m' : Machine) : Prop where
  grows : Grows s m m'
  lies : Placed s m → ∀ n v, m.addresses.get? n = none → m'.addresses.get? n = some v →
    ∃ i x, A n i ∧ m.nextAddress ≤ x ∧ Lies s i n x m' ∧ (W n → m'.nextAddress ≤ 2 ^ s.pointerBits → Holds s i n x m')
  holds : ∀ i n x, W n → m'.nextAddress ≤ 2 ^ s.pointerBits → Lies s i n x m → Holds s i n x m → Holds s i n x m'

/-- Meeting no names, and leaving alone the bytes that are there. -/
theorem Materializes.of_memory (hm : Grows s m m') (haddresses : m'.addresses = m.addresses)
    (hcells : ∀ x c, m.memory.get? x = some c → m'.memory.get? x = some c) : Materializes s A W m m' where
  grows := hm
  lies _ n v hnone hsome := by
    rw [haddresses, hnone] at hsome
    cases hsome
  holds _ _ _ _ _ _ h := h.later hm fun _ _ _ _ c hc => hcells _ c hc

theorem Materializes.trans (h₁ : Materializes s A W m₁ m₂) (h₂ : Materializes s A W m₂ m₃) : Materializes s A W m₁ m₃ where
  grows := h₁.grows.trans h₂.grows
  lies hm n v hnone hsome := by
    cases hmet : m₂.addresses.get? n with
    | none =>
      obtain ⟨i, x, hallowed, hle, hlies, hholds⟩ := h₂.lies (h₁.grows.placed hm) n v hmet hsome
      exact ⟨i, x, hallowed, Nat.le_trans h₁.grows.next hle, hlies, hholds⟩
    | some u =>
      obtain ⟨i, x, hallowed, hle, hlies, hholds⟩ := h₁.lies hm n u hnone hmet
      refine ⟨i, x, hallowed, hle, hlies.later h₂.grows, fun hn hroom => ?_⟩
      exact h₂.holds i n x hn hroom hlies (hholds hn (Nat.le_trans h₂.grows.next hroom))
  holds i n x hn hroom hlies h :=
    h₂.holds i n x hn hroom (hlies.later h₁.grows) (h₁.holds i n x hn (Nat.le_trans h₂.grows.next hroom) hlies h)

/-- Meeting a name of no initial value. -/
theorem materializes_entered (hallowed : A name module) (hname : m.addresses.get? name = none)
    (hfound : (s.project.globalIn? module name).isSome)
    (hroom : ∀ g, s.project.globalIn? module name = some (.data g) → bits = storage s g ∧ g.init = none) :
    Materializes s A W m (entered s m name bits) where
  grows := grows_entered hname
  lies _ n v hnone hsome := by
    obtain ⟨rfl, rfl⟩ := eq_of_entered hnone hsome
    refine ⟨module, m.nextAddress, hallowed, Nat.le_refl _, ⟨get?_entered_self, hfound, fun g hg => ?_, ?_⟩, ?_⟩
    · rw [← (hroom g hg).1]
      exact Nat.add_lt_add_left (lt_stride bits) _
    · intro g init hg hinit
      rw [(hroom g hg).2] at hinit
      cases hinit
    · intro _ _ g init hg hinit
      rw [(hroom g hg).2] at hinit
      cases hinit
  holds _ _ _ _ _ _ h := h.later (grows_entered hname) fun _ _ _ _ _ hc => hc

/-- Meeting a name of some initial value: evaluating it meets other names, which lie behind the storage of the name
itself, so that writing it leaves their initial values alone. -/
theorem materializes_initialized (hsupported : s.project.Supported) (hwidth : s.pointerBits ≠ 0) {w : Value}
    (hallowed : A name module) (hname : m.addresses.get? name = none)
    (hg : s.project.globalIn? module name = some (.data g)) (hinit : g.init = some init)
    (hw : evalWith s (addressWithin s depth) module ∅ init (entered s m name (storage s g)) = .ok w m₁)
    (h : Materializes s A W (entered s m name (storage s g)) m₁)
    (hwrite : write s (.ofNat s.pointerBits m.nextAddress) w m₁ = .ok () m') : Materializes s A W m m' := by
  obtain ⟨_, _, _, haddresses, hnext⟩ := exists_of_write hwrite
  have hgrows : Grows s m₁ m' := grows_of_write hwrite
  have hstride := lt_stride (storage s g)
  have hentered : (entered s m name (storage s g)).nextAddress = m.nextAddress + stride (storage s g) := rfl
  have hnext₁ := h.grows.next
  have hcells := cells_of_write (by omega) hwrite
  have hplaced : Placed s m → s.project.layout.bits? g.ty = some w.width ∧
      Rereads Value.Like (eval s module ∅ init) (init.names s.project) w m₁ := fun hm =>
    ((ends_evalWith (locates hsupported hwidth depth) hwidth (hsupported module name g init hg hinit)
      (placed_entered hm)).of_ok hw).2
  refine {
    grows := (grows_entered hname).trans (h.grows.trans hgrows)
    lies := fun hm n v hnone hsome => ?_
    holds := fun i n x hn hroom hlies hholds => ?_ }
  · obtain ⟨hbits, hagain⟩ := hplaced hm
    have hsize := byteCount_le_storage hbits
    rw [haddresses] at hsome
    cases hmet : (entered s m name (storage s g)).addresses.get? n with
    | some u =>
      -- the name itself
      obtain rfl := Option.some.inj ((h.grows.addresses n u hmet).symm.trans hsome)
      obtain ⟨rfl, rfl⟩ := eq_of_entered hnone hmet
      refine ⟨module, m.nextAddress, hallowed, Nat.le_refl _, ⟨haddresses ▸ hsome, hg ▸ rfl, ?_, ?_⟩, ?_⟩
      · intro g' hg'
        obtain rfl := GlobalValue.data.inj (Option.some.inj (hg.symm.trans hg'))
        omega
      · intro g' init' hg' hinit' r hr
        obtain rfl := GlobalValue.data.inj (Option.some.inj (hg.symm.trans hg'))
        obtain rfl := Option.some.inj (hinit.symm.trans hinit')
        exact haddresses ▸ hagain.met r hr
      · intro _ hroom g' init' hg' hinit'
        obtain rfl := GlobalValue.data.inj (Option.some.inj (hg.symm.trans hg'))
        obtain rfl := Option.some.inj (hinit.symm.trans hinit')
        exact ⟨w, hbits, (hcells hroom).1, hagain.later hgrows.addresses⟩
    | none =>
      -- another name, met in evaluating the initial value
      obtain ⟨i, x, hallowed', hle, hlies, hholds⟩ := h.lies (placed_entered hm) n v hmet hsome
      refine ⟨i, x, hallowed', by omega, hlies.later hgrows, fun hn hroom => ?_⟩
      exact (hholds hn (by omega)).later hgrows fun _ _ k _ c hc => ((hcells hroom).2 _ (by omega)).trans hc
  · -- a name from before lies before the storage of this one
    have hentered := h.holds i n x hn (by omega) (hlies.later (grows_entered hname))
      (hholds.later (grows_entered hname) fun _ _ _ _ _ hc => hc)
    refine hentered.later hgrows fun g' hg' k hk c hc => ?_
    have := hlies.room g' hg'
    exact ((hcells hroom).2 _ (by omega)).trans hc

/-- **Evaluating** adds such things. -/
theorem admits_materializes (hsupported : s.project.Supported) (hwidth : s.pointerBits ≠ 0)
    (A : String → Nat → Prop) (W : String → Prop) : Admits s A (Materializes s A W) where
  refl _ := .of_memory (.of_eq rfl rfl) rfl fun _ _ hc => hc
  trans := Materializes.trans
  ask _ _ := .of_memory (.of_eq rfl rfl) rfl fun _ _ hc => hc
  symbol _ := .of_memory (.of_eq rfl rfl) rfl fun _ _ hc => hc
  reserve m bits := .of_memory ((admits_grows s (A := A)).reserve m bits) rfl fun _ _ hc => hc
  bytes a n m v m' h := by
    cases h
    exact .of_memory (.of_eq rfl rfl) rfl fun _ _ hc => Memory.get?_load rfl hc
  meet depth module name m a m' hallowed hname heval h := by
    obtain ⟨rfl, ⟨f, hf, rfl⟩ | ⟨g, hg, ⟨hinit, rfl⟩ | ⟨init, w, m₁, hinit, hw, hwrite⟩⟩⟩ := cases_of_meet hname h
    · refine materializes_entered hallowed hname (Option.isSome_iff_exists.mpr ⟨_, hf⟩) fun g hg => ?_
      rw [hf] at hg
      cases hg
    · refine materializes_entered hallowed hname (Option.isSome_iff_exists.mpr ⟨_, hg⟩) fun g' hg' => ?_
      obtain rfl := GlobalValue.data.inj (Option.some.inj (hg.symm.trans hg'))
      exact ⟨rfl, hinit⟩
    · exact materializes_initialized hsupported hwidth hallowed hname hg hinit hw (heval g init hg hinit hw) hwrite

/-- The names that are met can be described in another way. -/
theorem Materializes.mono {B : String → Nat → Prop} (h : Materializes s A W m m')
    (hAB : ∀ n i v, m.addresses.get? n = none → m'.addresses.get? n = some v → A n i → B n i) :
    Materializes s B W m m' where
  grows := h.grows
  lies hm n v hnone hsome := by
    obtain ⟨i, x, hallowed, hrest⟩ := h.lies hm n v hnone hsome
    exact ⟨i, x, hAB n i v hnone hsome hallowed, hrest⟩
  holds := h.holds

/-- Writing elsewhere. -/
theorem materializes_of_write {address : Value} (h : write s address v m = .ok () m')
    (hW : ∀ n, W n → ∀ b, m.target? address = some b → ¬ Hits s m n b (byteCount v.width)) :
    Materializes s A W m m' := by
  obtain ⟨b, htarget, hmemory, haddresses, hnext⟩ := exists_of_write h
  have hgrows : Grows s m m' := grows_of_write h
  refine {
    grows := hgrows
    lies := fun _ n v hnone hsome => ?_
    holds := fun i n x hn hroom hlies hholds => ?_ }
  · rw [haddresses, hnone] at hsome
    cases hsome
  · refine hholds.later hgrows fun g hg k hk c hc => ?_
    have hlt := hlies.room g hg
    rw [hmemory, Memory.get?_store_of_not_mem]
    · exact hc
    · rintro ⟨hle, hin⟩
      exact hW n hn b htarget ⟨i, g, x, k, hg, hlies.address, by omega, hk, hle, hin⟩

/-! ## Distinct addresses -/

/-- That names have different addresses, as numbers. -/
def Spread (s : Setting) (m : Machine) : Prop :=
  ∃ base : String → Nat, ∀ n v, m.addresses.get? n = some v →
    v = .ofNat s.pointerBits (base n) ∧ base n < m.nextAddress ∧
      ∀ r u, m.addresses.get? r = some u → base n = base r → n = r

theorem spread_entered (hm : Spread s m) : Spread s (entered s m name bits) := by
  obtain ⟨base, hbase⟩ := hm
  have hold : ∀ n, name ≠ n → (entered s m name bits).addresses.get? n = m.addresses.get? n :=
    fun n hn => (get?_insert_name _ _ _ _).trans (if_neg hn)
  have hnext : m.nextAddress < (entered s m name bits).nextAddress :=
    Nat.lt_add_of_pos_right (Nat.lt_of_le_of_lt (Nat.zero_le _) (lt_stride bits))
  refine ⟨fun n => if name = n then m.nextAddress else base n, fun n v hv => ?_⟩
  dsimp only
  -- The new base lies past every old one, so it can equal none of them.
  by_cases hn : name = n
  · subst hn
    rw [if_pos rfl]
    refine ⟨(Option.some.inj (get?_entered_self.symm.trans hv)).symm, hnext, fun r u hr hsame => ?_⟩
    by_contra hne
    rw [if_neg hne] at hsame
    have := (hbase r u ((hold r hne).symm.trans hr)).2.1
    omega
  · rw [if_neg hn]
    obtain ⟨hv, hlt, hdistinct⟩ := hbase n v ((hold n hn).symm.trans hv)
    refine ⟨hv, Nat.lt_trans hlt hnext, fun r u hr hsame => ?_⟩
    by_cases hr' : name = r
    · rw [if_pos hr'] at hsame
      omega
    · rw [if_neg hr'] at hsame
      exact hdistinct r u ((hold r hr').symm.trans hr) hsame

theorem Spread.of_eq (h : Spread s m) (haddresses : m'.addresses = m.addresses)
    (hnext : m.nextAddress ≤ m'.nextAddress) : Spread s m' := by
  obtain ⟨base, hbase⟩ := h
  refine ⟨base, fun n v hn => ?_⟩
  rw [haddresses] at hn ⊢
  obtain ⟨hv, hlt, hdistinct⟩ := hbase n v hn
  exact ⟨hv, Nat.lt_of_lt_of_le hlt hnext, hdistinct⟩

theorem spread_of_write {address : Value} (h : write s address v m = .ok () m') (hm : Spread s m) : Spread s m' := by
  obtain ⟨_, _, _, haddresses, hnext⟩ := exists_of_write h
  exact hm.of_eq haddresses (Nat.le_of_eq hnext.symm)

theorem admits_spread (s : Setting) : Admits s A fun m m' => Spread s m → Spread s m' where
  refl _ h := h
  trans h₁ h₂ h := h₂ (h₁ h)
  ask _ _ h := h.of_eq rfl (Nat.le_refl _)
  symbol _ h := h.of_eq rfl (Nat.le_refl _)
  reserve _ _ h := h.of_eq rfl (Nat.le_add_right _ _)
  bytes a n m v m' h := by
    cases h
    exact fun h => h.of_eq rfl (Nat.le_refl _)
  meet depth module name m a m' _ hname heval h := by
    obtain ⟨_, ⟨_, _, rfl⟩ | ⟨g, hg, ⟨_, rfl⟩ | ⟨init, w, m₁, hinit, hw, hwrite⟩⟩⟩ := cases_of_meet hname h
    · exact spread_entered
    · exact spread_entered
    · exact fun hm => spread_of_write hwrite (heval g init hg hinit hw (spread_entered hm))

/-- Names have different addresses as long as addresses have not run out. -/
theorem Spread.eq_of_get? (h : Spread s m) (hroom : m.nextAddress ≤ 2 ^ s.pointerBits) {r : String}
    (hn : m.addresses.get? n = some v) (hr : m.addresses.get? r = some v) : n = r := by
  obtain ⟨base, hbase⟩ := h
  obtain ⟨rfl, hlt, hdistinct⟩ := hbase n v hn
  obtain ⟨hsame, hlt', _⟩ := hbase r _ hr
  refine hdistinct r _ hr ?_
  have hconst : (Value.ofNat s.pointerBits (base n)).const? = (Value.ofNat s.pointerBits (base r)).const? :=
    congrArg Value.const? hsame
  have hmod : base n % 2 ^ s.pointerBits = base r % 2 ^ s.pointerBits := Option.some.inj hconst
  rwa [Nat.mod_eq_of_lt (by omega), Nat.mod_eq_of_lt (by omega)] at hmod

/-! ## The variables that a machine has met -/

/-- That all names that a machine has met are in order, each seen in the module through which it was met: the names that
initial values lead to have been met as well, no two names have one address, and in the storage of each name of which
`W` says that nothing is stored to it there is its initial value, evaluated with the addresses of the machine. -/
structure Materialized (s : Setting) (W : String → Prop) (through : String → Nat) (m : Machine) : Prop where
  found : ∀ n v, m.addresses.get? n = some v → (s.project.globalIn? (through n) n).isSome
  reachable : ∀ n v, m.addresses.get? n = some v → ∀ r, Relation.ReflTransGen (s.project.Refers through) n r →
    ∃ u, m.addresses.get? r = some u
  distinct : m.nextAddress ≤ 2 ^ s.pointerBits → ∀ n r v, m.addresses.get? n = some v → m.addresses.get? r = some v →
    n = r
  holds : m.nextAddress ≤ 2 ^ s.pointerBits → ∀ n v g init, W n → m.addresses.get? n = some v →
    s.project.globalIn? (through n) n = some (.data g) → g.init = some init →
      ∃ (x : Nat) (w : Value), v = .ofNat s.pointerBits x ∧ s.project.layout.bits? g.ty = some w.width ∧
        x + byteCount w.width < 2 ^ s.pointerBits ∧
        (∀ k < byteCount w.width, read s (.ofNat s.pointerBits (x + k)) 8 m = .ok ⟨w.byte k⟩ m) ∧
        ∃ u m', eval s (through n) ∅ init m = .ok u m' ∧ m'.addresses = m.addresses ∧ w.Like u

/-- What is added to a machine that has met no names is in order. -/
theorem Materializes.exists_materialized (h : Materializes s A W m m') (hm : Placed s m)
    (hnone : ∀ n, m.addresses.get? n = none) (hspread : Spread s m') :
    ∃ through, (∀ n v, m'.addresses.get? n = some v → A n (through n)) ∧ Materialized s W through m' := by
  have hlies : ∀ n, ∃ i x, ∀ v, m'.addresses.get? n = some v → A n i ∧ m.nextAddress ≤ x ∧ Lies s i n x m' ∧
      (W n → m'.nextAddress ≤ 2 ^ s.pointerBits → Holds s i n x m') := by
    intro n
    cases hn : m'.addresses.get? n with
    | none => exact ⟨0, 0, nofun⟩
    | some v =>
      obtain ⟨i, x, hx⟩ := h.lies hm n v (hnone n) hn
      exact ⟨i, x, fun _ _ => hx⟩
  choose through base hlies using hlies
  refine ⟨through, fun n v hn => (hlies n v hn).1, fun n v hn => (hlies n v hn).2.2.1.found, fun n v hn r hr => ?_,
    fun hroom n r v hn hr => hspread.eq_of_get? hroom hn hr, fun hroom n v g init hW hn hg hinit => ?_⟩
  · -- one reference after another
    induction hr with
    | refl => exact ⟨v, hn⟩
    | tail _ hrefers ih =>
      obtain ⟨u, hu⟩ := ih
      obtain ⟨g, init, hg, hinit, hmem⟩ := hrefers
      exact (hlies _ u hu).2.2.1.refers g init hg hinit _ hmem
  · obtain ⟨_, hle, hlie, hholds⟩ := hlies n v hn
    obtain ⟨w, hw, hbytes, hagain⟩ := hholds hW hroom g init hg hinit
    have hlt := hlie.room g hg
    have hsize := byteCount_le_storage hw
    have hpos := hm.positive
    refine ⟨base n, w, Option.some.inj (hn.symm.trans hlie.address), hw, by omega, fun k hk => ?_, ?_⟩
    · exact read_of_forall (k := 1) (f := fun _ => w.byte k) (by omega) (by omega) fun j hj => by
        obtain rfl : j = 0 := by omega
        exact hbytes k hk
    · exact hagain.again m' (extends_refl m')

end Machine

/-! ## Paths -/

namespace Engine

variable {p : Project} {e : Engine p} {st st' st₀ : State p} {start : Start p} {W : String → Prop}

/-- That the next instruction of a path stores something to a name that has been met. -/
def StoresTo (e : Engine p) (st : State p) (n : String) : Prop :=
  ∃ site m₀ address v m b, e.Starts st site m₀ ∧ e.Writes site m₀ address v m ∧ m.target? address = some b ∧
    Hits e.setting m n b (byteCount v.width)

/-- The states that come up in exploring a state as long as nothing is stored to some names. -/
inductive Untouched (e : Engine p) (W : String → Prop) (st : State p) : State p → Prop
  | refl : Untouched e W st st
  | proceed {st₁ st₂ : State p} (rest : Untouched e W st st₁) (hW : ∀ n, W n → ¬ e.StoresTo st₁ n)
    (h : e.step st₁ = .proceed st₂) : Untouched e W st st₂
  | enter {st₁ st₂ : State p} {a b : Arrival p} {others : List (Arrival p)} (rest : Untouched e W st st₁)
    (hW : ∀ n, W n → ¬ e.StoresTo st₁ n) (h : e.step st₁ = .arrive a others) (hb : b ∈ a :: others)
    (hin : b.enter e.loopBound = .ok st₂) : Untouched e W st st₂

theorem Untouched.reaches (h : e.Untouched W st₀ st) : e.Reaches st₀ st := by
  induction h with
  | refl => exact .refl
  | proceed _ _ h ih => exact .proceed ih h
  | enter _ _ h hb hin ih => exact .enter ih h hb hin

/-- Every path leaves no names alone. -/
theorem untouched_of_reaches (h : e.Reaches st₀ st) : e.Untouched (fun _ => False) st₀ st := by
  induction h with
  | refl => exact .refl
  | proceed _ h ih => exact .proceed ih (fun _ => False.elim) h
  | enter _ h hb hin ih => exact .enter ih (fun _ => False.elim) h hb hin

/-- **A step** adds such things unless it stores to one of the names. It meets names as its instruction leads to them. -/
theorem materializes_of_next (hbuiltin : e.BuiltIn) (hsupported : p.Supported) (hwidth : e.setting.pointerBits ≠ 0)
    (hW : ∀ n, W n → ¬ e.StoresTo st n) (h : e.Next st st') :
    Materializes e.setting st.LeadsTo W st.machine st'.machine := by
  have hR : Admits e.setting st.LeadsTo (Materializes e.setting st.LeadsTo W) := admits_materializes hsupported hwidth _ W
  refine keeps_next hR (fun m c => .of_memory (.of_eq rfl rfl) rfl fun _ _ hc => hc) hbuiltin ?_ h
  intro site m₀ hstarts address v m hw m' hwrite
  exact materializes_of_write hwrite fun n hn b htarget hhits =>
    hW n hn ⟨site, m₀, address, v, m, b, hstarts, hw, htarget, hhits⟩

/-- That a name has got its address from an instruction of the path to a state, which leads to the name as the module `i`
has it. -/
def MetBefore (e : Engine p) (st₀ st : State p) (n : String) (i : Nat) : Prop :=
  ∃ st₁ st₂, e.Reaches st₀ st₁ ∧ st₁.machine.addresses.get? n = none ∧ e.Next st₁ st₂ ∧
    (st₂.machine.addresses.get? n).isSome = true ∧ e.Reaches st₂ st ∧ st₁.LeadsTo n i

/-- That a name has got its address like this, or has none yet and a reference to the name `r` leads to it. -/
def MetBy (e : Engine p) (st₀ st : State p) (module : Nat) (r n : String) (i : Nat) : Prop :=
  e.MetBefore st₀ st n i ∨ st.machine.addresses.get? n = none ∧ (Operand.global r).LeadsTo p module n i

/-- What a path adds that stores nothing to the names. -/
theorem materializes_of_untouched (hbuiltin : e.BuiltIn) (hsupported : p.Supported)
    (hwidth : e.setting.pointerBits ≠ 0) (h : e.Untouched W st₀ st) :
    Materializes e.setting (e.MetBefore st₀ st) W st₀.machine st.machine := by
  have hstep : ∀ {st st' : State p}, e.Untouched W st₀ st → (∀ n, W n → ¬ e.StoresTo st n) → e.Next st st' →
      Materializes e.setting (e.MetBefore st₀ st) W st₀.machine st.machine →
        Materializes e.setting (e.MetBefore st₀ st') W st₀.machine st'.machine := by
    intro st st' hreaches hW hnext hst
    refine Materializes.trans (hst.mono fun n i v _ _ hi => ?_) <|
      (materializes_of_next hbuiltin hsupported hwidth hW hnext).mono fun n i v hnone hsome hleads => ?_
    · obtain ⟨st₁, st₂, hst₁, hnone, hnext', hsome, hst₂, hleads⟩ := hi
      exact ⟨st₁, st₂, hst₁, hnone, hnext', hsome, hst₂.next hnext, hleads⟩
    · exact ⟨st, st', hreaches.reaches, hnone, hnext, hsome ▸ rfl, .refl, hleads⟩
  induction h with
  | refl => exact (admits_materializes hsupported hwidth _ W).refl _
  | proceed rest hW h ih => exact hstep rest hW (.proceed h) ih
  | enter rest hW h hb hin ih => exact hstep rest hW (.enter h hb hin) ih

/-- Projects that are explored have pointers of some bits. -/
theorem pointerBits_ne_zero_of_start {f : String} (h : Start.of p f = .ok start) : e.setting.pointerBits ≠ 0 := by
  intro hzero
  have hmachine : (Setting.mk p true).hasMachine = false := by
    have hzero : p.layout.pointerBits = 0 := hzero
    unfold Setting.hasMachine Setting.pointerBits
    rw [hzero]
    rfl
  unfold Start.of at h
  split at h
  · cases h
  · rw [hmachine] at h
    split at h <;> cases h

/-- **Global variables come to be once.** On every path, whatever the initial values refer to, and be it in cycles:

* a reference to a global name comes to an end, with an address unless addresses have run out;
* afterwards all names that initial values lead to have been met, at addresses that differ, and at the address of a
  variable to which the path has stored nothing there is its initial value, evaluated with these addresses; each name is
  seen in a module through which the path has met it, or through which the reference does;
* on all paths that the state leads to, references to the names that it has met have the same addresses. -/
theorem globals_materialize (hbuiltin : e.BuiltIn) (hsupported : p.Supported) {f : String}
    (hstart : Start.of p f = .ok start) (hfirst : start.first.enter e.loopBound = .ok st₀)
    (hreaches : e.Reaches st₀ st) :
    (∀ module n, (p.globalIn? module n).isSome →
      (∃ v m, address e.setting module n st.machine = .ok v m) ∨
        ∃ f m, address e.setting module n st.machine = .error (.fault f) m ∧
          2 ^ e.setting.pointerBits < m.nextAddress) ∧
    (∀ module n v m, address e.setting module n st.machine = .ok v m →
      m.addresses.get? n = some v ∧ Extends st.machine m ∧
        (∃ through, (∀ r u, m.addresses.get? r = some u → e.MetBy st₀ st module n r (through r)) ∧
          Materialized e.setting (fun _ => False) through m) ∧
        ∀ W, e.Untouched W st₀ st →
          ∃ through, (∀ r u, m.addresses.get? r = some u → e.MetBy st₀ st module n r (through r)) ∧
            Materialized e.setting W through m) ∧
    ∀ st', e.Reaches st st' → ∀ n v, st.machine.addresses.get? n = some v →
      ∀ module, address e.setting module n st'.machine = .ok v st'.machine := by
  have hwidth : e.setting.pointerBits ≠ 0 := pointerBits_ne_zero_of_start hstart
  have hplaced := placed_of_reaches hbuiltin hstart hfirst hreaches
  obtain ⟨haddresses, -⟩ : st₀.machine.addresses = ∅ ∧ st₀.machine.nextAddress = allocationBase := by
    obtain rfl := Arrival.eq_of_enter hfirst
    exact machine_of_start hstart
  have hnone : ∀ n, st₀.machine.addresses.get? n = none := fun n => by
    rw [haddresses]
    rfl
  -- Nothing is met at the start, so the bases are spread vacuously; every later meeting keeps them
  -- apart.
  have hspread : Spread e.setting st₀.machine := ⟨fun _ => 0, fun n v hn => by
    rw [hnone] at hn
    cases hn⟩
  have hafter : ∀ W, e.Untouched W st₀ st → ∀ module n v m, address e.setting module n st.machine = .ok v m →
      ∃ through, (∀ r u, m.addresses.get? r = some u → e.MetBy st₀ st module n r (through r)) ∧
        Materialized e.setting W through m := fun W hW module n v m h => by
    have hm := materializes_of_untouched hbuiltin hsupported hwidth hW
    have hreference := keeps_addressWithin (admits_materializes hsupported hwidth _ W)
      ((Operand.global n).followsInitials_leadsTo p module) _ (.refers (.name List.mem_cons_self)) h
    -- a name is met on the path, or else by the reference
    have hmet : Materializes e.setting (e.MetBy st₀ st module n) W st₀.machine m :=
      (hm.mono fun _ _ _ _ _ => Or.inl).trans (hreference.mono fun _ _ _ hnone _ hleads => Or.inr ⟨hnone, hleads⟩)
    refine hmet.exists_materialized (placed_of_reaches hbuiltin hstart hfirst .refl) hnone ?_
    refine (admits_spread e.setting).anyAddress _ module n h ?_
    exact keeps_reaches (R := fun m m' => Spread e.setting m → Spread e.setting m') (fun _ h => h)
      (fun h₁ h₂ h => h₂ (h₁ h)) (keeps_next (admits_spread e.setting) (fun _ _ h => h.of_eq rfl (Nat.le_refl _)) hbuiltin
        fun _ _ _ _ _ _ _ _ => spread_of_write) hreaches hspread
  refine ⟨fun module n hn => address_cases hsupported hwidth hplaced hn, fun module n v m h => ?_,
    fun st' hst' n v hn module => address_of_met ((precedes_of_reaches hbuiltin hst').addresses n v hn)⟩
  refine ⟨get?_of_addressWithin h, ((admits_precedes e.setting).anyAddress _ module n h).addresses, ?_,
    fun W hW => hafter W hW module n v m h⟩
  exact hafter _ (untouched_of_reaches hreaches) module n v m h

end Engine

/-! ### Variables that refer to one another -/

namespace Circular

/-- The initial value of a variable `a`: the addresses of another variable, of a function and of an element of `a`. -/
def initial : Operand :=
  .constant (.array 3 (.ptrTo (.int 8) 0)) (.elements [.global "b", .global "main", .constant (.ptrTo (.int 8) 0)
    (.expression "bitcast (i8** getelementptr ([3 x i8*], [3 x i8*]* @\"a\", i64 0, i64 1) to i8*)")])

/-- The other variable holds the address of `a`. -/
def declared : Module :=
  ⟨[⟨"a", .array 3 (.ptrTo (.int 8) 0), some initial⟩, ⟨"b", .ptrTo (.int 8) 0, some (.global "a")⟩],
    [⟨"main", .void, [], false, [⟨"entry", [⟨"", .ret none⟩]⟩]⟩]⟩

def project : Project := (Project.ofModules? [declared] ⟨[], 64⟩).get rfl

/-- Paths of the project without any hooks or monitors. -/
def engine : Engine project := {}

theorem builtIn_engine : engine.BuiltIn where
  byName _ _ h := nomatch h
  default _ h := nomatch h
  monitors _ h := absurd h List.not_mem_nil

theorem eq_zero_of_globalIn? {module : Nat} {n : String} (h : (project.globalIn? module n).isSome) : module = 0 := by
  cases module with
  | zero => rfl
  | succ module => cases h

theorem supported_project : project.Supported := by
  intro module n g init hg hinit
  obtain rfl := eq_zero_of_globalIn? (Option.isSome_iff_exists.mpr ⟨_, hg⟩)
  have hmem : g ∈ declared.globals := (Module.mem_of_global? (m := declared.number) hg).1
  rcases List.mem_cons.mp hmem with rfl | hmem
  · obtain rfl := Option.some.inj hinit
    refine ⟨rfl, 192, rfl, List.cons_ne_nil _ _, _, _, rfl, ⟨rfl, rfl⟩, _, _, rfl, ⟨rfl, rfl⟩, _, _, rfl, ?_, rfl⟩
    exact ⟨rfl, 64, rfl, by decide, by decide +kernel, by decide +kernel⟩
  · obtain rfl := List.mem_singleton.mp hmem
    obtain rfl := Option.some.inj hinit
    exact ⟨rfl, rfl⟩

/-- Whether an action gives a result while there are addresses left. -/
def finds : EStateM.Result Failure Machine Value → Bool
  | .ok _ m => m.nextAddress ≤ 2 ^ 64
  | .error .. => false

end Circular

namespace Engine

open Circular in
/-- Both variables are met, lie at different addresses, and the second one holds the address of the first. -/
theorem globals_materialize_circular : ∃ start st₀ v w m y, Start.of project "main" = .ok start ∧
    start.first.enter engine.loopBound = .ok st₀ ∧ address engine.setting 0 "a" st₀.machine = .ok v m ∧
      m.addresses.get? "b" = some w ∧ v ≠ w ∧ w = .ofNat 64 y ∧
        ∀ k < 8, read engine.setting (.ofNat 64 (y + k)) 8 m = .ok ⟨v.byte k⟩ m := by
  obtain ⟨start, hstart⟩ : ∃ start, Start.of project "main" = .ok start := ⟨_, rfl⟩
  obtain ⟨st₀, hfirst⟩ : ∃ st₀, start.first.enter engine.loopBound = .ok st₀ := by
    cases hstart
    exact ⟨_, rfl⟩
  have hfinds : finds (address engine.setting 0 "a" st₀.machine) = true := by
    cases hstart
    cases hfirst
    decide +kernel
  obtain ⟨_, hafter, _⟩ := globals_materialize builtIn_engine supported_project hstart hfirst .refl
  cases h : address engine.setting 0 "a" st₀.machine with
  | error f m =>
    rw [h] at hfinds
    cases hfinds
  | ok v m =>
    rw [h] at hfinds
    have hroom : m.nextAddress ≤ 2 ^ 64 := of_decide_eq_true hfinds
    obtain ⟨hv, _, _, hW⟩ := hafter 0 "a" v m h
    obtain ⟨through, _, hm⟩ := hW (fun _ => True) .refl
    have ha := eq_zero_of_globalIn? (hm.found "a" v hv)
    have hrefers : project.Refers through "a" "b" := by
      unfold Project.Refers
      rw [ha]
      exact ⟨_, initial, rfl, rfl, by decide +kernel⟩
    obtain ⟨w, hw⟩ := hm.reachable "a" v hv "b" (.single hrefers)
    have hb := eq_zero_of_globalIn? (hm.found "b" w hw)
    have hglobal : project.globalIn? (through "b") "b" = some (.data ⟨"b", .ptrTo (.int 8) 0, some (.global "a")⟩) := by
      rw [hb]
      rfl
    obtain ⟨y, c, rfl, hwidth, _, hbytes, u, m', hu, _, hlike⟩ := hm.holds hroom "b" w _ _ trivial hw hglobal rfl
    -- the initial value of the second variable is a reference to the first
    have haddress : eval engine.setting (through "b") ∅ (.global "a") m = .ok v m := by
      unfold eval evalWith
      exact address_of_met hv
    obtain ⟨rfl, _⟩ := EStateM.Result.ok.inj (haddress.symm.trans hu)
    obtain ⟨⟨x, hx⟩, _⟩ := exists_of_addressWithin (placed_of_reaches builtIn_engine hstart hfirst .refl) h
    obtain rfl := hlike.eq_of_isSymbolic (hx ▸ rfl)
    have hwidth : c.width = 64 := (Option.some.inj hwidth).symm
    refine ⟨start, st₀, c, _, m, y, hstart, hfirst, h, hw, fun hsame => ?_, rfl, fun k hk => hbytes k ?_⟩
    · rw [hsame] at hv
      exact absurd (hm.distinct hroom "a" "b" _ hv hw) (by decide)
    · rw [hwidth]
      exact hk

end Engine

end PathSafety
