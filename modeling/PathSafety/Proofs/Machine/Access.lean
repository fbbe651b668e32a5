import PathSafety.Proofs.Machine.Sound

/-!
# Reading and writing mean what they mean in a run

An address with several possible values is read at all of them as long as these lie close together, and
written at one of them. So a read gives, for every input, the word that the run reads, if it leaves no bytes
out; and a write does what the run does if its address has one possible value only.

Contents:

* `Input.Meets`, `Machine.Asked`, `Machine.Touched` — conditions of inputs, and what accesses do to a machine;
* `does_checkNull` — the check for null pointers;
* `Machine.wholeReads`, `does_readAny`, `does_read` — reading;
* `does_write` — writing.
-/

namespace PathSafety

open IR

/-- That conditions hold for an input. -/
def Input.Meets (i : Input) (cs : List Cond) : Prop := ∀ c ∈ cs, c.meaning i.reading = 1#1

instance (i : Input) (cs : List Cond) : Decidable (i.Meets cs) :=
  inferInstanceAs (Decidable (∀ c ∈ cs, c.meaning i.reading = 1#1))

theorem Input.meets_cons {i : Input} {c : Cond} {cs : List Cond} :
    i.Meets (c :: cs) ↔ c.meaning i.reading = 1#1 ∧ i.Meets cs := List.forall_mem_cons

namespace Machine

variable {s : Setting} {T T₁ T₂ : Table} {m m₁ m₂ : Machine} {D : Prop} {R : Nat → Prop} {a : Value}

theorem meets_iff {cs : List Cond} (h : ∀ c ∈ cs, c.Known T) (i : Input) :
    i.Meets cs ↔ Term.AllHold (i.valuation T) cs := by
  constructor
  · intro hi c hc
    rw [Term.Holds, ← (h c hc).meaning_eq i]
    exact hi c hc
  · intro hi c hc
    rw [(h c hc).meaning_eq i]
    exact hi c hc

/-- What a value is for an input that meets the condition is a possible value. -/
theorem Sound.possible (hm : Sound s T m) (ha : a.Known T) {i : Input} (hi : i.Meets m.condition.conds) :
    m.condition.Possible a.term (a.word i).toNat :=
  ⟨i.valuation T, (meets_iff hm.conds i).mp hi, congrArg BitVec.toNat (ha.meaning_eq i).symm⟩

/-! ## What accesses do -/

/-- That a machine was asked about its condition, and nothing else. -/
def Asked (m m' : Machine) : Prop :=
  ∃ q : PathCondition, q.conds = m.condition.conds ∧ m' = { m with condition := q }

theorem Asked.conds (h : Asked m m₁) : m₁.condition.conds = m.condition.conds := by
  obtain ⟨q, hq, rfl⟩ := h
  exact hq

theorem Asked.refl (m : Machine) : Asked m m := ⟨m.condition, rfl, rfl⟩

theorem Asked.trans (h₁ : Asked m m₁) (h₂ : Asked m₁ m₂) : Asked m m₂ := by
  obtain ⟨q₁, hq₁, rfl⟩ := h₁
  obtain ⟨q₂, hq₂, rfl⟩ := h₂
  exact ⟨q₂, hq₂.trans hq₁, rfl⟩

theorem Asked.memory (h : Asked m m₁) : m₁.memory = m.memory := by
  obtain ⟨q, _, rfl⟩ := h
  rfl

theorem Asked.sound (h : Asked m m₁) (hm : Sound s T m) : Sound s T m₁ := by
  obtain ⟨q, hq, rfl⟩ := h
  exact {
    symbols := hm.symbols
    conds := by
      rw [hq]
      exact hm.conds
    feasible := by
      unfold PathCondition.Feasible
      rw [hq]
      exact hm.feasible
    known := hm.known
    apart := hm.apart
    positive := hm.positive
    laid := hm.laid.imp fun _ h => ⟨h.eq, h.le, h.apart⟩ }

theorem Asked.quiet (h : Asked m m₁) (hm : Sound s T m) : Quiet s T m m₁ := by
  have hsound := h.sound hm
  obtain ⟨q, hq, rfl⟩ := h
  exact {
    sound := hsound
    conds := hq
    addresses := fun _ _ hn => hn
    next := Nat.le_refl _
    stored := fun _ hx => hx
    initialized := by
      intro n v g hnone hsome
      rw [hnone] at hsome
      cases hsome
    bytes := fun _ _ _ _ _ => rfl }

theorem Asked.possible (h : Asked m m₁) {w : Nat} {t : Term w} {n : Nat} :
    m₁.condition.Possible t n ↔ m.condition.Possible t n := by
  unfold PathCondition.Possible
  rw [h.conds]

/-- What accesses do to a machine: symbols are made of bytes that were unknown, all of them with property
`R`. -/
structure Touched (s : Setting) (R : Nat → Prop) (T : Table) (m : Machine) (T' : Table) (m' : Machine) :
    Prop where
  sound : Sound s T' m'
  meets : ∀ i : Input, i.Meets m'.condition.conds ↔ i.Meets m.condition.conds
  addresses : m'.addresses = m.addresses
  next : m'.nextAddress = m.nextAddress
  stored : ∀ x, m.memory.get? x ≠ none → m'.memory.get? x ≠ none
  table : ∃ new, T' = T ++ new ∧ ∀ o ∈ new, ∃ b j, o = .memory b j ∧
    ∀ x, b ≤ x → x < b + j → m.memory.get? x = none ∧ R x

theorem Asked.touched (h : Asked m m₁) (hm : Sound s T m) : Touched s R T m T m₁ := by
  have hsound := h.sound hm
  obtain ⟨q, hq, rfl⟩ := h
  exact {
    sound := hsound
    meets := fun i => by rw [hq]
    addresses := rfl
    next := rfl
    stored := fun _ hx => hx
    table := ⟨[], (List.append_nil T).symm, fun _ ho => absurd ho List.not_mem_nil⟩ }

theorem Touched.trans (h₁ : Touched s R T m T₁ m₁) (h₂ : Touched s R T₁ m₁ T₂ m₂) :
    Touched s R T m T₂ m₂ where
  sound := h₂.sound
  meets i := (h₂.meets i).trans (h₁.meets i)
  addresses := h₂.addresses.trans h₁.addresses
  next := h₂.next.trans h₁.next
  stored x hx := h₂.stored x (h₁.stored x hx)
  table := by
    obtain ⟨new₁, rfl, hnew₁⟩ := h₁.table
    obtain ⟨new₂, rfl, hnew₂⟩ := h₂.table
    refine ⟨new₁ ++ new₂, List.append_assoc T new₁ new₂, fun o ho => ?_⟩
    rcases List.mem_append.mp ho with ho | ho
    · exact hnew₁ o ho
    · obtain ⟨b, j, rfl, hx⟩ := hnew₂ o ho
      refine ⟨b, j, rfl, fun x h1 h2 => ⟨?_, (hx x h1 h2).2⟩⟩
      cases hget : m.memory.get? x with
      | none => rfl
      | some c => exact absurd (hx x h1 h2).1 (h₁.stored x (by rw [hget]; exact Option.some_ne_none c))

theorem Touched.weaken {R' : Nat → Prop} (h : Touched s R T m T₁ m₁) (hR : ∀ x, R x → R' x) :
    Touched s R' T m T₁ m₁ where
  sound := h.sound
  meets := h.meets
  addresses := h.addresses
  next := h.next
  stored := h.stored
  table := by
    obtain ⟨new, hnew, ho⟩ := h.table
    refine ⟨new, hnew, fun o hmem => ?_⟩
    obtain ⟨b, j, heq, hx⟩ := ho o hmem
    exact ⟨b, j, heq, fun x h1 h2 => ⟨(hx x h1 h2).1, hR x (hx x h1 h2).2⟩⟩

/-! ## The check for null pointers -/

theorem does_sat {E : Fault → Machine → Prop} (c : Cond) :
    Does D (sat [c]) m
      (fun b m' => Asked m m' ∧ (b = true ↔ ∃ ν, Term.AllHold ν m.condition.conds ∧ c.Holds ν)) E :=
  show _ ∧ _ from ⟨⟨_, PathCondition.conds_sat _, rfl⟩, PathCondition.sat_iff⟩

/-- How a machine is left by a null pointer. -/
structure NullFault (s : Setting) (a : Value) (m : Machine) (f : Fault) (m' : Machine) : Prop where
  violation : f.violation? = some .nullDereference
  asked : Asked m m'
  checking : s.nullChecking = true
  holds : ∃ ν, Term.AllHold ν m.condition.conds ∧ (a.equals 0).Holds ν

/-- That an address is not null for the inputs that meet a condition, if that is checked. -/
def NotNull (s : Setting) (a : Value) (m : Machine) : Prop :=
  s.nullChecking = true → ∀ i : Input, i.Meets m.condition.conds → (a.word i).toNat ≠ 0

/-- The check for null pointers passes addresses that are not null. -/
theorem does_checkNull (hm : Sound s T m) (ha : a.Known T) :
    Does D (checkNull s a) m (fun _ m' => Asked m m' ∧ NotNull s a m) (NullFault s a m) := by
  have hrefl : Asked m m := ⟨m.condition, rfl, rfl⟩
  unfold checkNull
  by_cases hs : s.nullChecking = true
  · rw [if_pos hs]
    refine does_bind ((does_sat (a.equals 0)).mono ?_ fun _ _ h => h)
    rintro b m₁ ⟨hasked, hb⟩
    cases b with
    | true => exact does_fault ⟨rfl, hasked, hs, hb.mp rfl⟩
    | false =>
      refine does_pure ⟨hasked, fun _ i hi hzero => ?_⟩
      refine Bool.false_ne_true (hb.mpr ⟨i.valuation T, (meets_iff hm.conds i).mp hi, ?_⟩)
      rw [Term.Holds, ← (Value.known_equals ha 0).meaning_eq i]
      exact (Value.meaning_equals (Nat.two_pow_pos _)).mpr hzero
  · rw [if_neg hs]
    exact does_pure ⟨hrefl, fun h => absurd h hs⟩

/-! ## Reading -/

/-- Whether reads of `n` bytes at some addresses, one after another, leave no bytes out. -/
def wholeReads (n : Nat) : List Nat → Memory → Nat → Bool
  | [], _, _ => true
  | a :: as, memory, supply =>
    let (v, memory, supply) := memory.load supply a n
    v.width == 8 * n && wholeReads n as memory supply

/-- What reading `n` bytes at an address that is in a list gives. -/
structure Found (s : Setting) (a : Value) (n : Nat) (l : List Nat) (T : Table) (m : Machine) (v : Value)
    (T' : Table) (m' : Machine) : Prop where
  touched : Touched s (fun x => ∃ b ∈ l, b ≤ x ∧ x < b + n) T m T' m'
  condition : m'.condition = m.condition
  bytes : ∀ i, m'.memory.byteAt i = m.memory.byteAt i
  width : v.width = 8 * n
  known : v.Known T'
  word : ∀ i, (a.word i).toNat ∈ l → v.word i = Word.load (m.memory.byteAt i) (a.word i).toNat (8 * n)

theorem does_readBytes {b n : Nat} {E : Fault → Machine → Prop} (hm : Sound s T m)
    (hwhole : (m.memory.load m.nextSymbol b n).1.width = 8 * n) :
    Does D (readBytes b n) m
      (fun v m' => (∃ T', Found s a n [b] T m v T' m') ∧
        m' = { m with
          memory := (m.memory.load m.nextSymbol b n).2.1
          nextSymbol := (m.memory.load m.nextSymbol b n).2.2 }) E := by
  rw [hm.symbols] at hwhole ⊢
  have hload : m.memory.load T.length b n = ((m.memory.load T.length b n).1,
      (m.memory.load T.length b n).2.1, (m.memory.load T.length b n).2.2) := rfl
  obtain ⟨T', hfilled, hsupply, hknown, hword⟩ := Memory.load_spec hm.known hm.apart hload
  have hrun : readBytes b n m = .ok (m.memory.load T.length b n).1
      { m with
        memory := (m.memory.load T.length b n).2.1
        nextSymbol := (m.memory.load T.length b n).2.2 } := by
    rw [← hm.symbols]
    rfl
  obtain ⟨new, hnew, hout⟩ := hfilled.fresh
  unfold Does
  rw [hrun]
  refine ⟨⟨T', ?_, rfl, hfilled.byteAt, hwhole, hknown, fun i hmem => ?_⟩, rfl⟩
  -- A load stores only the symbols it makes up, so conditions and addresses carry over as they are.
  · exact {
      sound := {
        symbols := hsupply
        conds := fun c hc => by
          rw [hnew]
          exact (hm.conds c hc).append new
        feasible := hm.feasible
        known := hfilled.known
        apart := hfilled.apart
        positive := hm.positive
        laid := hm.laid.imp fun _ h => ⟨h.eq, h.le, h.apart⟩ }
      meets := fun _ => Iff.rfl
      addresses := rfl
      next := rfl
      stored := hfilled.stored
      table := by
        refine ⟨new, hnew, fun o ho => ?_⟩
        obtain ⟨c, j, rfl, hc, hj, hx⟩ := hout o ho
        refine ⟨c, j, rfl, fun x h1 h2 => ⟨hx x h1 h2, b, List.mem_singleton_self b, by omega, by omega⟩⟩ }
  · rw [List.mem_singleton.mp hmem]
    exact hword hwhole i

theorem Touched.known (h : Touched s R T m T₁ m₁) {v : Value} (hv : v.Known T) : v.Known T₁ := by
  obtain ⟨new, rfl, _⟩ := h.table
  exact hv.append new

/-- Reading at each of several addresses gives what is at the one that the address is. -/
theorem does_readAny {first : Nat} {others : List Nat} {n : Nat} {E : Fault → Machine → Prop}
    (hm : Sound s T m) (ha : a.Known T) (hlt : ∀ b ∈ first :: others, b < 2 ^ a.width)
    (hwhole : wholeReads n (first :: others) m.memory m.nextSymbol = true) :
    Does D (readAny a n first others) m (fun v m' => ∃ T', Found s a n (first :: others) T m v T' m') E := by
  -- On the addresses still to be tried: each reading may add symbols, so table and memory change
  -- under the induction.
  induction others generalizing first T m with
  | nil =>
    unfold wholeReads at hwhole
    simp only [Bool.and_eq_true, beq_iff_eq] at hwhole
    exact (does_readBytes hm hwhole.1).mono (fun _ _ h => h.1) fun _ _ h => h
  | cons b others ih =>
    unfold wholeReads at hwhole
    simp only [Bool.and_eq_true, beq_iff_eq] at hwhole
    unfold readAny
    refine does_bind ((does_readBytes (a := a) hm hwhole.1).mono ?_ fun _ _ h => h)
    rintro v m₁ ⟨⟨T₁, h₁⟩, rfl⟩
    refine does_bind ((ih h₁.touched.sound (h₁.touched.known ha)
      (fun c hc => hlt c (List.mem_cons_of_mem _ hc)) hwhole.2).mono ?_ fun _ _ h => h)
    rintro rest m₂ ⟨T₂, h₂⟩
    obtain ⟨r, hr, hwidth, hknown, hword⟩ := Value.exists_ite (T := T₂) (c := a.equals first)
      (h₂.width.trans h₁.width.symm)
    refine does_valueOr hr ⟨T₂, ?_⟩
    exact {
      touched := (h₁.touched.weaken fun x ⟨c, hc, hx⟩ => ⟨c, by
        rw [List.mem_singleton.mp hc]
        exact List.mem_cons_self, hx⟩).trans
          (h₂.touched.weaken fun x ⟨c, hc, hx⟩ => ⟨c, List.mem_cons_of_mem _ hc, hx⟩)
      condition := h₂.condition.trans h₁.condition
      bytes := fun i => (h₂.bytes i).trans (h₁.bytes i)
      width := hwidth.trans h₁.width
      known := hknown (Value.known_equals (h₂.touched.known (h₁.touched.known ha)) first)
        (h₂.touched.known h₁.known) h₂.known
      word := by
        intro i hi
        -- The guard of the choice is equality with the first address, which is what tells the two
        -- readings apart.
        have hequals := Value.meaning_equals (hlt first List.mem_cons_self) (ρ := i.reading)
        rw [hword i]
        by_cases hfirst : (a.word i).toNat = first
        · rw [if_pos (hequals.mpr hfirst)]
          exact h₁.word i (by rw [hfirst]; exact List.mem_singleton_self first)
        · rw [if_neg (mt hequals.mp hfirst), h₂.word i ((List.mem_cons.mp hi).resolve_left hfirst), h₁.bytes i] }

/-- That the possible values of an address lie so close together that a read goes through all of them. -/
def Near (a : Value) (m : Machine) : Prop :=
  ∀ x y, m.condition.Possible a.term x → m.condition.Possible a.term y → y - x ≤ readSpan

/-- That reading `n` bytes at the possible values of an address, in order, leaves no bytes out. -/
def Whole (a : Value) (n : Nat) (m : Machine) : Prop :=
  ∀ l : List Nat, l.Pairwise (· < ·) → (∀ x, x ∈ l ↔ m.condition.Possible a.term x) →
    wholeReads n l m.memory m.nextSymbol = true

theorem possible_of_const? (hm : Sound s T m) {b : Nat} (hb : a.const? = some b) (x : Nat) :
    m.condition.Possible a.term x ↔ x = b := by
  obtain ⟨v, hv, rfl⟩ := Option.map_eq_some_iff.mp hb
  have hdenote : ∀ ν, a.term.denote ν = v := fun ν => by
    rw [Term.denote_eq_meaning, Term.meaning_of_const? hv]
  constructor
  · rintro ⟨ν, _, rfl⟩
    rw [hdenote ν]
  · rintro rfl
    obtain ⟨ν, hν⟩ := hm.feasible
    exact ⟨ν, hν, congrArg BitVec.toNat (hdenote ν)⟩

theorem does_readBytesAt {n : Nat} {E : Fault → Machine → Prop} (hm : Sound s T m) (ha : a.Known T)
    (hnear : Near a m) (hwhole : Whole a n m) :
    Does D (readBytesAt a n) m
      (fun v m' => ∃ T' l, (∀ x, x ∈ l ↔ m.condition.Possible a.term x) ∧ Found s a n l T m v T' m') E := by
  unfold readBytesAt
  cases hconst : a.const? with
  | some b =>
    have hl : ∀ x, x ∈ [b] ↔ m.condition.Possible a.term x := fun x => by
      rw [List.mem_singleton, possible_of_const? hm hconst]
    have hw := hwhole [b] (List.pairwise_singleton _ _) hl
    unfold wholeReads at hw
    simp only [Bool.and_eq_true, beq_iff_eq] at hw
    refine (does_readBytes (a := a) hm hw.1).mono ?_ fun _ _ h => h
    rintro v m' ⟨⟨T', h'⟩, _⟩
    exact ⟨T', [b], hl, h'⟩
  | none =>
    obtain ⟨l, hl, hsorted, hmem⟩ := PathCondition.exists_possible hm.feasible hnear
    refine does_bind (does_get ?_)
    rw [hl]
    -- No possible address at all would make the path condition infeasible.
    cases l with
    | nil =>
      obtain ⟨x, hx⟩ := hm.feasible.possible (t := a.term)
      exact absurd ((hmem x).mpr hx) List.not_mem_nil
    | cons first others =>
      have hlt : ∀ b ∈ first :: others, b < 2 ^ a.width := fun b hb => ((hmem b).mp hb).lt
      refine (does_readAny hm ha hlt (hwhole _ hsorted hmem)).mono ?_ fun _ _ h => h
      rintro v m' ⟨T', h'⟩
      exact ⟨T', _, hmem, h'⟩

/-- What reading a value gives. -/
structure ReadAs (s : Setting) (a : Value) (bits : Nat) (T : Table) (m : Machine) (v : Value) (T' : Table)
    (m' : Machine) : Prop where
  touched : Touched s (fun x => ∃ b, m.condition.Possible a.term b ∧ b ≤ x ∧ x < b + byteCount bits)
    T m T' m'
  conds : m'.condition.conds = m.condition.conds
  bytes : ∀ i, m'.memory.byteAt i = m.memory.byteAt i
  width : v.width = bits
  known : v.Known T'
  word : ∀ i : Input, i.Meets m.condition.conds →
    v.word i = Word.load (m.memory.byteAt i) (a.word i).toNat bits
  notNull : NotNull s a m

/-- **Reading.** -/
theorem does_read (bits : Nat) (hm : Sound s T m) (ha : a.Known T) (hbits : bits ≠ 0) (hnear : Near a m)
    (hwhole : Whole a (byteCount bits) m) :
    Does D (read s a bits) m (fun v m' => ∃ T', ReadAs s a bits T m v T' m') (NullFault s a m) := by
  unfold read
  refine does_bind ((does_checkNull hm ha).mono ?_ fun _ _ h => h)
  rintro _ m₁ ⟨hasked, hnull⟩
  have hnear₁ : Near a m₁ := fun x y hx hy => hnear x y (hasked.possible.mp hx) (hasked.possible.mp hy)
  have hwhole₁ : Whole a (byteCount bits) m₁ := by
    intro l hsorted hmem
    have := hwhole l hsorted fun x => (hmem x).trans hasked.possible
    obtain ⟨q, _, rfl⟩ := hasked
    exact this
  refine does_bind ((does_readBytesAt (hasked.sound hm) ha hnear₁ hwhole₁).mono ?_ fun _ _ h => h)
  rintro v m₂ ⟨T₂, l, hl, h₂⟩
  have htouched : Touched s (fun x => ∃ b, m.condition.Possible a.term b ∧ b ≤ x ∧ x < b + byteCount bits)
      T m T₂ m₂ := (hasked.touched hm).trans
    (h₂.touched.weaken fun x ⟨b, hb, hx⟩ => ⟨b, hasked.possible.mp ((hl b).mp hb), hx⟩)
  have hbytes : ∀ i, m₂.memory.byteAt i = m.memory.byteAt i := fun i => by
    rw [h₂.bytes i, hasked.memory]
  have hword : ∀ i : Input, i.Meets m.condition.conds →
      v.word i = Word.load (m.memory.byteAt i) (a.word i).toNat (8 * byteCount bits) := fun i hi => by
    rw [h₂.word i ((hl _).mpr (hasked.possible.mpr (hm.possible ha hi))), hasked.memory]
  have hconds : m₂.condition.conds = m.condition.conds := by rw [h₂.condition, hasked.conds]
  have hcount : byteCount (8 * byteCount bits) = byteCount bits := by
    unfold byteCount
    omega
  have hle : bits ≤ 8 * byteCount bits := by
    unfold byteCount
    omega
  split
  · rename_i heq
    refine does_pure ⟨T₂, htouched, hconds, hbytes, h₂.width.trans heq, h₂.known, fun i hi => ?_, hnull⟩
    rw [hword i hi, heq]
  · rw [if_neg (by rw [h₂.width]; omega)]
    refine does_pure ⟨T₂, htouched, hconds, hbytes, Value.width_resize hbits v, Value.known_resize h₂.known bits,
      fun i hi => ?_, hnull⟩
    rw [Value.word_resize i hbits, hword i hi]
    -- cutting the bytes that were read is cutting the number that they write
    apply Word.ext_toNat
    · rfl
    · show ((BitVec.ofNat (8 * byteCount bits) _).setWidth bits).toNat = (BitVec.ofNat bits _).toNat
      rw [BitVec.toNat_setWidth, BitVec.toNat_ofNat, BitVec.toNat_ofNat, hcount,
        Nat.mod_mod_of_dvd _ (Nat.pow_dvd_pow 2 hle)]

/-! ## Writing -/

/-- That an address has one possible value. -/
def Single (a : Value) (m : Machine) : Prop :=
  ∀ x y, m.condition.Possible a.term x → m.condition.Possible a.term y → x = y

/-- What writing a value does. -/
structure Written (s : Setting) (a v : Value) (T : Table) (m m' : Machine) : Prop where
  touched : Touched s (fun _ => False) T m T m'
  bytes : ∀ i : Input, i.Meets m.condition.conds →
    m'.memory.byteAt i = (v.word i).store (m.memory.byteAt i) (a.word i).toNat
  filled : ∀ b, m.condition.Possible a.term b → ∀ k < byteCount v.width, m'.memory.get? (b + k) ≠ none
  notNull : NotNull s a m

theorem byte_resize {v : Value} {k : Nat} (i : Input) (hk : k < byteCount v.width) :
    ((v.resize (8 * byteCount v.width)).word i).byte k = (v.word i).byte k := by
  have hpos : 8 * byteCount v.width ≠ 0 := by omega
  have hle : v.width ≤ 8 * byteCount v.width := by
    unfold byteCount
    omega
  rw [Value.word_resize i hpos]
  show ((v.word i).bits.setWidth (8 * byteCount v.width)).extractLsb' (8 * k) 8 =
    (v.word i).bits.extractLsb' (8 * k) 8
  rw [extract_byte, extract_byte, BitVec.toNat_setWidth,
    Nat.mod_eq_of_lt (Nat.lt_of_lt_of_le (v.word i).bits.isLt (Nat.pow_le_pow_right (by omega) hle))]

theorem byteAt_store_resize (memory : Memory) (v : Value) (b : Nat) (i : Input) :
    (memory.store b (v.resize (8 * byteCount v.width)) (byteCount v.width)).byteAt i =
      (v.word i).store (memory.byteAt i) b := by
  funext x
  rw [Memory.byteAt_store, Word.store, Value.width_word]
  split
  · rw [byte_resize i (by omega)]
  · rfl

/-- Storing at an address that is the only possible one. -/
theorem written_store {v : Value} (hm : Sound s T m) (hv : v.Known T) {b : Nat}
    (hb : ∀ x, m.condition.Possible a.term x ↔ x = b) (ha : a.Known T) (hasked : Asked m m₁)
    (hsound : Sound s T m₂) (hmeets : ∀ i : Input, i.Meets m₂.condition.conds ↔ i.Meets m.condition.conds)
    (heq : m₂ = { m₁ with condition := m₂.condition }) (hnull : NotNull s a m) :
    Written s a v T m
      { m₂ with memory := m₂.memory.store b (v.resize (8 * byteCount v.width)) (byteCount v.width) } := by
  obtain ⟨q, _, rfl⟩ := hasked
  have hmemory : m₂.memory = m.memory := by rw [heq]
  have haddresses : m₂.addresses = m.addresses := by rw [heq]
  have hnext : m₂.nextAddress = m.nextAddress := by rw [heq]
  exact {
    touched := {
      sound := {
        symbols := hsound.symbols
        conds := hsound.conds
        feasible := hsound.feasible
        known := Memory.known_store hsound.known (Value.known_resize hv _) _ _
        apart := hsound.apart.store _ _ _
        positive := hsound.positive
        laid := hsound.laid.imp fun _ h => ⟨h.eq, h.le, h.apart⟩ }
      meets := hmeets
      addresses := haddresses
      next := hnext
      stored := fun x hx => Memory.get?_store_ne_none (by rwa [hmemory])
      table := ⟨[], (List.append_nil T).symm, fun _ ho => absurd ho List.not_mem_nil⟩ }
    -- The pointer has one possible value, so it means the address `b` under every input of the
    -- path.
    bytes := fun i hi => by
      rw [byteAt_store_resize, hmemory, ← (hb _).mp (hm.possible ha hi)]
    filled := by
      intro c hc k hk
      rw [(hb c).mp hc]
      obtain ⟨d, hd, _⟩ := Memory.get?_store_of_mem (m := m₂.memory)
        (v := v.resize (8 * byteCount v.width)) (a := b) (n := byteCount v.width) (x := b + k)
        ⟨by omega, by omega⟩
      rw [hd]
      exact Option.some_ne_none d
    notNull := hnull }

/-- The path keeps to an address by a condition that holds anyway. -/
theorem sound_assume_equals (hm : Sound s T m) (ha : a.Known T) {b : Nat}
    (hb : ∀ x, m.condition.Possible a.term x ↔ x = b) :
    Sound s T { m with condition := m.condition.assume (a.equals b) } ∧
      ∀ i : Input, i.Meets (m.condition.assume (a.equals b)).conds ↔ i.Meets m.condition.conds := by
  have hlt : b < 2 ^ a.width := ((hb b).mpr rfl).lt
  have hholds : ∀ ν, Term.AllHold ν m.condition.conds → (a.equals b).Holds ν := fun ν hν =>
    (PathCondition.holds_equals hlt).mpr ((hb _).mp ⟨ν, hν, rfl⟩)
  have hconds : ∀ c ∈ (m.condition.assume (a.equals b)).conds, c.Known T :=
    List.forall_mem_cons.mpr ⟨Value.known_equals ha b, hm.conds⟩
  refine ⟨?_, fun i => ?_⟩
  · exact {
      symbols := hm.symbols
      conds := hconds
      feasible := hm.feasible.imp fun ν hν => List.forall_mem_cons.mpr ⟨hholds ν hν, hν⟩
      known := hm.known
      apart := hm.apart
      positive := hm.positive
      laid := hm.laid.imp fun _ h => ⟨h.eq, h.le, h.apart⟩ }
  · rw [meets_iff hconds, meets_iff hm.conds]
    exact ⟨fun h => (List.forall_mem_cons.mp h).2, fun h => List.forall_mem_cons.mpr ⟨hholds _ h, h⟩⟩

/-- Writing at a known address. -/
theorem does_write_of_const? {v : Value} {b : Nat} (hm : Sound s T m) (ha : a.Known T)
    (hb : a.const? = some b) :
    Does D (write s a v) m
      (fun _ m' => ∃ q : PathCondition, q.conds = m.condition.conds ∧ m' = { m with
        condition := q
        memory := m.memory.store b (v.resize (8 * byteCount v.width)) (byteCount v.width) })
      (NullFault s a m) := by
  unfold write
  refine does_bind ((does_checkNull hm ha).mono ?_ fun _ _ h => h)
  rintro _ m₁ ⟨⟨q, hq, rfl⟩, _⟩
  dsimp only
  rw [hb]
  exact does_modify ⟨q, hq, rfl⟩

/-- **Writing.** -/
theorem does_write {v : Value} (hm : Sound s T m) (ha : a.Known T) (hv : v.Known T) (hsingle : Single a m) :
    Does D (write s a v) m (fun _ m' => Written s a v T m m') (NullFault s a m) := by
  unfold write
  refine does_bind ((does_checkNull hm ha).mono ?_ fun _ _ h => h)
  rintro _ m₁ ⟨hasked, hnull⟩
  have hsound₁ := hasked.sound hm
  dsimp only
  cases hconst : a.const? with
  | some b =>
    have hb := fun x => possible_of_const? hm hconst x
    exact does_modify (written_store hm hv hb ha hasked hsound₁ (fun i => by rw [hasked.conds]) rfl hnull)
  | none =>
    refine does_bind (does_get ?_)
    obtain ⟨b, hgreatest, hpossible⟩ := PathCondition.exists_greatest? (t := a.term) hsound₁.feasible
    have hb : ∀ x, m.condition.Possible a.term x ↔ x = b := fun x =>
      ⟨fun hx => hsingle x b hx (hasked.possible.mp hpossible), fun hx => hx ▸ hasked.possible.mp hpossible⟩
    have hassume := sound_assume_equals hsound₁ ha fun x => hasked.possible.trans (hb x)
    rw [hgreatest]
    refine does_bind (does_modify (does_modify ?_))
    exact written_store hm hv hb ha hasked hassume.1
      (fun i => (hassume.2 i).trans (by rw [hasked.conds])) rfl hnull

end Machine

end PathSafety
