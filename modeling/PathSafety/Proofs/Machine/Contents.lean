import Mathlib.Logic.Function.Basic
import PathSafety.Proofs.Machine.Separation

/-!
# What memory holds under a valuation

`Memory.byteAt` says what a memory holds for an input, which knows what symbols stand for by their names. Here nothing is
known of symbols but a valuation, so that what is said holds of every memory, whatever its cells look at. A read may give
names to bytes that were unknown; its symbols are new, and can be made to stand for whatever is there. What a read gives are
then the bytes that memory holds afterwards, and a write changes these as it should.

Contents:

* `Memory.holds`, `holds_store` — bytes under a valuation, and writing;
* `Memory.Named`, `Reads.named` — what a read does to a memory;
* `Memory.Whole`, `Reads.toNat_eq`, `byte_of_load` — what a read gives that leaves out no bytes;
* `Machine.write_of_const?`, `Machine.readBytesAt_of_load` — writing and reading at known addresses.
-/

namespace PathSafety

namespace Memory

variable {m m' m₁ : Memory} {a n x supply supply' supply₁ : Nat}

/-- What a memory holds under a valuation. What is unknown is as `β` has it. -/
def holds (m : Memory) (ν : Valuation) (β : Bytes) : Bytes := fun a =>
  match m.get? a with
  | some c => c.byte.denote ν
  | none => β a

theorem holds_of_get? {c : Cell} (h : m.get? x = some c) (ν : Valuation) (β : Bytes) :
    m.holds ν β x = c.byte.denote ν := by
  unfold holds
  rw [h]

theorem holds_of_none (h : m.get? x = none) (ν : Valuation) (β : Bytes) : m.holds ν β x = β x := by
  unfold holds
  rw [h]

theorem denote_mkSlice {v : Value} (ν : Valuation) (k : Nat) :
    (v.term.mkSlice (8 * k) 8).denote ν = (v.term.denote ν).extractLsb' (8 * k) 8 := by
  rw [Term.denote_eq_meaning, Term.meaning_mkSlice, ← Term.denote_eq_meaning]

/-- Writing a value writes the bytes of what it denotes. -/
theorem holds_store (m : Memory) (v : Value) (a n : Nat) (ν : Valuation) (β : Bytes) (x : Nat) :
    (m.store a v n).holds ν β x =
      if a ≤ x ∧ x < a + n then (v.term.denote ν).extractLsb' (8 * (x - a)) 8 else m.holds ν β x := by
  by_cases h : a ≤ x ∧ x < a + n
  · obtain ⟨c, hc, hb⟩ := @get?_store_of_mem m v a n x h
    rw [if_pos h, holds_of_get? hc, hb, denote_mkSlice]
  · unfold holds
    rw [if_neg h, get?_store_of_not_mem h]

/-! ## Names for unknown bytes -/

/-- That a memory is another one with names for some of the unknown bytes: symbols from `supply` on, which can stand for
whatever is there. -/
structure Named (m : Memory) (supply : Nat) (m' : Memory) (supply' : Nat) : Prop where
  le : supply ≤ supply'
  kept : ∀ x c, m.get? x = some c → m'.get? x = some c
  bounded : ∀ x c, m.get? x = none → m'.get? x = some c →
    ∀ ν ν', (∀ k < supply', ν k = ν' k) → c.byte.denote ν = c.byte.denote ν'
  free : ∀ (ν : Valuation) (β : Bytes), ∃ ν' : Valuation, (∀ k < supply, ν' k = ν k) ∧
    ∀ x, m.get? x = none → m'.holds ν' β x = β x

theorem Named.refl (m : Memory) (supply : Nat) : Named m supply m supply where
  le := Nat.le_refl supply
  kept _ _ h := h
  bounded x c hnone hsome := by
    rw [hnone] at hsome
    cases hsome
  free ν β := ⟨ν, fun _ _ => rfl, fun _ hx => holds_of_none hx ν β⟩

theorem Named.trans (h₁ : Named m supply m₁ supply₁) (h₂ : Named m₁ supply₁ m' supply') :
    Named m supply m' supply' where
  le := Nat.le_trans h₁.le h₂.le
  kept x c hc := h₂.kept x c (h₁.kept x c hc)
  bounded x c hnone hsome ν ν' hν := by
    have hle := h₂.le
    cases hx : m₁.get? x with
    | none => exact h₂.bounded x c hx hsome ν ν' hν
    | some d =>
      obtain rfl := Option.some.inj ((h₂.kept x d hx).symm.trans hsome)
      exact h₁.bounded x d hnone hx ν ν' fun k hk => hν k (by omega)
  free ν β := by
    obtain ⟨ν₁, hν₁, hβ₁⟩ := h₁.free ν β
    obtain ⟨ν₂, hν₂, hβ₂⟩ := h₂.free ν₁ β
    have hle := h₁.le
    refine ⟨ν₂, fun k hk => (hν₂ k (by omega)).trans (hν₁ k hk), fun x hx => ?_⟩
    cases hx₁ : m₁.get? x with
    | none => exact hβ₂ x hx₁
    | some c =>
      -- a name from the first part: the symbols of the second part say nothing of it
      rw [holds_of_get? (h₂.kept x c hx₁), h₁.bounded x c hx hx₁ ν₂ ν₁ hν₂, ← holds_of_get? hx₁ ν₁ β]
      exact hβ₁ x hx

theorem denote_unknown (ν : Valuation) (supply a n : Nat) :
    (unknown supply a n).term.denote ν = BitVec.ofNat (8 * n) (ν supply) := rfl

/-- A symbol for a run of unknown bytes. -/
theorem named_store_unknown (hout : ∀ x, a ≤ x → x < a + n → m.get? x = none) :
    Named m supply (m.store a (unknown supply a n) n) (supply + 1) where
  le := Nat.le_succ supply
  kept x c hc := by
    rw [get?_store_of_not_mem, hc]
    intro hx
    rw [hout x hx.1 hx.2] at hc
    cases hc
  bounded x c hnone hsome ν ν' hν := by
    by_cases hx : a ≤ x ∧ x < a + n
    · obtain ⟨d, hd, hb⟩ := @get?_store_of_mem m (unknown supply a n) a n x hx
      obtain rfl := Option.some.inj (hd.symm.trans hsome)
      rw [hb, denote_mkSlice, denote_mkSlice, denote_unknown, denote_unknown, hν supply (Nat.lt_succ_self supply)]
    · rw [get?_store_of_not_mem hx, hnone] at hsome
      cases hsome
  free ν β := by
    refine ⟨Function.update ν supply (number β a n), fun k hk => ?_, fun x hx => ?_⟩
    -- The new symbol is free for whatever bytes the caller wants under it.
    · exact Function.update_of_ne (Nat.ne_of_lt hk) _ _
    · rw [holds_store]
      split
      · rename_i hin
        rw [denote_unknown, Function.update_self]
        show (BitVec.ofNat (8 * n) (number β a n)).extractLsb' (8 * (x - a)) 8 = β x
        rw [extract_byte, BitVec.toNat_ofNat, Nat.mod_eq_of_lt (number_lt _ _ _), byte_number (by omega),
          Nat.add_sub_cancel' hin.1]
      · exact holds_of_none hx _ _

/-- **A read** keeps what is there, and gives names to unknown bytes. -/
theorem Reads.named {r : List Value × Memory × Nat} (h : Reads m supply a n r) : Named m supply r.2.1 r.2.2 := by
  induction h with
  | done => exact .refl _ _
  | piece _ _ _ _ _ ih => exact ih
  | unknown _ hout _ ih => exact (named_store_unknown hout).trans ih

/-- What a memory with names holds, the one without can hold as well. -/
theorem Named.eq_holds (h : Named m supply m' supply') (ν : Valuation) (β : Bytes) :
    m'.holds ν β = m.holds ν (m'.holds ν β) := by
  funext x
  cases hx : m.get? x with
  | none => rw [holds_of_none hx]
  | some c => rw [holds_of_get? hx, holds_of_get? (h.kept x c hx)]

/-! ## What a read gives -/

theorem Reads.width_le {r : List Value × Memory × Nat} (h : Reads m supply a n r) :
    (r.1.map Value.width).sum ≤ 8 * n := by
  induction h with
  | done => exact Nat.le_refl 0
  | @piece m m' supply supply' a n skipped bytes rest hlen _ hskipped _ _ ih =>
    rw [List.map_append, List.sum_append, sum_width_bytes]
    dsimp only at ih
    omega
  | @unknown m m' supply supply' a n run rest hrun _ _ ih =>
    rw [List.map_cons, List.sum_cons]
    show 8 * run + _ ≤ _
    dsimp only at ih
    omega

/-- **What a read gives** that leaves out no bytes: the number that memory holds afterwards. -/
theorem Reads.toNat_eq {r : List Value × Memory × Nat} (h : Reads m supply a n r)
    (hw : (r.1.map Value.width).sum = 8 * n) (ν : Valuation) (β : Bytes) :
    (Word.concat (r.1.map (Value.wordUnder ν.reading))).toNat = number (r.2.1.holds ν β) a n := by
  induction h with
  | done => rfl
  | @piece m m' supply supply' a n skipped bytes rest hlen hbytes hskipped _ h ih =>
    have hle := h.width_le
    have hkept := h.named.kept
    rw [List.map_append, List.sum_append, sum_width_bytes] at hw
    dsimp only at hle ih hkept ⊢
    -- A skipped byte would leave the parts too narrow for `hw`.
    obtain rfl : skipped = 0 := by omega
    have hfirst : (Word.concat ((bytes.map fun b => (⟨b⟩ : Value)).map (Value.wordUnder ν.reading))).toNat =
        number (m'.holds ν β) a bytes.length := by
      have hstored : ∀ k b, (bytes.map fun b => b.meaning ν.reading)[k]? = some b → m'.holds ν β (a + k) = b := by
        intro k b hk
        obtain ⟨t, ht, rfl⟩ := Option.map_eq_some_iff.mp ((List.getElem?_map ..).symm.trans hk)
        obtain ⟨c, hc, rfl⟩ := hbytes k t ht
        rw [holds_of_get? (hkept _ c hc), Term.denote_eq_meaning]
      have hnumber := toNat_concat_bytes hstored
      rw [List.map_map, List.length_map] at hnumber
      rw [List.map_map]
      exact hnumber
    have hwidths : ((bytes.map fun b => (⟨b⟩ : Value)).map (Value.wordUnder ν.reading)).map Word.width =
        (bytes.map fun b => (⟨b⟩ : Value)).map Value.width := by
      rw [List.map_map]
      rfl
    rw [List.map_append, concat_append, hwidths, sum_width_bytes, hfirst, ih (by omega), Nat.add_comm, Nat.add_zero,
      Nat.sub_zero, ← number_add, Nat.add_sub_cancel' hlen]
  | @unknown m m' supply supply' a n run rest hrun hout h ih =>
    have hle := h.width_le
    have hkept := h.named.kept
    rw [List.map_cons, List.sum_cons] at hw
    replace hw : 8 * run + (rest.map Value.width).sum = 8 * n := hw
    dsimp only at hle ih hkept ⊢
    -- The bytes not yet stored are read back as slices of the one symbol made for the run.
    have hfirst : number (m'.holds ν β) a run = ((Memory.unknown supply a run).term.denote ν).toNat := by
      refine number_bytes _ (Nat.le_refl _) fun k hk => ?_
      obtain ⟨c, hc, hb⟩ := @get?_store_of_mem m (Memory.unknown supply a run) a run (a + k) ⟨by omega, by omega⟩
      rw [holds_of_get? (hkept _ c hc), hb, denote_mkSlice, Nat.add_sub_cancel_left]
    rw [List.map_cons, Word.toNat_concat_cons, ih (by omega)]
    show 2 ^ (8 * run) * number (m'.holds ν β) (a + run) (n - run) +
      ((Memory.unknown supply a run).term.meaning ν.reading).toNat = _
    rw [← Term.denote_eq_meaning, ← hfirst, Nat.add_comm, ← number_add, Nat.add_sub_cancel' hrun]

/-- That a read of the `n` bytes from `a` on gets all of them: nothing is left out, as if memory were flat. -/
def Whole (m : Memory) (a n : Nat) : Prop := ∀ supply, (m.load supply a n).1.width = 8 * n

/-- A read leaves out nothing unless it comes to an unknown byte behind the first byte that it takes of a piece, and not as
far behind as the piece is long. -/
theorem Reads.width_eq {r : List Value × Memory × Nat} (h : Reads m supply a n r)
    (hcells : ∀ x c k, a ≤ x → m.get? x = some c → k < c.size → x + k < a + n → m.get? (x + k) ≠ none) :
    (r.1.map Value.width).sum = 8 * n := by
  induction h with
  | done => rfl
  | @piece m m' supply supply' a n skipped bytes rest hlen hbytes hskipped hleft _ ih =>
    have hzero : skipped = 0 := by
      by_contra hne
      obtain ⟨c, hc, hlt, hnone⟩ := hleft hne
      exact hcells a c bytes.length (Nat.le_refl a) hc hlt (by omega) hnone
    have hrest := ih fun x c k hx hc hk hin => hcells x c k (by omega) hc hk (by omega)
    rw [List.map_append, List.sum_append, sum_width_bytes, hrest]
    omega
  | @unknown m m' supply supply' a n run rest hrun _ _ ih =>
    have hrest := ih fun x c k hx hc hk hin => by
      rw [get?_store_of_not_mem (by omega)] at hc ⊢
      exact hcells x c k (by omega) hc hk (by omega)
    rw [List.map_cons, List.sum_cons, hrest]
    show 8 * run + 8 * (n - run) = 8 * n
    omega

theorem whole_of_forall
    (h : ∀ x c k, a ≤ x → m.get? x = some c → k < c.size → x + k < a + n → m.get? (x + k) ≠ none) : m.Whole a n := by
  intro supply
  have hwidth := (@reads_loadBytes m n supply a n (Nat.le_refl n)).width_eq h
  rwa [← Value.width_concat] at hwidth

/-- What is there is read as a whole. -/
theorem whole_of_known (h : ∀ x, a ≤ x → x < a + n → m.get? x ≠ none) : m.Whole a n :=
  whole_of_forall fun x _ k hx _ _ hin => h (x + k) (by omega) hin

theorem named_of_load {v : Value} (h : m.load supply a n = (v, m', supply')) : Named m supply m' supply' := by
  have hnamed := (@reads_loadBytes m n supply a n (Nat.le_refl n)).named
  simp only [load, Prod.mk.injEq] at h
  obtain ⟨_, rfl, rfl⟩ := h
  exact hnamed

/-- What is read as a whole is the number that memory holds afterwards. -/
theorem toNat_of_load {v : Value} (h : m.load supply a n = (v, m', supply')) (hw : v.width = 8 * n)
    (ν : Valuation) (β : Bytes) : (v.term.denote ν).toNat = number (m'.holds ν β) a n := by
  have hreads := @reads_loadBytes m n supply a n (Nat.le_refl n)
  simp only [load, Prod.mk.injEq] at h
  obtain ⟨rfl, rfl, rfl⟩ := h
  rw [Value.width_concat] at hw
  rw [← hreads.toNat_eq hw ν β, ← Value.wordUnder_concat, Term.denote_eq_meaning]
  rfl

theorem byte_of_load {v : Value} (h : m.load supply a n = (v, m', supply')) (hw : v.width = 8 * n) {k : Nat}
    (hk : k < n) (ν : Valuation) (β : Bytes) :
    (v.term.denote ν).extractLsb' (8 * k) 8 = m'.holds ν β (a + k) := by
  rw [extract_byte, toNat_of_load h hw ν β, byte_number hk]

/-- What is there is read without names. -/
theorem exists_load_of_known (h : ∀ x, a ≤ x → x < a + n → m.get? x ≠ none) : ∃ v, m.load supply a n = (v, m, supply) := by
  have hcells : ∀ k < n, ∃ c, m.get? (a + k) = some c ∧ c.byte = ((m.get? (a + k)).map Cell.byte).getD (.const 0) := by
    intro k hk
    obtain ⟨c, hc⟩ := Option.ne_none_iff_exists'.mp (h (a + k) (by omega) (by omega))
    exact ⟨c, hc, by rw [hc]; rfl⟩
  unfold load
  rw [loadBytes_of_forall (Nat.le_refl n) hcells]
  exact ⟨_, rfl⟩

end Memory

/-! ## Known addresses -/

namespace Machine

variable {s : Setting} {m : Machine} {address v : Value} {a n : Nat}

theorem byteCount_whole (n : Nat) : byteCount (8 * n) = n := by
  unfold byteCount
  omega

/-- The bytes of a value stay what they are when it is widened to whole bytes. -/
theorem byte_resize_whole (v : Value) (ν : Valuation) {k : Nat} (hk : k < byteCount v.width) :
    ((v.resize (8 * byteCount v.width)).term.denote ν).extractLsb' (8 * k) 8 =
      (v.term.denote ν).extractLsb' (8 * k) 8 := by
  have hle : v.width ≤ 8 * byteCount v.width := by
    unfold byteCount
    omega
  have hresize : v.resize (8 * byteCount v.width) = ⟨v.term.mkResize (8 * byteCount v.width)⟩ := by
    unfold Value.resize
    rw [if_neg (by omega)]
  rw [hresize, Term.denote_eq_meaning, Term.meaning_mkResize, ← Term.denote_eq_meaning]
  apply BitVec.eq_of_getLsbD_eq
  intro i hi
  rw [BitVec.getLsbD_extractLsb', BitVec.getLsbD_extractLsb', BitVec.getLsbD_setWidth]
  have hlt : 8 * k + i < 8 * byteCount v.width := by omega
  simp only [hi, hlt, decide_true, Bool.true_and]

/-- A known address passes the null check unless it is zero. -/
theorem checkNull_of_const? (ha : address.const? = some a) (hnull : s.nullChecking = true → a ≠ 0) :
    checkNull s address m = .ok () m := by
  cases hchecking : s.nullChecking with
  | false =>
    unfold checkNull
    rw [hchecking]
    rfl
  | true =>
    refine checkNull_of_not_possible ?_
    rintro ⟨ν, _, hzero⟩
    obtain ⟨b, hb, rfl⟩ := Option.map_eq_some_iff.mp ha
    rw [Term.denote_eq_meaning, Term.meaning_of_const? hb] at hzero
    exact hnull hchecking hzero

/-- **Writing** at a known address. -/
theorem write_of_const? (ha : address.const? = some a) (hnull : s.nullChecking = true → a ≠ 0) (v : Value) :
    write s address v m =
      .ok () { m with memory := m.memory.store a (v.resize (8 * byteCount v.width)) (byteCount v.width) } := by
  unfold write
  rw [bind_of_ok (checkNull_of_const? ha hnull), ha]
  rfl

/-- What a machine has written is what its memory holds. -/
theorem holds_of_write (v : Value) (ν : Valuation) (β : Bytes) (x : Nat) :
    (m.memory.store a (v.resize (8 * byteCount v.width)) (byteCount v.width)).holds ν β x =
      if a ≤ x ∧ x < a + byteCount v.width then (v.term.denote ν).extractLsb' (8 * (x - a)) 8
      else m.memory.holds ν β x := by
  rw [Memory.holds_store]
  split
  · exact byte_resize_whole v ν (by omega)
  · rfl

/-- Reading whole bytes at a known address. -/
theorem readBytesAt_of_load {memory : Memory} {supply : Nat} (ha : address.const? = some a)
    (hload : m.memory.load m.nextSymbol a n = (v, memory, supply)) :
    readBytesAt address n m = .ok v { m with memory, nextSymbol := supply } := by
  unfold readBytesAt
  rw [ha]
  exact readBytes_of_load hload

/-- **Reading** at a known address gives the number that memory holds there, cut to the width, if all of it is read. -/
theorem exists_read_of_load {bits : Nat} {memory : Memory} {supply : Nat} (ha : address.const? = some a)
    (hnull : s.nullChecking = true → a ≠ 0) (hbits : bits ≠ 0)
    (hload : m.memory.load m.nextSymbol a (byteCount bits) = (v, memory, supply)) (hw : v.width = 8 * byteCount bits) :
    ∃ t : Term bits, read s address bits m = .ok ⟨t⟩ { m with memory, nextSymbol := supply } ∧
      ∀ ν β, t.denote ν = BitVec.ofNat bits (number (memory.holds ν β) a (byteCount bits)) := by
  have hle : bits ≤ 8 * byteCount bits := by
    unfold byteCount
    omega
  have hnumber := Memory.toNat_of_load hload hw
  unfold read
  rw [bind_of_ok (checkNull_of_const? ha hnull), bind_of_ok (readBytesAt_of_load ha hload)]
  obtain ⟨t⟩ := v
  by_cases hwhole : 8 * byteCount bits = bits
  · rw [if_pos hwhole]
    obtain rfl : _ = bits := hw.trans hwhole
    refine ⟨t, rfl, fun ν β => ?_⟩
    rw [← hnumber ν β, BitVec.ofNat_toNat, BitVec.setWidth_eq]
  · rw [if_neg hwhole, if_neg (by omega)]
    refine ⟨t.mkResize bits, ?_, fun ν β => ?_⟩
    · unfold Value.resize
      rw [if_neg hbits]
      rfl
    · rw [Term.denote_eq_meaning, Term.meaning_mkResize, ← Term.denote_eq_meaning, ← hnumber ν β, BitVec.ofNat_toNat]

/-- The low bits of a bitvector are in its lowest bytes. -/
theorem ofNat_number_of_bytes {w bits : Nat} {bytes : Bytes} (u : BitVec w)
    (h : ∀ k < byteCount bits, bytes (a + k) = u.extractLsb' (8 * k) 8) :
    BitVec.ofNat bits (number bytes a (byteCount bits)) = u.setWidth bits := by
  have hle : bits ≤ 8 * byteCount bits := by
    unfold byteCount
    omega
  have hnumber : number bytes a (byteCount bits) = (u.setWidth (8 * byteCount bits)).toNat := by
    refine number_bytes _ (Nat.le_refl _) fun k hk => ?_
    rw [h k hk]
    apply BitVec.eq_of_getLsbD_eq
    intro i hi
    have hlt : 8 * k + i < 8 * byteCount bits := by omega
    simp only [BitVec.getLsbD_extractLsb', BitVec.getLsbD_setWidth, hi, hlt, decide_true, Bool.true_and]
  rw [hnumber, BitVec.ofNat_toNat, BitVec.setWidth_setWidth_of_le _ hle]

end Machine

end PathSafety
