import PathSafety.Proofs.Machine.Known

/-!
# What memory holds

For every input a memory stands for bytes: those of its cells, and where it has none what the input has
there. Writing changes these bytes as it does in a concrete run. Reading changes none of them, though it
makes symbols of unknown bytes, and its result is the word that they write, unless it left out bytes and is
narrower than was asked for.

Contents:

* `Memory.byteAt`, `byteAt_store` — the bytes, and writing;
* `Memory.Reads`, `reads_loadBytes` — the pieces and the unknown bytes that a read goes through;
* `Memory.Filled` — what reading does to a memory and to the table of symbols;
* `loadBytes_spec`, `load_spec` — reading;
* `loadBytes_of_forall` — reading bytes that are there.
-/

namespace PathSafety

namespace Memory

/-- What a memory holds for an input. -/
def byteAt (m : Memory) (i : Input) : Bytes := fun a =>
  match m.get? a with
  | some c => c.byte.meaning i.reading
  | none => i.byte a

/-- That the cells of a memory look only at the symbols of a table. -/
def Known (T : Table) (m : Memory) : Prop := ∀ a c, m.get? a = some c → c.byte.Known T

/-- That the symbols of a table stand for different things, and the bytes among these have their cells. -/
structure Apart (T : Table) (m : Memory) : Prop where
  stored : ∀ a n, .memory a n ∈ T → ∀ x, a ≤ x → x < a + n → m.get? x ≠ none
  disjoint : ∀ (k l : Nat) a n b j, T[k]? = some (.memory a n) → T[l]? = some (.memory b j) → k ≠ l →
    ∀ x, a ≤ x → x < a + n → b ≤ x → x < b + j → False
  named : ∀ (k l : Nat) name v w, T[k]? = some (.argument name v) → T[l]? = some (.argument name w) → k = l

variable {m : Memory} {T : Table}

theorem get?_insert (a x : Nat) (c : Cell) :
    (m.insert a c).get? x = if a = x then some c else m.get? x := by
  simp [Std.TreeMap.get?_eq_getElem?, Std.TreeMap.getElem?_insert]

theorem contains_iff (a : Nat) : m.contains a = true ↔ m.get? a ≠ none := by
  rw [Std.TreeMap.contains_eq_isSome_getElem?, Std.TreeMap.get?_eq_getElem?, Option.isSome_iff_ne_none]

/-! ## Writing -/

theorem exists_storeTerm_succ {w : Nat} (t : Term w) (size : Option Nat) (a place n : Nat) :
    ∃ c : Cell, c.byte = t.mkSlice (8 * place) 8 ∧
      m.storeTerm a t size place (n + 1) =
        storeTerm (m.insert a c) (a + 1) t size (place + 1) n := by
  cases size <;> exact ⟨_, rfl, rfl⟩

theorem get?_storeTerm {w : Nat} {t : Term w} {size : Option Nat} {a place n : Nat} (x : Nat) :
    (∃ c, (m.storeTerm a t size place n).get? x = some c ∧ a ≤ x ∧ x < a + n ∧
        c.byte = t.mkSlice (8 * (place + (x - a))) 8) ∨
      (m.storeTerm a t size place n).get? x = m.get? x ∧ ¬ (a ≤ x ∧ x < a + n) := by
  induction n generalizing m a place with
  | zero => exact Or.inr ⟨rfl, by omega⟩
  | succ n ih =>
    obtain ⟨cell, hcell, heq⟩ := exists_storeTerm_succ (m := m) t size a place n
    rw [heq]
    rcases @ih (m.insert a cell) (a + 1) (place + 1) with ⟨c, hc, h1, h2, hb⟩ | ⟨h, hout⟩
    · refine Or.inl ⟨c, hc, by omega, by omega, ?_⟩
      rw [hb, show place + 1 + (x - (a + 1)) = place + (x - a) by omega]
    · rw [h, get?_insert]
      by_cases hx : a = x
      · subst hx
        refine Or.inl ⟨cell, if_pos rfl, Nat.le_refl a, by omega, ?_⟩
        rw [Nat.sub_self, Nat.add_zero, hcell]
      · rw [if_neg hx]
        exact Or.inr ⟨rfl, by omega⟩

theorem get?_store_of_mem {v : Value} {a n x : Nat} (h : a ≤ x ∧ x < a + n) :
    ∃ c, (m.store a v n).get? x = some c ∧ c.byte = v.term.mkSlice (8 * (x - a)) 8 := by
  rcases @get?_storeTerm m v.width v.term (if v.isSymbolic then some n else none) a 0 n x with
    ⟨c, hc, _, _, hb⟩ | ⟨_, hout⟩
  · exact ⟨c, hc, by rwa [Nat.zero_add] at hb⟩
  · exact absurd h hout

theorem get?_store_of_not_mem {v : Value} {a n x : Nat} (h : ¬ (a ≤ x ∧ x < a + n)) :
    (m.store a v n).get? x = m.get? x := by
  rcases @get?_storeTerm m v.width v.term (if v.isSymbolic then some n else none) a 0 n x with
    ⟨c, hc, h1, h2, _⟩ | ⟨heq, _⟩
  · exact absurd ⟨h1, h2⟩ h
  · exact heq

theorem get?_store_ne_none {v : Value} {a n x : Nat} (h : m.get? x ≠ none) :
    (m.store a v n).get? x ≠ none := by
  by_cases hx : a ≤ x ∧ x < a + n
  · obtain ⟨c, hc, _⟩ := @get?_store_of_mem m v a n x hx
    rw [hc]
    exact Option.some_ne_none c
  · rwa [get?_store_of_not_mem hx]

theorem byte_meaning {v : Value} {i : Input} (k : Nat) :
    (v.term.mkSlice (8 * k) 8).meaning i.reading = (v.word i).byte k := by
  rw [Term.meaning_mkSlice]
  rfl

/-- Writing a value writes its word. -/
theorem byteAt_store (v : Value) (a n : Nat) (i : Input) (x : Nat) :
    (m.store a v n).byteAt i x = if a ≤ x ∧ x < a + n then (v.word i).byte (x - a) else m.byteAt i x := by
  unfold byteAt
  by_cases h : a ≤ x ∧ x < a + n
  · obtain ⟨c, hc, hb⟩ := @get?_store_of_mem m v a n x h
    rw [if_pos h, hc]
    dsimp only
    rw [hb, byte_meaning]
  · rw [if_neg h, get?_store_of_not_mem h]

theorem known_store {v : Value} (hm : m.Known T) (hv : v.Known T) (a n : Nat) : (m.store a v n).Known T := by
  intro x c hc
  by_cases hx : a ≤ x ∧ x < a + n
  · obtain ⟨d, hd, hb⟩ := @get?_store_of_mem m v a n x hx
    obtain rfl := Option.some.inj (hc.symm.trans hd)
    rw [hb]
    exact Term.known_mkSlice hv _ _
  · rw [get?_store_of_not_mem hx] at hc
    exact hm x c hc

theorem Known.append (hm : m.Known T) (new : Table) : m.Known (T ++ new) :=
  fun a c hc => (hm a c hc).append new

theorem Apart.store (h : Apart T m) (v : Value) (a n : Nat) : Apart T (m.store a v n) where
  stored b j hb x h1 h2 := get?_store_ne_none (h.stored b j hb x h1 h2)
  disjoint := h.disjoint
  named := h.named

/-! ## Runs of cells -/

theorem unknownRun_le (a n : Nat) : m.unknownRun a n ≤ n := by
  induction n generalizing a with
  | zero => exact Nat.le_refl 0
  | succ n ih =>
    have := ih (a + 1)
    unfold unknownRun
    split
    · omega
    · split <;> omega

theorem get?_of_lt_unknownRun {a n x : Nat} (h1 : a ≤ x) (h2 : x < a + m.unknownRun a n) :
    m.get? x = none := by
  induction n generalizing a with
  | zero =>
    simp only [unknownRun] at h2
    omega
  | succ n ih =>
    unfold unknownRun at h2
    split at h2
    · omega
    · rename_i hno
      have ha : m.get? a = none := by
        cases hget : m.get? a with
        | none => rfl
        | some c => exact absurd ((contains_iff a).mpr (by rw [hget]; exact Option.some_ne_none c)) hno
      by_cases hx : x = a
      · rw [hx]
        exact ha
      · split at h2
        · omega
        · exact ih (a := a + 1) (by omega) (by omega)

theorem length_pieceFrom_le (a : Nat) (c : Cell) (n : Nat) : (m.pieceFrom a c n).length ≤ n := by
  induction n generalizing a c with
  | zero => exact Nat.le_refl 0
  | succ n ih =>
    unfold pieceFrom
    split
    · exact Nat.zero_le _
    · split
      · exact Nat.zero_le _
      · rename_i d _
        split
        · have := ih (a + 1) d
          simp only [List.length_cons]
          omega
        · exact Nat.zero_le _

/-- The bytes of a piece are those of the cells one after another. -/
theorem get?_of_pieceFrom {a n k : Nat} {c : Cell} {b : Byte} (h : (m.pieceFrom a c n)[k]? = some b) :
    ∃ d, m.get? (a + 1 + k) = some d ∧ d.byte = b := by
  induction n generalizing a c k with
  | zero => cases h
  | succ n ih =>
    unfold pieceFrom at h
    split at h
    · cases h
    · split at h
      · cases h
      · rename_i d hd
        split at h
        · cases k with
          | zero => exact ⟨d, hd, Option.some.inj h⟩
          | succ k =>
            obtain ⟨d', hd', hb⟩ := ih h
            exact ⟨d', by rwa [Nat.add_assoc _ 1 k, Nat.add_comm 1 k] at hd', hb⟩
        · cases h

/-! ## The parts of a read -/

/-- The symbol that is made of the `n` bytes from `a` on. -/
def unknown (supply a n : Nat) : Value :=
  ⟨(.symbol ⟨supply, (Origin.memory a n).name⟩ : Term (8 * n))⟩

/-- What the read of the `n` bytes from `a` on goes through: the bytes of pieces, each time with some bytes behind them that
are left out, and runs of unknown bytes, of each of which it makes a symbol. What is left out begins with an unknown byte,
not as far behind the first byte of the piece as the piece is long. -/
inductive Reads : Memory → Nat → Nat → Nat → List Value × Memory × Nat → Prop
  | done {m : Memory} {supply a : Nat} : Reads m supply a 0 ([], m, supply)
  | piece {m m' : Memory} {supply supply' a n skipped : Nat} {bytes : List Byte} {rest : List Value}
      (hlen : bytes.length ≤ n)
      (hbytes : ∀ k b, bytes[k]? = some b → ∃ c, m.get? (a + k) = some c ∧ c.byte = b)
      (hskipped : skipped ≤ n - bytes.length)
      (hleft : skipped ≠ 0 → ∃ c, m.get? a = some c ∧ bytes.length < c.size ∧ m.get? (a + bytes.length) = none)
      (h : Reads m supply (a + bytes.length + skipped) (n - bytes.length - skipped) (rest, m', supply')) :
      Reads m supply a n (bytes.map (⟨·⟩) ++ rest, m', supply')
  | unknown {m m' : Memory} {supply supply' a n run : Nat} {rest : List Value} (hrun : run ≤ n)
      (hout : ∀ x, a ≤ x → x < a + run → m.get? x = none)
      (h : Reads (m.store a (unknown supply a run) run) (supply + 1) (a + run) (n - run) (rest, m', supply')) :
      Reads m supply a n (Memory.unknown supply a run :: rest, m', supply')

/-- With enough fuel a read goes through all of the bytes. -/
theorem reads_loadBytes {fuel supply a n : Nat} (hn : n ≤ fuel) : Reads m supply a n (loadBytes fuel m supply a n) := by
  induction fuel generalizing m supply a n with
  | zero =>
    obtain rfl : n = 0 := by omega
    exact .done
  | succ fuel ih =>
    cases n with
    | zero => exact .done
    | succ n =>
      unfold loadBytes
      cases hc : m.get? a with
      | some c =>
        -- the bytes of one value that follow each other, and those of it that are unknown behind them
        dsimp only
        have hlen := length_pieceFrom_le (m := m) a c n
        generalize hbytes : c.byte :: m.pieceFrom a c n = bytes
        have hpos : bytes.length = (m.pieceFrom a c n).length + 1 := by
          rw [← hbytes, List.length_cons]
        generalize hskipped : (if (a + bytes.length) % pageSize = 0 then 0
          else m.unknownRun (a + bytes.length) (min (c.size - bytes.length) (n + 1 - bytes.length))) =
            skipped
        have hle : skipped ≤ n + 1 - bytes.length := by
          rw [← hskipped]
          split
          · omega
          · exact Nat.le_trans (unknownRun_le _ _) (Nat.min_le_right _ _)
        refine .piece (by omega) ?_ hle (fun hne => ⟨c, hc, ?_, ?_⟩) (ih (by omega))
        · intro k b hk
          rw [← hbytes] at hk
          cases k with
          | zero => exact ⟨c, hc, Option.some.inj hk⟩
          | succ k =>
            obtain ⟨d, hd, hb⟩ := get?_of_pieceFrom hk
            exact ⟨d, by rwa [Nat.add_assoc a 1 k, Nat.add_comm 1 k] at hd, hb⟩
        · have hrun := unknownRun_le (m := m) (a + bytes.length) (min (c.size - bytes.length) (n + 1 - bytes.length))
          split at hskipped <;> omega
        · split at hskipped
          · omega
          · exact get?_of_lt_unknownRun (n := min (c.size - bytes.length) (n + 1 - bytes.length)) (Nat.le_refl _)
              (by omega)
      | none =>
        -- all unknown bytes up to the next one that is there become one symbol
        dsimp only
        have hle := unknownRun_le (m := m) a (n + 1)
        generalize hrun : max 1 (m.unknownRun a (n + 1)) = run
        have hout : ∀ x, a ≤ x → x < a + run → m.get? x = none := by
          intro x h1 h2
          by_cases hx : x = a
          · rw [hx, hc]
          · exact get?_of_lt_unknownRun (n := n + 1) h1 (by omega)
        exact .unknown (by omega) hout (ih (by omega))

/-! ## Reading -/

/-- What a read of the `n` bytes from `a` on does: it adds symbols to the table, each with cells that were
not there before, and leaves every byte as it was. -/
structure Filled (T : Table) (m : Memory) (a n : Nat) (T' : Table) (m' : Memory) : Prop where
  known : m'.Known T'
  apart : Apart T' m'
  byteAt : ∀ i, m'.byteAt i = m.byteAt i
  stored : ∀ x, m.get? x ≠ none → m'.get? x ≠ none
  fresh : ∃ new, T' = T ++ new ∧ ∀ o ∈ new, ∃ b j, o = .memory b j ∧ a ≤ b ∧ b + j ≤ a + n ∧
    ∀ x, b ≤ x → x < b + j → m.get? x = none

theorem Filled.refl (hm : m.Known T) (h : Apart T m) (a n : Nat) : Filled T m a n T m where
  known := hm
  apart := h
  byteAt _ := rfl
  stored _ hx := hx
  fresh := ⟨[], (List.append_nil T).symm, fun _ ho => absurd ho List.not_mem_nil⟩

theorem Filled.trans {T₁ T₂ : Table} {m₁ m₂ : Memory} {a n a₁ n₁ : Nat} (h₁ : Filled T m a n T₁ m₁)
    (h₂ : Filled T₁ m₁ a₁ n₁ T₂ m₂) (ha : a ≤ a₁) (hn : a₁ + n₁ ≤ a + n) : Filled T m a n T₂ m₂ where
  known := h₂.known
  apart := h₂.apart
  byteAt i := (h₂.byteAt i).trans (h₁.byteAt i)
  stored x hx := h₂.stored x (h₁.stored x hx)
  fresh := by
    obtain ⟨new₁, rfl, hnew₁⟩ := h₁.fresh
    obtain ⟨new₂, rfl, hnew₂⟩ := h₂.fresh
    refine ⟨new₁ ++ new₂, List.append_assoc T new₁ new₂, fun o ho => ?_⟩
    rcases List.mem_append.mp ho with ho | ho
    · exact hnew₁ o ho
    · obtain ⟨b, j, rfl, hb, hj, hout⟩ := hnew₂ o ho
      refine ⟨b, j, rfl, by omega, by omega, fun x h1 h2 => ?_⟩
      -- what was there before the first part of the read was there before the second
      cases hx : m.get? x with
      | none => rfl
      | some c =>
        exact absurd (hout x h1 h2) (h₁.stored x (by rw [hx]; exact Option.some_ne_none c))

/-- A read of some bytes is part of every read that covers them. -/
theorem Filled.widen {T' : Table} {m' : Memory} {a n a₁ n₁ : Nat} (h : Filled T m a₁ n₁ T' m')
    (ha : a ≤ a₁) (hn : a₁ + n₁ ≤ a + n) : Filled T m a n T' m' where
  known := h.known
  apart := h.apart
  byteAt := h.byteAt
  stored := h.stored
  fresh := by
    obtain ⟨new, hnew, hout⟩ := h.fresh
    refine ⟨new, hnew, fun o ho => ?_⟩
    obtain ⟨b, j, ho, hb, hj, hx⟩ := hout o ho
    exact ⟨b, j, ho, by omega, by omega, hx⟩

theorem known_unknown (T : Table) (a n : Nat) : (unknown T.length a n).Known (T ++ [.memory a n]) :=
  Term.known_symbol (o := .memory a n) List.getElem?_concat_length

theorem toNat_unknown (i : Input) (supply a n : Nat) :
    ((unknown supply a n).word i).toNat = number i.byte a n := by
  show (i.reading _ (Origin.memory a n).width).toNat = _
  rw [Input.reading_of_origin, BitVec.toNat_ofNat]
  exact Nat.mod_eq_of_lt (number_lt _ _ _)

/-- An entry of a table with one more is one of before, or the new one. -/
theorem of_getElem?_concat {T : Table} {o o' : Origin} {k : Nat} (h : (T ++ [o])[k]? = some o') :
    T[k]? = some o' ∨ k = T.length ∧ o' = o := by
  rcases Nat.lt_or_ge k T.length with hlt | hge
  · exact Or.inl (by rwa [List.getElem?_append_left hlt] at h)
  · rw [List.getElem?_append_right hge] at h
    obtain ⟨hk, heq⟩ := List.getElem?_eq_some_iff.mp h
    simp only [List.length_singleton] at hk
    rw [List.getElem_singleton] at heq
    exact Or.inr ⟨by omega, heq.symm⟩

/-- A symbol for bytes that are not there stands apart from the others. -/
theorem apart_store_symbol (h : Apart T m) {a n : Nat} (v : Value) (hout : ∀ x, a ≤ x → x < a + n → m.get? x = none) :
    Apart (T ++ [.memory a n]) (m.store a v n) where
  stored := by
    intro b j hb x h1 h2
    rcases List.mem_append.mp hb with hb | hb
    · exact get?_store_ne_none (h.stored b j hb x h1 h2)
    · obtain ⟨rfl, rfl⟩ := Origin.memory.inj (List.mem_singleton.mp hb)
      obtain ⟨c, hc, _⟩ := @get?_store_of_mem m v b j x ⟨h1, h2⟩
      rw [hc]
      exact Option.some_ne_none c
  disjoint := by
    intro k l b j b' j' hk hl hne x h1 h2 h3 h4
    -- Two runs of bytes are both old, or one of them is the new one, whose cells no old one holds.
    rcases of_getElem?_concat hk with hk' | ⟨hk', hb⟩ <;> rcases of_getElem?_concat hl with hl' | ⟨hl', hb'⟩
    · exact h.disjoint k l b j b' j' hk' hl' hne x h1 h2 h3 h4
    · obtain ⟨rfl, rfl⟩ := Origin.memory.inj hb'
      exact h.stored b j (List.mem_of_getElem? hk') x h1 h2 (hout x h3 h4)
    · obtain ⟨rfl, rfl⟩ := Origin.memory.inj hb
      exact h.stored b' j' (List.mem_of_getElem? hl') x h3 h4 (hout x h1 h2)
    · exact hne (hk'.trans hl'.symm)
  named := by
    intro k l name v w hk hl
    rcases of_getElem?_concat hk with hk' | ⟨_, hk'⟩ <;> rcases of_getElem?_concat hl with hl' | ⟨_, hl'⟩
    · exact h.named k l name v w hk' hl'
    · cases hl'
    · cases hk'
    · cases hk'

/-- Unknown bytes are as good as a symbol for all of them. -/
theorem filled_store_symbol (hm : m.Known T) (h : Apart T m) {a n : Nat}
    (hout : ∀ x, a ≤ x → x < a + n → m.get? x = none) :
    Filled T m a n (T ++ [.memory a n]) (m.store a (unknown T.length a n) n) where
  known := known_store (hm.append _) (known_unknown T a n) a n
  apart := apart_store_symbol h _ hout
  byteAt := by
    intro i
    funext x
    rw [byteAt_store]
    split
    · rename_i hx
      show BitVec.extractLsb' _ 8 ((unknown T.length a n).word i).bits = _
      rw [extract_byte, ← Word.toNat, toNat_unknown, byte_number (by omega), Nat.add_sub_cancel' hx.1,
        Memory.byteAt, hout x hx.1 hx.2]
    · rfl
  stored _ hx := get?_store_ne_none hx
  fresh := ⟨_, rfl, fun o ho => ⟨a, n, List.mem_singleton.mp ho, Nat.le_refl a, Nat.le_refl _, hout⟩⟩

theorem concat_append (us vs : List Word) :
    (Word.concat (us ++ vs)).toNat =
      2 ^ (us.map Word.width).sum * (Word.concat vs).toNat + (Word.concat us).toNat := by
  induction us with
  | nil => simp [Word.concat, Word.ofNat, Word.toNat]
  | cons u us ih =>
    rw [List.cons_append, Word.toNat_concat_cons, ih, Word.toNat_concat_cons, List.map_cons,
      List.sum_cons, Nat.pow_add, Nat.mul_add, Nat.mul_assoc, Nat.add_assoc]

/-- Bytes one above another make the number that they write. -/
theorem toNat_concat_bytes {bytes : Bytes} {a : Nat} {bs : List (BitVec 8)}
    (h : ∀ k b, bs[k]? = some b → bytes (a + k) = b) :
    (Word.concat (bs.map fun b => ⟨b⟩)).toNat = number bytes a bs.length := by
  induction bs generalizing a with
  | nil => rfl
  | cons b bs ih =>
    have h0 := h 0 b rfl
    rw [Nat.add_zero] at h0
    rw [List.map_cons, Word.toNat_concat_cons, ih, List.length_cons, number, h0, Nat.add_comm]
    · rfl
    · intro k c hk
      have := h (k + 1) c hk
      rwa [show a + (k + 1) = a + 1 + k by omega] at this

theorem sum_width_bytes (bytes : List Byte) :
    ((bytes.map fun b => (⟨b⟩ : Value)).map Value.width).sum = 8 * bytes.length := by
  have hconst : (Value.width ∘ fun b : Byte => (⟨b⟩ : Value)) = fun _ => 8 := rfl
  rw [List.map_map, hconst, List.map_const', List.sum_replicate_nat, Nat.mul_comm]

/-- Bytes that are there make the number that an input has there. -/
theorem toNat_concat_piece {bytes : List Byte} {a : Nat}
    (hbytes : ∀ k b, bytes[k]? = some b → ∃ c, m.get? (a + k) = some c ∧ c.byte = b) (i : Input) :
    (Word.concat ((bytes.map fun b => (⟨b⟩ : Value)).map (Value.word i))).toNat =
      number (m.byteAt i) a bytes.length := by
  have hstored : ∀ k b, (bytes.map fun b => b.meaning i.reading)[k]? = some b → m.byteAt i (a + k) = b := by
    intro k b hk
    obtain ⟨t, ht, rfl⟩ := Option.map_eq_some_iff.mp ((List.getElem?_map ..).symm.trans hk)
    obtain ⟨c, hc, rfl⟩ := hbytes k t ht
    unfold byteAt
    rw [hc]
  have hconcat := toNat_concat_bytes hstored
  rw [List.map_map, List.length_map] at hconcat
  rw [List.map_map]
  exact hconcat

/-- What a read comes to: what it does to memory and the table, and, unless it left out bytes, the number
that its parts make. -/
structure Loads (T : Table) (m : Memory) (a n : Nat) (r : List Value × Memory × Nat) (T' : Table) :
    Prop where
  filled : Filled T m a n T' r.2.1
  supply : r.2.2 = T'.length
  known : ∀ v ∈ r.1, v.Known T'
  width_le : (r.1.map Value.width).sum ≤ 8 * n
  toNat : (r.1.map Value.width).sum = 8 * n →
    ∀ i, (Word.concat (r.1.map (Value.word i))).toNat = number (m.byteAt i) a n

/-- A read goes on behind a piece, and behind what it leaves out. -/
theorem Loads.piece {T' : Table} {a n skipped : Nat} {bytes : List Byte} {rest : List Value}
    {m' : Memory} {supply : Nat} (hlen : bytes.length ≤ n)
    (hbytes : ∀ k b, bytes[k]? = some b → ∃ c, m.get? (a + k) = some c ∧ c.byte = b) (hm : m.Known T)
    (h : Loads T m (a + bytes.length + skipped) (n - bytes.length - skipped) (rest, m', supply) T')
    (hskipped : skipped ≤ n - bytes.length) :
    Loads T m a n (bytes.map (⟨·⟩) ++ rest, m', supply) T' := by
  have hwidth := sum_width_bytes bytes
  obtain ⟨hfilled, hsupply, hknown, hle, htoNat⟩ := h
  obtain ⟨new, hnew, _⟩ := hfilled.fresh
  refine ⟨?_, hsupply, ?_, ?_, ?_⟩
  · exact hfilled.widen (by omega) (by omega)
  · intro v hv
    rcases List.mem_append.mp hv with hv | hv
    · obtain ⟨b, hb, rfl⟩ := List.mem_map.mp hv
      obtain ⟨k, hk⟩ := List.mem_iff_getElem?.mp hb
      obtain ⟨c, hc, rfl⟩ := hbytes k b hk
      rw [hnew]
      exact (hm _ c hc).append new
    · exact hknown v hv
  · rw [List.map_append, List.sum_append, hwidth]
    dsimp only at hle
    omega
  · intro hsum i
    rw [List.map_append, List.sum_append, hwidth] at hsum
    dsimp only at hle htoNat
    -- The widths add up only if no byte was left out.
    obtain rfl : skipped = 0 := by omega
    have hwords : ((bytes.map fun b => (⟨b⟩ : Value)).map (Value.word i)).map Word.width =
        (bytes.map fun b => (⟨b⟩ : Value)).map Value.width := by
      rw [List.map_map]
      rfl
    rw [List.map_append, concat_append, hwords, hwidth, toNat_concat_piece hbytes i, htoNat (by omega) i, Nat.add_comm,
      Nat.add_zero, Nat.sub_zero, ← number_add, Nat.add_sub_cancel' hlen]

/-- A read goes on behind a run of unknown bytes, of which it makes a symbol. -/
theorem Loads.unknown {T' : Table} {a n run : Nat} {rest : List Value} {m' : Memory} {supply : Nat}
    (hrun : run ≤ n) (hout : ∀ x, a ≤ x → x < a + run → m.get? x = none) (hm : m.Known T)
    (hapart : Apart T m)
    (h : Loads (T ++ [.memory a run]) (m.store a (unknown T.length a run) run) (a + run) (n - run)
      (rest, m', supply) T') :
    Loads T m a n (Memory.unknown T.length a run :: rest, m', supply) T' := by
  have hfirst := filled_store_symbol hm hapart hout
  obtain ⟨hfilled, hsupply, hknown, hle, htoNat⟩ := h
  obtain ⟨new, hnew, _⟩ := hfilled.fresh
  have hwidth : (Memory.unknown T.length a run).width = 8 * run := rfl
  refine ⟨?_, hsupply, ?_, ?_, ?_⟩
  · exact (hfirst.widen (Nat.le_refl a) (by omega)).trans hfilled (by omega) (by omega)
  · intro v hv
    rcases List.mem_cons.mp hv with rfl | hv
    · rw [hnew]
      exact (known_unknown T a run).append new
    · exact hknown v hv
  · rw [List.map_cons, List.sum_cons, hwidth]
    dsimp only at hle
    omega
  · intro hsum i
    rw [List.map_cons, List.sum_cons, hwidth] at hsum
    dsimp only at hle htoNat
    -- None of these cells is stored, so the memory reads the input's own bytes there.
    have hsame : number i.byte a run = number (m.byteAt i) a run := by
      refine number_congr fun k hk => ?_
      unfold byteAt
      rw [hout (a + k) (by omega) (by omega)]
    rw [List.map_cons, Word.toNat_concat_cons, htoNat (by omega) i, toNat_unknown, hsame, hfirst.byteAt i,
      Value.width_word, hwidth, Nat.add_comm, ← number_add, Nat.add_sub_cancel' hrun]

/-- **Reading.** The parts that a read is made of are the bytes that are there. -/
theorem loadBytes_spec {fuel a n : Nat} (hn : n ≤ fuel) (hm : m.Known T) (h : Apart T m) :
    ∃ T', Loads T m a n (loadBytes fuel m T.length a n) T' := by
  generalize hsupply : T.length = supply
  have hreads := @reads_loadBytes m fuel supply a n hn
  generalize loadBytes fuel m supply a n = r at hreads
  clear hn
  induction hreads generalizing T with
  | done =>
    refine ⟨T, .refl hm h _ 0, hsupply.symm, fun _ hv => absurd hv List.not_mem_nil, Nat.le_refl 0, fun _ _ => rfl⟩
  | piece hlen hbytes hskipped _ _ ih =>
    obtain ⟨T', h'⟩ := ih hm h hsupply
    exact ⟨T', Loads.piece hlen hbytes hm h' hskipped⟩
  | unknown hrun hout _ ih =>
    subst hsupply
    have hfirst := filled_store_symbol hm h hout
    obtain ⟨T', h'⟩ := ih hfirst.known hfirst.apart (by rw [List.length_append, List.length_singleton])
    exact ⟨T', Loads.unknown hrun hout hm h h'⟩

/-- **Reading a value.** Unless it is narrower than what was asked for, a value that is read is the word that
the bytes write. -/
theorem load_spec {a n : Nat} (hm : m.Known T) (h : Apart T m) {v : Value} {m' : Memory} {supply : Nat}
    (hload : m.load T.length a n = (v, m', supply)) :
    ∃ T', Filled T m a n T' m' ∧ supply = T'.length ∧ v.Known T' ∧
      (v.width = 8 * n → ∀ i, v.word i = Word.load (m.byteAt i) a (8 * n)) := by
  obtain ⟨T', h'⟩ := loadBytes_spec (a := a) (Nat.le_refl n) hm h
  simp only [load, Prod.mk.injEq] at hload
  obtain ⟨rfl, rfl, rfl⟩ := hload
  refine ⟨T', h'.filled, h'.supply, Value.known_concat h'.known, fun hw i => ?_⟩
  apply Word.ext_toNat
  · exact hw
  · rw [Value.width_concat] at hw
    have hcount : Machine.byteCount (8 * n) = n := by
      unfold Machine.byteCount
      omega
    rw [Value.word_concat, h'.toNat hw i, Word.load, hcount]
    exact (Nat.mod_eq_of_lt (number_lt _ _ _)).symm

/-! ## Reading bytes that are there -/

variable {f : Nat → Byte} {fuel supply a n : Nat}

theorem unknownRun_eq_zero (h : m.get? a ≠ none) (n : Nat) : m.unknownRun a n = 0 := by
  cases n with
  | zero => rfl
  | succ n =>
    unfold unknownRun
    rw [if_pos ((contains_iff a).mpr h)]

/-- A piece goes on with the bytes that are there. -/
theorem cons_pieceFrom_eq {c : Cell} (hc : m.get? a = some c)
    (h : ∀ k < n + 1, ∃ c, m.get? (a + k) = some c ∧ c.byte = f k) :
    c.byte :: m.pieceFrom a c n = (List.range (c.byte :: m.pieceFrom a c n).length).map f := by
  have hlen := length_pieceFrom_le (m := m) a c n
  apply List.ext_getElem?
  intro k
  rw [List.getElem?_map, List.length_cons]
  by_cases hk : k < (m.pieceFrom a c n).length + 1
  · rw [List.getElem?_range hk, Option.map_some]
    obtain ⟨d, hd, hbyte⟩ := h k (by omega)
    cases k with
    | zero =>
      obtain rfl := Option.some.inj (hc.symm.trans hd)
      rw [← hbyte]
      rfl
    | succ k =>
      obtain ⟨b, hb⟩ : ∃ b, (m.pieceFrom a c n)[k]? = some b := ⟨_, List.getElem?_eq_getElem (by omega)⟩
      obtain ⟨d', hd', rfl⟩ := get?_of_pieceFrom hb
      rw [Nat.add_assoc, Nat.add_comm 1 k] at hd'
      obtain rfl := Option.some.inj (hd.symm.trans hd')
      rw [List.getElem?_cons_succ, hb, ← hbyte]
  · rw [List.getElem?_eq_none (by simpa using hk), List.getElem?_eq_none (by simpa using hk)]
    rfl

/-- **Bytes that are there** are read one after another, and nothing else is done. -/
theorem loadBytes_of_forall (hn : n ≤ fuel) (h : ∀ k < n, ∃ c, m.get? (a + k) = some c ∧ c.byte = f k) :
    loadBytes fuel m supply a n = ((List.range n).map fun k => ⟨f k⟩, m, supply) := by
  induction fuel generalizing a n f with
  | zero =>
    obtain rfl : n = 0 := by omega
    rfl
  | succ fuel ih =>
    cases n with
    | zero => rfl
    | succ n =>
      obtain ⟨c, hc, _⟩ := h 0 (by omega)
      rw [Nat.add_zero] at hc
      have hpiece := cons_pieceFrom_eq hc h
      have hlen := length_pieceFrom_le (m := m) a c n
      unfold loadBytes
      rw [hc]
      dsimp only
      generalize hbytes : c.byte :: m.pieceFrom a c n = bytes at hpiece
      have hpos : bytes.length = (m.pieceFrom a c n).length + 1 := by rw [← hbytes, List.length_cons]
      -- what follows a piece is there, or beyond what is read
      have hskipped : (if (a + bytes.length) % pageSize = 0 then 0
          else m.unknownRun (a + bytes.length) (min (c.size - bytes.length) (n + 1 - bytes.length))) = 0 := by
        split
        · rfl
        · rcases Nat.lt_or_ge bytes.length (n + 1) with hlt | hge
          · obtain ⟨d, hd, _⟩ := h bytes.length hlt
            exact unknownRun_eq_zero (by rw [hd]; exact Option.some_ne_none d) _
          · rw [Nat.sub_eq_zero_of_le hge, Nat.min_zero]
            rfl
      have hrest := @ih (fun k => f (bytes.length + k)) (a + bytes.length) (n + 1 - bytes.length) (by omega) fun k hk => by
        rw [Nat.add_assoc]
        exact h (bytes.length + k) (by omega)
      have hrange : List.range (n + 1) =
          List.range bytes.length ++ (List.range (n + 1 - bytes.length)).map (bytes.length + ·) := by
        rw [← List.range_add, Nat.add_sub_cancel' (by omega)]
      rw [hskipped, Nat.add_zero, Nat.sub_zero, hrest, hrange, List.map_append, List.map_map]
      dsimp only
      rw [Prod.mk.injEq]
      refine ⟨?_, rfl⟩
      congr 1
      rw [hpiece, List.map_map, List.length_map, List.length_range]
      rfl

end Memory

end PathSafety
