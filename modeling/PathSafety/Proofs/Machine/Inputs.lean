import PathSafety.Proofs.Machine.Access

/-!
# Inputs from valuations

The symbols of a table stand for different parts of an input. So there is an input for any values of the
symbols, and whatever no symbol stands for can be chosen as well.

Contents:

* `Input.ofValuation` — the input in which symbols have the values of a valuation;
* `agree_ofValuation`, `exists_meets` — it gives them these values.
-/

namespace PathSafety

/-- Whether an origin is a parameter of some name. -/
def Origin.isArgument (name : String) : Origin → Bool
  | argument n _ => n == name
  | memory _ _ => false

/-- Whether an origin has the byte at some address. -/
def Origin.hasByte (x : Nat) : Origin → Bool
  | argument _ _ => false
  | memory a n => decide (a ≤ x ∧ x < a + n)

/-- The byte at an address, where symbols have the values of a valuation. -/
def Origin.byteOf (ν : Valuation) (x : Nat) : Nat × Origin → BitVec 8
  | (k, memory a n) => (BitVec.ofNat (8 * n) (ν k)).extractLsb' (8 * (x - a)) 8
  | (_, argument _ _) => 0

/-- The input in which the symbols of a table have the values of a valuation; the bytes that no symbol stands
for are given. -/
def Input.ofValuation (T : Table) (ν : Valuation) (byte : Bytes) : Input where
  arg name := ((T.findIdx? (Origin.isArgument name)).map ν).getD 0
  byte x :=
    match (T.findIdx? (Origin.hasByte x)).bind fun k => T[k]?.map (k, ·) with
    | some o => Origin.byteOf ν x o
    | none => byte x

namespace Machine

variable {s : Setting} {T : Table} {m : Machine} {ν : Valuation} {byte : Bytes}

/-- The first origin with a property is the only one. -/
theorem findIdx?_eq {P : Origin → Bool} {k : Nat} {o : Origin} (hk : T[k]? = some o) (ho : P o = true)
    (honly : ∀ j o', T[j]? = some o' → P o' = true → j = k) : T.findIdx? P = some k := by
  cases hfind : T.findIdx? P with
  | none =>
    have := List.findIdx?_eq_none_iff.mp hfind o (List.mem_of_getElem? hk)
    rw [ho] at this
    cases this
  | some j =>
    obtain ⟨hlt, hP, _⟩ := List.findIdx?_eq_some_iff_getElem.mp hfind
    exact congrArg some (honly j T[j] (List.getElem?_eq_getElem hlt) hP)

theorem byte_ofValuation {memory : Memory} (h : Memory.Apart T memory) {k a n : Nat}
    (hk : T[k]? = some (.memory a n)) {r : Nat} (hr : r < n) :
    (Input.ofValuation T ν byte).byte (a + r) = (BitVec.ofNat (8 * n) (ν k)).extractLsb' (8 * r) 8 := by
  have hfind : T.findIdx? (Origin.hasByte (a + r)) = some k := by
    refine findIdx?_eq hk (decide_eq_true ⟨by omega, by omega⟩) fun j o' hj ho' => ?_
    cases o' with
    | argument => cases ho'
    | memory b i =>
      obtain ⟨h1, h2⟩ := of_decide_eq_true ho'
      by_cases hjk : j = k
      · exact hjk
      · exact (h.disjoint j k b i a n hj hk hjk (a + r) h1 h2 (by omega) (by omega)).elim
  show (match (T.findIdx? (Origin.hasByte (a + r))).bind fun k => T[k]?.map (k, ·) with
    | some o => Origin.byteOf ν (a + r) o
    | none => byte (a + r)) = _
  rw [hfind, Option.bind_some, hk, Option.map_some]
  show BitVec.extractLsb' (8 * (a + r - a)) 8 _ = _
  rw [Nat.add_sub_cancel_left]

/-- The input of a valuation gives the symbols of the table their values. -/
theorem agree_ofValuation {memory : Memory} (h : Memory.Apart T memory) :
    Agree T (Input.ofValuation T ν byte).reading ν := by
  intro k o hk
  rw [Input.reading_of_origin]
  cases o with
  | argument name w =>
    have hfind : T.findIdx? (Origin.isArgument name) = some k := by
      refine findIdx?_eq hk (beq_self_eq_true name) fun j o' hj ho' => ?_
      cases o' with
      | argument n v =>
        obtain rfl := eq_of_beq ho'
        exact h.named j k n v w hj hk
      | memory => cases ho'
    show BitVec.ofNat w (((T.findIdx? (Origin.isArgument name)).map ν).getD 0) = _
    rw [hfind]
    rfl
  | memory a n =>
    show BitVec.ofNat (8 * n) (number (Input.ofValuation T ν byte).byte a n) = _
    rw [number_bytes (BitVec.ofNat (8 * n) (ν k)) (Nat.le_refl _) fun r hr => byte_ofValuation h hk hr,
      BitVec.ofNat_toNat, BitVec.setWidth_eq]
    rfl

/-- What no symbol stands for is as it was chosen. -/
theorem byte_ofValuation_of_free {x : Nat} (h : ∀ a n, .memory a n ∈ T → ¬ (a ≤ x ∧ x < a + n)) :
    (Input.ofValuation T ν byte).byte x = byte x := by
  have hfind : T.findIdx? (Origin.hasByte x) = none := by
    refine List.findIdx?_eq_none_iff.mpr fun o ho => ?_
    cases o with
    | argument => rfl
    | memory a n => exact decide_eq_false (h a n ho)
  show (match (T.findIdx? (Origin.hasByte x)).bind fun k => T[k]?.map (k, ·) with
    | some o => Origin.byteOf ν x o
    | none => byte x) = _
  rw [hfind]
  rfl

/-- The input of a valuation meets the conditions that hold under it. -/
theorem meets_ofValuation {memory : Memory} (h : Memory.Apart T memory) {cs : List Cond}
    (hcs : ∀ c ∈ cs, c.Known T) (hν : Term.AllHold ν cs) : (Input.ofValuation T ν byte).Meets cs :=
  fun c hc => (hcs c hc _ _ (agree_ofValuation h)).trans (hν c hc)

/-- Some input meets the condition of a machine. -/
theorem exists_meets (hm : Sound s T m) : ∃ i : Input, i.Meets m.condition.conds := by
  obtain ⟨ν, hν⟩ := hm.feasible
  exact ⟨Input.ofValuation T ν fun _ => 0, meets_ofValuation hm.apart hm.conds hν⟩

end Machine

end PathSafety
