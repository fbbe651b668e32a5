import Mathlib.Data.List.TakeWhile
import PathSafety.Text.Scan

/-!
# Numerals

Numbers are written in decimal digits and read back as what they are, up to where something else follows.

Contents:

* `digits_append` — reading digits;
* `nat?_toDigits`, `int?_toString` — reading numbers that were written;
* `nat?_concat`, `int?_concat` — what is left of a text that does not end in a digit.
-/

namespace PathSafety.Text

variable {c : Char} {s t : List Char}

theorem toNat_of_isDigit (h : c.isDigit = true) : 48 ≤ c.toNat ∧ c.toNat ≤ 57 := by
  unfold Char.isDigit at h
  rw [Bool.and_eq_true, decide_eq_true_iff, decide_eq_true_iff] at h
  exact h

theorem digitValue?_of_isDigit (h : c.isDigit = true) : digitValue? c = some (c.toNat - 48) := by
  have hbounds := toNat_of_isDigit h
  unfold digitValue?
  dsimp only
  rw [if_pos (by omega), if_pos h]

theorem isBlank_of_isDigit (h : c.isDigit = true) : isBlank c = false := by
  have hbounds := toNat_of_isDigit h
  unfold isBlank
  simp only [Bool.or_eq_false_iff, Bool.and_eq_false_iff, decide_eq_false_iff_not, beq_eq_false_iff_ne]
  omega

/-- Digits are read up to where something else follows. -/
theorem digits_append (hs : ∀ c ∈ s, c.isDigit = true) (ht : ∀ c ∈ t.head?, digitValue? c = none) :
    digits (s ++ t) = (s.map (·.toNat - 48), t) := by
  induction s with
  | nil =>
    cases t with
    | nil => rfl
    | cons c t =>
      rw [List.nil_append]
      unfold digits
      rw [ht c rfl]
      rfl
  | cons c s ih =>
    obtain ⟨hc, hs⟩ := List.forall_mem_cons.mp hs
    rw [List.cons_append]
    unfold digits
    rw [digitValue?_of_isDigit hc, ih hs]
    rfl

/-- A number is read from the digits that it is written in. -/
theorem nat?_toDigits (n : Nat) (ht : ∀ c ∈ t.head?, digitValue? c = none) :
    nat? (Nat.toDigits 10 n ++ t) = some (n, t) := by
  have hdigits : ∀ c ∈ Nat.toDigits 10 n, c.isDigit = true := fun c hc =>
    Nat.isDigit_of_mem_toDigits (by decide) (by decide) hc
  have hvalue : ofDigits ((Nat.toDigits 10 n).map (·.toNat - 48)) = n := by
    unfold ofDigits
    rw [List.foldl_map]
    exact Nat.ofDigitChars_toDigits (by decide) (by decide)
  unfold nat?
  rw [digits_append hdigits ht]
  cases hcons : (Nat.toDigits 10 n).map (·.toNat - 48) with
  | nil => exact absurd (List.map_eq_nil_iff.mp hcons) Nat.toDigits_ne_nil
  | cons d ds =>
    rw [hcons] at hvalue
    dsimp only
    rw [hvalue]

/-- The first digit of a number. -/
theorem exists_toDigits_eq_cons (n : Nat) :
    ∃ d ds, Nat.toDigits 10 n = d :: ds ∧ d.isDigit = true ∧ ∀ c ∈ ds, c.isDigit = true := by
  cases h : Nat.toDigits 10 n with
  | nil => exact absurd h Nat.toDigits_ne_nil
  | cons d ds =>
    have hdigits : ∀ c ∈ d :: ds, c.isDigit = true := fun c hc =>
      Nat.isDigit_of_mem_toDigits (by decide) (by decide) (h ▸ hc)
    exact ⟨d, ds, rfl, List.forall_mem_cons.mp hdigits⟩

/-- The text of an integer: its digits, behind a minus sign if it is negative. -/
theorem toList_toString_int (k : Int) : (toString k).toList =
    if k < 0 then '-' :: Nat.toDigits 10 k.natAbs else Nat.toDigits 10 k.natAbs := by
  cases k with
  | ofNat n =>
    rw [if_neg (by simp)]
    exact Nat.toList_repr
  | negSucc n =>
    rw [if_pos (Int.negSucc_lt_zero n)]
    show ("-" ++ (n + 1).repr).toList = _
    rw [String.toList_append, Nat.toList_repr]
    rfl

/-- The text of an integer ends with a digit. -/
theorem exists_toString_eq_concat (k : Int) : ∃ s c, (toString k).toList = s ++ [c] ∧ c.isDigit = true := by
  have hdigits : Nat.toDigits 10 k.natAbs = (Nat.toDigits 10 k.natAbs).dropLast ++
      [(Nat.toDigits 10 k.natAbs).getLast Nat.toDigits_ne_nil] :=
    (List.dropLast_concat_getLast Nat.toDigits_ne_nil).symm
  have hlast := Nat.isDigit_of_mem_toDigits (by decide) (by decide) (List.getLast_mem (@Nat.toDigits_ne_nil k.natAbs 10))
  rw [toList_toString_int]
  split
  · exact ⟨'-' :: _, _, congrArg ('-' :: ·) hdigits, hlast⟩
  · exact ⟨_, _, hdigits, hlast⟩

/-- An integer is read from how it is written. -/
theorem int?_toString (k : Int) (ht : ∀ c ∈ t.head?, digitValue? c = none) :
    int? ((toString k).toList ++ t) = some (k, t) := by
  rw [toList_toString_int]
  split
  · rw [List.cons_append]
    show (nat? _).map _ = _
    rw [nat?_toDigits _ ht, Option.map_some]
    exact congrArg some (congrArg (·, t) (by omega))
  · obtain ⟨d, ds, hcons, hd, _⟩ := exists_toDigits_eq_cons k.natAbs
    have hread := nat?_toDigits k.natAbs ht
    rw [hcons, List.cons_append] at hread ⊢
    -- a digit is no minus sign
    have hsign : ∀ x, d ≠ '-' → int? (d :: x) = (nat? (d :: x)).map fun r => ((r.1 : Int), r.2) := by
      intro x hne
      unfold int?
      split
      · rename_i heq
        exact absurd (List.cons.inj heq).1 hne
      · rfl
    rw [hsign _ (by rintro rfl; cases hd), hread, Option.map_some]
    exact congrArg some (congrArg (·, t) (by omega))

/-! ## Texts that do not end in a digit -/

variable {k : Nat} {j : Int}

theorem digits_concat (hc : digitValue? c = none) (s : List Char) : ∃ ds r, digits (s ++ [c]) = (ds, r ++ [c]) := by
  induction s with
  | nil => exact ⟨[], [], by rw [List.nil_append, digits, hc]⟩
  | cons d s ih =>
    obtain ⟨ds, r, ih⟩ := ih
    rw [List.cons_append, digits]
    cases digitValue? d with
    | none => exact ⟨[], d :: s, rfl⟩
    | some x => exact ⟨x :: ds, r, by rw [ih]⟩

/-- The last character is left, if it is no digit. -/
theorem nat?_concat (hc : digitValue? c = none) (h : nat? (s ++ [c]) = some (k, t)) : ∃ r, t = r ++ [c] := by
  obtain ⟨ds, r, hdigits⟩ := digits_concat hc s
  unfold nat? at h
  rw [hdigits] at h
  cases ds with
  | nil => cases h
  | cons d ds => exact ⟨r, (Prod.mk.inj (Option.some.inj h)).2.symm⟩

theorem int?_concat (hc : digitValue? c = none) (h : int? (s ++ [c]) = some (j, t)) : t ≠ [] := by
  have hrest : ∀ {u k}, nat? (u ++ [c]) = some (k, t) → t ≠ [] := fun hu => by
    obtain ⟨r, rfl⟩ := nat?_concat hc hu
    exact List.concat_ne_nil c r
  unfold int? at h
  split at h
  · rename_i u hu
    obtain ⟨x, hx, hxt⟩ := Option.map_eq_some_iff.mp h
    obtain rfl : x.2 = t := (Prod.mk.inj hxt).2
    cases s with
    | nil =>
      -- a sign alone is no number
      obtain rfl : [] = u := (List.cons.inj hu).2
      cases hx
    | cons d s =>
      rw [← (List.cons.inj hu).2] at hx
      exact hrest hx
  · obtain ⟨x, hx, hxt⟩ := Option.map_eq_some_iff.mp h
    obtain rfl : x.2 = t := (Prod.mk.inj hxt).2
    exact hrest hx

end PathSafety.Text
