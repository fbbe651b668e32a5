import PathSafety.Proofs.Name.Closing

/-!
# Taking template arguments away

Names come cut and damaged, with angle brackets that have no partners, and the depth that is counted never goes below
zero. What is left of a character thus depends on everything in front of it. A block that closes its own brackets is
different: whatever the depth is where it begins, nothing is left of it, and the depth behind it is the same.

Contents:

* `Balanced`, `balanced_iff_closes` — texts whose angle brackets are balanced;
* `eraseFrom_block`, `eraseFrom_append_congr` — nothing is left of a block, wherever it stands;
* `angleFree_eraseFrom`, `eraseFrom_sublist`, `eraseTemplates_eq_self` — what is left of a text, and of which texts all
  is left;
* `eraseTemplates_block` — the laws of taking template arguments away.
-/

namespace PathSafety.Name

variable {o e c : Char} {d : Nat} {s t r : List Char}

/-! ## Balanced brackets -/

/-- That the angle brackets of a text are balanced: no beginning closes more than it opens, and in all of the text as
many are closed as are opened. -/
structure Balanced (t : List Char) : Prop where
  beginnings : ∀ p, p <+: t → p.count '>' ≤ p.count '<'
  total : t.count '>' = t.count '<'

theorem forall_prefix_cons {P : List Char → Prop} :
    (∀ p, p <+: c :: s → P p) ↔ P [] ∧ ∀ p, p <+: s → P (c :: p) := by
  constructor
  · intro h
    exact ⟨h [] List.nil_prefix, fun p hp => h (c :: p) ((List.prefix_cons_inj c).mpr hp)⟩
  · rintro ⟨hnil, hcons⟩ p hp
    rcases List.prefix_cons_iff.mp hp with rfl | ⟨q, rfl, hq⟩
    · exact hnil
    · exact hcons q hq

/-- Closing the brackets is a matter of counting those of each beginning. -/
theorem closes_iff_count (h : o ≠ e) : closes o e d t = true ↔
    (∀ p, p <+: t → p.count e ≤ p.count o + d) ∧ t.count e = t.count o + d := by
  induction t generalizing d with
  | nil =>
    rw [closes_nil]
    constructor
    · rintro rfl
      exact ⟨fun p hp => by rw [List.prefix_nil.mp hp]; exact Nat.zero_le _, rfl⟩
    · rintro ⟨-, hd⟩
      simpa using hd.symm
  | cons c t ih =>
    rw [forall_prefix_cons]
    by_cases ho : c = o
    · subst ho
      rw [closes_open, ih]
      simp only [List.count_cons_self, List.count_cons_of_ne h, List.count_nil, Nat.zero_le, true_and,
        Nat.add_assoc, Nat.add_comm 1 d]
    · by_cases he : c = e
      · subst he
        cases d with
        | zero =>
          -- the first bracket closes none
          have hno : closes o c 0 (c :: t) = false := by simp [closes, ho]
          rw [hno]
          constructor
          · intro hclosed
            cases hclosed
          · rintro ⟨⟨-, hfirst⟩, -⟩
            simpa [List.count_cons_of_ne ho] using hfirst [] List.nil_prefix
        | succ d =>
          rw [closes_close ho, ih]
          simp only [List.count_cons_self, List.count_cons_of_ne ho, List.count_nil, Nat.zero_le, true_and,
            ← Nat.add_assoc, Nat.add_le_add_iff_right, Nat.add_right_cancel_iff]
      · rw [closes_other ho he, ih]
        simp only [List.count_cons_of_ne ho, List.count_cons_of_ne he, List.count_nil, Nat.zero_le, true_and]

theorem balanced_iff_closes : Balanced t ↔ closes '<' '>' 0 t = true := by
  rw [closes_iff_count (by decide)]
  constructor
  · intro h
    exact ⟨h.beginnings, h.total⟩
  · rintro ⟨hbeginnings, htotal⟩
    exact ⟨hbeginnings, htotal⟩

/-! ## Blocks -/

/-- Nothing is left of a block at any depth, and behind it the depth is the same. -/
theorem eraseFrom_block (h : closes '<' '>' 0 t = true) :
    eraseFrom d ('<' :: (t ++ '>' :: r)) = eraseFrom d r := by
  calc
    eraseFrom d ('<' :: (t ++ '>' :: r)) = eraseFrom (d + 1) (t ++ '>' :: r) := rfl
    _ = eraseFrom (d + 1) ('>' :: r) := eraseFrom_append (k := d) h
    _ = eraseFrom d r := rfl

/-- Texts of which the same is left at every depth may be put behind any text. -/
theorem eraseFrom_append_congr (h : ∀ d, eraseFrom d t = eraseFrom d r) :
    eraseFrom d (s ++ t) = eraseFrom d (s ++ r) := by
  induction s generalizing d with
  | nil => exact h d
  | cons c s ih => simp only [List.cons_append, eraseFrom, ih]

/-! ## What is left -/

/-- That no angle bracket stands in a text. -/
def AngleFree (s : List Char) : Prop := ∀ c ∈ s, c ≠ '<' ∧ c ≠ '>'

theorem angleFree_eraseFrom (d : Nat) (s : List Char) : AngleFree (eraseFrom d s) := by
  fun_induction eraseFrom d s with
  | case1 => exact List.forall_mem_nil _
  | case2 d s ih => exact ih
  | case3 d s h ih => exact ih
  | case4 c s ho he ih => exact List.forall_mem_cons.mpr ⟨⟨ho, he⟩, ih⟩
  | case5 d c s ho he hd ih => exact ih

theorem eraseFrom_sublist (d : Nat) (s : List Char) : (eraseFrom d s).Sublist s := by
  fun_induction eraseFrom d s with
  | case1 => exact List.Sublist.refl []
  | case2 d s ih => exact ih.cons _
  | case3 d s h ih => exact ih.cons _
  | case4 c s ho he ih => exact ih.cons_cons c
  | case5 d c s ho he hd ih => exact ih.cons c

/-- All is left of a text without angle brackets, and what follows it is not changed by it. -/
theorem eraseFrom_append_of_angleFree (hs : AngleFree s) : eraseFrom 0 (s ++ r) = s ++ eraseFrom 0 r := by
  induction s with
  | nil => rfl
  | cons c s ih =>
    obtain ⟨⟨ho, he⟩, hs⟩ := List.forall_mem_cons.mp hs
    rw [List.cons_append]
    conv => lhs; unfold eraseFrom
    rw [if_neg ho, if_neg he, if_pos rfl, ih hs]
    rfl

theorem eraseTemplates_eq_self (hs : AngleFree s) : eraseTemplates s = s := by
  have herase := eraseFrom_append_of_angleFree (r := []) hs
  rw [List.append_nil] at herase
  exact herase.trans (List.append_nil s)

/-- **Taking template arguments away.** A block of balanced angle brackets makes no difference, whatever stands before
and behind it. No angle bracket is left of a text, only characters of it are left in their order, all of them just if
it has no angle bracket, and a second time changes nothing. -/
theorem eraseTemplates_block :
    (∀ s t r, Balanced t → eraseTemplates (s ++ '<' :: (t ++ '>' :: r)) = eraseTemplates (s ++ r)) ∧
    ∀ s, AngleFree (eraseTemplates s) ∧ (eraseTemplates s).Sublist s ∧ (eraseTemplates s = s ↔ AngleFree s) ∧
      eraseTemplates (eraseTemplates s) = eraseTemplates s := by
  constructor
  · intro s t r ht
    have hblock : ∀ d, eraseFrom d ('<' :: (t ++ '>' :: r)) = eraseFrom d r := fun d =>
      eraseFrom_block (balanced_iff_closes.mp ht)
    exact eraseFrom_append_congr hblock
  · intro s
    have hfree : AngleFree (eraseTemplates s) := angleFree_eraseFrom 0 s
    refine ⟨hfree, eraseFrom_sublist 0 s, ⟨?_, eraseTemplates_eq_self⟩, eraseTemplates_eq_self hfree⟩
    intro h
    rw [← h]
    exact hfree

namespace Example

/-- A bracket before the block closes nothing and one behind it is never closed. -/
theorem eraseTemplates_stray : Balanced "p<q>, r".toList ∧
    eraseTemplates "a>b<p<q>, r>c<d".toList = eraseTemplates "a>bc<d".toList ∧
    eraseTemplates "a>bc<d".toList = "abc".toList := by
  have hbalanced : Balanced "p<q>, r".toList := balanced_iff_closes.mpr (by decide)
  exact ⟨hbalanced, eraseTemplates_block.1 "a>b".toList "p<q>, r".toList "c<d".toList hbalanced, by decide⟩

end Example

end PathSafety.Name
