import PathSafety.Name.Bracket
import PathSafety.Proofs.Text.Scan

/-!
# Tags

Taking the tags out of a text, wherever they stand, leaves the text that they were put into. Since tags are
taken away from left to right, what is left of them must not come together to a new tag; it does not, as a tag
begins with a character that is nowhere else in its opening.

Contents:

* `Untagged` — texts in which no tag begins, and how they are put together;
* `stripTag?_stripTags`, `not_mem_of_stripTag?` — of any text, no tag is left;
* `Tagged` — a text with tags put into it;
* `stripTags_of_tagged` — what is left when the tags are taken away.
-/

namespace PathSafety.Name

open Text

variable {c : Char} {s t : List Char}

/-- That no tag begins in a text. -/
def Untagged (s : List Char) : Prop := ¬ tagOpening <:+: s

theorem untagged_nil : Untagged [] := by
  unfold Untagged
  rw [List.infix_nil]
  decide

theorem Untagged.left (h : Untagged (s ++ t)) : Untagged s :=
  fun hs => h (hs.trans (List.infix_append_of_infix_left List.infix_rfl))

theorem Untagged.right (h : Untagged (s ++ t)) : Untagged t :=
  fun ht => h (ht.trans (List.infix_append_of_infix_right List.infix_rfl))

theorem untagged_cons : Untagged (c :: s) ↔ ¬ tagOpening <+: c :: s ∧ Untagged s := by
  unfold Untagged
  rw [List.infix_cons_iff, not_or]

/-- A tag begins with its opening bracket. -/
theorem untagged_cons_of_ne (hc : c ≠ '[') : Untagged (c :: s) ↔ Untagged s := by
  rw [untagged_cons, and_iff_right_iff_imp]
  rintro _ ⟨r, hr⟩
  exact hc (Option.some.inj (congrArg List.head? hr)).symm

theorem untagged_append_of_not_mem (hs : '[' ∉ s) : Untagged (s ++ t) ↔ Untagged t := by
  induction s with
  | nil => exact Iff.rfl
  | cons c s ih =>
    rw [List.mem_cons, not_or] at hs
    rw [List.cons_append, untagged_cons_of_ne (Ne.symm hs.1), ih hs.2]

theorem untagged_of_not_mem (hs : '[' ∉ s) : Untagged s := by
  rw [← List.append_nil s, untagged_append_of_not_mem hs]
  exact untagged_nil

/-- No tag goes beyond a character that its opening does not have. -/
theorem untagged_append_cons (hc : c ∉ tagOpening) :
    Untagged (s ++ c :: t) ↔ Untagged s ∧ Untagged t := by
  constructor
  · exact fun h => ⟨h.left, (List.append_cons s c t ▸ h).right⟩
  · rintro ⟨hs, ht⟩ ⟨l, r, h⟩
    rw [List.append_assoc] at h
    rcases List.append_eq_append_iff.mp h with ⟨a, rfl, ha⟩ | ⟨a, _, ha⟩
    · -- it begins in the first text
      rcases List.append_eq_append_iff.mp ha with ⟨b, hb, _⟩ | ⟨b, hb, hbt⟩
      · exact hs ⟨l, b, by rw [hb, List.append_assoc]⟩
      · cases b with
        | nil => exact hs ⟨l, [], by rw [hb, List.append_nil, List.append_nil]⟩
        | cons d b =>
          have hd : c = d := (List.cons.inj hbt).1
          exact hc (hb ▸ hd ▸ List.mem_append_right _ List.mem_cons_self)
    · cases a with
      | nil =>
        have hd : c = '[' := (List.cons.inj ha).1
        exact hc (hd ▸ by decide)
      | cons d a => exact ht ⟨a, r, by rw [List.append_assoc]; exact ((List.cons.inj ha).2).symm⟩

theorem stripTags_eq_self (h : stripTag? s = none) : stripTags s = s := by
  unfold stripTags
  split
  · rename_i t ht
    rw [h] at ht
    cases ht
  · rfl

theorem stripTags_of_some (h : stripTag? s = some t) : stripTags s = stripTags t := by
  conv => lhs; unfold stripTags
  split
  · rename_i u hu
    rw [h] at hu
    rw [Option.some.inj hu]
  · rename_i hu
    rw [h] at hu
    cases hu

theorem stripTags_of_untagged (h : Untagged s) : stripTags s = s := by
  apply stripTags_eq_self
  unfold stripTag?
  rw [(splitFirst?_eq_none_iff (by decide)).mpr h]
  rfl

/-! ## Taking all tags away -/

/-- Tags are taken away until none is left, those included that only form then. -/
theorem stripTag?_stripTags (s : List Char) : stripTag? (stripTags s) = none := by
  fun_induction stripTags s with
  | case1 s t ht ih => exact ih
  | case2 s hs => exact hs

/-- No tag is closed in a text that has none to take away. -/
theorem not_mem_of_stripTag? {l r : List Char} (h : stripTag? s = none) (hs : l ++ (tagOpening ++ r) = s) :
    ']' ∉ r := by
  have hinfix : tagOpening <:+: s := ⟨l, r, by rw [List.append_assoc, hs]⟩
  unfold stripTag? at h
  cases hfirst : splitFirst? tagOpening s with
  | none => exact absurd hinfix ((splitFirst?_eq_none_iff (by decide)).mp hfirst)
  | some parts =>
    rw [hfirst] at h
    cases hclose : splitFirst? [']'] parts.2 with
    | some rest =>
      simp [hclose] at h
    | none =>
      -- a later tag would end behind the first one
      have hlater : r <:+ parts.2 := suffix_of_splitFirst? hfirst hs
      have hno : ¬ [']'] <:+: parts.2 := (splitFirst?_eq_none_iff (List.cons_ne_nil _ _)).mp hclose
      intro hmem
      obtain ⟨l', r', hclosed⟩ := List.append_of_mem (hlater.mem hmem)
      exact hno ⟨l', r', by rw [hclosed, List.append_assoc, List.singleton_append]⟩

/-- That the first text is the second one with tags put into it. -/
inductive Tagged : List Char → List Char → Prop
  | nil : Tagged [] []
  | char {c : Char} {t s : List Char} (h : Tagged t s) : Tagged (c :: t) (c :: s)
  | tag {version t s : List Char} (hversion : ']' ∉ version) (h : Tagged t s) :
    Tagged (tagOpening ++ (version ++ ']' :: t)) s

theorem Tagged.refl (s : List Char) : Tagged s s := by
  induction s with
  | nil => exact .nil
  | cons c s ih => exact .char ih

/-- The first tag is the one that is put behind a text without tags. -/
theorem stripTag?_append {version : List Char} (hs : Untagged s) (hversion : ']' ∉ version) :
    stripTag? (s ++ (tagOpening ++ (version ++ ']' :: t))) = some (s ++ t) := by
  have hopen : splitFirst? tagOpening (s ++ (tagOpening ++ (version ++ ']' :: t))) =
      some (s, version ++ ']' :: t) := by
    refine splitFirst?_append ?_
    rintro l r rfl hr ⟨y, hy⟩
    rcases List.append_eq_append_iff.mp hy with ⟨a, ha, _⟩ | ⟨a, ha, hay⟩
    · exact hs ⟨l, a, by rw [ha, List.append_assoc]⟩
    · cases a with
      | nil =>
        rw [List.append_nil] at ha
        exact hs ⟨l, [], by rw [ha, List.append_nil]⟩
      | cons d a =>
        -- the opening would begin in itself
        have hd : d = '[' := (List.cons.inj hay).1.symm
        have hmem : d ∈ tagOpening.tail := by
          rw [ha, List.tail_append_of_ne_nil hr]
          exact List.mem_append_right _ List.mem_cons_self
        rw [hd] at hmem
        exact absurd hmem (by decide)
  have hclose : splitFirst? [']'] (version ++ ([']'] ++ t)) = some (version, t) := by
    refine splitFirst?_append ?_
    rintro l r rfl hr ⟨y, hy⟩
    cases r with
    | nil => exact hr rfl
    | cons d r =>
      have hd : ']' = d := (List.cons.inj hy).1
      exact hversion (hd ▸ List.mem_append_right _ List.mem_cons_self)
  unfold stripTag?
  rw [hopen]
  show (splitFirst? [']'] (version ++ ([']'] ++ t))).bind _ = _
  rw [hclose]
  rfl

/-- **Tags.** Taking the tags away leaves the text that they were put into. -/
theorem stripTags_of_tagged (h : Tagged t s) (hs : Untagged s) : stripTags t = s := by
  have main : ∀ l, Untagged (l ++ s) → stripTags (l ++ t) = l ++ s := by
    clear hs
    induction h with
    | nil => exact fun l hl => stripTags_of_untagged hl
    | @char c t s _ ih =>
      intro l hl
      rw [List.append_cons] at hl ⊢
      rw [List.append_cons l c s]
      exact ih (l ++ [c]) hl
    | @tag version t s hversion _ ih =>
      intro l hl
      rw [stripTags_of_some (stripTag?_append hl.left hversion)]
      exact ih l hl
  exact main [] hs

end PathSafety.Name
