import Mathlib.Data.List.TakeWhile
import PathSafety.Text.Scan

/-!
# Scanning and trimming

What the small readers do to texts that are put together.

Contents:

* `dropPrefix?_append`, `startsWith_iff` — beginnings;
* `splitFirst?_eq_none_iff`, `splitFirst?_append`, `append_of_splitFirst?`, `suffix_of_splitFirst?` — first occurrences;
* `trimRight_append`, `trim_eq_self`, `trim_trim`, `exists_eq_trimRight`, `exists_eq_trim` — white space at the ends.
-/

namespace PathSafety.Text

variable {c : Char} {p s t : List Char}

/-! ## Beginnings -/

theorem dropPrefix?_eq_some_iff : dropPrefix? p s = some t ↔ s = p ++ t := by
  induction p generalizing s with
  | nil => exact ⟨fun h => Option.some.inj h, fun h => congrArg some h⟩
  | cons c p ih =>
    cases s with
    | nil => exact ⟨nofun, nofun⟩
    | cons d s =>
      unfold dropPrefix?
      split
      · rename_i hcd
        rw [ih, hcd, List.cons_append, List.cons.injEq, and_iff_right rfl]
      · rename_i hcd
        refine ⟨nofun, fun h => ?_⟩
        rw [List.cons_append, List.cons.injEq] at h
        exact absurd h.1.symm hcd

theorem dropPrefix?_append (p s : List Char) : dropPrefix? p (p ++ s) = some s :=
  dropPrefix?_eq_some_iff.mpr rfl

theorem startsWith_iff : startsWith p s = true ↔ p <+: s := by
  unfold startsWith
  rw [Option.isSome_iff_exists]
  exact ⟨fun ⟨t, h⟩ => ⟨t, (dropPrefix?_eq_some_iff.mp h).symm⟩, fun ⟨t, h⟩ => ⟨t, dropPrefix?_eq_some_iff.mpr h.symm⟩⟩

theorem dropPrefix?_eq_none_iff : dropPrefix? p s = none ↔ ¬ p <+: s := by
  rw [← startsWith_iff, startsWith, Bool.not_eq_true, Option.isSome_eq_false_iff, Option.isNone_iff_eq_none]

/-- A text does not begin with a pattern that begins otherwise. -/
theorem dropPrefix?_eq_none_of_ne {d : Char} (h : d ≠ c) : dropPrefix? (d :: p) (c :: s) = none := by
  unfold dropPrefix?
  rw [if_neg h]

/-! ## First occurrences -/

theorem splitFirst?_eq_none_iff (hp : p ≠ []) : splitFirst? p s = none ↔ ¬ p <:+: s := by
  induction s with
  | nil =>
    unfold splitFirst?
    rw [if_neg (by rwa [List.isEmpty_iff])]
    exact iff_of_true rfl fun h => hp (List.infix_nil.mp h)
  | cons c s ih =>
    unfold splitFirst?
    rw [List.infix_cons_iff, not_or, ← dropPrefix?_eq_none_iff, ← ih]
    cases dropPrefix? p (c :: s) with
    | none => exact ⟨fun h => ⟨rfl, Option.map_eq_none_iff.mp h⟩, fun h => Option.map_eq_none_iff.mpr h.2⟩
    | some rest => exact ⟨nofun, fun h => nomatch h.1⟩

/-- The first occurrence of a pattern is where the text before it ends, if it does not begin there already. -/
theorem splitFirst?_append (h : ∀ l r, s = l ++ r → r ≠ [] → ¬ p <+: r ++ (p ++ t)) :
    splitFirst? p (s ++ (p ++ t)) = some (s, t) := by
  induction s with
  | nil =>
    rw [List.nil_append]
    cases hpt : p ++ t with
    | nil =>
      obtain ⟨rfl, rfl⟩ := List.append_eq_nil_iff.mp hpt
      rfl
    | cons d r =>
      unfold splitFirst?
      rw [← hpt, dropPrefix?_append]
  | cons c s ih =>
    rw [List.cons_append]
    unfold splitFirst?
    have hnot : dropPrefix? p (c :: (s ++ (p ++ t))) = none :=
      dropPrefix?_eq_none_iff.mpr (h [] (c :: s) rfl (List.cons_ne_nil c s))
    rw [hnot, ih fun l r hs => h (c :: l) r (congrArg (c :: ·) hs)]
    rfl

/-- The parts before and behind a pattern make up the text with it. -/
theorem append_of_splitFirst? {before after : List Char} (h : splitFirst? p s = some (before, after)) :
    before ++ (p ++ after) = s := by
  induction s generalizing before with
  | nil =>
    unfold splitFirst? at h
    split at h
    · rename_i hp
      obtain ⟨rfl, rfl⟩ := Prod.mk.inj (Option.some.inj h)
      rw [List.isEmpty_iff.mp hp]
      rfl
    · cases h
  | cons c s ih =>
    unfold splitFirst? at h
    split at h
    · rename_i rest hrest
      obtain ⟨rfl, rfl⟩ := Prod.mk.inj (Option.some.inj h)
      exact (dropPrefix?_eq_some_iff.mp hrest).symm
    · obtain ⟨x, hx, heq⟩ := Option.map_eq_some_iff.mp h
      obtain ⟨rfl, rfl⟩ := Prod.mk.inj heq
      exact congrArg (c :: ·) (ih hx)

/-- What stands behind an occurrence of a pattern is the end of what stands behind the first one. -/
theorem suffix_of_splitFirst? {before after l r : List Char} (h : splitFirst? p s = some (before, after))
    (hs : l ++ (p ++ r) = s) : r <:+ after := by
  induction s generalizing before l with
  | nil =>
    obtain rfl : r = [] := (List.append_eq_nil_iff.mp (List.append_eq_nil_iff.mp hs).2).2
    exact List.nil_suffix
  | cons c s ih =>
    unfold splitFirst? at h
    split at h
    · rename_i rest hrest
      obtain ⟨-, rfl⟩ := Prod.mk.inj (Option.some.inj h)
      have hwhole : p ++ rest = c :: s := (dropPrefix?_eq_some_iff.mp hrest).symm
      -- The occurrence found is the first, so the given one does not start before it.
      have hend : r <:+ p ++ rest := ⟨l ++ p, by rw [hwhole, ← hs, List.append_assoc]⟩
      refine List.suffix_of_suffix_length_le hend (List.suffix_append p rest) ?_
      have hlength := congrArg List.length (hs.trans hwhole.symm)
      simp only [List.length_append] at hlength
      omega
    · rename_i hno
      obtain ⟨x, hx, heq⟩ := Option.map_eq_some_iff.mp h
      obtain ⟨-, rfl⟩ := Prod.mk.inj heq
      cases l with
      | nil => exact absurd ⟨r, hs⟩ (dropPrefix?_eq_none_iff.mp hno)
      | cons d l => exact ih hx (List.cons.inj hs).2

/-! ## White space -/

theorem trimLeft_cons (hc : isBlank c = false) : trimLeft (c :: s) = c :: s :=
  List.dropWhile_cons_of_neg (by rw [hc]; exact Bool.false_ne_true)

theorem trimRight_concat (hc : isBlank c = false) : trimRight (s ++ [c]) = s ++ [c] := by
  unfold trimRight
  rw [List.reverse_append, List.reverse_singleton, List.singleton_append,
    List.dropWhile_cons_of_neg (by rw [hc]; exact Bool.false_ne_true), List.reverse_cons, List.reverse_reverse]

theorem trimRight_concat_blank (hc : isBlank c = true) : trimRight (s ++ [c]) = trimRight s := by
  unfold trimRight
  rw [List.reverse_append, List.reverse_singleton, List.singleton_append, List.dropWhile_cons_of_pos hc]

/-- White space at the end of a text is at the end of what follows a character that is none. -/
theorem trimRight_append (hc : isBlank c = false) :
    trimRight (s ++ c :: t) = s ++ c :: trimRight t := by
  unfold trimRight
  rw [List.reverse_append, List.reverse_cons, List.append_assoc, List.dropWhile_append]
  split
  · rename_i hempty
    have hnil : t.reverse.dropWhile isBlank = [] := List.isEmpty_iff.mp hempty
    rw [hnil, List.singleton_append,
      List.dropWhile_cons_of_neg (by rw [hc]; exact Bool.false_ne_true), List.reverse_cons, List.reverse_reverse]
    rfl
  · rw [List.reverse_append, List.reverse_append, List.reverse_reverse, List.append_assoc]
    rfl

theorem trim_cons (hc : isBlank c = false) : trim (c :: s) = c :: trimRight s := by
  unfold trim
  rw [trimLeft_cons hc]
  exact trimRight_append (s := []) hc

/-- A text has no white space to take away if none is at its ends. -/
theorem trim_eq_self (hhead : ∀ c ∈ s.head?, isBlank c = false) (hlast : ∀ c ∈ s.getLast?, isBlank c = false) :
    trim s = s := by
  cases s with
  | nil => rfl
  | cons c s =>
    unfold trim
    rw [trimLeft_cons (hhead c rfl), ← List.dropLast_concat_getLast (List.cons_ne_nil c s)]
    exact trimRight_concat (hlast _ (List.getLast?_eq_some_getLast _))

/-- Something is left of a text that is not all white space. -/
theorem trim_ne_nil (hc : isBlank c = false) : trim (s ++ c :: t) ≠ [] := by
  have hleft : ∃ u, trimLeft (s ++ c :: t) = u ++ c :: t := by
    unfold trimLeft
    rw [List.dropWhile_append]
    split
    · exact ⟨[], trimLeft_cons hc⟩
    · exact ⟨_, rfl⟩
  obtain ⟨u, hu⟩ := hleft
  unfold trim
  rw [hu, trimRight_append hc]
  exact List.append_ne_nil_of_right_ne_nil u (List.cons_ne_nil _ _)

theorem trimRight_eq_self (hlast : ∀ c ∈ s.getLast?, isBlank c = false) : trimRight s = s := by
  cases s with
  | nil => rfl
  | cons c s =>
    rw [← List.dropLast_concat_getLast (List.cons_ne_nil c s)]
    exact trimRight_concat (hlast _ (List.getLast?_eq_some_getLast _))

theorem trim_singleton_blank (hc : isBlank c = true) : trim (c :: s) = trim s := by
  unfold trim trimLeft
  rw [List.dropWhile_cons_of_pos hc]

theorem trim_concat_blank (hc : isBlank c = true) : trim (s ++ [c]) = trim s := by
  unfold trim trimLeft
  rw [List.dropWhile_append]
  split
  · rename_i hempty
    rw [List.isEmpty_iff.mp hempty, List.dropWhile_cons_of_pos hc]
    rfl
  · exact trimRight_concat_blank hc

theorem length_trimRight_le (s : List Char) : (trimRight s).length ≤ s.length := by
  unfold trimRight
  rw [List.length_reverse, ← @List.length_reverse Char s]
  exact (List.dropWhile_sublist _).length_le

/-- A text that is trimmed does not begin with white space. -/
theorem head_of_trim (h : trim s = s) : ∀ c ∈ s.head?, isBlank c = false := by
  intro c hc
  cases s with
  | nil => cases hc
  | cons d s =>
    obtain rfl := Option.some.inj hc
    cases hblank : isBlank d with
    | false => rfl
    | true =>
      -- else the text would be longer than what is left of it
      have hle : (trim (d :: s)).length ≤ s.length := by
        rw [trim_singleton_blank hblank]
        exact Nat.le_trans (length_trimRight_le _) (List.dropWhile_sublist _).length_le
      rw [h, List.length_cons] at hle
      omega

/-- A text that is trimmed does not end with white space. -/
theorem last_of_trim (h : trim s = s) : ∀ c ∈ s.getLast?, isBlank c = false := by
  intro c hc
  have hright : trimRight s = s := by
    cases s with
    | nil => rfl
    | cons d s =>
      have hd := head_of_trim h d rfl
      unfold trim at h
      rwa [trimLeft_cons hd] at h
  obtain ⟨l, rfl⟩ := List.getLast?_eq_some_iff.mp hc
  cases hblank : isBlank c with
  | false => rfl
  | true =>
    -- A blank at the end would be dropped, and the text come out shorter.
    unfold trimRight at hright
    rw [List.reverse_append, List.reverse_singleton, List.singleton_append, List.dropWhile_cons_of_pos hblank]
      at hright
    have hle : (trimRight l).length ≤ l.length := length_trimRight_le l
    unfold trimRight at hle
    rw [hright, List.length_append, List.length_singleton] at hle
    omega

/-- No white space is left at the ends of a text that has been trimmed. -/
theorem trim_trim (s : List Char) : trim (trim s) = trim s := by
  have hfirst : ∀ t : List Char, ∀ c ∈ (t.dropWhile isBlank).head?, isBlank c = false := by
    intro t c hc
    have hnot := List.head?_dropWhile_not isBlank t
    rw [Option.mem_def.mp hc] at hnot
    exact hnot
  refine trim_eq_self ?_ ?_
  · unfold trim
    cases hleft : trimLeft s with
    | nil => exact nofun
    | cons c t =>
      have hc : isBlank c = false := by
        refine hfirst s c ?_
        show c ∈ (trimLeft s).head?
        rw [hleft]
        rfl
      rw [show trimRight (c :: t) = c :: trimRight t from trimRight_append (s := []) hc]
      rintro _ ⟨⟩
      exact hc
  · unfold trim trimRight
    rw [List.getLast?_reverse]
    exact hfirst _

/-- Only white space is taken away from the end of a text. -/
theorem exists_eq_trimRight (s : List Char) : ∃ r, s = trimRight s ++ r ∧ ∀ c ∈ r, isBlank c = true := by
  refine ⟨(s.reverse.takeWhile isBlank).reverse, ?_, ?_⟩
  · unfold trimRight
    rw [← List.reverse_append, List.takeWhile_append_dropWhile, List.reverse_reverse]
  · intro c hc
    exact List.mem_takeWhile_imp (List.mem_reverse.mp hc)

/-- Only white space is taken away from the ends of a text. -/
theorem exists_eq_trim (s : List Char) :
    ∃ l r, s = l ++ (trim s ++ r) ∧ (∀ c ∈ l, isBlank c = true) ∧ ∀ c ∈ r, isBlank c = true := by
  have hleft : s.takeWhile isBlank ++ trimLeft s = s := List.takeWhile_append_dropWhile
  obtain ⟨r, hright, hr⟩ := exists_eq_trimRight (trimLeft s)
  exact ⟨_, r, hleft.symm.trans (congrArg _ hright), fun c hc => List.mem_takeWhile_imp hc, hr⟩

end PathSafety.Text
