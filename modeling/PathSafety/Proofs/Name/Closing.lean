import PathSafety.Name.Bracket

/-!
# Brackets of one kind that close

Every scanner of names counts brackets, most of them brackets of one kind only. A text that closes the brackets of
this kind that it opens leaves such a count as it was. Texts whose brackets nest properly close those of either kind,
but so do others, in which brackets of two kinds overlap or a bracket is an operator.

Contents:

* `closes` — whether a text closes all brackets that are open, and no others;
* `closes_append`, `closes_reverse` — texts that are put together, and texts that are read backwards;
* `count_of_closes` — how many brackets of either form there are;
* `beforeClosing_append`, `beforeOpening?_append`, `eraseFrom_append`, `conversionLength_append` — scanners pass over
  a text that closes its brackets;
* `closes_of_beforeOpening?` — what stands between two partners closes its brackets.
-/

namespace PathSafety.Name

/-- Whether a text closes the brackets that it opens and `d` more that are open before it, and no others. -/
def closes (o e : Char) (d : Nat) : List Char → Bool
  | [] => d == 0
  | c :: s =>
    if c = o then closes o e (d + 1) s
    else if c = e then
      match d with
      | 0 => false
      | d + 1 => closes o e d s
    else closes o e d s

variable {o e c : Char} {d k : Nat} {s t r : List Char}

@[simp] theorem closes_nil : closes o e d [] = true ↔ d = 0 := by
  unfold closes
  exact beq_iff_eq

theorem closes_open : closes o e d (o :: s) = closes o e (d + 1) s := by
  conv => lhs; unfold closes
  rw [if_pos rfl]

theorem closes_close (h : e ≠ o) : closes o e (d + 1) (e :: s) = closes o e d s := by
  conv => lhs; unfold closes
  rw [if_neg h, if_pos rfl]

theorem closes_other (ho : c ≠ o) (he : c ≠ e) : closes o e d (c :: s) = closes o e d s := by
  conv => lhs; unfold closes
  rw [if_neg ho, if_neg he]

/-- The first character of a text that closes its brackets: it opens one, closes one, or is none. -/
theorem closes_cons (h : closes o e d (c :: s) = true) :
    c = o ∧ closes o e (d + 1) s = true ∨
      (c ≠ o ∧ c = e ∧ ∃ d', d = d' + 1 ∧ closes o e d' s = true) ∨
      (c ≠ o ∧ c ≠ e ∧ closes o e d s = true) := by
  unfold closes at h
  split at h
  · exact Or.inl ⟨‹_›, h⟩
  · rename_i ho
    split at h
    · rename_i he
      cases d with
      | zero => cases h
      | succ d => exact Or.inr (Or.inl ⟨ho, he, d, rfl, h⟩)
    · rename_i he
      exact Or.inr (Or.inr ⟨ho, he, h⟩)

theorem closes_append (hs : closes o e d s = true) : closes o e (k + d) (s ++ t) = closes o e k t := by
  induction s generalizing d with
  | nil =>
    obtain rfl := closes_nil.mp hs
    rfl
  | cons c s ih =>
    rw [List.cons_append]
    rcases closes_cons hs with ⟨rfl, htail⟩ | ⟨ho, rfl, d', rfl, htail⟩ | ⟨ho, he, htail⟩
    · rw [closes_open]
      exact ih htail
    · rw [← Nat.add_assoc, closes_close ho]
      exact ih htail
    · rw [closes_other ho he]
      exact ih htail

/-- Characters that are no brackets do not count. -/
theorem closes_append_of_forall (hs : ∀ c ∈ s, c ≠ o ∧ c ≠ e) : closes o e d (s ++ t) = closes o e d t := by
  induction s with
  | nil => rfl
  | cons c s ih =>
    obtain ⟨hc, hs⟩ := List.forall_mem_cons.mp hs
    rw [List.cons_append, closes_other hc.1 hc.2, ih hs]

/-- A part of a text may be changed for one that closes as many brackets. -/
theorem closes_append_mono (h : ∀ d, closes o e d t = true → closes o e d r = true)
    (hst : closes o e d (s ++ t) = true) : closes o e d (s ++ r) = true := by
  induction s generalizing d with
  | nil => exact h d hst
  | cons c s ih =>
    rw [List.cons_append] at hst ⊢
    rcases closes_cons hst with ⟨rfl, htail⟩ | ⟨ho, rfl, d', rfl, htail⟩ | ⟨ho, he, htail⟩
    · rw [closes_open]
      exact ih htail
    · rw [closes_close ho]
      exact ih htail
    · rw [closes_other ho he]
      exact ih htail

/-- Characters that are no brackets do not count at the end either. -/
theorem closes_append_of_forall_right (hr : ∀ c ∈ r, c ≠ o ∧ c ≠ e) : closes o e d (s ++ r) = closes o e d s := by
  have hnil : ∀ d, closes o e d r = closes o e d [] := fun d => by
    rw [← List.append_nil r, closes_append_of_forall hr]
  rw [Bool.eq_iff_iff]
  refine ⟨fun h => ?_, fun h => closes_append_mono (t := []) (fun d hd => ?_) (by rwa [List.append_nil])⟩
  · rw [← List.append_nil s]
    exact closes_append_mono (fun d hd => by rwa [← hnil]) h
  · rwa [hnil]

/-- Read backwards, the brackets that close are those that open. -/
theorem closes_reverse (hs : closes o e 0 s = true) : closes e o 0 s.reverse = true := by
  -- the brackets that are open before a text stand before it, and behind it if it is read backwards
  have main : ∀ (t : List Char) d, closes o e d t = true → closes e o 0 (t.reverse ++ List.replicate d o) = true := by
    intro t
    induction t with
    | nil =>
      intro d hd
      obtain rfl := closes_nil.mp hd
      rfl
    | cons c t ih =>
      intro d ht
      rw [List.reverse_cons, List.append_assoc, List.singleton_append]
      rcases closes_cons ht with ⟨rfl, htail⟩ | ⟨ho, rfl, d', rfl, htail⟩ | ⟨ho, he, htail⟩
      · exact ih (d + 1) htail
      · refine closes_append_mono (fun k hk => ?_) (ih d' htail)
        rw [List.replicate_succ, closes_open, closes_close (Ne.symm ho)]
        exact hk
      · refine closes_append_mono (fun k hk => ?_) (ih d htail)
        rw [closes_other he ho]
        exact hk
  have hmain := main s 0 hs
  rwa [List.replicate_zero, List.append_nil] at hmain

/-- A text closes as many brackets as it opens, and those that are open before it. -/
theorem count_of_closes (h : o ≠ e) (hs : closes o e d s = true) : s.count e = s.count o + d := by
  induction s generalizing d with
  | nil =>
    obtain rfl := closes_nil.mp hs
    rfl
  | cons c s ih =>
    rcases closes_cons hs with ⟨rfl, htail⟩ | ⟨ho, rfl, d', rfl, htail⟩ | ⟨ho, he, htail⟩
    · rw [List.count_cons_of_ne h, List.count_cons_self, ih htail]
      omega
    · rw [List.count_cons_self, List.count_cons_of_ne ho, ih htail]
      omega
    · rw [List.count_cons_of_ne he, List.count_cons_of_ne ho, ih htail]

/-- What a text ends with closes the brackets that are open before it. -/
theorem exists_closes_right (hst : closes o e d (s ++ t) = true) : ∃ k, closes o e k t = true := by
  induction s generalizing d with
  | nil => exact ⟨d, hst⟩
  | cons c s ih =>
    rcases closes_cons hst with ⟨-, htail⟩ | ⟨-, -, d', -, htail⟩ | ⟨-, -, htail⟩ <;> exact ih htail

/-! ## Scanning -/

/-- The depth of angle brackets follows what a text closes, inside of any number of others. -/
theorem closes_angleDepth (h : closes '<' '>' d (c :: s) = true) :
    closes '<' '>' (angleDepth d c) s = true ∧ ∀ k, angleDepth (k + d) c = k + angleDepth d c := by
  rcases closes_cons h with ⟨rfl, htail⟩ | ⟨-, rfl, d', rfl, htail⟩ | ⟨ho, he, htail⟩
  · exact ⟨htail, fun _ => rfl⟩
  · exact ⟨htail, fun _ => rfl⟩
  · have hdepth : ∀ d, angleDepth d c = d := by
      intro d
      unfold angleDepth
      rw [if_neg ho, if_neg he]
    refine ⟨by rwa [hdepth], fun k => ?_⟩
    rw [hdepth, hdepth]

/-- The depth of parentheses follows what a text closes, inside of any number of others. -/
theorem closes_parenDepth (h : closes '(' ')' d (c :: s) = true) :
    closes '(' ')' (parenDepth d c) s = true ∧ ∀ k, parenDepth (k + d) c = k + parenDepth d c := by
  rcases closes_cons h with ⟨rfl, htail⟩ | ⟨-, rfl, d', rfl, htail⟩ | ⟨ho, he, htail⟩
  · exact ⟨htail, fun _ => rfl⟩
  · exact ⟨htail, fun _ => rfl⟩
  · have hdepth : ∀ d, parenDepth d c = d := by
      intro d
      unfold parenDepth
      rw [if_neg ho, if_neg he]
    refine ⟨by rwa [hdepth], fun k => ?_⟩
    rw [hdepth, hdepth]

/-- The parenthesis that closes is behind a text that closes its own ones. -/
theorem beforeClosing_append (hs : closes '(' ')' d s = true) :
    beforeClosing (k + d) (s ++ r) = s ++ beforeClosing k r := by
  induction s generalizing d with
  | nil =>
    obtain rfl := closes_nil.mp hs
    rfl
  | cons c s ih =>
    rw [List.cons_append]
    rcases closes_cons hs with ⟨rfl, htail⟩ | ⟨-, rfl, d', rfl, htail⟩ | ⟨ho, he, htail⟩
    · exact congrArg ('(' :: ·) (ih htail)
    · exact congrArg (')' :: ·) (ih htail)
    · conv => lhs; unfold beforeClosing
      rw [if_neg ho, if_neg he, ih htail]
      rfl

theorem beforeClosing_close (hs : closes '(' ')' 0 s = true) : beforeClosing 0 (s ++ ')' :: r) = s :=
  (beforeClosing_append (k := 0) hs).trans (List.append_nil s)

/-- Nothing is left of a text inside angle brackets. -/
theorem eraseFrom_append (hs : closes '<' '>' d s = true) :
    eraseFrom (k + 1 + d) (s ++ r) = eraseFrom (k + 1) r := by
  induction s generalizing d with
  | nil =>
    obtain rfl := closes_nil.mp hs
    rfl
  | cons c s ih =>
    rw [List.cons_append]
    rcases closes_cons hs with ⟨rfl, htail⟩ | ⟨-, rfl, d', rfl, htail⟩ | ⟨ho, he, htail⟩
    · exact ih htail
    · exact ih htail
    · conv => lhs; unfold eraseFrom
      rw [if_neg ho, if_neg he, if_neg (by omega), ih htail]

/-- Inside of angle brackets the type that an operator converts to goes on. -/
theorem conversionLength_append (hs : closes '<' '>' d s = true) :
    conversionLength (k + 1 + d) (s ++ r) = conversionLength (k + 1) r + s.length := by
  induction s generalizing d with
  | nil =>
    obtain rfl := closes_nil.mp hs
    rfl
  | cons c s ih =>
    obtain ⟨htail, hdepth⟩ := closes_angleDepth hs
    rw [List.cons_append, List.length_cons, ← Nat.add_assoc, ← ih htail, ← hdepth]
    conv => lhs; unfold conversionLength
    rw [if_neg fun h => absurd h.2 (by omega)]

/-! ## Scanning backwards -/

theorem beforeOpening?_cons (hc : c ≠ '<') :
    beforeOpening? d (c :: s) = (beforeOpening? (if c = '>' then d + 1 else d) s).map fun x => (x.1, c :: x.2) := by
  conv => lhs; unfold beforeOpening?
  rw [if_neg hc]

/-- The bracket that opens is behind a text, read backwards, that closes its own ones. -/
theorem beforeOpening?_append (hs : closes '>' '<' d s = true) :
    beforeOpening? (k + d) (s ++ r) = (beforeOpening? k r).map fun x => (x.1, s ++ x.2) := by
  induction s generalizing d with
  | nil =>
    obtain rfl := closes_nil.mp hs
    exact (Option.map_id' (x := beforeOpening? k r)).symm
  | cons c s ih =>
    rw [List.cons_append]
    rcases closes_cons hs with ⟨rfl, htail⟩ | ⟨-, rfl, d', rfl, htail⟩ | ⟨ho, he, htail⟩
    · rw [beforeOpening?_cons (by decide), if_pos rfl]
      show (beforeOpening? (k + (d + 1)) (s ++ r)).map _ = _
      rw [ih htail, Option.map_map]
      rfl
    · show (beforeOpening? (k + d') (s ++ r)).map _ = _
      rw [ih htail, Option.map_map]
      rfl
    · rw [beforeOpening?_cons he, if_neg ho, ih htail, Option.map_map]
      rfl

/-- What stands before the bracket that opens, read backwards, closes its own ones. -/
theorem closes_of_beforeOpening? {before behind : List Char} (h : beforeOpening? d s = some (before, behind)) :
    closes '>' '<' d behind = true := by
  -- What lies behind the opening bracket found closes every bracket opened in it, read in either
  -- direction.
  induction s generalizing d behind with
  | nil => cases h
  | cons c s ih =>
    unfold beforeOpening? at h
    split at h
    · rename_i hc
      cases d with
      | zero =>
        obtain ⟨-, rfl⟩ := Prod.mk.inj (Option.some.inj h)
        rfl
      | succ d =>
        obtain ⟨x, hx, heq⟩ := Option.map_eq_some_iff.mp h
        obtain ⟨rfl, rfl⟩ := Prod.mk.inj heq
        rw [hc, closes_close (by decide)]
        exact ih hx
    · rename_i hc
      obtain ⟨x, hx, heq⟩ := Option.map_eq_some_iff.mp h
      obtain ⟨rfl, rfl⟩ := Prod.mk.inj heq
      by_cases hclose : c = '>'
      · rw [hclose, closes_open]
        rw [if_pos hclose] at hx
        exact ih hx
      · rw [closes_other hclose hc]
        rw [if_neg hclose] at hx
        exact ih hx

end PathSafety.Name
