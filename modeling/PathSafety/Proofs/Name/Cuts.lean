import PathSafety.Proofs.Name.Operators
import PathSafety.Proofs.Name.Parts

/-!
# Where names are cut

`Proofs.Name.Parts` says where a well-formed name is cut. Here nothing is asked of the name: brackets may be missing and
the text may end anywhere. Two things hold all the same. Nothing is lost, since what is cut away on the two sides makes
up the text again. And no identifier is cut in two, since a name is cut only at parentheses, separators and white space;
so a keyword that stands alone in a part stands alone in the name.

Contents:

* `join_of_splitParenthesis?`, `join_of_splitBlank?`, `append_of_beforeOpening?`, `joinScopes_splitScopes` — the parts
  make up the name;
* `splitOpening?` — where the parameters begin;
* `Detached` — a text that stands in another as a whole word;
* `detached_head`, `detached_qualified`, `detached_last` — the parts are cut out as whole words;
* `ofText?_stripTags`, `ofText?_eq_none_iff`, `of_ofText?` — a descriptor is made from the parts of a name, or from one
  that is not told apart; tags change nothing, and only white space and tags make none.
-/

namespace PathSafety.Name

open Text

variable {b : Option Char} {c : Char} {s t u : List Char} {ts : List Token}

/-! ## Nothing is lost -/

theorem join_of_splitParenthesis? {before behind : List Char} (h : splitParenthesis? ts = some (before, behind)) :
    Token.join ts = before ++ '(' :: behind := by
  induction ts generalizing before with
  | nil => cases h
  | cons t ts ih =>
    unfold splitParenthesis? at h
    split at h
    · rename_i ht
      obtain ⟨rfl, rfl⟩ := Prod.mk.inj (Option.some.inj h)
      rw [join_cons, ht]
      rfl
    · obtain ⟨x, hx, heq⟩ := Option.map_eq_some_iff.mp h
      obtain ⟨rfl, rfl⟩ := Prod.mk.inj heq
      rw [join_cons, ih hx, List.append_assoc]

theorem join_of_splitBlank? {before behind : List Char} (h : splitBlank? ts = some (before, behind)) :
    Token.join ts = before ++ ' ' :: behind := by
  induction ts generalizing before with
  | nil => cases h
  | cons t ts ih =>
    unfold splitBlank? at h
    split at h
    · cases h
    · split at h
      · rename_i l r hlater
        obtain ⟨rfl, rfl⟩ := Prod.mk.inj (Option.some.inj h)
        rw [join_cons, ih hlater, List.append_assoc]
      · split at h
        · rename_i ht
          obtain ⟨rfl, rfl⟩ := Prod.mk.inj (Option.some.inj h)
          rw [join_cons, ht]
          rfl
        · cases h

theorem beforeClosing_prefix (d : Nat) (s : List Char) : beforeClosing d s <+: s := by
  induction s generalizing d with
  | nil => exact List.nil_prefix
  | cons c s ih =>
    have hcons : ∀ d, c :: beforeClosing d s <+: c :: s := fun d => (List.prefix_cons_inj c).mpr (ih d)
    unfold beforeClosing
    split
    · exact hcons (d + 1)
    · split
      · cases d with
        | zero => exact List.nil_prefix
        | succ d => exact hcons d
      · exact hcons d

theorem append_of_beforeOpening? {d : Nat} {before behind : List Char}
    (h : beforeOpening? d s = some (before, behind)) : behind ++ '<' :: before = s := by
  induction s generalizing d behind with
  | nil => cases h
  | cons c s ih =>
    have hlater : ∀ d, ((beforeOpening? d s).map fun x => (x.1, c :: x.2)) = some (before, behind) →
        behind ++ '<' :: before = c :: s := by
      intro d h
      obtain ⟨x, hx, heq⟩ := Option.map_eq_some_iff.mp h
      obtain ⟨rfl, rfl⟩ := Prod.mk.inj heq
      exact congrArg (c :: ·) (ih hx)
    by_cases hopen : c = '<'
    · subst hopen
      cases d with
      | zero =>
        obtain ⟨rfl, rfl⟩ := Prod.mk.inj (Option.some.inj h)
        rfl
      | succ d => exact hlater d h
    · rw [beforeOpening?_cons hopen] at h
      exact hlater _ h

@[simp] theorem joinScopes_singleton (s : List Char) : joinScopes [s] = s := by
  simp [joinScopes, List.intercalate]

theorem joinScopes_cons {l : List (List Char)} (hl : l ≠ []) :
    joinScopes (s :: l) = s ++ (separator ++ joinScopes l) := by
  cases l with
  | nil => exact absurd rfl hl
  | cons t l => simp [joinScopes, List.intercalate, List.intersperse]

theorem joinScopes_append (l : List (List Char)) : joinScopes ((s ++ t) :: l) = s ++ joinScopes (t :: l) := by
  cases l with
  | nil => simp
  | cons u l => simp only [joinScopes_cons (List.cons_ne_nil u l), List.append_assoc]

theorem joinScopes_splitScopeTokens (ts : List Token) : joinScopes (splitScopeTokens ts) = Token.join ts := by
  fun_induction splitScopeTokens ts with
  | case1 => rfl
  | case2 ts ih =>
    rw [joinScopes_cons (splitScopeTokens_ne_nil ts), ih]
    rfl
  | case3 t ts hno part parts heq ih =>
    rw [joinScopes_append, ← heq, ih]
    rfl
  | case4 t ts hno heq => exact absurd heq (splitScopeTokens_ne_nil ts)

/-- **Scopes.** Joined again, the parts of a text are the text. -/
theorem joinScopes_splitScopes (s : List Char) : joinScopes (splitScopes s) = s := by
  unfold splitScopes
  rw [joinScopes_splitScopeTokens, join_tokens]

/-- Every text has a last part. -/
theorem exists_splitScopes (s : List Char) : ∃ scopes last, splitScopes s = scopes ++ [last] :=
  ⟨_, _, (List.dropLast_concat_getLast (splitScopeTokens_ne_nil (tokens s))).symm⟩

/-! ## Whole words -/

/-- That a text stands in another as a whole word: no identifier goes on from before it or behind it. -/
def Detached (s t : List Char) : Prop :=
  ∃ l r, t = l ++ (s ++ r) ∧ l.getLast?.any isIdentifierChar = false ∧ r.head?.any isIdentifierChar = false

theorem detached_iff : Detached s t ↔ ∃ n ∈ List.range (t.length + 1), s <+: t.drop n ∧
    (t.take n).getLast?.any isIdentifierChar = false ∧
    (t.drop (n + s.length)).head?.any isIdentifierChar = false := by
  constructor
  · rintro ⟨l, r, rfl, hl, hr⟩
    have hbehind : (l ++ (s ++ r)).drop (l.length + s.length) = r := by
      rw [← List.append_assoc, ← List.length_append, List.drop_left]
    refine ⟨l.length, ?_, ?_, ?_, ?_⟩
    · rw [List.mem_range, List.length_append]
      omega
    · rw [List.drop_left]
      exact List.prefix_append s r
    · rwa [List.take_left]
    · rwa [hbehind]
  · rintro ⟨n, -, ⟨r, hr⟩, hbefore, hbehind⟩
    refine ⟨t.take n, r, ?_, hbefore, ?_⟩
    · rw [hr, List.take_append_drop]
    · rwa [← List.drop_drop, ← hr, List.drop_left] at hbehind

instance : Decidable (Detached s t) := decidable_of_iff _ detached_iff.symm

theorem detached_refl (s : List Char) : Detached s s := ⟨[], [], by simp, rfl, rfl⟩

theorem Detached.trans (hst : Detached s t) (htu : Detached t u) : Detached s u := by
  obtain ⟨l, r, rfl, hl, hr⟩ := hst
  obtain ⟨l', r', rfl, hl', hr'⟩ := htu
  refine ⟨l' ++ l, r ++ r', by simp, ?_, ?_⟩
  · rw [List.getLast?_append]
    cases hlast : l.getLast? with
    | none => exact hl'
    | some c => rwa [hlast] at hl
  · rw [List.head?_append]
    cases hhead : r.head? with
    | none => exact hr'
    | some c => rwa [hhead] at hr

/-- An identifier does not go on over white space. -/
theorem any_isIdentifierChar_of_blanks (hs : ∀ c ∈ s, isBlank c = true) :
    s.head?.any isIdentifierChar = false ∧ s.getLast?.any isIdentifierChar = false := by
  have hno : ∀ o : Option Char, (∀ c ∈ o, c ∈ s) → o.any isIdentifierChar = false := by
    intro o ho
    cases o with
    | none => rfl
    | some c =>
      by_contra hid
      have hblank := isBlank_of_isIdentifierChar (eq_true_of_ne_false hid)
      rw [hs c (ho c rfl)] at hblank
      cases hblank
  exact ⟨hno _ fun c hc => List.mem_of_mem_head? hc, hno _ fun c hc => List.mem_of_mem_getLast? hc⟩

theorem detached_trim (s : List Char) : Detached (trim s) s := by
  obtain ⟨l, r, hs, hl, hr⟩ := exists_eq_trim s
  exact ⟨l, r, hs, (any_isIdentifierChar_of_blanks hl).2, (any_isIdentifierChar_of_blanks hr).1⟩

theorem detached_trimRight (s : List Char) : Detached (trimRight s) s := by
  obtain ⟨r, hs, hr⟩ := exists_eq_trimRight s
  exact ⟨[], r, hs, rfl, (any_isIdentifierChar_of_blanks hr).1⟩

/-- What stands before and what stands behind the parenthesis that the parameters begin with. -/
def splitOpening? (s : List Char) : Option (List Char × List Char) :=
  match splitParenthesis? (tokens s) with
  | some parts => some parts
  | none => if anglesBalanced s then none else splitFirst? ['('] s

theorem splitParameters_eq (s : List Char) : splitParameters s =
    (splitOpening? s).elim (s, []) fun parts => (trimRight parts.1, splitList (beforeClosing 0 parts.2)) := by
  unfold splitParameters splitOpening?
  cases splitParenthesis? (tokens s) with
  | some parts => rfl
  | none =>
    cases anglesBalanced s with
    | true => rfl
    | false => cases splitFirst? ['('] s <;> rfl

theorem append_of_splitOpening? {before behind : List Char} (h : splitOpening? s = some (before, behind)) :
    before ++ '(' :: behind = s := by
  unfold splitOpening? at h
  split at h
  · rename_i parts hparts
    obtain rfl := Option.some.inj h
    rw [← join_of_splitParenthesis? hparts, join_tokens]
  · split at h
    · cases h
    · -- the first parenthesis of all, in brackets or not
      exact append_of_splitFirst? h

/-- What stands before the parameters. -/
theorem detached_head (s : List Char) : Detached (splitParameters s).1 s := by
  rw [splitParameters_eq]
  cases h : splitOpening? s with
  | none => exact detached_refl s
  | some parts =>
    exact (detached_trimRight parts.1).trans ⟨[], '(' :: parts.2, (append_of_splitOpening? h).symm, rfl, rfl⟩

/-- The qualified name, behind the type of the result. -/
theorem detached_qualified (s : List Char) : Detached (splitResult s).2 s := by
  unfold splitResult
  split
  · rename_i before behind hfound
    refine (detached_trim behind).trans ⟨before ++ [' '], [], ?_, by simp; rfl, rfl⟩
    rw [List.append_nil, List.append_assoc, List.singleton_append, ← join_of_splitBlank? hfound, join_tokens]
  · exact detached_trim s

/-- The last part of a qualified name. -/
theorem detached_last {scopes : List (List Char)} (h : splitScopes s = scopes ++ [t]) : Detached t s := by
  have main : ∀ l : List (List Char), Detached t (joinScopes (l ++ [t])) := by
    intro l
    induction l with
    | nil =>
      rw [List.nil_append, joinScopes_singleton]
      exact detached_refl t
    | cons x l ih =>
      have hne : l ++ [t] ≠ [] := List.append_ne_nil_of_right_ne_nil l (List.cons_ne_nil t [])
      refine ih.trans ⟨x ++ separator, [], ?_, by simp [separator]; rfl, rfl⟩
      rw [List.cons_append, joinScopes_cons hne, List.append_nil, List.append_assoc]
  rw [← joinScopes_splitScopes s, h]
  exact main scopes

/-- An operator name begins with the keyword as a whole word. -/
theorem detached_of_operatorName? {name rest : List Char} (h : operatorName? none s = some (name, rest)) :
    Detached operatorKeyword s := by
  unfold operatorName? at h
  split at h
  · cases h
  · rename_i after hafter
    split at h
    · cases h
    · rename_i hno
      refine ⟨[], after, (dropPrefix?_eq_some_iff.mp hafter).trans (List.nil_append _).symm, rfl, ?_⟩
      simpa using hno

/-! ## Descriptors -/

/-- What is read of a printed name: no tags, and no white space around. -/
def readText (s : List Char) : List Char := trim (stripTags s)

/-- Tags say nothing of a function. -/
theorem ofText?_stripTags (s : List Char) : Descriptor.ofText? (stripTags s) = Descriptor.ofText? s := by
  unfold Descriptor.ofText?
  rw [stripTags_eq_self (stripTag?_stripTags s)]

/-- Only a name of which nothing is left to be read has no descriptor. -/
theorem ofText?_eq_none_iff : Descriptor.ofText? s = none ↔ readText s = [] := by
  unfold Descriptor.ofText?
  dsimp only
  by_cases hempty : readText s = []
  · have hnone : (trim (stripTags s)).isEmpty = true := List.isEmpty_iff.mpr hempty
    rw [if_pos hnone]
    exact iff_of_true rfl hempty
  · have hsome : ¬ (trim (stripTags s)).isEmpty = true := fun h => hempty (List.isEmpty_iff.mp h)
    rw [if_neg hsome]
    refine iff_of_false ?_ hempty
    split <;> exact nofun

/-- A descriptor is made from the parts of a name, or of all that stands before the parameters. -/
theorem of_ofText? {d : Descriptor} (h : Descriptor.ofText? s = some d) :
    ∃ head parameters, splitParameters (readText s) = (head, parameters) ∧
      ((anglesBalanced head = true ∧ d = .ofQualified (splitResult head).2 parameters (splitResult head).1) ∨
        (anglesBalanced head = false ∧ d = .ofUnbalanced head parameters)) := by
  refine ⟨_, _, rfl, ?_⟩
  unfold Descriptor.ofText? at h
  dsimp only at h
  split at h
  · cases h
  · split at h
    · rename_i hbalanced
      exact Or.inl ⟨hbalanced, (Option.some.inj h).symm⟩
    · rename_i hbalanced
      exact Or.inr ⟨Bool.eq_false_iff.mpr hbalanced, (Option.some.inj h).symm⟩

end PathSafety.Name
