import PathSafety.IR.ExpressionText
import PathSafety.IR.Ty
import PathSafety.Proofs.Text.Numerals
import PathSafety.Proofs.Text.Scan

/-!
# Reading constant expressions

The readers of constant expressions look for keywords, references and commas in texts that hold other things as well:
types, and names that can hold anything. What the readers do to a text is settled piece by piece here, each with any
text behind it. A search for nested expressions passes over a piece that is silent. A piece may end in a word that
goes on behind it, so silence is only asked for where something else follows.

Contents:

* `Silent` — texts that a search for nested expressions passes over;
* `quotedName?_escape`, `silent_quoted` — names between quotes;
* `onlyReference?_quoted` — the only reference to a global;
* `indices?_flatMap`, `addressOperands?_element` — address computations, and their indices;
* `castOperand?_eq`, `targetWidth?_conversion` — conversions, split where the last `to` stands;
* `nested?_typed` — the nested expression behind a type.
-/

namespace PathSafety.IR.ExpressionText

open PathSafety.Text

variable {c : Char} {s t w : List Char} {after : Bool}

/-! ## Searching for nested expressions -/

/-- The keywords of constant expressions. -/
def keywords : List (List Char) := "getelementptr".toList :: castKeywords

/-- What nested constant expressions begin with. -/
def openings : List (List Char) := keywords.flatMap fun k => [k ++ " (".toList, k ++ " inbounds (".toList]

/-- A nested expression begins with one of the openings. -/
theorem nestedAt?_eq_none (h : ∀ q ∈ openings, ¬ q <+: s) : nestedAt? s = none := by
  refine List.find?_eq_none.mpr fun k hk => ?_
  -- A nested expression starts with its keyword and a parenthesis, with or without `inbounds`
  -- between them.
  have hopen : ∀ r, s = k ++ ' ' :: '(' :: r → False := fun r hs =>
    h _ (List.mem_flatMap.mpr ⟨k, hk, List.mem_cons_self⟩) ⟨r, by rw [hs, List.append_assoc]; rfl⟩
  have hinbounds : ∀ r, s = k ++ " inbounds (".toList ++ r → False := fun r hs =>
    h _ (List.mem_flatMap.mpr ⟨k, hk, List.mem_cons_of_mem _ List.mem_cons_self⟩) ⟨r, hs.symm⟩
  rw [Bool.not_eq_true]
  split
  · rename_i rest hrest
    have hs : s = k ++ ' ' :: rest := by
      rw [dropPrefix?_eq_some_iff.mp hrest, List.append_assoc]
      rfl
    rw [Bool.or_eq_false_iff, ← Bool.not_eq_true, ← Bool.not_eq_true, startsWith_iff, startsWith_iff]
    refine ⟨fun ⟨r, hr⟩ => ?_, fun ⟨r, hr⟩ => hopen r (by rw [hs, ← hr]; rfl)⟩
    cases hinner : dropPrefix? "inbounds ".toList rest with
    | none =>
      rw [hinner] at hr
      exact hopen r (by rw [hs, ← show ['('] ++ r = rest from hr]; rfl)
    | some body =>
      rw [hinner] at hr
      refine hinbounds r ?_
      rw [hs, dropPrefix?_eq_some_iff.mp hinner, ← show ['('] ++ r = body from hr, List.append_assoc]
      rfl
  · rfl

theorem not_prefix_of_nestedAt?_eq_none (h : nestedAt? s = none) : ∀ q ∈ openings, ¬ q <+: s := by
  rintro q hq ⟨r, rfl⟩
  -- each opening is one that is found
  simp only [openings, keywords, castKeywords, List.map_cons, List.map_nil, List.flatMap_cons, List.flatMap_nil,
    List.cons_append, List.nil_append, List.append_nil, List.mem_cons, List.not_mem_nil, or_false] at hq
  rcases hq with rfl | rfl | rfl | rfl | rfl | rfl | rfl | rfl | rfl | rfl <;> cases h

theorem exists_of_mem_openings {q : List Char} (hq : q ∈ openings) :
    ∃ k ∈ keywords, ∃ r, q = k ++ ' ' :: r := by
  obtain ⟨k, hk, hq⟩ := List.mem_flatMap.mp hq
  rcases List.mem_cons.mp hq with rfl | hq
  · exact ⟨k, hk, ['('], rfl⟩
  · exact ⟨k, hk, "inbounds (".toList, List.mem_singleton.mp hq⟩

theorem isWord_of_mem_keywords : ∀ k ∈ keywords, k ≠ [] ∧ ∀ c ∈ k, isWord c = true := by
  have h : (keywords.all fun k => !k.isEmpty && k.all isWord) = true := by decide
  simpa using h

theorem nested?_of_none (h : nestedAt? (c :: s) = none) : nested? after (c :: s) = nested? (isWord c) s := by
  simp only [nested?, h, ite_self]

theorem nested?_true_cons (hc : isWord c = true) : nested? true (c :: s) = nested? true s := by
  simp only [nested?, if_true, hc]

/-- That a text does not go on with a character of a word. -/
def Apart (s : List Char) : Prop := ∀ c ∈ s.head?, isWord c = false

theorem apart_nil : Apart [] := fun _ h => nomatch h

theorem apart_cons (h : isWord c = false) : Apart (c :: s) := fun _ hd => Option.some.inj hd ▸ h

theorem Apart.append (hs : Apart s) (ht : Apart t) : Apart (s ++ t) := by
  cases s with
  | nil => exact ht
  | cons c s => exact apart_cons (hs c rfl)

/-- No expression begins with a character that is not one of a word. -/
theorem nested?_cons (h : isWord c = false) : nested? after (c :: s) = nested? false s := by
  have hnone : nestedAt? (c :: s) = none := by
    refine nestedAt?_eq_none fun q hq hstart => ?_
    obtain ⟨k, hk, r, rfl⟩ := exists_of_mem_openings hq
    obtain ⟨hne, hword⟩ := isWord_of_mem_keywords k hk
    cases k with
    | nil => exact hne rfl
    | cons d k =>
      rw [List.cons_append, List.cons_prefix_cons] at hstart
      have := hword d List.mem_cons_self
      rw [hstart.1, h] at this
      cases this
  rw [nested?_of_none hnone, h]

/-- Where no word goes on it makes no difference whether one has begun. -/
theorem nested?_of_apart (h : Apart s) : nested? after s = nested? false s := by
  cases s with
  | nil => rfl
  | cons c s => rw [nested?_cons (h c rfl), nested?_cons (h c rfl)]

/-- That a search for nested expressions passes over a text. -/
def Silent (s : List Char) : Prop := ∀ after rest, Apart rest → nested? after (s ++ rest) = nested? false rest

theorem silent_nil : Silent [] := fun _ _ h => nested?_of_apart h

theorem Silent.append (hs : Silent s) (ht : Silent t) (h : Apart t) : Silent (s ++ t) := by
  intro after rest hrest
  rw [List.append_assoc, hs _ _ (h.append hrest), ht _ _ hrest]

theorem Silent.cons (h : isWord c = false) (hs : Silent s) : Silent (c :: s) := by
  intro after rest hrest
  rw [List.cons_append, nested?_cons h, hs _ _ hrest]

theorem takeWhile_isWord_append (hw : ∀ c ∈ w, isWord c = true) (h : Apart s) :
    (w ++ s).takeWhile isWord = w := by
  rw [List.takeWhile_append_of_pos hw]
  cases s with
  | nil => simp
  | cons c s => rw [List.takeWhile_cons_of_neg (by rw [h c rfl]; exact Bool.false_ne_true), List.append_nil]

/-- A word that is no keyword is passed over. -/
theorem silent_word (hw : ∀ c ∈ w, isWord c = true) (hno : w ∉ keywords) : Silent w := by
  intro after rest hrest
  cases w with
  | nil => exact nested?_of_apart hrest
  | cons c w =>
    have hnone : nestedAt? (c :: w ++ rest) = none := by
      refine nestedAt?_eq_none fun q hq hstart => hno ?_
      -- the word ends where the keyword does
      obtain ⟨k, hk, r, rfl⟩ := exists_of_mem_openings hq
      obtain ⟨z, hz⟩ := hstart
      have hspace : Apart (' ' :: (r ++ z)) := apart_cons (by decide)
      have hword := takeWhile_isWord_append hw hrest
      rw [← hz, List.append_assoc, List.cons_append,
        takeWhile_isWord_append (isWord_of_mem_keywords k hk).2 hspace] at hword
      rwa [← hword]
    have htail : ∀ v : List Char, (∀ d ∈ v, isWord d = true) → nested? true (v ++ rest) = nested? true rest := by
      intro v hv
      induction v with
      | nil => rfl
      | cons d v ih =>
        obtain ⟨hd, hv⟩ := List.forall_mem_cons.mp hv
        rw [List.cons_append, nested?_true_cons hd, ih hv]
    obtain ⟨hc, hw⟩ := List.forall_mem_cons.mp hw
    rw [List.cons_append] at hnone ⊢
    rw [nested?_of_none hnone, hc, htail w hw, nested?_of_apart hrest]

theorem isWord_of_isDigit (h : c.isDigit = true) : isWord c = true := by
  have hbounds := toNat_of_isDigit h
  unfold isWord Char.isAlphanum
  rw [if_pos (by omega), h, Bool.or_true, Bool.true_or]

theorem isDigit_of_mem_keywords : ∀ k ∈ keywords, ∀ c ∈ k, c.isDigit = false := by
  have h : (keywords.all fun k => k.all (!·.isDigit)) = true := by decide
  simpa using h

/-- Numbers are passed over, also behind letters. -/
theorem silent_append_toDigits (hw : ∀ c ∈ w, isWord c = true) (n : Nat) : Silent (w ++ Nat.toDigits 10 n) := by
  have hdigits : ∀ c ∈ Nat.toDigits 10 n, c.isDigit = true := fun c hc =>
    Nat.isDigit_of_mem_toDigits (by decide) (by decide) hc
  refine silent_word (fun c hc => ?_) fun hkeyword => ?_
  · rcases List.mem_append.mp hc with hc | hc
    · exact hw c hc
    · exact isWord_of_isDigit (hdigits c hc)
  · -- keywords have no digits
    obtain ⟨d, ds, hcons, hd, _⟩ := exists_toDigits_eq_cons n
    have := isDigit_of_mem_keywords _ hkeyword d (List.mem_append_right w (hcons ▸ List.mem_cons_self))
    rw [hd] at this
    cases this

/-! ## Names between quotes

No opening holds a quote or a backslash, so what begins with one where escapes stand begins with it in the name itself.
An escape ends in a letter or a digit: behind it fewer expressions begin than in the name. -/

/-- How a character of a name is written between quotes. -/
def escape (c : Char) : List Char :=
  if c == '\\' then ['\\', '5', 'c'] else if c == '"' then ['\\', '2', '2'] else [c]

/-- A name between quotes. -/
def quoted (name : List Char) : List Char := '"' :: (name.flatMap escape ++ ['"'])

theorem toList_quoteName (name : String) : (quoteName name).toList = quoted name.toList := by
  unfold quoteName quoted
  rw [String.toList_append, String.toList_append]
  simp only [String.toList_ofList]
  rfl

theorem escape_of_ne (hslash : c ≠ '\\') (hquote : c ≠ '"') : escape c = [c] := by
  unfold escape
  rw [if_neg (by simpa using hslash), if_neg (by simpa using hquote)]

/-- **Names are read as they were** before they were put between quotes. -/
theorem quotedName?_escape (name t : List Char) : quotedName? (name.flatMap escape ++ '"' :: t) = some (name, t) := by
  induction name with
  | nil => rfl
  | cons c name ih =>
    rw [List.flatMap_cons, List.append_assoc]
    generalize name.flatMap escape ++ '"' :: t = x at ih ⊢
    by_cases hslash : c = '\\'
    · subst hslash
      show quotedName? ('\\' :: '5' :: 'c' :: x) = _
      rw [quotedName?, ih]
      rfl
    · by_cases hquote : c = '"'
      · subst hquote
        show quotedName? ('\\' :: '2' :: '2' :: x) = _
        rw [quotedName?, ih]
        rfl
      · rw [escape_of_ne hslash hquote, List.singleton_append,
          quotedName?.eq_4 _ _ hquote (fun _ _ _ h _ => hslash h) hslash, ih]
        rfl

theorem ne_of_mem_openings : ∀ q ∈ openings, ∀ c ∈ q, c ≠ '\\' ∧ c ≠ '"' := by
  have h : (openings.all fun q => q.all fun c => c != '\\' && c != '"') = true := by decide
  simpa using h

/-- What begins with a text without quotes and backslashes where escapes stand begins with it in the name. -/
theorem prefix_of_prefix_escape {q name : List Char} (hq : ∀ c ∈ q, c ≠ '\\' ∧ c ≠ '"')
    (h : q <+: name.flatMap escape ++ '"' :: t) : q <+: name := by
  induction name generalizing q with
  | nil =>
    cases q with
    | nil => exact List.nil_prefix
    | cons d q =>
      rw [List.flatMap_nil, List.nil_append, List.cons_prefix_cons] at h
      exact absurd h.1 (hq d List.mem_cons_self).2
  | cons c name ih =>
    cases q with
    | nil => exact List.nil_prefix
    | cons d q =>
      obtain ⟨⟨hslash, hquote⟩, hq⟩ := List.forall_mem_cons.mp hq
      rw [List.flatMap_cons, List.append_assoc] at h
      have hc : c ≠ '\\' ∧ c ≠ '"' := by
        refine ⟨?_, ?_⟩ <;> rintro rfl <;> exact hslash (List.cons_prefix_cons.mp h).1
      rw [escape_of_ne hc.1 hc.2, List.singleton_append, List.cons_prefix_cons] at h
      exact List.cons_prefix_cons.mpr ⟨h.1, ih hq h.2⟩

theorem nested?_tail_of_none (h : nested? after (c :: s) = none) : nested? (isWord c) s = none := by
  unfold nested? at h
  split at h
  · cases h
  · exact h

/-- Fewer expressions begin where a word has begun. -/
theorem nested?_true_of_none (h : nested? after s = none) : nested? true s = none := by
  cases s with
  | nil => rfl
  | cons c s =>
    have htail := nested?_tail_of_none h
    simp only [nested?, if_true]
    exact htail

theorem nestedAt?_of_nested? (h : nested? false (c :: s) = none) : nestedAt? (c :: s) = none := by
  unfold nested? at h
  rw [if_neg Bool.false_ne_true] at h
  split at h
  · cases h
  · rename_i hnone
    exact hnone

/-- An escape is passed over, and a word ends in it. -/
theorem nested?_of_digit {d : Char} (hd : isWord d = true) (hc : c.isDigit = true) :
    nested? after ('\\' :: c :: d :: s) = nested? true s := by
  have hnone : nestedAt? (c :: d :: s) = none := by
    refine nestedAt?_eq_none fun q hq hstart => ?_
    obtain ⟨k, hk, r, rfl⟩ := exists_of_mem_openings hq
    cases k with
    | nil => exact (isWord_of_mem_keywords _ hk).1 rfl
    | cons e k =>
      rw [List.cons_append, List.cons_prefix_cons] at hstart
      have := isDigit_of_mem_keywords _ hk e List.mem_cons_self
      rw [hstart.1, hc] at this
      cases this
  rw [nested?_cons (by decide), nested?_of_none hnone, isWord_of_isDigit hc, nested?_true_cons hd]

theorem nested?_escape {name : List Char} (h : nested? after name = none) :
    nested? after (name.flatMap escape ++ '"' :: t) = nested? false t := by
  induction name generalizing after with
  | nil => exact nested?_cons (by decide)
  | cons c name ih =>
    have htail := nested?_tail_of_none h
    have hquotes : nestedAt? (c :: name) = none → nestedAt? ((c :: name).flatMap escape ++ '"' :: t) = none := fun hname =>
      nestedAt?_eq_none fun q hq hstart =>
        not_prefix_of_nestedAt?_eq_none hname q hq (prefix_of_prefix_escape (ne_of_mem_openings q hq) hstart)
    rw [List.flatMap_cons, List.append_assoc] at hquotes ⊢
    by_cases hslash : c = '\\'
    · subst hslash
      exact (nested?_of_digit (by decide) (by decide)).trans (ih (nested?_true_of_none htail))
    · by_cases hquote : c = '"'
      · subst hquote
        exact (nested?_of_digit (by decide) (by decide)).trans (ih (nested?_true_of_none htail))
      · rw [escape_of_ne hslash hquote, List.singleton_append] at hquotes ⊢
        cases after with
        | true =>
          simp only [nested?, if_true]
          exact ih htail
        | false => rw [nested?_of_none (hquotes (nestedAt?_of_nested? h)), ih htail]

/-- **Names without nested expressions are passed over** between their quotes. -/
theorem silent_quoted {name : List Char} (h : nested? false name = none) : Silent (quoted name) := by
  intro after rest hrest
  unfold quoted
  rw [List.cons_append, nested?_cons (by decide), List.append_assoc]
  exact nested?_escape h

/-! ## References -/

/-- No reference begins in a text without its mark. -/
theorem references_append {fuel : Nat} (hs : '@' ∉ s) (hfuel : s.length ≤ fuel) :
    references fuel (s ++ t) = references (fuel - s.length) t := by
  induction s generalizing fuel with
  | nil => rfl
  | cons c s ih =>
    rw [List.mem_cons, not_or] at hs
    cases fuel with
    | zero => cases hfuel
    | succ fuel =>
      rw [List.length_cons, Nat.add_le_add_iff_right] at hfuel
      rw [List.cons_append, List.length_cons, Nat.add_sub_add_right, ← ih hs.2 hfuel]
      exact if_neg fun h => hs.1 h.symm

theorem references_eq_nil {fuel : Nat} (hs : '@' ∉ s) : references fuel s = [] := by
  induction s generalizing fuel with
  | nil => cases fuel <;> rfl
  | cons c s ih =>
    rw [List.mem_cons, not_or] at hs
    cases fuel with
    | zero => rfl
    | succ fuel => exact (if_neg fun h => hs.1 h.symm).trans (ih hs.2)

/-- **The only reference** in a text is to a name between quotes, where the mark stands nowhere else. The name itself may
hold it. -/
theorem onlyReference?_quoted (hs : '@' ∉ s) (ht : '@' ∉ t) (name : List Char) :
    onlyReference? (s ++ '@' :: (quoted name ++ t)) = some (String.ofList name, t) := by
  have hread : ∀ fuel, references (fuel + 1) ('@' :: (quoted name ++ t)) = [(name, t)] := by
    intro fuel
    have hname : globalName? (quoted name ++ t) = some (name, t) := by
      unfold quoted
      rw [List.cons_append, List.append_assoc]
      exact quotedName?_escape name t
    show (if '@' = '@' then _ else _) = _
    rw [if_pos rfl, hname]
    exact congrArg ((name, t) :: ·) (references_eq_nil ht)
  unfold onlyReference?
  rw [references_append hs (by simp), List.length_append, Nat.add_sub_cancel_left, List.length_cons, hread]

/-! ## Indices -/

/-- How an index of an address computation is written, behind a comma. -/
def indexText (i : Nat × Int) : List Char :=
  [',', ' ', 'i'] ++ (Nat.toDigits 10 i.1 ++ ' ' :: (toString i.2).toList)

/-- The text of an integer does not begin with a blank. -/
theorem trimLeft_toString (k : Int) : trimLeft ((toString k).toList ++ t) = (toString k).toList ++ t := by
  obtain ⟨d, ds, hcons, hd, _⟩ := exists_toDigits_eq_cons k.natAbs
  rw [toList_toString_int, hcons]
  split
  · exact trimLeft_cons (by decide)
  · exact trimLeft_cons (isBlank_of_isDigit hd)

theorem index?_indexText (i : Nat × Int) (ht : ∀ c ∈ t.head?, digitValue? c = none) :
    index? (indexText i ++ t) = some (i, t) := by
  have hspace : ∀ c ∈ (' ' :: ((toString i.2).toList ++ t)).head?, digitValue? c = none := by
    rintro c hc
    obtain rfl := Option.some.inj hc
    decide
  have htext : indexText i ++ t = [',', ' ', 'i'] ++ (Nat.toDigits 10 i.1 ++ ' ' :: ((toString i.2).toList ++ t)) := by
    simp only [indexText, List.append_assoc, List.cons_append]
  have hblanks : blanks? (' ' :: ((toString i.2).toList ++ t)) = some ((toString i.2).toList ++ t) :=
    congrArg some (trimLeft_toString i.2)
  rw [htext]
  show (nat? (Nat.toDigits 10 i.1 ++ ' ' :: ((toString i.2).toList ++ t)) >>= _) = _
  rw [nat?_toDigits _ hspace, Option.bind_eq_bind, Option.bind_some]
  show (blanks? (' ' :: ((toString i.2).toList ++ t)) >>= _) = _
  rw [hblanks, Option.bind_eq_bind, Option.bind_some]
  show (int? ((toString i.2).toList ++ t) >>= _) = _
  rw [int?_toString _ ht]
  rfl

theorem head?_flatMap_indexText (is : List (Nat × Int)) :
    ∀ c ∈ (is.flatMap indexText).head?, digitValue? c = none := by
  intro c hc
  cases is with
  | nil => cases hc
  | cons i is =>
    obtain rfl := Option.some.inj hc
    decide

theorem length_le_flatMap_indexText (is : List (Nat × Int)) : is.length ≤ (is.flatMap indexText).length := by
  induction is with
  | nil => exact Nat.le_refl 0
  | cons i is ih =>
    rw [List.flatMap_cons, List.length_append, List.length_cons, Nat.add_comm]
    exact Nat.add_le_add (Nat.le_add_left 1 _) ih

/-- **Indices are read as they are written**, negative ones as well. -/
theorem indices?_flatMap {fuel : Nat} {is : List (Nat × Int)} (hfuel : is.length ≤ fuel) :
    indices? fuel (is.flatMap indexText) = some is := by
  induction is generalizing fuel with
  | nil => cases fuel <;> rfl
  | cons i is ih =>
    cases fuel with
    | zero => cases hfuel
    | succ fuel =>
      have hcomma : ((i :: is).flatMap indexText).all isBlank = false := rfl
      unfold indices?
      rw [hcomma, if_neg Bool.false_ne_true]
      show (index? (indexText i ++ is.flatMap indexText) >>= _) = _
      rw [index?_indexText i (head?_flatMap_indexText is), Option.bind_eq_bind, Option.bind_some]
      show (indices? fuel (is.flatMap indexText) >>= _) = _
      rw [ih (Nat.le_of_succ_le_succ hfuel)]
      rfl

/-! ## Address computations -/

theorem dropSuffix?_append (s t : List Char) : dropSuffix? t (s ++ t) = some s := by
  unfold dropSuffix?
  rw [List.reverse_append, dropPrefix?_append, Option.map_some, List.reverse_reverse]

/-- How an address computation is written. -/
def element (inbounds : Bool) (operands : List Char) : List Char :=
  "getelementptr ".toList ++ ((if inbounds then "inbounds ".toList else []) ++ ('(' :: (operands ++ [')'])))

theorem addressOperands?_element (inbounds : Bool) (operands : List Char) :
    addressOperands? (element inbounds operands) = some operands := by
  cases inbounds <;> exact dropSuffix?_append operands [')']

/-! ## Conversions -/

/-- The last occurrence of a pattern is where the text behind it begins, if it does not end there later. -/
theorem splitLast?_append {p : List Char} (h : ∀ l r, t = l ++ r → l ≠ [] → ¬ p <:+ s ++ p ++ l) :
    splitLast? p (s ++ (p ++ t)) = some (s, t) := by
  unfold splitLast?
  have hfirst : splitFirst? p.reverse (s ++ (p ++ t)).reverse = some (t.reverse, s.reverse) := by
    rw [List.reverse_append, List.reverse_append, List.append_assoc]
    refine splitFirst?_append fun l r hlr hr hstart => ?_
    refine h r.reverse l.reverse ?_ (by simpa using hr) ?_
    · rw [← List.reverse_append, ← hlr, List.reverse_reverse]
    · rw [← List.reverse_prefix]
      simpa using hstart
  rw [hfirst]
  simp

/-- How a conversion is written. -/
def conversion (k operand target : List Char) : List Char :=
  k ++ (" (".toList ++ (operand ++ (" to ".toList ++ (target ++ [')']))))

/-- A conversion is split before its target, if that does not hold a `to` itself. -/
theorem splitLast?_to {operand target : List Char} (hinside : ¬ " to ".toList <:+: target)
    (hstart : ¬ "to ".toList <+: target) :
    splitLast? " to ".toList (operand ++ (" to ".toList ++ target)) = some (operand, target) := by
  refine splitLast?_append fun l r hlr hl hsuffix => ?_
  have hreverse := List.reverse_prefix.mpr hsuffix
  rw [List.reverse_append, List.reverse_append] at hreverse
  -- the two occurrences overlap in as many characters as the text between their ends is shorter
  match l, hl with
  | [c], _ => exact absurd (List.cons_prefix_cons.mp (List.cons_prefix_cons.mp hreverse).2).1 (by decide)
  | [c, d], _ =>
    exact absurd (List.cons_prefix_cons.mp (List.cons_prefix_cons.mp (List.cons_prefix_cons.mp hreverse).2).2).1
      (by decide)
  | [c, d, e], _ =>
    obtain ⟨he, hreverse⟩ := List.cons_prefix_cons.mp hreverse
    obtain ⟨hd, hreverse⟩ := List.cons_prefix_cons.mp hreverse
    obtain ⟨hc, _⟩ := List.cons_prefix_cons.mp hreverse
    exact hstart ⟨r, by rw [hlr, ← hc, ← hd, ← he]; rfl⟩
  | c :: d :: e :: f :: l, _ =>
    have hlength : " to ".toList.length ≤ (c :: d :: e :: f :: l).length := by
      simp only [List.length_cons]
      exact Nat.le_add_left 4 _
    exact hinside (hlr ▸ (List.suffix_of_suffix_length_le hsuffix (List.suffix_append _ _) hlength).isInfix.trans
      (List.prefix_append _ _).isInfix)

/-- What holds of each conversion. -/
@[elab_as_elim]
theorem of_mem_castKeywords {p : List Char → Prop} {k : List Char} (hk : k ∈ castKeywords) (hbitcast : p "bitcast".toList)
    (hptrtoint : p "ptrtoint".toList) (hinttoptr : p "inttoptr".toList) (haddrspacecast : p "addrspacecast".toList) :
    p k := by
  simp only [castKeywords, List.map_cons, List.map_nil, List.mem_cons, List.not_mem_nil, or_false] at hk
  rcases hk with rfl | rfl | rfl | rfl
  · exact hbitcast
  · exact hptrtoint
  · exact hinttoptr
  · exact haddrspacecast

/-- A conversion is read up to its target, but not at all if that holds a parenthesis. -/
theorem castOperand?_eq {k operand target : List Char} (hk : k ∈ castKeywords) (hinside : ¬ " to ".toList <:+: target)
    (hstart : ¬ "to ".toList <+: target) : castOperand? (conversion k operand target) =
      if target.contains '(' || target.contains ')' then none else some (trim operand) := by
  have hbody : (castKeywords.findSome? fun k' => dropPrefix? (k' ++ " (".toList) (conversion k operand target)) =
      some (operand ++ (" to ".toList ++ (target ++ [')']))) :=
    of_mem_castKeywords hk rfl rfl rfl rfl
  have hoperand : dropSuffix? [')'] (operand ++ (" to ".toList ++ (target ++ [')']))) =
      some (operand ++ (" to ".toList ++ target)) := by
    rw [← List.append_assoc " to ".toList, ← List.append_assoc operand, dropSuffix?_append]
  unfold castOperand?
  rw [hbody, Option.bind_eq_bind, Option.bind_some, hoperand, Option.bind_eq_bind, Option.bind_some,
    splitLast?_to hinside hstart, Option.bind_some]

/-- **The operand of a conversion** is all before its target. -/
theorem castOperand?_conversion {k operand target : List Char} (hk : k ∈ castKeywords) (htrim : trim operand = operand)
    (hinside : ¬ " to ".toList <:+: target) (hstart : ¬ "to ".toList <+: target) (hopen : '(' ∉ target)
    (hclose : ')' ∉ target) : castOperand? (conversion k operand target) = some operand := by
  have hparens : (target.contains '(' || target.contains ')') = false := by
    simp [hopen, hclose]
  rw [castOperand?_eq hk hinside hstart, hparens, htrim]
  rfl

theorem castOperand?_parenthesized {k operand target : List Char} (hk : k ∈ castKeywords)
    (hinside : ¬ " to ".toList <:+: target) (hstart : ¬ "to ".toList <+: target) (h : '(' ∈ target ∨ ')' ∈ target) :
    castOperand? (conversion k operand target) = none := by
  have hparens : (target.contains '(' || target.contains ')') = true := by
    rw [Bool.or_eq_true, List.contains_iff_mem, List.contains_iff_mem]
    exact h
  rw [castOperand?_eq hk hinside hstart, hparens, if_pos rfl]

/-- The width of an integer that something is converted to. -/
theorem targetWidth?_conversion (k operand : List Char) (n : Nat) :
    targetWidth? (conversion k operand ('i' :: Nat.toDigits 10 n)) = some n := by
  have htext : conversion k operand ('i' :: Nat.toDigits 10 n) =
      ((k ++ (" (".toList ++ operand)) ++ (" to i".toList ++ Nat.toDigits 10 n)) ++ [')'] := by
    simp [conversion]
  have hsplit : splitLast? " to i".toList ((k ++ (" (".toList ++ operand)) ++ (" to i".toList ++ Nat.toDigits 10 n)) =
      some (k ++ (" (".toList ++ operand), Nat.toDigits 10 n) := by
    refine splitLast?_append fun l r hlr hl hsuffix => ?_
    -- the pattern does not end in a digit
    have hlast : 'i' = l.getLast hl := by
      obtain ⟨z, hz⟩ := hsuffix
      have := congrArg List.getLast? hz
      rw [List.getLast?_append, List.getLast?_append, List.getLast?_eq_some_getLast hl] at this
      exact Option.some.inj this
    have hdigit : (l.getLast hl).isDigit = true :=
      Nat.isDigit_of_mem_toDigits (by decide) (by decide) (hlr ▸ List.mem_append_left r (List.getLast_mem hl))
    rw [← hlast] at hdigit
    cases hdigit
  have hnat : nat? (Nat.toDigits 10 n) = some (n, []) := by
    have := nat?_toDigits n (t := []) nofun
    rwa [List.append_nil] at this
  unfold targetWidth?
  rw [htext, dropSuffix?_append, Option.bind_eq_bind, Option.bind_some, hsplit, Option.bind_eq_bind, Option.bind_some]
  show (nat? (Nat.toDigits 10 n) >>= _) = _
  rw [hnat]
  rfl

theorem addressOperands?_conversion {k : List Char} (hk : k ∈ castKeywords) (operand target : List Char) :
    addressOperands? (conversion k operand target) = none :=
  of_mem_castKeywords hk rfl rfl rfl rfl

/-! ## Nested expressions -/

theorem nestedAt?_element (inbounds : Bool) (operands : List Char) :
    nestedAt? (element inbounds operands) = some "getelementptr".toList := by
  cases inbounds <;> rfl

theorem nestedAt?_conversion {k : List Char} (hk : k ∈ castKeywords) (operand target : List Char) :
    nestedAt? (conversion k operand target) = some k :=
  of_mem_castKeywords hk rfl rfl rfl rfl

/-- **The nested expression** in an operand is the one behind its type. -/
theorem nested?_typed {k : List Char} (hs : Silent s) (ht : nestedAt? t = some k) :
    nested? false (s ++ ' ' :: t) = some (k, t) := by
  rw [hs _ _ (apart_cons (by decide)), nested?_cons (by decide)]
  cases t with
  | nil => cases ht
  | cons c t => simp only [nested?, ht, Bool.false_eq_true, if_false]

end PathSafety.IR.ExpressionText
