import PathSafety.Proofs.Name.Tokens
import PathSafety.Proofs.Name.Tags

/-!
# Identifiers and operator names

The names of functions: identifiers, and the names of operators that do not convert to a type. An operator name
ends where the longest symbol ends that it can begin with, so the angle bracket of template arguments must not
stand right behind the symbol `<`.

Contents:

* `Identifier` — identifiers, in which no operator name begins;
* `Operator` — the operators that do not convert;
* `operatorName?_text` — their names are read as they are printed.
-/

namespace PathSafety.Name

open Text

/-! ## Identifiers -/

theorem toNat_of_isIdentifierChar {c : Char} (h : isIdentifierChar c = true) :
    36 ≤ c.toNat ∧ c.toNat ≤ 122 := by
  unfold isIdentifierChar Char.isAlphanum Char.isAlpha Char.isUpper Char.isLower Char.isDigit at h
  simp only [Bool.or_eq_true, Bool.and_eq_true, decide_eq_true_eq, beq_iff_eq, UInt32.le_iff_toNat_le,
    ge_iff_le] at h
  have hval : c.toNat = c.val.toNat := rfl
  rcases h with (((h | h) | h) | rfl) | rfl
  · simp at h
    omega
  · simp at h
    omega
  · simp at h
    omega
  · decide
  · decide

theorem isBlank_of_isIdentifierChar {c : Char} (h : isIdentifierChar c = true) : isBlank c = false := by
  obtain ⟨hlo, hhi⟩ := toNat_of_isIdentifierChar h
  unfold isBlank
  simp only [Bool.or_eq_false_iff, Bool.and_eq_false_imp, decide_eq_true_eq, decide_eq_false_iff_not,
    beq_eq_false_iff_ne]
  omega

theorem ne_of_isIdentifierChar {c d : Char} (h : isIdentifierChar c = true) (hd : isIdentifierChar d = false) :
    c ≠ d := by
  rintro rfl
  rw [h] at hd
  cases hd

theorem isBracket_of_isIdentifierChar {c : Char} (h : isIdentifierChar c = true) : isBracket c = false := by
  have hne : ∀ d, isIdentifierChar d = false → (c == d) = false := fun d hd =>
    beq_false_of_ne (ne_of_isIdentifierChar h hd)
  unfold isBracket
  rw [hne '<' rfl, hne '>' rfl, hne '(' rfl, hne ')' rfl]
  rfl

/-- An identifier: not empty, of identifier characters, and not the keyword of operators. -/
structure Identifier where
  text : List Char
  nonempty : text ≠ []
  chars : ∀ c ∈ text, isIdentifierChar c = true
  ne_keyword : text ≠ operatorKeyword

namespace Identifier

variable (x : Identifier)

theorem keywordFree : KeywordFree x.text := by
  intro l r h
  have hchars := x.chars
  rw [h] at hchars
  cases r with
  | cons c r =>
    exact Or.inr (hchars c (List.mem_append_right _ (List.mem_append_right _ List.mem_cons_self)))
  | nil =>
    cases hl : l.getLast? with
    | none =>
      -- nothing stands before the keyword or behind it
      obtain rfl := List.getLast?_eq_none_iff.mp hl
      rw [List.append_nil, List.nil_append] at h
      exact absurd h x.ne_keyword
    | some c => exact Or.inl (hchars c (List.mem_append_left _ (List.mem_of_getLast? hl)))

theorem isBracket_chars : ∀ c ∈ x.text, isBracket c = false := fun c hc =>
  isBracket_of_isIdentifierChar (x.chars c hc)

end Identifier

/-! ## Operators -/

/-- The operators that do not convert to a type. -/
inductive Operator where
  | symbol (s : List Char) (hs : s ∈ operatorSymbols)
  | call
  | index
  | new (array : Bool)
  | delete (array : Bool)
  | literal (spaces : Nat) (suffix : Identifier)

namespace Operator

/-- What allocates or frees an array. -/
def brackets (array : Bool) : List Char := if array then ['[', ']'] else []

/-- What names the operator, after the keyword. -/
def suffix : Operator → List Char
  | symbol s _ => s
  | call => ['(', ')']
  | index => ['[', ']']
  | new array => ' ' :: ("new".toList ++ brackets array)
  | delete array => ' ' :: ("delete".toList ++ brackets array)
  | literal spaces x => '"' :: '"' :: (List.replicate spaces ' ' ++ x.text)

/-- The name of the function. -/
def text (op : Operator) : List Char := operatorKeyword ++ op.suffix

end Operator

/-- Where an operator name can end: at the end of the text, at template arguments, or at parameters. -/
def EndsName (r : List Char) : Prop := r.head? = none ∨ r.head? = some '<' ∨ r.head? = some '('

/-- Blanks behind an operator name. -/
abbrev blanks (n : Nat) : List Char := List.replicate n ' '

theorem trimRight_append_blanks (s : List Char) (n : Nat) : trimRight (s ++ blanks n) = trimRight s := by
  induction n with
  | zero => rw [show s ++ blanks 0 = s from List.append_nil s]
  | succ n ih =>
    rw [show blanks (n + 1) = blanks n ++ [' '] from List.replicate_succ', ← List.append_assoc,
      trimRight_concat_blank rfl, ih]

theorem trim_append_blanks (s : List Char) (n : Nat) : trim (s ++ blanks n) = trim s := by
  induction n with
  | zero => rw [show s ++ blanks 0 = s from List.append_nil s]
  | succ n ih =>
    rw [show blanks (n + 1) = blanks n ++ [' '] from List.replicate_succ', ← List.append_assoc,
      trim_concat_blank rfl, ih]

theorem head_blanks_append {n : Nat} {r : List Char} (h : EndsName r) :
    (blanks n ++ r).head? ∈ [none, some ' ', some '<', some '('] := by
  cases n with
  | zero => rcases h with h | h | h <;> simp [h]
  | succ n => simp [List.replicate_succ]

/-- A symbol goes on behind another only after `<`. -/
theorem eq_of_append_symbol : ∀ s ∈ operatorSymbols, ∀ c ∈ [' ', '<', '('], ∀ t ∈ operatorSymbols,
    s ++ [c] <+: t → s = ['<'] ∧ c = '<' := by
  -- decided over the list, as not all characters there are can be gone through
  have hall : ∀ s ∈ operatorSymbols, [' ', '<', '('].all (fun c => ∀ t ∈ operatorSymbols,
      s ++ [c] <+: t → s = ['<'] ∧ c = '<') = true := by decide
  exact fun s hs => List.all_iff_forall_prop.mp (hall s hs)

/-- The first symbol in the list that a symbol begins with is the symbol itself. -/
theorem find?_operatorSymbols : ∀ s ∈ operatorSymbols, operatorSymbols.find? (startsWith · s) = some s := by
  decide

theorem startsWith_symbol_append {s t r : List Char} (hs : s ∈ operatorSymbols) (ht : t ∈ operatorSymbols)
    (hrest : r.head? ∈ [none, some ' ', some '<', some '('])
    (hangle : s = ['<'] → r.head? ≠ some '<') : startsWith t (s ++ r) = startsWith t s := by
  have hiff : t <+: s ++ r ↔ t <+: s := by
    refine ⟨fun ⟨x, hx⟩ => ?_, fun h => h.trans (List.prefix_append s r)⟩
    rcases List.append_eq_append_iff.mp hx with ⟨a, ha, _⟩ | ⟨a, ha, hax⟩
    · exact ⟨a, ha.symm⟩
    · cases a with
      | nil => exact ⟨[], by rw [ha, List.append_nil, List.append_nil]⟩
      | cons c a =>
        -- the other symbol would go on in the rest
        have hhead : r.head? = some c := by
          rw [hax]
          rfl
        have hc : c ∈ [' ', '<', '('] := by simpa [hhead] using hrest
        obtain ⟨rfl, rfl⟩ := eq_of_append_symbol s hs c hc t ht ⟨a, by rw [ha, List.append_assoc]; rfl⟩
        exact absurd hhead (hangle rfl)
  rw [Bool.eq_iff_iff, startsWith_iff, startsWith_iff]
  exact hiff

theorem find?_symbol_append {s r : List Char} (hs : s ∈ operatorSymbols)
    (hrest : r.head? ∈ [none, some ' ', some '<', some '('])
    (hangle : s = ['<'] → r.head? ≠ some '<') :
    operatorSymbols.find? (startsWith · (s ++ r)) = some s := by
  have hcongr : ∀ l : List (List Char), (∀ t ∈ l, t ∈ operatorSymbols) →
      l.find? (startsWith · (s ++ r)) = l.find? (startsWith · s) := by
    intro l hl
    induction l with
    | nil => rfl
    | cons t l ih =>
      obtain ⟨ht, hl⟩ := List.forall_mem_cons.mp hl
      rw [List.find?_cons, List.find?_cons, startsWith_symbol_append hs ht hrest hangle, ih hl]
  rw [hcongr operatorSymbols fun _ h => h, find?_operatorSymbols s hs]

/-- No symbol begins like an allocation or a literal. -/
theorem find?_operatorSymbols_of_head {c : Char} {s : List Char} (hc : c = ' ' ∨ c = '"') :
    operatorSymbols.find? (startsWith · (c :: s)) = none := by
  refine List.find?_eq_none.mpr fun t ht hstarts => ?_
  obtain ⟨x, hx⟩ := startsWith_iff.mp hstarts
  have hheads : ∀ t ∈ operatorSymbols, t ≠ [] ∧ t.head? ≠ some ' ' ∧ t.head? ≠ some '"' := by decide
  obtain ⟨hne, hblank, hquote⟩ := hheads t ht
  cases t with
  | nil => exact hne rfl
  | cons d t =>
    obtain rfl := (List.cons.inj hx).1
    rcases hc with rfl | rfl
    · exact hblank rfl
    · exact hquote rfl

theorem not_startsWith_of_head {c d : Char} {p s : List Char} (h : d ≠ c) : startsWith (d :: p) (c :: s) = false := by
  unfold startsWith
  rw [dropPrefix?_eq_none_of_ne h]
  rfl

theorem not_startsWith_brackets {n : Nat} {r : List Char} (h : EndsName r) :
    startsWith ['[', ']'] (blanks n ++ r) = false := by
  cases hs : blanks n ++ r with
  | nil => rfl
  | cons c s =>
    have hhead := head_blanks_append (n := n) h
    rw [hs] at hhead
    have hc : c ∈ [' ', '<', '('] := by simpa using hhead
    exact not_startsWith_of_head fun hd => absurd (hd ▸ hc) (by decide)

theorem not_identifier_blanks {n : Nat} {r : List Char} (h : EndsName r) :
    (blanks n ++ r).head?.any isIdentifierChar = false := by
  have hhead := head_blanks_append (n := n) h
  cases hs : (blanks n ++ r).head? with
  | none => rfl
  | some c =>
    rw [hs] at hhead
    have hc : c ∈ [' ', '<', '('] := by simpa using hhead
    have hall : ∀ c ∈ [' ', '<', '('], isIdentifierChar c = false := List.all_iff_forall_prop.mp rfl
    exact hall c hc

theorem length_allocation {word : List Char} {array : Bool} {n : Nat} {r : List Char} (h : EndsName r) :
    (if (Operator.brackets array ++ (blanks n ++ r)).head?.any isIdentifierChar then none
      else some (word.length +
        if startsWith ['[', ']'] (Operator.brackets array ++ (blanks n ++ r)) then 2 else 0)) =
      some (word ++ Operator.brackets array).length := by
  cases array with
  | true =>
    show some (word.length + 2) = some (word ++ ['[', ']']).length
    rw [List.length_append]
    rfl
  | false =>
    show (if (blanks n ++ r).head?.any isIdentifierChar then none
      else some (word.length + if startsWith ['[', ']'] (blanks n ++ r) then 2 else 0)) =
        some (word ++ []).length
    rw [not_identifier_blanks h, if_neg Bool.false_ne_true, not_startsWith_brackets h,
      if_neg Bool.false_ne_true, List.append_nil]
    rfl

theorem allocationLength?_new (array : Bool) (n : Nat) {r : List Char} (h : EndsName r) :
    allocationLength? ("new".toList ++ (Operator.brackets array ++ (blanks n ++ r))) =
      some ("new".toList ++ Operator.brackets array).length := by
  unfold allocationLength?
  rw [List.findSome?_cons, dropPrefix?_append]
  dsimp only
  rw [length_allocation h]

theorem allocationLength?_delete (array : Bool) (n : Nat) {r : List Char} (h : EndsName r) :
    allocationLength? ("delete".toList ++ (Operator.brackets array ++ (blanks n ++ r))) =
      some ("delete".toList ++ Operator.brackets array).length := by
  have hnew : dropPrefix? "new".toList ("delete".toList ++ (Operator.brackets array ++ (blanks n ++ r))) =
      none := dropPrefix?_eq_none_of_ne (by decide)
  unfold allocationLength?
  rw [List.findSome?_cons, hnew]
  dsimp only
  rw [List.findSome?_cons, dropPrefix?_append]
  dsimp only
  rw [length_allocation h]

/-- A word after the keyword allocates, or else is the type that the operator converts to. -/
theorem operatorLength_word {word : List Char} (hblank : word.head? ≠ some ' ') :
    operatorLength (' ' :: word) = (allocationLength? word).getD (conversionLength 0 word) + 1 := by
  have hspaces : ((' ' :: word).takeWhile (· == ' ')).length = 1 := by
    cases word with
    | nil => rfl
    | cons c word =>
      have hc : (c == ' ') = false := beq_false_of_ne fun h => hblank (by rw [h]; rfl)
      simp [hc]
  unfold operatorLength
  rw [not_startsWith_of_head (by decide), not_startsWith_of_head (by decide), Bool.or_false,
    if_neg Bool.false_ne_true, find?_operatorSymbols_of_head (Or.inl rfl)]
  dsimp only
  rw [not_startsWith_of_head (by decide), if_neg Bool.false_ne_true, hspaces]
  exact Nat.add_comm 1 _

theorem takeWhile_append_of_pos {α : Type} {p : α → Bool} {l r : List α} (h : ∀ a ∈ l, p a = true) :
    (l ++ r).takeWhile p = l ++ r.takeWhile p := by
  induction l with
  | nil => rfl
  | cons a l ih =>
    obtain ⟨ha, hl⟩ := List.forall_mem_cons.mp h
    rw [List.cons_append, List.takeWhile_cons, if_pos ha, ih hl]
    rfl

/-- A literal goes on over the blanks behind it. -/
theorem operatorLength_literal {spaces n : Nat} {x : Identifier} {r : List Char} (h : EndsName r) :
    operatorLength ('"' :: '"' :: (blanks spaces ++ x.text) ++ (blanks n ++ r)) =
      ('"' :: '"' :: (blanks spaces ++ x.text)).length + n := by
  have hrest : r.takeWhile (fun c => c == ' ' || isIdentifierChar c) = [] := by
    cases r with
    | nil => rfl
    | cons c r =>
      rcases h with h | h | h
      · cases h
      · obtain rfl := Option.some.inj h
        rfl
      · obtain rfl := Option.some.inj h
        rfl
  -- The suffix of a literal operator and all blanks around it are taken, up to the template
  -- arguments or the parameters.
  have htaken : ((blanks spaces ++ x.text ++ (blanks n ++ r)).takeWhile fun c => c == ' ' || isIdentifierChar c) =
      blanks spaces ++ x.text ++ blanks n := by
    have hspaces : ∀ k, ∀ c ∈ blanks k, (c == ' ' || isIdentifierChar c) = true := by
      intro k c hc
      rw [(List.mem_replicate.mp hc).2]
      rfl
    have htext : ∀ c ∈ x.text, (c == ' ' || isIdentifierChar c) = true := fun c hc => by
      rw [x.chars c hc, Bool.or_true]
    rw [List.append_assoc, takeWhile_append_of_pos (hspaces spaces), takeWhile_append_of_pos htext,
      takeWhile_append_of_pos (hspaces n), hrest, List.append_nil, List.append_assoc]
  unfold operatorLength
  rw [List.cons_append, not_startsWith_of_head (by decide), not_startsWith_of_head (by decide), Bool.or_false,
    if_neg Bool.false_ne_true, find?_operatorSymbols_of_head (Or.inr rfl)]
  dsimp only
  have hquotes : startsWith ['"', '"'] ('"' :: ('"' :: (blanks spaces ++ x.text) ++ (blanks n ++ r))) = true := rfl
  rw [hquotes, if_pos rfl]
  show 2 + ((blanks spaces ++ x.text ++ (blanks n ++ r)).takeWhile _).length = _
  rw [htaken, List.length_append, List.length_replicate, List.length_cons, List.length_cons]
  omega

/-- How long the name of an operator is that blanks may follow: only a literal goes on over them. -/
theorem exists_operatorLength (op : Operator) {n : Nat} {r : List Char} (h : EndsName r)
    (hspaced : op.suffix = ['<'] → r.head? = some '<' → 0 < n) :
    ∃ k ≤ n, operatorLength (op.suffix ++ (blanks n ++ r)) = op.suffix.length + k := by
  cases op with
  | symbol s hs =>
    refine ⟨0, Nat.zero_le n, ?_⟩
    have hfirst : ∀ s ∈ operatorSymbols, s.head? ≠ some '(' ∧ s.head? ≠ some '[' ∧ s ≠ [] := by decide
    obtain ⟨hparen, hbracket, hne⟩ := hfirst s hs
    -- The longest symbol that fits is read; only `<` could grow by what follows.
    have hangle : s = ['<'] → (blanks n ++ r).head? ≠ some '<' := by
      intro heq hhead
      cases n with
      | zero => exact absurd (hspaced heq hhead) (Nat.lt_irrefl 0)
      | succ n => simp [List.replicate_succ] at hhead
    have hfind := find?_symbol_append hs (head_blanks_append h) hangle
    cases s with
    | nil => exact absurd rfl hne
    | cons c s =>
      have hc₁ : '(' ≠ c := fun hc => hparen (congrArg some hc.symm)
      have hc₂ : '[' ≠ c := fun hc => hbracket (congrArg some hc.symm)
      show operatorLength (c :: s ++ (blanks n ++ r)) = (c :: s).length
      unfold operatorLength
      rw [hfind, List.cons_append, not_startsWith_of_head hc₁, not_startsWith_of_head hc₂, Bool.or_false,
        if_neg Bool.false_ne_true]
  | call => exact ⟨0, Nat.zero_le n, rfl⟩
  | index => exact ⟨0, Nat.zero_le n, rfl⟩
  | new array =>
    refine ⟨0, Nat.zero_le n, ?_⟩
    have hword : operatorLength (' ' :: ("new".toList ++ (Operator.brackets array ++ (blanks n ++ r)))) = _ :=
      operatorLength_word (by simp)
    rw [allocationLength?_new array n h, ← List.append_assoc] at hword
    exact hword
  | delete array =>
    refine ⟨0, Nat.zero_le n, ?_⟩
    have hword : operatorLength (' ' :: ("delete".toList ++ (Operator.brackets array ++ (blanks n ++ r)))) = _ :=
      operatorLength_word (by simp)
    rw [allocationLength?_delete array n h, ← List.append_assoc] at hword
    exact hword
  | literal spaces x => exact ⟨n, Nat.le_refl n, operatorLength_literal h⟩

/-- What names an operator begins with no identifier character. -/
theorem not_identifier_suffix (op : Operator) (s : List Char) :
    (op.suffix ++ s).head?.any isIdentifierChar = false := by
  cases op with
  | symbol t ht =>
    have hall : ∀ t ∈ operatorSymbols, t ≠ [] ∧ t.head?.any isIdentifierChar = false := by decide
    obtain ⟨hne, hhead⟩ := hall t ht
    cases t with
    | nil => exact absurd rfl hne
    | cons c t => exact hhead
  | _ => rfl

/-- **Operator names** are read as they are printed. Of the blanks that follow, some may be read with the
name. -/
theorem operatorName?_text (op : Operator) {n : Nat} {r : List Char} {b : Option Char}
    (hbefore : b.any isIdentifierChar = false) (h : EndsName r)
    (hspaced : op.suffix = ['<'] → r.head? = some '<' → 0 < n) :
    ∃ k ≤ n, operatorName? b (op.text ++ (blanks n ++ r)) =
      some (op.text ++ blanks k, blanks (n - k) ++ r) := by
  obtain ⟨k, hk, hlength⟩ := exists_operatorLength op h hspaced
  refine ⟨k, hk, ?_⟩
  have hblanks : blanks n = blanks k ++ blanks (n - k) := by
    rw [List.replicate_append_replicate, Nat.add_sub_cancel' hk]
  have htake : (op.suffix ++ (blanks n ++ r)).take (op.suffix.length + k) = op.suffix ++ blanks k := by
    rw [hblanks, List.append_assoc, ← List.append_assoc]
    refine List.take_left' ?_
    rw [List.length_append, List.length_replicate]
  have hdrop : (op.suffix ++ (blanks n ++ r)).drop (op.suffix.length + k) = blanks (n - k) ++ r := by
    rw [hblanks, List.append_assoc, ← List.append_assoc]
    refine List.drop_left' ?_
    rw [List.length_append, List.length_replicate]
  unfold operatorName? Operator.text
  rw [List.append_assoc, dropPrefix?_append]
  dsimp only
  rw [hbefore, not_identifier_suffix, Bool.or_false, if_neg Bool.false_ne_true, hlength, htake, hdrop,
    List.append_assoc]

end PathSafety.Name
