import PathSafety.Proofs.Name.Tokens

/-!
# Scanning by positions

A scanner that walks through a text by positions can go wrong in two ways that one over lists cannot: it may read at a
position where the text has no character, and a jump may lead nowhere, so that it never ends. The scanners of names jump
over operator names and the name of the anonymous namespace, by lengths that they compute. Here they are written by
positions, with reads that miss and jumps that do not go on giving `none`. The argument is the same for all of them: at a
position behind `l`, with `r` still to be read, a scanner does what the one over lists does with `r`, wherever brackets
lack their partners or the text ends.

Contents:

* `Indexed.operatorAt?`, `Indexed.operatorEnd?`, `Indexed.topLevel?`, `Indexed.balanced?`, `Indexed.closing?`,
  `Indexed.opening?` — the scanners by positions;
* `Indexed.At` — what is still to be read at a position;
* `operatorLength_le` — an operator name ends in the text;
* `Indexed.At.operatorEnd?_eq`, `Indexed.At.topLevel?_eq`, `Indexed.At.balanced?_eq`, `Indexed.At.closing?_eq`,
  `Indexed.opening?_eq` — no scanner misses, and each says what the one over lists says.
-/

namespace PathSafety.Name

open Text

/-! ## Scanners -/

namespace Indexed

/-- Whether a pattern stands in a text at a position. No character is read behind the end. -/
def startsAt (p s : List Char) (i : Nat) : Bool := startsWith p (s.drop i)

/-- Whether no identifier goes on from before a position. -/
def freeBefore? (s : List Char) (i : Nat) : Option Bool :=
  if i = 0 then some true
  else do
    let c ← s[i - 1]?
    return !isIdentifierChar c

/-- Whether no identifier goes on behind a position. -/
def freeBehind? (s : List Char) (i : Nat) : Option Bool :=
  if i = s.length then some true
  else do
    let c ← s[i]?
    return !isIdentifierChar c

/-- Whether an operator name begins at a position. -/
def operatorAt? (s : List Char) (i : Nat) : Option Bool :=
  if startsAt operatorKeyword s i then do
    if ← freeBefore? s i then freeBehind? s (i + operatorKeyword.length) else return false
  else some false

/-- Where the characters of some kind end. -/
def skip? (kind : Char → Bool) (s : List Char) (i : Nat) : Option Nat :=
  if _h : i < s.length then do
    let c ← s[i]?
    if kind c then skip? kind s (i + 1) else return i
  else some i
termination_by s.length - i

/-- Where the type ends that a conversion operator converts to. -/
def conversionEnd? (depth : Nat) (s : List Char) (i : Nat) : Option Nat :=
  if _h : i < s.length then do
    let c ← s[i]?
    if c = '(' ∧ depth = 0 then return i else conversionEnd? (angleDepth depth c) s (i + 1)
  else some i
termination_by s.length - i

/-- Where one of some words ends that stands alone at a position, with brackets after it. -/
def wordEnd? (s : List Char) (i : Nat) : List (List Char) → Option (Option Nat)
  | [] => some none
  | word :: words =>
    let e := i + word.length
    if startsAt word s i then do
      if ← freeBehind? s e then return some (e + if startsAt ['[', ']'] s e then 2 else 0)
      else wordEnd? s i words
    else wordEnd? s i words

/-- Where an operator name ends that begins at a position. -/
def operatorEnd? (s : List Char) (i : Nat) : Option Nat :=
  let i := i + operatorKeyword.length
  if startsAt ['(', ')'] s i || startsAt ['[', ']'] s i then some (i + 2)
  else
    match operatorSymbols.find? (startsAt · s i) with
    | some symbol => some (i + symbol.length)
    | none =>
      if startsAt ['"', '"'] s i then skip? (fun c => c == ' ' || isIdentifierChar c) s (i + 2)
      else do
        let i ← skip? (· == ' ') s i
        match ← wordEnd? s i ["new".toList, "delete".toList] with
        | some e => return e
        | none => conversionEnd? 0 s i

/-- The characters and operator names outside of brackets with their positions. -/
def topLevel? (angle paren : Nat) (s : List Char) (i : Nat) : Option (List (Nat × List Char)) :=
  if _h : i < s.length then
    if angle = 0 ∧ paren = 0 then
      if startsAt anonymousNamespace s i then topLevel? 0 0 s (i + anonymousNamespace.length)
      else do
        if ← operatorAt? s i then
          let e ← operatorEnd? s i
          if _h : i < e then return (i, (s.take e).drop i) :: (← topLevel? 0 0 s e) else none
        else
          let c ← s[i]?
          return (i, [c]) :: (← topLevel? (angleDepth 0 c) (parenDepth 0 c) s (i + 1))
    else do
      let c ← s[i]?
      topLevel? (angleDepth angle c) (parenDepth paren c) s (i + 1)
  else some []
termination_by s.length - i
decreasing_by
  · have hforward : 0 < anonymousNamespace.length := by decide
    omega
  all_goals omega

/-- Whether every angle bracket from a position on has its partner. -/
def balanced? (depth : Nat) (s : List Char) (i : Nat) : Option Bool :=
  if _h : i < s.length then do
    if ← operatorAt? s i then
      let e ← operatorEnd? s i
      if _h : i < e then balanced? depth s e else none
    else
      let c ← s[i]?
      if c = '>' ∧ depth = 0 then return false else balanced? (angleDepth depth c) s (i + 1)
  else some (depth == 0)
termination_by s.length - i

/-- Where the last of `depth` open parentheses is closed; the end of the text, if it is not. -/
def closing? (depth : Nat) (s : List Char) (i : Nat) : Option Nat :=
  if _h : i < s.length then do
    let c ← s[i]?
    if c = ')' ∧ depth = 1 then return i else closing? (parenDepth depth c) s (i + 1)
  else some s.length
termination_by s.length - i

/-- Where the last of `depth` angle brackets is opened that close from position `i` on. -/
def opening? (depth : Nat) (s : List Char) : Nat → Option (Option Nat)
  | 0 => some none
  | i + 1 => do
    let c ← s[i]?
    if c = '<' then if depth = 1 then return some i else opening? (depth - 1) s i
    else opening? (if c = '>' then depth + 1 else depth) s i

end Indexed

/-! ## Jumps -/

variable {b : Option Char} {c : Char} {i : Nat} {s r p : List Char}

theorem length_le_of_startsWith (h : startsWith p s = true) : p.length ≤ s.length :=
  (startsWith_iff.mp h).length_le

theorem conversionLength_le (d : Nat) (s : List Char) : conversionLength d s ≤ s.length := by
  induction s generalizing d with
  | nil => exact Nat.le_refl 0
  | cons c s ih =>
    unfold conversionLength
    split
    · exact Nat.zero_le _
    · exact Nat.succ_le_succ (ih _)

/-- The length of a word that stands alone, with brackets after it. -/
def wordLength? (s word : List Char) : Option Nat :=
  match dropPrefix? word s with
  | some rest =>
    if rest.head?.any isIdentifierChar then none
    else some (word.length + if startsWith ['[', ']'] rest then 2 else 0)
  | none => none

theorem allocationLength?_eq (s : List Char) :
    allocationLength? s = ["new".toList, "delete".toList].findSome? (wordLength? s) := rfl

theorem allocationLength?_le {n : Nat} (h : allocationLength? s = some n) : n ≤ s.length := by
  rw [allocationLength?_eq] at h
  obtain ⟨word, -, hword⟩ := List.exists_of_findSome?_eq_some h
  unfold wordLength? at hword
  split at hword
  · rename_i rest hrest
    have hs : word.length + rest.length = s.length := by
      rw [dropPrefix?_eq_some_iff.mp hrest, List.length_append]
    split at hword
    · cases hword
    · obtain rfl := Option.some.inj hword
      split
      · rename_i hbrackets
        have hrest := length_le_of_startsWith hbrackets
        simp only [List.length_cons, List.length_nil] at hrest
        omega
      · omega
  · cases hword

/-- What names an operator ends in the text. -/
theorem operatorLength_le (s : List Char) : operatorLength s ≤ s.length := by
  unfold operatorLength
  split
  · rename_i h
    rcases Bool.or_eq_true _ _ ▸ h with h | h <;> exact length_le_of_startsWith h
  · split
    · rename_i symbol hsymbol
      exact length_le_of_startsWith (List.find?_some (p := fun symbol => startsWith symbol s) hsymbol)
    · split
      · rename_i h
        have htwo : 2 ≤ s.length := length_le_of_startsWith h
        have hword := (List.takeWhile_prefix (fun c => c == ' ' || isIdentifierChar c) (l := s.drop 2)).length_le
        rw [List.length_drop] at hword
        omega
      -- A conversion operator: its target type ends before the text does.
      · dsimp only
        have hspaces := (List.takeWhile_prefix (· == ' ') (l := s)).length_le
        have hword : ∀ t : List Char, (allocationLength? t).getD (conversionLength 0 t) ≤ t.length := by
          intro t
          cases h : allocationLength? t with
          | none => exact conversionLength_le 0 t
          | some n => exact allocationLength?_le h
        have hdrop := hword (s.drop (s.takeWhile (· == ' ')).length)
        rw [List.length_drop] at hdrop
        omega

/-- An operator name is the keyword and what names the operator. -/
theorem exists_of_operatorName? {name rest : List Char} (h : operatorName? b s = some (name, rest)) :
    ∃ t, s = operatorKeyword ++ t ∧ name.length = operatorKeyword.length + operatorLength t := by
  unfold operatorName? at h
  split at h
  · cases h
  · rename_i t ht
    split at h
    · cases h
    · obtain ⟨rfl, -⟩ := Prod.mk.inj (Option.some.inj h)
      refine ⟨t, dropPrefix?_eq_some_iff.mp ht, ?_⟩
      rw [List.length_append, List.length_take, Nat.min_eq_left (operatorLength_le t)]

/-! ## No scanner misses -/

namespace Indexed

/-- That `r` stands in a text from a position on, behind the character `b`. -/
def At (s : List Char) (i : Nat) (b : Option Char) (r : List Char) : Prop :=
  ∃ l, s = l ++ r ∧ i = l.length ∧ b = lastChar none l

theorem at_start (s : List Char) : At s 0 none s := ⟨[], rfl, rfl, rfl⟩

namespace At

/-- Behind a part that has been read. -/
theorem append (h : At s i b (p ++ r)) : At s (i + p.length) (lastChar b p) r := by
  obtain ⟨l, rfl, rfl, rfl⟩ := h
  exact ⟨l ++ p, by rw [List.append_assoc], by rw [List.length_append], lastChar_append.symm⟩

theorem next (h : At s i b (c :: r)) : At s (i + 1) (some c) r := h.append (p := [c])

theorem drop_eq (h : At s i b r) : s.drop i = r := by
  obtain ⟨l, rfl, rfl, -⟩ := h
  exact List.drop_left

theorem lt (h : At s i b (c :: r)) : i < s.length := by
  obtain ⟨l, rfl, rfl, -⟩ := h
  simp

theorem eq_length (h : At s i b []) : i = s.length := by
  obtain ⟨l, rfl, rfl, -⟩ := h
  simp

theorem not_lt (h : At s i b []) : ¬ i < s.length := by
  rw [h.eq_length]
  exact Nat.lt_irrefl _

/-- What is read is the first character that is still to be read. -/
theorem getElem?_eq (h : At s i b (c :: r)) : s[i]? = some c := by
  obtain ⟨l, rfl, rfl, -⟩ := h
  simp

/-- A part that has begun before goes on with what is read. -/
theorem slice_append {start : Nat} (h : At s i b (p ++ r)) (hstart : start ≤ i) :
    (s.take (i + p.length)).drop start = (s.take i).drop start ++ p := by
  obtain ⟨l, rfl, rfl, -⟩ := h
  rw [← List.append_assoc, ← List.length_append, List.take_left, List.append_assoc, List.take_left,
    List.drop_append_of_le_length hstart]

/-- The part that stands at a position. -/
theorem slice_eq (h : At s i b (p ++ r)) : (s.take (i + p.length)).drop i = p := by
  rw [h.slice_append (Nat.le_refl i), List.drop_eq_nil_of_le (List.length_take_le i s), List.nil_append]

theorem startsAt_eq (h : At s i b r) : startsAt p s i = startsWith p r := by
  unfold startsAt
  rw [h.drop_eq]

theorem freeBefore?_eq (h : At s i b r) : freeBefore? s i = some (!b.any isIdentifierChar) := by
  obtain ⟨l, rfl, rfl, rfl⟩ := h
  unfold freeBefore?
  rcases List.eq_nil_or_concat l with rfl | ⟨l, c, rfl⟩
  · rfl
  · simp

theorem freeBehind?_eq (h : At s i b r) : freeBehind? s i = some (!r.head?.any isIdentifierChar) := by
  unfold freeBehind?
  cases r with
  | nil => rw [if_pos h.eq_length]; rfl
  | cons c r =>
    rw [if_neg (Nat.ne_of_lt h.lt), h.getElem?_eq]
    rfl

theorem operatorAt?_eq (h : At s i b r) : operatorAt? s i = some (operatorName? b r).isSome := by
  unfold operatorAt? operatorName?
  rw [h.startsAt_eq]
  unfold startsWith
  cases hkeyword : dropPrefix? operatorKeyword r with
  | none => rfl
  | some rest =>
    have hbehind : At s (i + operatorKeyword.length) (lastChar b operatorKeyword) rest :=
      At.append (dropPrefix?_eq_some_iff.mp hkeyword ▸ h)
    rw [Option.isSome_some, if_pos rfl, h.freeBefore?_eq, hbehind.freeBehind?_eq]
    dsimp only
    cases b.any isIdentifierChar <;> cases rest.head?.any isIdentifierChar <;> rfl

theorem skip?_eq {kind : Char → Bool} (h : At s i b r) : skip? kind s i = some (i + (r.takeWhile kind).length) := by
  induction r generalizing i b with
  | nil =>
    unfold skip?
    rw [dif_neg h.not_lt]
    rfl
  | cons c r ih =>
    unfold skip?
    rw [dif_pos h.lt, h.getElem?_eq, List.takeWhile_cons]
    cases hkind : kind c with
    | false => simp [hkind]
    | true => simp [hkind, ih h.next, Nat.add_assoc, Nat.add_comm 1]

theorem conversionEnd?_eq {d : Nat} (h : At s i b r) : conversionEnd? d s i = some (i + conversionLength d r) := by
  induction r generalizing i b d with
  | nil =>
    unfold conversionEnd?
    rw [dif_neg h.not_lt]
    rfl
  | cons c r ih =>
    unfold conversionEnd? conversionLength
    rw [dif_pos h.lt, h.getElem?_eq]
    by_cases hstop : c = '(' ∧ d = 0
    · simp [hstop]
    · simp [hstop, ih h.next, Nat.add_assoc, Nat.add_comm 1]

theorem wordEnd?_eq (h : At s i b r) (words : List (List Char)) :
    wordEnd? s i words = some ((words.findSome? (wordLength? r)).map (i + ·)) := by
  induction words with
  | nil => rfl
  | cons word words ih =>
    unfold wordEnd?
    rw [List.findSome?_cons, h.startsAt_eq]
    unfold wordLength? startsWith
    cases hword : dropPrefix? word r with
    | none => exact ih
    | some rest =>
      have hbehind : At s (i + word.length) (lastChar b word) rest :=
        At.append (dropPrefix?_eq_some_iff.mp hword ▸ h)
      dsimp only
      rw [Option.isSome_some, if_pos rfl, hbehind.freeBehind?_eq, hbehind.startsAt_eq]
      cases rest.head?.any isIdentifierChar with
      | true => exact ih
      | false =>
        show some (some _) = some (some _)
        rw [Nat.add_assoc]
        rfl

/-- An operator name ends where its length says. -/
theorem operatorEnd?_eq (h : At s i b (operatorKeyword ++ r)) :
    operatorEnd? s i = some (i + operatorKeyword.length + operatorLength r) := by
  have hr := h.append
  have hsymbols : (fun p => startsAt p s (i + operatorKeyword.length)) = fun p => startsWith p r :=
    funext fun p => hr.startsAt_eq
  unfold operatorEnd? operatorLength
  dsimp only
  rw [hsymbols, hr.startsAt_eq, hr.startsAt_eq, hr.startsAt_eq]
  cases startsWith ['(', ')'] r || startsWith ['[', ']'] r with
  | true => rfl
  | false =>
    rw [if_neg Bool.false_ne_true, if_neg Bool.false_ne_true]
    cases operatorSymbols.find? fun p => startsWith p r with
    | some symbol => rfl
    | none =>
      dsimp only
      cases hquotes : startsWith ['"', '"'] r with
      | true =>
        -- the suffix of a literal
        obtain ⟨rest, rfl⟩ := startsWith_iff.mp hquotes
        have hrest := hr.append
        rw [if_pos rfl, if_pos rfl, ← Nat.add_assoc]
        exact hrest.skip?_eq
      | false =>
        -- a word, or the type that is converted to
        have hspaces : r.takeWhile (· == ' ') ++ r.drop (r.takeWhile (· == ' ')).length = r :=
          List.prefix_iff_eq_append.mp (List.takeWhile_prefix _)
        have hword := At.append (hspaces.symm ▸ hr : At s _ _ (_ ++ _))
        rw [if_neg Bool.false_ne_true, if_neg Bool.false_ne_true, hr.skip?_eq, Option.bind_eq_bind, Option.bind_some,
          hword.wordEnd?_eq, ← allocationLength?_eq, ← Nat.add_assoc]
        cases allocationLength? (r.drop (r.takeWhile (· == ' ')).length) with
        | some n => rfl
        | none => exact hword.conversionEnd?_eq

theorem operatorEnd?_of_name {name rest : List Char} (h : At s i b r) (hname : operatorName? b r = some (name, rest)) :
    operatorEnd? s i = some (i + name.length) := by
  obtain ⟨t, rfl, hlength⟩ := exists_of_operatorName? hname
  rw [h.operatorEnd?_eq, hlength, Nat.add_assoc]

/-- What stands behind an operator name. -/
theorem behind_name {name rest : List Char} (h : At s i b r) (hname : operatorName? b r = some (name, rest)) :
    i < i + name.length ∧ (s.take (i + name.length)).drop i = name ∧ At s (i + name.length) name.getLast? rest := by
  obtain ⟨t, -, hlength⟩ := exists_of_operatorName? hname
  have hpos : 0 < name.length := by
    have hkeyword : 0 < operatorKeyword.length := by decide
    omega
  have hrest := h
  rw [← append_of_operatorName? hname] at hrest
  refine ⟨by omega, hrest.slice_eq, ?_⟩
  rw [← lastChar_of_ne_nil (b := b) (List.ne_nil_of_length_pos hpos)]
  exact hrest.append

end At

/-- The tokens outside of brackets with their positions, the first token being at position `i`. -/
def placed (i : Nat) : List Token → List (Nat × List Char)
  | [] => []
  | t :: ts =>
    match t with
    | .char _ | .operator _ => (i, t.text) :: placed (i + t.text.length) ts
    | .anonymous | .inner _ => placed (i + t.text.length) ts

namespace At

/-- The walk through a text gives its tokens. -/
theorem topLevel?_eq {angle paren : Nat} (h : At s i b r) :
    topLevel? angle paren s i = some (placed i (tokensFrom b angle paren r)) := by
  -- Both readers stop at the same places: at the end, at an anonymous namespace, at an operator's
  -- name, at a character on the top level or below it.
  fun_induction tokensFrom b angle paren r generalizing i with
  | case1 b angle paren =>
    unfold topLevel?
    rw [dif_neg h.not_lt]
    rfl
  | case2 b angle paren c r hopen rest hrest ih =>
    have hname : startsAt anonymousNamespace s i = true := by
      rw [h.startsAt_eq, startsWith, hrest]
      rfl
    have hbehind : At s (i + anonymousNamespace.length) (some ')') rest :=
      At.append (b := b) (dropPrefix?_eq_some_iff.mp hrest ▸ h)
    unfold topLevel?
    rw [dif_pos h.lt, if_pos hopen, if_pos hname, ih hbehind]
    rfl
  | case3 b angle paren c r hopen hno name rest hname ih =>
    have hno' : startsAt anonymousNamespace s i = false := by
      rw [h.startsAt_eq, startsWith, hno]
      rfl
    obtain ⟨hforward, hslice, hbehind⟩ := h.behind_name hname
    unfold topLevel?
    rw [dif_pos h.lt, if_pos hopen, hno', h.operatorAt?_eq, hname, h.operatorEnd?_of_name hname]
    simp only [Bool.false_eq_true, if_false, Option.bind_eq_bind, Option.bind_some, Option.isSome_some, if_true,
      dif_pos hforward, hslice, ih hbehind]
    rfl
  | case4 b angle paren c r hopen hno hname ih =>
    have hno' : startsAt anonymousNamespace s i = false := by
      rw [h.startsAt_eq, startsWith, hno]
      rfl
    unfold topLevel?
    rw [dif_pos h.lt, if_pos hopen, hno', h.operatorAt?_eq, hname, h.getElem?_eq]
    simp only [Bool.false_eq_true, if_false, Option.bind_eq_bind, Option.bind_some, Option.isSome_none, ih h.next]
    rfl
  | case5 b angle paren c r hopen ih =>
    unfold topLevel?
    rw [dif_pos h.lt, if_neg hopen, h.getElem?_eq, Option.bind_eq_bind, Option.bind_some, ih h.next]
    rfl

theorem balanced?_eq {d : Nat} (h : At s i b r) : balanced? d s i = some (anglesBalancedFrom b d r) := by
  fun_induction anglesBalancedFrom b d r generalizing i with
  | case1 b d =>
    unfold balanced?
    rw [dif_neg h.not_lt]
  | case2 b d c r name rest hname ih =>
    obtain ⟨hforward, -, hbehind⟩ := h.behind_name hname
    unfold balanced?
    rw [dif_pos h.lt, h.operatorAt?_eq, hname, h.operatorEnd?_of_name hname]
    simp only [Option.bind_eq_bind, Option.bind_some, Option.isSome_some, if_true, dif_pos hforward, ih hbehind]
  | case3 b d c r hname hclose =>
    unfold balanced?
    rw [dif_pos h.lt, h.operatorAt?_eq, hname, h.getElem?_eq]
    simp only [Option.bind_eq_bind, Option.bind_some, Option.isSome_none, Bool.false_eq_true, if_false, if_pos hclose]
    rfl
  | case4 b d c r hname hopen ih =>
    unfold balanced?
    rw [dif_pos h.lt, h.operatorAt?_eq, hname, h.getElem?_eq]
    simp only [Option.bind_eq_bind, Option.bind_some, Option.isSome_none, Bool.false_eq_true, if_false, if_neg hopen,
      ih h.next]

/-- Parentheses are closed behind what stands in them. -/
theorem closing?_eq {d : Nat} (h : At s i b r) : closing? (d + 1) s i = some (i + (beforeClosing d r).length) := by
  induction r generalizing i b d with
  | nil =>
    unfold closing?
    rw [dif_neg h.not_lt, h.eq_length]
    rfl
  | cons c r ih =>
    have hread : closing? (d + 1) s i =
        if c = ')' ∧ d + 1 = 1 then some i else closing? (parenDepth (d + 1) c) s (i + 1) := by
      conv => lhs; unfold closing?
      rw [dif_pos h.lt, h.getElem?_eq]
      rfl
    have hlength : ∀ l : List Char, i + (c :: l).length = i + 1 + l.length := by
      intro l
      rw [List.length_cons]
      omega
    rw [hread]
    unfold beforeClosing
    -- Opening and closing move the depth in both readers alike; at depth one the closing
    -- parenthesis is the one looked for.
    by_cases hopen : c = '('
    · subst hopen
      rw [if_neg (by simp), if_pos rfl, hlength]
      exact ih (d := d + 1) h.next
    · rw [if_neg hopen]
      by_cases hclose : c = ')'
      · subst hclose
        cases d with
        | zero => rfl
        | succ d =>
          rw [if_neg (by simp), if_pos rfl]
          dsimp only
          rw [hlength]
          exact ih (d := d) h.next
      · have hdepth : parenDepth (d + 1) c = d + 1 := by
          unfold parenDepth
          rw [if_neg hopen, if_neg hclose]
        rw [if_neg fun hstop => hclose hstop.1, if_neg hclose, hdepth, hlength]
        exact ih h.next

end At

/-- The bracket that opens stands before what stands between it and the position. -/
theorem opening?_eq (d : Nat) (k r : List Char) :
    opening? (d + 1) (k.reverse ++ r) k.length = some ((beforeOpening? d k).map fun x => x.1.length) := by
  -- From the end of the prefix backwards, which is the order in which both readers walk.
  induction k generalizing d r with
  | nil => rfl
  | cons c k ih =>
    have hread : (k.reverse ++ c :: r)[k.length]? = some c := by
      rw [List.getElem?_append_right (by simp)]
      simp
    rw [List.reverse_cons, List.append_assoc, List.singleton_append, List.length_cons]
    unfold opening?
    rw [hread, Option.bind_eq_bind, Option.bind_some]
    by_cases hopen : c = '<'
    · subst hopen
      cases d with
      | zero => rfl
      | succ d =>
        have houter := ih d ('<' :: r)
        rw [if_pos rfl, if_neg (by simp)]
        unfold beforeOpening?
        rw [if_pos rfl, Option.map_map]
        exact houter
    · rw [if_neg hopen, beforeOpening?_cons hopen, Option.map_map]
      by_cases hclose : c = '>'
      · rw [if_pos hclose, if_pos hclose]
        exact ih (d + 1) (c :: r)
      · rw [if_neg hclose, if_neg hclose]
        exact ih d (c :: r)

end Indexed

end PathSafety.Name
