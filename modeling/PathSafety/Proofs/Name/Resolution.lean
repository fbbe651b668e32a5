import PathSafety.Proofs.Name.Cuts
import PathSafety.Proofs.Name.Positions

/-!
# Resolving any name

Names come from binaries, and nothing is promised of them: brackets may lack their partners, a name may be cut anywhere,
and a tag may form only when another one is taken away. Resolving a name ends all the same, without a read outside of the
text, and says that there is nothing to parse only where nothing is left but white space. Here the parts of a name are
found by positions, each time with the walk over its tokens. Two facts about tokens carry the argument: an operator name
is more than one character, so it is never taken for the character that is looked for; and between two colons that stand
next to each other no token begins but the second colon, so a separator is two tokens.

Contents:

* `Indexed.parameters?`, `Indexed.result?`, `Indexed.scopes?`, `Indexed.template?`, `Indexed.ofText?` — the parts of a
  name and its descriptor by positions, `none` being a read outside of the text or the end of an empty list;
* `Regular` — what holds of the tokens of a text;
* `Indexed.parameters?_eq`, `Indexed.result?_eq`, `Indexed.scopes?_eq`, `Indexed.template?_eq`, `Indexed.ofText?_eq` — no
  read misses, and the parts are the same;
* `Descriptor.NamesScope`, `namesScope_of_isConstructor` — a constructor has the name of its scope;
* `resolve_total` — a name is resolved, or there is nothing in it to resolve.
-/

namespace PathSafety.Name

open Text

variable {b : Option Char} {i : Nat} {s t : List Char} {ts : List Token}

/-! ## Parts by positions -/

namespace Indexed

/-- The position of the first parenthesis among tokens. -/
def parenthesis? : List (Nat × List Char) → Option Nat
  | [] => none
  | t :: ts => if t.2 = ['('] then some t.1 else parenthesis? ts

/-- Where the list of parameters begins. -/
def parameterList? (s : List Char) : Option (Option Nat) := do
  match parenthesis? (← topLevel? 0 0 s 0) with
  | some i => return some i
  | none => if ← balanced? 0 s 0 then return none else return (splitFirst? ['('] s).map fun parts => parts.1.length

/-- What stands before the list of parameters, and the parameters. -/
def parameters? (s : List Char) : Option (List Char × List (List Char)) := do
  match ← parameterList? s with
  | some i =>
    let e ← closing? 0 s i
    return (trimRight (s.take i), splitList ((s.take e).drop (i + 1)))
  | none => return (s, [])

/-- The position of the last blank before the first operator name, `found` being the last one so far. -/
def blank? (found : Option Nat) : List (Nat × List Char) → Option Nat
  | [] => found
  | t :: ts => if 1 < t.2.length then found else blank? (if t.2 = [' '] then some t.1 else found) ts

/-- The type of the result, if it is written, and the qualified name. -/
def result? (head : List Char) : Option (Option (List Char) × List Char) := do
  match blank? none (← topLevel? 0 0 head 0) with
  | some i =>
    let before := trim (head.take i)
    return (if before.isEmpty then none else some before, trim (head.drop (i + 1)))
  | none => return (none, trim head)

/-- The parts between separators, the part at hand beginning at `start`. The token behind the one that a separator is
found at is passed over. -/
def scopesFrom (s : List Char) (start : Nat) (skip : Bool) : List (Nat × List Char) → List (List Char)
  | [] => [s.drop start]
  | t :: ts =>
    if skip then scopesFrom s start false ts
    else if t.2 = [':'] ∧ startsAt separator s t.1 then
      (s.take t.1).drop start :: scopesFrom s (t.1 + separator.length) true ts
    else scopesFrom s start false ts

/-- The parts of a qualified name. -/
def scopes? (s : List Char) : Option (List (List Char)) := do
  return scopesFrom s 0 false (← topLevel? 0 0 s 0)

/-- A name without the template arguments at its end, and these arguments if there are any. -/
def template? (s : List Char) : Option (List Char × Option (List (List Char))) :=
  if s.getLast? = some '>' then do
    match ← opening? 0 s s.length with
    | some i => return (trimRight (s.take i), some (splitList ((s.take (s.length - 1)).drop (i + 1))))
    | none => return (s, none)
  else some (s, none)

/-- The function that the last part of a qualified name names, its template arguments, and whether it is an operator. -/
def function? (last : List Char) : Option (List Char × Option (List (List Char)) × Bool) := do
  if ← operatorAt? last 0 then
    let e ← operatorEnd? last 0
    let (_, args) ← template? (trim (last.drop e))
    return (trimRight (last.take e), args, true)
  else
    let (name, args) ← template? last
    return (name, args, false)

/-- The template arguments of the first of some scopes that has any. -/
def arguments? : List (List Char) → Option (Option (List (List Char)))
  | [] => some none
  | scope :: scopes => do
    match (← template? scope).2 with
    | some args => return some args
    | none => arguments? scopes

/-- The template arguments of a function, else those of the innermost scope that has any. -/
def inherited? (scopes : List (List Char)) : Option (List (List Char)) → Option (Option (List (List Char)))
  | some args => some (some args)
  | none => arguments? scopes.reverse

/-- Whether a function has the name of its scope, unless it is `other` than a constructor. -/
def isConstructor? (other : Bool) (scopes : List (List Char)) (function : List Char) : Option Bool :=
  if other || scopes.isEmpty then some false
  else do
    let scope ← scopes.getLast?
    return (← template? scope).1 == function

/-- The descriptor of a function by its qualified name. -/
def ofQualified? (qualified : List Char) (parameters : List (List Char)) (result : Option (List Char)) :
    Option Descriptor := do
  let parts ← scopes? qualified
  let scopes := parts.dropLast
  let last ← parts.getLast?
  let (function, own, isOperator) ← function? last
  let isDestructor := !isOperator && startsWith ['~'] last
  let templateArgs ← inherited? scopes own
  let isConstructor ← isConstructor? (isOperator || isDestructor) scopes function
  return { scopes, function, templateArgs, parameters, result, isOperator, isConstructor, isDestructor }

/-- The descriptor of a printed name; a blank one has none. -/
def ofText? (s : List Char) : Option (Option Descriptor) :=
  let text := readText s
  if text.isEmpty then some none
  else do
    let (head, parameters) ← parameters? text
    if ← balanced? 0 head 0 then
      let (result, qualified) ← result? head
      return some (← ofQualified? qualified parameters result)
    else return some (.ofUnbalanced head parameters)

end Indexed

/-! ## Tokens of a text -/

/-- What holds of the tokens of a text: an operator name is more than one character, and behind a colon a colon is a
token of its own. -/
structure Regular (ts : List Token) : Prop where
  operator : ∀ name, Token.operator name ∈ ts → 1 < name.length
  colon : ∀ us, Token.char ':' :: us <:+ ts → (Token.join us).head? = some ':' → us.head? = some (.char ':')

theorem Regular.tail {t : Token} (h : Regular (t :: ts)) : Regular ts where
  operator name hname := h.operator name (List.mem_cons_of_mem t hname)
  colon us hus := h.colon us (hus.trans (List.suffix_cons t ts))

theorem Regular.cons {t : Token} (hts : Regular ts) (hlong : ∀ name, t = .operator name → 1 < name.length)
    (hcolon : t = .char ':' → (Token.join ts).head? = some ':' → ts.head? = some (.char ':')) : Regular (t :: ts) where
  operator name hname := by
    rcases List.mem_cons.mp hname with hname | hname
    · exact hlong name hname.symm
    · exact hts.operator name hname
  colon us hus := by
    rcases List.suffix_cons_iff.mp hus with heq | hus
    · obtain ⟨rfl, rfl⟩ := List.cons.inj heq
      exact hcolon rfl
    · exact hts.colon us hus

theorem regular_tokensFrom (b : Option Char) (angle paren : Nat) (s : List Char) :
    Regular (tokensFrom b angle paren s) := by
  fun_induction tokensFrom b angle paren s with
  | case1 b angle paren => exact ⟨by simp, by simp⟩
  | case2 b angle paren c s hopen rest hrest ih => exact ih.cons (by simp) (by simp)
  | case3 b angle paren c s hopen hno name rest hname ih =>
    obtain ⟨t, -, hlength⟩ := exists_of_operatorName? hname
    have hkeyword : 1 < operatorKeyword.length := by decide
    refine ih.cons ?_ (by simp)
    rintro _ ⟨⟩
    omega
  | case4 b angle paren c s hopen hno hname ih =>
    refine ih.cons (by simp) ?_
    rintro ⟨⟩ hhead
    rw [join_tokensFrom] at hhead
    obtain ⟨s, rfl⟩ := List.head?_eq_some_iff.mp hhead
    -- neither an operator name nor the name of the anonymous namespace begins with a colon
    have hchar := tokensFrom_char (b := some ':') (not_anonymous_of_ne (c := ':') (s := s) (by decide))
      (operatorName?_of_ne (by decide))
    exact congrArg List.head? hchar
  | case5 b angle paren c s hopen ih => exact ih.cons (by simp) (by simp)

/-! ## The parts are the same -/

namespace Indexed

theorem topLevel?_start (s : List Char) : topLevel? 0 0 s 0 = some (placed 0 (tokens s)) := (at_start s).topLevel?_eq

theorem balanced?_start (s : List Char) : balanced? 0 s 0 = some (anglesBalanced s) := (at_start s).balanced?_eq

theorem parenthesis?_eq (h : Regular ts) (i : Nat) :
    parenthesis? (placed i ts) = (splitParenthesis? ts).map fun x => i + x.1.length := by
  induction ts generalizing i with
  | nil => rfl
  | cons t ts ih =>
    have hlater : parenthesis? (placed (i + t.text.length) ts) =
        ((splitParenthesis? ts).map fun x => (t.text ++ x.1, x.2)).map fun x => i + x.1.length := by
      rw [ih h.tail, Option.map_map]
      refine congrArg (Option.map · _) (funext fun x => ?_)
      rw [Function.comp_apply, List.length_append, Nat.add_assoc]
    unfold splitParenthesis?
    cases t with
    | char c =>
      show (if [c] = ['('] then some i else parenthesis? (placed (i + (Token.char c).text.length) ts)) = _
      rw [hlater]
      by_cases hc : c = '('
      · rw [if_pos (congrArg (fun c => [c]) hc), if_pos (congrArg Token.char hc)]
        rfl
      · rw [if_neg (by simpa using hc), if_neg (by simpa using hc)]
    | operator name =>
      have hlong := h.operator name List.mem_cons_self
      show (if name = ['('] then some i else parenthesis? (placed (i + (Token.operator name).text.length) ts)) = _
      -- an operator name is longer than what is looked for
      have hname : name ≠ ['('] := by
        rintro rfl
        exact absurd hlong (by decide)
      rw [hlater, if_neg hname, if_neg (by simp)]
    | anonymous => exact hlater
    | inner c => exact hlater

theorem parameterList?_eq (s : List Char) :
    parameterList? s = some ((splitOpening? s).map fun x => x.1.length) := by
  have hparen := parenthesis?_eq (regular_tokensFrom none 0 0 s) 0
  unfold parameterList? splitOpening?
  rw [topLevel?_start, Option.bind_eq_bind, Option.bind_some]
  unfold tokens
  rw [hparen, balanced?_start]
  cases splitParenthesis? (tokensFrom none 0 0 s) with
  | some parts => simp
  | none => cases anglesBalanced s <;> rfl

theorem parameters?_eq (s : List Char) : parameters? s = some (splitParameters s) := by
  cases hparts : splitOpening? s with
  | none =>
    unfold parameters?
    rw [splitParameters_eq, parameterList?_eq, hparts]
    rfl
  | some parts =>
    obtain ⟨l, r⟩ := parts
    have hs := append_of_splitOpening? hparts
    have hopen : At s l.length (lastChar none l) ('(' :: r) := ⟨l, hs.symm, rfl, rfl⟩
    -- the parenthesis that the parameters begin with opens the depth that is counted down
    have hclose : closing? 0 s l.length = some (l.length + 1 + (beforeClosing 0 r).length) := by
      unfold closing?
      rw [dif_pos hopen.lt, hopen.getElem?_eq]
      exact hopen.next.closing?_eq
    have hinside : (s.take (l.length + 1 + (beforeClosing 0 r).length)).drop (l.length + 1) = beforeClosing 0 r := by
      obtain ⟨rest, hrest⟩ := beforeClosing_prefix 0 r
      have hnext := hopen.next
      rw [← hrest] at hnext
      exact hnext.slice_eq
    have hbefore : s.take l.length = l := by rw [← hs, List.take_left]
    unfold parameters?
    rw [splitParameters_eq, parameterList?_eq, hparts]
    simp only [Option.map_some, Option.bind_eq_bind, Option.bind_some, hclose, hbefore, hinside]
    rfl

/-! ### The type of the result -/

theorem blank?_eq (h : Regular ts) (found : Option Nat) (i : Nat) :
    blank? found (placed i ts) = ((splitBlank? ts).map fun x => i + x.1.length).or found := by
  induction ts generalizing found i with
  | nil => rfl
  | cons t ts ih =>
    have hlater : ∀ found, blank? found (placed (i + t.text.length) ts) =
        ((splitBlank? ts).map fun x => i + (t.text ++ x.1).length).or found := by
      intro found
      rw [ih h.tail]
      simp only [List.length_append, Nat.add_assoc]
    unfold splitBlank?
    cases t with
    | char c =>
      show blank? (if [c] = [' '] then some i else found) (placed (i + (Token.char c).text.length) ts) = _
      rw [hlater]
      cases splitBlank? ts with
      | some parts => rfl
      | none =>
        by_cases hc : c = ' '
        · subst hc
          rfl
        · simp [hc, Token.isOperator]
    | operator name =>
      -- the walk stops at the first operator name
      have hlong := h.operator name List.mem_cons_self
      exact if_pos hlong
    | anonymous =>
      refine (hlater found).trans ?_
      cases splitBlank? ts <;> rfl
    | inner c =>
      refine (hlater found).trans ?_
      cases splitBlank? ts <;> rfl

theorem result?_eq (s : List Char) : result? s = some (splitResult s) := by
  have hblank := blank?_eq (regular_tokensFrom none 0 0 s) none 0
  unfold result? splitResult
  rw [topLevel?_start, Option.bind_eq_bind, Option.bind_some]
  unfold tokens
  rw [hblank]
  cases hparts : splitBlank? (tokensFrom none 0 0 s) with
  | none => rfl
  | some parts =>
    have hs : s = parts.1 ++ ' ' :: parts.2 := by rw [← join_of_splitBlank? hparts, join_tokensFrom]
    have hbefore : s.take (0 + parts.1.length) = parts.1 := by rw [hs, Nat.zero_add, List.take_left]
    have hbehind : s.drop (0 + parts.1.length + 1) = parts.2 := by
      rw [hs, Nat.zero_add, ← List.drop_drop, List.drop_left]
      rfl
    simp only [Option.map_some, Option.or_none, hbefore, hbehind]
    rfl

/-! ### Scopes -/

theorem scopesFrom_cons {start : Nat} (x : Nat × List Char) (xs : List (Nat × List Char)) :
    scopesFrom s start false (x :: xs) =
      if x.2 = [':'] ∧ startsAt separator s x.1 then
        (s.take x.1).drop start :: scopesFrom s (x.1 + separator.length) true xs
      else scopesFrom s start false xs := if_neg Bool.false_ne_true

/-- A token that begins no separator goes to the part at hand. -/
theorem scopesFrom_token {t : Token} {start : Nat} (h : Regular (t :: ts)) (hat : At s i b (t.text ++ Token.join ts))
    (hno : t = .char ':' → ts.head? ≠ some (.char ':')) :
    scopesFrom s start false (placed i (t :: ts)) = scopesFrom s start false (placed (i + t.text.length) ts) := by
  cases t with
  | char c =>
    refine (scopesFrom_cons _ _).trans (if_neg ?_)
    rintro ⟨hc, hfound⟩
    obtain rfl : c = ':' := (List.cons.inj hc).1
    -- the text goes on with a colon, which would be the next token
    rw [hat.startsAt_eq, startsWith_iff] at hfound
    obtain ⟨r, hr⟩ := hfound
    have hhead : (Token.join ts).head? = some ':' := congrArg (fun l => l.tail.head?) hr.symm
    exact hno rfl (h.colon ts List.suffix_rfl hhead)
  | operator name =>
    have hlong := h.operator name List.mem_cons_self
    refine (scopesFrom_cons _ _).trans (if_neg ?_)
    rintro ⟨hname, -⟩
    have hname : name = [':'] := hname
    rw [hname] at hlong
    exact absurd hlong (by decide)
  | anonymous => rfl
  | inner c => rfl

/-- The part at hand is put before the first part of what is still to be read. -/
theorem scopesFrom_eq {start : Nat} (h : Regular ts) (hat : At s i b (Token.join ts)) (hstart : start ≤ i) :
    scopesFrom s start false (placed i ts) = (splitScopeTokens ts).modifyHead ((s.take i).drop start ++ ·) := by
  fun_induction splitScopeTokens ts generalizing i b start with
  | case1 =>
    show [s.drop start] = [(s.take i).drop start ++ []]
    rw [List.append_nil, hat.eq_length, List.take_length]
  | case2 ts ih =>
    have hat : At s i b (separator ++ Token.join ts) := hat
    have hfound : startsAt separator s i = true := by
      rw [hat.startsAt_eq, startsWith_iff]
      exact List.prefix_append _ _
    -- the second colon is a token of its own, and is passed over
    have hnext :
        scopesFrom s (i + separator.length) false (placed (i + separator.length) ts) = splitScopeTokens ts := by
      rw [ih h.tail.tail hat.append (Nat.le_refl _), List.drop_eq_nil_of_le (List.length_take_le _ _),
        modifyHead_nil_append]
    refine ((scopesFrom_cons _ _).trans (if_pos ⟨rfl, hfound⟩)).trans ?_
    show (s.take i).drop start :: scopesFrom s (i + separator.length) false (placed (i + separator.length) ts) =
      ((s.take i).drop start ++ []) :: splitScopeTokens ts
    rw [hnext, List.append_nil]
  | case3 t ts hno part parts heq ih =>
    rw [join_cons] at hat
    have hnone : t = .char ':' → ts.head? ≠ some (.char ':') := by
      rintro rfl hhead
      obtain ⟨us, hus⟩ := List.head?_eq_some_iff.mp hhead
      exact hno us rfl hus
    rw [scopesFrom_token h hat hnone, ih h.tail hat.append (Nat.le_add_right_of_le hstart), heq,
      hat.slice_append hstart]
    exact congrArg (· :: parts) (List.append_assoc _ _ _)
  | case4 t ts hno heq => exact absurd heq (splitScopeTokens_ne_nil ts)

theorem scopes?_eq (s : List Char) : scopes? s = some (splitScopes s) := by
  have hat : At s 0 none (Token.join (tokens s)) := by
    rw [join_tokens]
    exact at_start s
  have hscopes := scopesFrom_eq (regular_tokensFrom none 0 0 s) hat (Nat.le_refl 0)
  rw [List.drop_zero, List.take_zero, modifyHead_nil_append] at hscopes
  unfold scopes?
  rw [topLevel?_start, Option.bind_eq_bind, Option.bind_some]
  exact congrArg some hscopes

/-! ### Template arguments -/

/-- The bracket that opens the template arguments is looked for from the last one back. -/
theorem opening?_concat (l : List Char) :
    opening? 0 (l ++ ['>']) (l ++ ['>']).length = some ((beforeOpening? 0 l.reverse).map fun x => x.1.length) := by
  have hinside := opening?_eq 0 l.reverse ['>']
  have hread : (l ++ ['>'])[l.length]? = some '>' := by simp
  rw [List.reverse_reverse, List.length_reverse] at hinside
  rw [List.length_append, List.length_singleton]
  unfold opening?
  rw [hread]
  exact hinside

theorem template?_eq (s : List Char) : template? s = some (splitTemplate s) := by
  unfold template?
  by_cases hlast : s.getLast? = some '>'
  · obtain ⟨l, rfl⟩ := List.getLast?_eq_some_iff.mp hlast
    rw [if_pos hlast, opening?_concat, Option.bind_eq_bind, Option.bind_some]
    cases hopen : beforeOpening? 0 l.reverse with
    | none =>
      unfold splitTemplate
      simp [hopen]
    | some parts =>
      obtain ⟨before, behind⟩ := parts
      have hl : l = before.reverse ++ '<' :: behind.reverse := by
        rw [← List.reverse_reverse l, ← append_of_beforeOpening? hopen]
        simp
      have hbefore : (l ++ ['>']).take before.length = before.reverse := by
        rw [hl, List.append_assoc, ← List.length_reverse, List.take_left]
      have hbehind : ((l ++ ['>']).take ((l ++ ['>']).length - 1)).drop (before.length + 1) = behind.reverse := by
        rw [List.length_append, List.length_singleton, Nat.add_sub_cancel, List.take_left, hl, ← List.length_reverse,
          ← List.drop_drop, List.drop_left]
        rfl
      -- between the two brackets every bracket has its partner, so they are found from either end
      have htemplate : splitTemplate (l ++ ['>']) = (trimRight before.reverse, some (splitList behind.reverse)) := by
        rw [hl, List.append_assoc, List.cons_append]
        exact splitTemplate_append (closes_reverse (closes_of_beforeOpening? hopen))
      show some (trimRight _, some (splitList _)) = _
      rw [hbefore, hbehind, htemplate]
  · rw [if_neg hlast, splitTemplate_of_last]
    rintro c hc rfl
    exact hlast hc

/-! ### Functions and descriptors -/

theorem function?_eq (s : List Char) : function? s = some (splitFunction s) := by
  have hat := at_start s
  unfold function? splitFunction
  rw [hat.operatorAt?_eq]
  cases hname : operatorName? none s with
  | none => simp [template?_eq]
  | some parts =>
    obtain ⟨name, rest⟩ := parts
    have hs := append_of_operatorName? hname
    have hend : operatorEnd? s 0 = some name.length := by rw [hat.operatorEnd?_of_name hname, Nat.zero_add]
    have hbefore : s.take name.length = name := by rw [← hs, List.take_left]
    have hbehind : s.drop name.length = rest := by rw [← hs, List.drop_left]
    simp [hend, hbefore, hbehind, template?_eq]

theorem arguments?_eq (scopes : List (List Char)) :
    arguments? scopes = some (scopes.findSome? fun scope => (splitTemplate scope).2) := by
  induction scopes with
  | nil => rfl
  | cons scope scopes ih =>
    unfold arguments?
    rw [List.findSome?_cons, template?_eq, Option.bind_eq_bind, Option.bind_some]
    cases (splitTemplate scope).2 with
    | some args => rfl
    | none => exact ih

theorem inherited?_eq (scopes : List (List Char)) (own : Option (List (List Char))) :
    inherited? scopes own = some (own.or (scopes.reverse.findSome? fun scope => (splitTemplate scope).2)) := by
  cases own with
  | some args => rfl
  | none => exact arguments?_eq _

theorem isConstructor?_eq (other : Bool) (scopes : List (List Char)) (function : List Char) :
    isConstructor? other scopes function =
      some (!other && scopes.getLast?.any fun scope => (splitTemplate scope).1 == function) := by
  unfold isConstructor?
  cases other with
  | true => rfl
  | false =>
    rcases List.eq_nil_or_concat scopes with rfl | ⟨scopes, scope, rfl⟩
    · rfl
    · simp [template?_eq]

theorem ofQualified?_eq (s : List Char) (parameters : List (List Char)) (result : Option (List Char)) :
    ofQualified? s parameters result = some (.ofQualified s parameters result) := by
  obtain ⟨scopes, last, hsplit⟩ := exists_splitScopes s
  rcases hfunction : splitFunction last with ⟨function, own, isOperator⟩
  rw [ofQualified_of_splitScopes hsplit hfunction]
  unfold ofQualified?
  rw [scopes?_eq, hsplit]
  simp only [List.dropLast_concat, List.getLast?_concat, Option.bind_eq_bind, Option.bind_some, function?_eq, hfunction,
    inherited?_eq, isConstructor?_eq, Bool.not_or]
  rfl

/-- **No read misses.** The descriptor that is found by positions is the descriptor, of every text. -/
theorem ofText?_eq (s : List Char) : ofText? s = some (Descriptor.ofText? s) := by
  cases hempty : (readText s).isEmpty with
  | true =>
    have hnone : Descriptor.ofText? s = none := ofText?_eq_none_iff.mpr (List.isEmpty_iff.mp hempty)
    unfold ofText?
    rw [hnone]
    exact if_pos hempty
  | false =>
    unfold ofText? Descriptor.ofText?
    unfold readText at hempty ⊢
    simp only [hempty, Bool.false_eq_true, if_false, parameters?_eq, balanced?_start, result?_eq, ofQualified?_eq,
      Option.bind_eq_bind, Option.bind_some]
    cases anglesBalanced (splitParameters (trim (stripTags s))).1 <;> rfl

end Indexed

/-! ## All names -/

/-- That a function has the name of its innermost scope, which may have template arguments. -/
def Descriptor.NamesScope (d : Descriptor) : Prop :=
  ∃ scope, d.scopes.getLast? = some scope ∧ d.function = (splitTemplate scope).1

/-- A constructor has the name of its innermost scope. -/
theorem namesScope_of_isConstructor {d : Descriptor} (h : Descriptor.ofText? s = some d) (hd : d.isConstructor = true) :
    d.NamesScope := by
  obtain ⟨head, parameters, -, ⟨-, rfl⟩ | ⟨-, rfl⟩⟩ := of_ofText? h
  · obtain ⟨scopes, last, hsplit⟩ := exists_splitScopes (splitResult head).2
    rw [ofQualified_of_splitScopes hsplit rfl] at hd ⊢
    have hnames := (Bool.and_eq_true _ _ ▸ hd : _ ∧ _).2
    obtain ⟨scope, hscope, hname⟩ := (Option.any_eq_true _ _).mp hnames
    exact ⟨scope, hscope, (eq_of_beq hname).symm⟩
  · -- a name that is not told apart is not taken for a constructor
    cases hd

/-- The scopes of a function and the last part of its qualified name are this name. -/
theorem joinScopes_scopes (s : List Char) : ∃ scopes last, splitScopes s = scopes ++ [last] ∧
    joinScopes (scopes ++ [last]) = s ∧
    ∀ parameters result, (Descriptor.ofQualified s parameters result).scopes = scopes := by
  obtain ⟨scopes, last, hsplit⟩ := exists_splitScopes s
  refine ⟨scopes, last, hsplit, ?_, ?_⟩
  · rw [← hsplit]
    exact joinScopes_splitScopes s
  · intro parameters result
    rw [ofQualified_of_splitScopes hsplit rfl]

/-- **Resolving any name.** A symbol that has a printed name has a descriptor, or it cannot be parsed, the latter if and
only if nothing is left of the name without tags and the white space around. All that is read of a text on the way is
read inside of it. No tag that is closed is left, so taking tags away again changes nothing; the scopes and the last part
of a qualified name make it up; and a constructor has the name of its innermost scope. -/
theorem resolve_total {symbol name : String} (hname : demangle symbol = .ok name) :
    ((∃ d, resolve symbol = .ok d ∧ readText name.toList ≠ [] ∧ (d.isConstructor = true → d.NamesScope)) ∨
      ∃ fault, resolve symbol = .error fault ∧ fault.kind = .unparseableName ∧ readText name.toList = []) ∧
    (∀ s, Indexed.ofText? s = some (Descriptor.ofText? s)) ∧
    (∀ s, stripTags (stripTags s) = stripTags s ∧ ∀ l r, stripTags s = l ++ (tagOpening ++ r) → ']' ∉ r) ∧
    ∀ s, ∃ scopes last, splitScopes s = scopes ++ [last] ∧ joinScopes (scopes ++ [last]) = s ∧
      ∀ parameters result, (Descriptor.ofQualified s parameters result).scopes = scopes := by
  refine ⟨?_, Indexed.ofText?_eq, ?_, joinScopes_scopes⟩
  -- A text is refused exactly if nothing but blanks is left of it without its tags.
  · cases htext : Descriptor.ofText? name.toList with
    | some d =>
      have hd : resolve symbol = .ok d := resolve_of_demangle (by rw [hname, String.ofList_toList]) htext
      refine Or.inl ⟨d, hd, ?_, namesScope_of_isConstructor htext⟩
      intro hempty
      rw [ofText?_eq_none_iff.mpr hempty] at htext
      cases htext
    | none =>
      refine Or.inr ⟨.nothingToParse symbol, ?_, rfl, ofText?_eq_none_iff.mp htext⟩
      unfold resolve
      rw [hname]
      simp only [bind, Except.bind, htext]
      rfl
  · intro s
    have hnone := stripTag?_stripTags s
    constructor
    · exact stripTags_eq_self hnone
    · intro l r hs
      exact not_mem_of_stripTag? hnone hs.symm

namespace Example

/-- A constructor in a scope with template arguments, with a tag that forms when another one is taken away, and without
the parenthesis that closes its parameters. -/
def cutConstructor : List Char := "ns::Box<int>::B[abi[abi:one]:two]ox(int, ".toList

/-- What is said of the constructor. -/
def cutDescriptor : Descriptor where
  scopes := ["ns".toList, "Box<int>".toList]
  function := "Box".toList
  templateArgs := some ["int".toList]
  parameters := ["int".toList, []]
  isConstructor := true

/-- White space around a tag that forms when another one is taken away. -/
def tagAlone : List Char := " [ab[abi:one]i:two]".toList

/-- The cut name says that its function is a constructor, and has the name of its scope. There is nothing to parse in
the tag. -/
theorem resolve_cutConstructor : demangle (String.ofList cutConstructor) = .ok (String.ofList cutConstructor) ∧
    resolve (String.ofList cutConstructor) = .ok cutDescriptor ∧ cutDescriptor.NamesScope ∧
    Indexed.ofText? cutConstructor = some (some cutDescriptor) ∧
    demangle (String.ofList tagAlone) = .ok (String.ofList tagAlone) ∧
    ∃ fault, resolve (String.ofList tagAlone) = .error fault ∧ fault.kind = .unparseableName := by
  have hmangled : ¬ mangledOpening <+: cutConstructor := by decide
  have hmangled' : ¬ mangledOpening <+: tagAlone := by decide
  have hdemangle := demangle_ofList (List.cons_ne_nil _ _) hmangled
  have hdemangle' := demangle_ofList (List.cons_ne_nil _ _) hmangled'
  -- The tag inside the tag is taken out first, which makes the outer one a tag.
  have htags : stripTags cutConstructor = "ns::Box<int>::Box(int, ".toList := by
    have hinner : stripTag? cutConstructor = some "ns::Box<int>::B[abi:two]ox(int, ".toList := by decide
    have houter : stripTag? "ns::Box<int>::B[abi:two]ox(int, ".toList = some "ns::Box<int>::Box(int, ".toList := by
      decide
    rw [stripTags_of_some hinner, stripTags_of_some houter, stripTags_eq_self (by decide)]
  have htext : Descriptor.ofText? cutConstructor = some cutDescriptor := by
    rw [← ofText?_stripTags, htags]
    decide +kernel
  have hresolve := resolve_ofList htext hmangled
  have hnone : readText (String.ofList tagAlone).toList = [] := by
    have hinner : stripTag? tagAlone = some " [abi:two]".toList := by decide
    have houter : stripTag? " [abi:two]".toList = some " ".toList := by decide
    unfold readText
    rw [String.toList_ofList, stripTags_of_some hinner, stripTags_of_some houter, stripTags_eq_self (by decide)]
    decide
  obtain ⟨hresolved, hread, -⟩ := resolve_total hdemangle
  obtain ⟨hresolved', -⟩ := resolve_total hdemangle'
  refine ⟨hdemangle, hresolve, ?_, ?_, hdemangle', ?_⟩
  · rcases hresolved with ⟨d, hd, -, hscope⟩ | ⟨fault, hfault, -⟩
    · have hsame : cutDescriptor = d := Except.ok.inj (hresolve.symm.trans hd)
      rw [hsame]
      apply hscope
      rw [← hsame]
      rfl
    · cases hresolve.symm.trans hfault
  · rw [hread, htext]
  · rcases hresolved' with ⟨d, -, hleft, -⟩ | ⟨fault, hfault, hkind, -⟩
    · exact absurd hnone hleft
    · exact ⟨fault, hfault, hkind⟩

end Example

end PathSafety.Name
