import PathSafety.Name.Token

/-!
# Brackets in names

Cutting texts where no bracket is open, and taking bracketed parts away.

Contents:

* `eraseTemplates` — a name without its angle brackets and what stands in them;
* `splitList` — the members of a list with commas;
* `beforeClosing` — what stands before the parenthesis that closes one;
* `splitTemplate` — a name and the template arguments at its end;
* `anglesBalanced` — whether every angle bracket has its partner;
* `stripTags` — a name without its tags.
-/

namespace PathSafety.Name

open Text

/-- The characters outside of angle brackets, inside `depth` of them. A closing bracket without an opening
one is dropped. -/
def eraseFrom (depth : Nat) : List Char → List Char
  | [] => []
  | c :: cs =>
    if c = '<' then eraseFrom (depth + 1) cs
    else if c = '>' then eraseFrom (depth - 1) cs
    else if depth = 0 then c :: eraseFrom 0 cs
    else eraseFrom depth cs

/-- A name without its template arguments. -/
def eraseTemplates (s : List Char) : List Char := eraseFrom 0 s

/-- The depth of brackets of either kind after a character. -/
def bracketDepth (depth : Nat) (c : Char) : Nat :=
  if c = '<' ∨ c = '(' then depth + 1 else if c = '>' ∨ c = ')' then depth - 1 else depth

/-- The parts between commas outside of brackets, inside `depth` of them. -/
def splitCommas (depth : Nat) : List Char → List (List Char)
  | [] => [[]]
  | c :: cs =>
    if c = ',' ∧ depth = 0 then [] :: splitCommas 0 cs
    else
      match splitCommas (bracketDepth depth c) cs with
      | part :: parts => (c :: part) :: parts
      | [] => [[c]]

/-- The members of a list with commas, without the blanks around them. -/
def splitList (s : List Char) : List (List Char) :=
  let s := trim s
  if s.isEmpty then [] else (splitCommas 0 s).map trim

/-- What stands before the parenthesis that closes the innermost of `depth + 1` open ones; all, if none
does. -/
def beforeClosing (depth : Nat) : List Char → List Char
  | [] => []
  | c :: cs =>
    if c = '(' then c :: beforeClosing (depth + 1) cs
    else if c = ')' then
      match depth with
      | 0 => []
      | depth + 1 => c :: beforeClosing depth cs
    else c :: beforeClosing depth cs

/-- What stands before and what stands behind the bracket that opens the innermost of `depth + 1` angle
brackets which are read backwards, both backwards. -/
def beforeOpening? (depth : Nat) : List Char → Option (List Char × List Char)
  | [] => none
  | c :: cs =>
    if c = '<' then
      match depth with
      | 0 => some (cs, [])
      | depth + 1 => (beforeOpening? depth cs).map fun (before, behind) => (before, c :: behind)
    else
      let depth := if c = '>' then depth + 1 else depth
      (beforeOpening? depth cs).map fun (before, behind) => (before, c :: behind)

/-- A name without the template arguments at its end, and these arguments if there are any. -/
def splitTemplate (s : List Char) : List Char × Option (List (List Char)) :=
  match s.reverse with
  | '>' :: rest =>
    match beforeOpening? 0 rest with
    | some (before, behind) => (trimRight before.reverse, some (splitList behind.reverse))
    | none => (s, none)
  | _ => (s, none)

/-- Whether every angle bracket outside of operator names has its partner, `depth` of them being open
after the character `before`. -/
def anglesBalancedFrom (before : Option Char) (depth : Nat) (s : List Char) : Bool :=
  match s with
  | [] => depth == 0
  | c :: cs =>
    match _h : operatorName? before (c :: cs) with
    | some (name, rest) => anglesBalancedFrom name.getLast? depth rest
    | none =>
      if c = '>' ∧ depth = 0 then false
      else anglesBalancedFrom (some c) (angleDepth depth c) cs
termination_by s.length
decreasing_by
  · exact length_lt_of_operatorName? _h
  · simp

/-- Whether every angle bracket outside of operator names has its partner. -/
def anglesBalanced (s : List Char) : Bool := anglesBalancedFrom none 0 s

/-- How a tag begins. -/
def tagOpening : List Char := "[abi:".toList

/-- The text without its first tag, if it has one that is closed. -/
def stripTag? (s : List Char) : Option (List Char) := do
  let (before, rest) ← splitFirst? tagOpening s
  let (_, after) ← splitFirst? [']'] rest
  return before ++ after

/-- The parts before and after a pattern are shorter than the text. -/
theorem length_of_splitFirst? {p s before after : List Char}
    (h : splitFirst? p s = some (before, after)) :
    before.length + p.length + after.length = s.length := by
  induction s generalizing before with
  | nil =>
    simp only [splitFirst?] at h
    split at h
    · simp_all
    · cases h
  | cons c cs ih =>
    simp only [splitFirst?] at h
    split at h
    · rename_i hp
      simp only [Option.some.injEq, Prod.mk.injEq] at h
      obtain ⟨rfl, rfl⟩ := h
      have := congrArg List.length (append_of_dropPrefix? hp)
      simp only [List.length_append, List.length_cons] at this
      simpa using this
    · simp only [Option.map_eq_some_iff, Prod.mk.injEq, Prod.exists] at h
      obtain ⟨b, a, hba, rfl, rfl⟩ := h
      have := ih hba
      simp only [List.length_cons]
      omega

/-- Taking a tag away makes a text shorter. -/
theorem length_lt_of_stripTag? {s t : List Char} (h : stripTag? s = some t) : t.length < s.length := by
  simp only [stripTag?, Option.bind_eq_bind, Option.bind_eq_some_iff, Prod.exists] at h
  obtain ⟨b, r, h₁, b', a, h₂, h⟩ := h
  have h₁ := length_of_splitFirst? h₁
  have h₂ := length_of_splitFirst? h₂
  have h₃ : 0 < tagOpening.length := by decide
  obtain rfl := Option.some.inj h
  simp only [List.length_append, List.length_cons, List.length_nil] at h₁ h₂ ⊢
  omega

/-- A text without its tags. -/
def stripTags (s : List Char) : List Char :=
  match _h : stripTag? s with
  | some t => stripTags t
  | none => s
termination_by s.length
decreasing_by exact length_lt_of_stripTag? _h

end PathSafety.Name
