import PathSafety.Text.Scan

/-!
# Tokens of a printed name

A printed function name is cut into the characters outside of brackets, operator names, the name of the
anonymous namespace, and what stands inside brackets. Brackets are angle brackets and parentheses; an
operator name such as `operator<` opens none.

Contents:

* `operatorName?` — an operator name and what follows it;
* `Token`, `tokens` — the tokens of a name, whose texts make up the name.
-/

namespace PathSafety.Name

open Text

/-- Whether a character can stand in an identifier. -/
def isIdentifierChar (c : Char) : Bool := c.isAlphanum || c == '_' || c == '$'

/-- The keyword of operator functions. -/
def operatorKeyword : List Char := "operator".toList

/-- The operators written with symbols, the longer ones first. -/
def operatorSymbols : List (List Char) :=
  ["<=>", "<<=", ">>=", "->*", "<<", ">>", "<=", ">=", "==", "!=", "&&", "||", "++", "--", "+=", "-=",
   "*=", "/=", "%=", "&=", "|=", "^=", "->", "<", ">", "+", "-", "*", "/", "%", "^", "&", "|", "~", "!",
   "=", ","].map String.toList

/-- The depth of angle brackets after a character. -/
def angleDepth (depth : Nat) (c : Char) : Nat :=
  if c = '<' then depth + 1 else if c = '>' then depth - 1 else depth

/-- The depth of parentheses after a character. -/
def parenDepth (depth : Nat) (c : Char) : Nat :=
  if c = '(' then depth + 1 else if c = ')' then depth - 1 else depth

/-- The length of the type that a conversion operator converts to: all up to a parenthesis outside of
angle brackets. -/
def conversionLength (depth : Nat) : List Char → Nat
  | [] => 0
  | c :: cs => if c = '(' ∧ depth = 0 then 0 else conversionLength (angleDepth depth c) cs + 1

/-- The length of `new` or `delete`, with brackets after it, if the word stands alone. -/
def allocationLength? (s : List Char) : Option Nat :=
  ["new".toList, "delete".toList].findSome? fun word =>
    match dropPrefix? word s with
    | some rest =>
      if rest.head?.any isIdentifierChar then none
      else some (word.length + if startsWith ['[', ']'] rest then 2 else 0)
    | none => none

/-- The length of what names the operator, after the keyword. -/
def operatorLength (s : List Char) : Nat :=
  if startsWith ['(', ')'] s || startsWith ['[', ']'] s then 2
  else
    match operatorSymbols.find? (startsWith · s) with
    | some symbol => symbol.length
    | none =>
      if startsWith ['"', '"'] s then
        2 + ((s.drop 2).takeWhile fun c => c == ' ' || isIdentifierChar c).length
      else
        let spaces := (s.takeWhile (· == ' ')).length
        let word := s.drop spaces
        spaces + (allocationLength? word).getD (conversionLength 0 word)

/-- The operator name that a text begins with, and what follows it. The keyword must stand alone, also
towards the character before the text. -/
def operatorName? (before : Option Char) (s : List Char) : Option (List Char × List Char) :=
  match dropPrefix? operatorKeyword s with
  | none => none
  | some rest =>
    if before.any isIdentifierChar || rest.head?.any isIdentifierChar then none
    else
      let n := operatorLength rest
      some (operatorKeyword ++ rest.take n, rest.drop n)

/-- A text that begins with another is that text and the rest. -/
theorem append_of_dropPrefix? {p s rest : List Char} (h : dropPrefix? p s = some rest) :
    p ++ rest = s := by
  induction p generalizing s with
  | nil => simpa [dropPrefix?] using h.symm
  | cons c cs ih =>
    cases s with
    | nil => simp [dropPrefix?] at h
    | cons d ds =>
      simp only [dropPrefix?] at h
      split at h
      · rename_i hcd
        simp [hcd, ih h]
      · cases h

/-- An operator name and what follows it make up the text. -/
theorem append_of_operatorName? {before : Option Char} {s name rest : List Char}
    (h : operatorName? before s = some (name, rest)) : name ++ rest = s := by
  simp only [operatorName?] at h
  split at h
  · cases h
  · rename_i after hafter
    split at h
    · cases h
    · simp only [Option.some.injEq, Prod.mk.injEq] at h
      obtain ⟨rfl, rfl⟩ := h
      rw [List.append_assoc, List.take_append_drop, append_of_dropPrefix? hafter]

/-- An operator name is not empty. -/
theorem length_lt_of_operatorName? {before : Option Char} {s name rest : List Char}
    (h : operatorName? before s = some (name, rest)) : rest.length < s.length := by
  have happ := congrArg List.length (append_of_operatorName? h)
  simp only [operatorName?] at h
  split at h
  · cases h
  · split at h
    · cases h
    · simp only [Option.some.injEq, Prod.mk.injEq] at h
      obtain ⟨rfl, rfl⟩ := h
      simp only [List.length_append] at happ ⊢
      have : 0 < operatorKeyword.length := by decide
      omega

/-- How the anonymous namespace is written. -/
def anonymousNamespace : List Char := "(anonymous namespace)".toList

/-- A part of a name. -/
inductive Token where
  /-- A character outside of brackets. -/
  | char (c : Char)
  /-- An operator name outside of brackets. -/
  | operator (name : List Char)
  | anonymous
  /-- A character inside brackets, or the bracket that closes them. -/
  | inner (c : Char)
  deriving DecidableEq, Repr

namespace Token

/-- What a token is in the name. -/
def text : Token → List Char
  | char c | inner c => [c]
  | operator name => name
  | anonymous => anonymousNamespace

/-- Whether a token is an operator name. -/
def isOperator : Token → Bool
  | operator _ => true
  | _ => false

/-- What tokens make up. -/
def join (ts : List Token) : List Char := ts.flatMap text

end Token

/-- The tokens of a text after the character `before`, inside `angle` angle brackets and `paren`
parentheses. -/
def tokensFrom (before : Option Char) (angle paren : Nat) (s : List Char) : List Token :=
  match s with
  | [] => []
  | c :: cs =>
    if angle = 0 ∧ paren = 0 then
      match _h : dropPrefix? anonymousNamespace (c :: cs) with
      | some rest => .anonymous :: tokensFrom (some ')') 0 0 rest
      | none =>
        match _h : operatorName? before (c :: cs) with
        | some (name, rest) => .operator name :: tokensFrom name.getLast? 0 0 rest
        | none => .char c :: tokensFrom (some c) (angleDepth 0 c) (parenDepth 0 c) cs
    else .inner c :: tokensFrom (some c) (angleDepth angle c) (parenDepth paren c) cs
termination_by s.length
decreasing_by
  · have happ := congrArg List.length (append_of_dropPrefix? _h)
    have : 0 < anonymousNamespace.length := by decide
    simp only [List.length_append] at happ
    omega
  · exact length_lt_of_operatorName? _h
  · simp
  · simp

/-- The tokens of a name. -/
def tokens (s : List Char) : List Token := tokensFrom none 0 0 s

/-- Nothing of a name is lost in its tokens. -/
theorem join_tokensFrom (before : Option Char) (angle paren : Nat) (s : List Char) :
    Token.join (tokensFrom before angle paren s) = s := by
  fun_induction tokensFrom before angle paren s with
  | case1 => rfl
  | case2 before angle paren c cs h rest hrest ih =>
    simp only [Token.join, List.flatMap_cons, Token.text] at ih ⊢
    rw [ih, append_of_dropPrefix? hrest]
  | case3 before angle paren c cs h hno name rest hname ih =>
    simp only [Token.join, List.flatMap_cons, Token.text] at ih ⊢
    rw [ih, append_of_operatorName? hname]
  | case4 | case5 => simp_all [Token.join, Token.text]

/-- Nothing of a name is lost in its tokens. -/
theorem join_tokens (s : List Char) : Token.join (tokens s) = s := join_tokensFrom none 0 0 s

end PathSafety.Name
