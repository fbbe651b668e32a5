import PathSafety.Proofs.Name.Printed

/-!
# Functions of every kind

What may stand before a list of parameters: the type of the result, scopes with whatever brackets they have, and any
function, an operator that converts to a type among them. Such an operator takes all of its target into its name, blanks
and separators of scopes too, up to the list of parameters.

Contents:

* `Qualifier`, `Target`, `LastPart`, `Heading` — the parts of a heading;
* `operatorName?_conversion` — the name of an operator that converts;
* `Heading.readable`, `Heading.anglesBalanced_head` — the parts of a heading are read as such;
* `resolve_operator` — operators of every kind resolve to what they are printed from.
-/

namespace PathSafety.Name

open Text

variable {b : Option Char} {r s : List Char}

/-! ## The grammar -/

/-- A scope: nothing that ends a part of a name stands outside of its brackets. A function with its list of parameters is
thus none, what is inside it being an entity of its own. -/
structure Qualifier where
  text : List Char
  nested : Nested (fun c => c ≠ '(' ∧ c ≠ ':' ∧ c ≠ ' ') text ∨ text = anonymousNamespace
  trimmed : trim text = text
  keywordFree : KeywordFree text

/-- The words of the operators that allocate and free. -/
def allocationWords : List (List Char) := ["new".toList, "delete".toList]

/-- A type that an operator converts to. It must not begin with a word of those that allocate, if the word ends
there. -/
structure Target where
  text : List Char
  nested : Nested (· ≠ '(') text
  nonempty : text ≠ []
  trimmed : trim text = text
  no_allocation : ∀ word ∈ allocationWords, ∀ rest, text = word ++ rest → rest.head?.any isIdentifierChar = true

/-- The function that a heading ends with. -/
inductive LastPart where
  | callee (x : Callee)
  | conversion (target : Target)

namespace LastPart

/-- The name without template arguments. -/
def name : LastPart → List Char
  | callee x => x.name
  | conversion target => operatorKeyword ++ ' ' :: target.text

/-- The template arguments. -/
def args : LastPart → Option (List Item)
  | callee x => x.args
  | conversion _ => none

/-- The function as it is written. -/
def text : LastPart → List Char
  | callee x => x.text
  | conversion target => operatorKeyword ++ ' ' :: target.text

/-- Whether the function is an operator. -/
def isOperator : LastPart → Bool
  | callee x => x.isOperator
  | conversion _ => true

end LastPart

/-- What stands before the list of parameters. -/
structure Heading where
  result : Option ResultType
  scopes : List Qualifier
  last : LastPart

namespace Heading

variable (n : Heading)

/-- The parts of the heading as they are written. -/
def parts : Parts := ⟨n.result.map ResultType.text, n.scopes.map Qualifier.text, n.last.text⟩

/-- The heading with a list of parameters. -/
def text (signature : Option Signature) : List Char := n.parts.head ++ (signature.map Signature.text).getD []

end Heading

/-! ## Operators that convert -/

/-- The target goes on up to the list of parameters. -/
theorem conversionLength_append_of_nested (hs : Nested (· ≠ '(') s) (hr : EndsHead r) :
    conversionLength 0 (s ++ r) = s.length := by
  generalize hok : (· ≠ '(') = ok at hs
  induction hs with
  | nil =>
    cases r with
    | nil => rfl
    | cons c r =>
      rcases hr with hr | hr
      · cases hr
      · obtain rfl := Option.some.inj hr
        rfl
  | @char _ c s hc hne _ ih =>
    subst hok
    obtain ⟨ho, he, -, -⟩ := ne_of_isBracket hc
    have hdepth : angleDepth 0 c = 0 := by
      unfold angleDepth
      rw [if_neg ho, if_neg he]
    rw [List.cons_append]
    unfold conversionLength
    rw [if_neg fun h => hne h.1, hdepth, ih rfl, List.length_cons]
  | @angles _ s t _ inner _ _ iht =>
    -- Inside angle brackets the target type may hold parentheses; these do not end it.
    have hinside := conversionLength_append (k := 0) (r := '>' :: t ++ r) inner.closes_angles
    show conversionLength 1 (s ++ '>' :: t ++ r) + 1 = _
    rw [List.append_assoc, hinside]
    show conversionLength 0 (t ++ r) + 1 + s.length + 1 = _
    rw [iht hok, List.length_cons, List.length_append, List.length_cons]
    omega
  | parens hparen =>
    subst hok
    exact absurd rfl hparen

theorem allocationLength?_target (target : Target) (hr : EndsHead r) : allocationLength? (target.text ++ r) = none := by
  unfold allocationLength?
  refine List.findSome?_eq_none_iff.mpr fun word hword => ?_
  cases hdrop : dropPrefix? word (target.text ++ r) with
  | none => rfl
  | some rest =>
    have hgoes : rest.head?.any isIdentifierChar = true := by
      rcases List.append_eq_append_iff.mp (dropPrefix?_eq_some_iff.mp hdrop) with ⟨a, ha, hra⟩ | ⟨a, ha, rfl⟩
      · -- the word does not end in the list of parameters
        cases a with
        | nil =>
          rw [List.append_nil] at ha
          cases target.no_allocation word hword [] (ha ▸ (List.append_nil _).symm)
        | cons c a =>
          have hc : c = '(' := by
            rw [hra] at hr
            rcases hr with hr | hr
            · cases hr
            · exact Option.some.inj hr
          have hall : ∀ word ∈ allocationWords, '(' ∉ word := by decide
          exact absurd (ha ▸ List.mem_append_right _ (hc ▸ List.mem_cons_self)) (hall word hword)
      · have hafter := target.no_allocation word hword a ha
        cases a with
        | nil => cases hafter
        | cons c a => exact hafter
    dsimp only
    rw [if_pos hgoes]

/-- **Operators that convert** have all up to the list of parameters in their names. -/
theorem operatorName?_conversion (target : Target) (hbefore : b.any isIdentifierChar = false) (hr : EndsHead r) :
    operatorName? b (operatorKeyword ++ ' ' :: target.text ++ r) = some (operatorKeyword ++ ' ' :: target.text, r) := by
  have hblank : (target.text ++ r).head? ≠ some ' ' := by
    rw [List.head?_append, Option.or_of_isSome (List.isSome_head?.mpr target.nonempty)]
    intro h
    cases head_of_trim target.trimmed ' ' h
  have hlength := operatorLength_word hblank
  rw [allocationLength?_target target hr, Option.getD_none, conversionLength_append_of_nested target.nested hr] at hlength
  unfold operatorName?
  rw [List.append_assoc, dropPrefix?_append]
  dsimp only
  have hafter : (' ' :: target.text ++ r).head?.any isIdentifierChar = false := rfl
  rw [hbefore, hafter, Bool.or_false, if_neg Bool.false_ne_true, List.cons_append, hlength,
    ← List.cons_append, ← List.length_cons (a := ' '), List.take_left, List.drop_left]

/-! ## Reading the parts -/

namespace Qualifier

variable (x : Qualifier)

theorem readsAsScope : ReadsAsScope x.text where
  head := head_of_trim x.trimmed
  reads _ hr := by
    rcases x.nested with h | h
    · exact Plain.exists_scans ⟨h, x.keywordFree⟩ hr
    · rw [h]
      exact ⟨[.anonymous], scans_anonymous, rfl, List.forall_mem_singleton.mpr ⟨rfl, nofun, nofun, nofun⟩⟩

theorem passes : Passes (fun r => r.head?.any isIdentifierChar = false) x.text := by
  refine passes_of_noOperator ?_ x.keywordFree.noOperator
  rcases x.nested with h | h
  · exact h.closes_angles
  · rw [h]
    rfl

end Qualifier

/-- A scope that is an identifier, with or without template arguments, or the anonymous namespace. -/
def Scope.qualifier (x : Scope) : Qualifier where
  text := x.text
  nested := by
    cases x with
    | named name args => exact Or.inl (name.plain.append_templateText args).nested
    | anonymous => exact Or.inr rfl
  trimmed := by
    cases x with
    | named name args => exact (Callee.plain false name args).solid.trim
    | anonymous => rfl
  keywordFree := by
    cases x with
    | named name args => exact (name.plain.append_templateText args).keywordFree
    | anonymous => exact keywordFree_of_splitFirst? rfl

theorem Target.solid_name (target : Target) : Solid (operatorKeyword ++ ' ' :: target.text) := by
  have htarget : Solid target.text := ⟨target.nonempty, head_of_trim target.trimmed, last_of_trim target.trimmed⟩
  rw [List.append_cons]
  refine htarget.append_left fun c hc => ?_
  obtain rfl := Option.some.inj hc
  rfl

namespace LastPart

variable (x : LastPart)

theorem readsAsFunction : ReadsAsFunction x.text := by
  cases x with
  | callee x => exact x.readsAsFunction
  | conversion target =>
    refine ⟨target.solid_name, fun hb hr => ?_⟩
    have hscan := scans_operator target.solid_name.nonempty (operatorName?_conversion target hb hr)
    refine ⟨_, hscan, List.append_nil _, ?_, rfl⟩
    exact List.forall_mem_singleton.mpr ⟨nofun, nofun⟩

theorem passes : Passes EndsHead x.text := by
  cases x with
  | callee x => exact x.passes
  | conversion target =>
    intro b d r hb hr
    rw [show (conversion target).text = operatorKeyword ++ ' ' :: target.text from rfl,
      anglesBalancedFrom_operator (operatorName?_conversion target hb hr),
      lastChar_of_ne_nil target.solid_name.nonempty]

theorem splitFunction_text : splitFunction x.text = (x.name, x.args.map texts, x.isOperator) := by
  cases x with
  | callee x => exact x.splitFunction_text
  | conversion target =>
    have hname := operatorName?_conversion (b := none) (r := []) target rfl (Or.inl rfl)
    rw [List.append_nil] at hname
    show splitFunction (operatorKeyword ++ ' ' :: target.text) = _
    unfold splitFunction
    rw [hname]
    dsimp only
    rw [trimRight_eq_self target.solid_name.last]
    rfl

end LastPart

namespace Heading

variable (n : Heading)

theorem readable : n.parts.Readable where
  result s hs := by
    obtain ⟨x, -, rfl⟩ := Option.map_eq_some_iff.mp hs
    exact x.readsAsResult
  scopes s hs := by
    obtain ⟨x, -, rfl⟩ := List.mem_map.mp hs
    exact x.readsAsScope
  last := n.last.readsAsFunction

theorem anglesBalanced_head : anglesBalanced n.parts.head = true := by
  refine Parts.anglesBalanced_head (fun s hs => ?_) (fun s hs => ?_) n.last.passes
  · obtain ⟨x, -, rfl⟩ := Option.map_eq_some_iff.mp hs
    exact x.passes
  · obtain ⟨x, -, rfl⟩ := List.mem_map.mp hs
    exact x.passes

end Heading

/-! ## Descriptors -/

/-- What a name says that may have a list of parameters. -/
theorem Parts.Readable.ofText?_of_signature {x : Parts} (h : x.Readable) (hangles : anglesBalanced x.head = true)
    {signature : Option Signature} (htagged : Tagged t (x.head ++ (signature.map Signature.text).getD []))
    (huntagged : Untagged (x.head ++ (signature.map Signature.text).getD [])) :
    Descriptor.ofText? t =
      some (.ofQualified x.qualified ((signature.map fun x => texts x.parameters).getD []) x.result) := by
  have hdescriptor : ∀ parameters, x.descriptor parameters = .ofQualified x.qualified parameters x.result :=
    fun parameters => if_pos hangles
  cases signature with
  | none =>
    have hnil : x.head ++ ((none : Option Signature).map Signature.text).getD [] = x.head := List.append_nil _
    rw [hnil] at htagged huntagged
    rw [h.ofText?_of_tagged_head hangles htagged huntagged, hdescriptor]
    rfl
  | some signature =>
    have hitems := isItem_texts signature.parameters
    have hsplit := splitList_commaList hitems
    have hne : commaList (texts signature.parameters) ≠ "anonymous namespace".toList := fun hlist =>
      signature.ne_anonymous (hsplit.symm.trans (congrArg splitList hlist))
    rw [h.ofText?_of_tagged (nested_commaList hitems).closes_parens hne htagged huntagged, hdescriptor, hsplit]
    rfl

/-- **Operators of every kind.** A name of an operator in any scopes, with or without the type of its result and a list of
parameters, resolves to the name of the operator and its own template arguments, if it has any. -/
theorem resolve_operator {n : Heading} {signature : Option Signature} (hoperator : n.last.isOperator = true)
    (huntagged : Untagged (n.text signature)) (hmangled : ¬ mangledOpening <+: n.text signature) :
    resolve (String.ofList (n.text signature)) = .ok {
      scopes := n.scopes.map Qualifier.text
      function := n.last.name
      templateArgs := (n.last.args.map texts).or (n.scopes.reverse.findSome? fun scope => (splitTemplate scope.text).2)
      parameters := (signature.map fun x => texts x.parameters).getD []
      result := n.result.map ResultType.text
      isOperator := true
      isConstructor := false
      isDestructor := false } := by
  refine resolve_ofList ?_ hmangled
  unfold Heading.text at huntagged ⊢
  rw [n.readable.ofText?_of_signature n.anglesBalanced_head (Tagged.refl _) huntagged,
    ofQualified_of_splitScopes n.readable.splitScopes_qualified n.last.splitFunction_text, hoperator]
  have hargs : (n.scopes.map Qualifier.text).reverse.findSome? (fun scope => (splitTemplate scope).2) =
      n.scopes.reverse.findSome? fun scope => (splitTemplate scope.text).2 := by
    rw [← List.map_reverse, List.findSome?_map]
    rfl
  unfold Heading.parts
  dsimp only
  rw [hargs]
  rfl

/-! ### A conversion of a template -/

namespace Example

/-- The scope of a text without brackets. -/
def qualifier (text : List Char)
    (h : text.all (fun c => isBracket c = false ∧ c ≠ '(' ∧ c ≠ ':' ∧ c ≠ ' ') = true) (htrim : trim text = text)
    (hkeyword : splitFirst? operatorKeyword text = none) : Qualifier where
  text := text
  nested := Or.inl (Nested.of_chars (List.all_iff_forall_prop.mp h))
  trimmed := htrim
  keywordFree := keywordFree_of_splitFirst? hkeyword

/-- A namespace. -/
def ns : Qualifier := qualifier "ns".toList rfl rfl rfl

/-- An instance of a template. -/
def optional : Qualifier where
  text := "Opt<int>".toList
  nested := Or.inl ((Nested.of_chars (s := "Opt".toList) (List.all_iff_forall_prop.mp rfl)).append
    (.angles (by decide) (Nested.of_chars (s := "int".toList) (List.all_iff_forall_prop.mp rfl)) .nil))
  trimmed := rfl
  keywordFree := keywordFree_of_splitFirst? rfl

/-- A type with a separator, a blank and parentheses. -/
def function : Target where
  text := "std::function<void (int)>".toList
  nested := by
    have hint : Nested (fun _ => True) ("void ".toList ++ '(' :: ("int".toList ++ ')' :: [])) :=
      (Nested.of_chars (List.all_iff_forall_prop.mp rfl)).append
        (.parens True.intro (Nested.of_chars (List.all_iff_forall_prop.mp rfl)) .nil)
    exact (Nested.of_chars (s := "std::function".toList) (List.all_iff_forall_prop.mp rfl)).append
      (.angles (by decide) hint .nil)
  nonempty := by decide
  trimmed := rfl
  no_allocation := by
    intro word hword rest h
    have hnot : ∀ word ∈ allocationWords, ¬ word <+: "std::function<void (int)>".toList := by decide
    exact absurd ⟨rest, h.symm⟩ (hnot word hword)

/-- What an optional value converts to. -/
def convert : Heading := ⟨none, [ns, optional], .conversion function⟩

/-- No parameters. -/
def constant : Signature := ⟨[], " const &".toList, untagged_of_not_mem (by decide), by decide⟩

/-- The template arguments are those of the scope. -/
theorem resolve_convert : convert.text (some constant) =
      "ns::Opt<int>::operator std::function<void (int)>() const &".toList ∧
    convert.last.isOperator = true ∧ Untagged (convert.text (some constant)) ∧
    ¬ mangledOpening <+: convert.text (some constant) ∧
    resolve (String.ofList (convert.text (some constant))) = .ok {
      scopes := ["ns".toList, "Opt<int>".toList]
      function := "operator std::function<void (int)>".toList
      templateArgs := some ["int".toList]
      parameters := []
      result := none
      isOperator := true
      isConstructor := false
      isDestructor := false } := by
  have huntagged : Untagged (convert.text (some constant)) := untagged_of_not_mem (by decide)
  have hmangled : ¬ mangledOpening <+: convert.text (some constant) := by decide
  exact ⟨rfl, rfl, huntagged, hmangled, resolve_operator rfl huntagged hmangled⟩

end Example

end PathSafety.Name
