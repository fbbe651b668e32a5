import PathSafety.Proofs.Name.Descriptor

/-!
# Expressions in template arguments

A template argument can be an expression, with angle brackets that open and close nothing: the operator in `&S::operator<`,
the comparison in `((sizeof (int))>(4))`. The scanners do not agree on them. Those that look for the list of parameters, for
scopes and for template arguments take every angle bracket inside of brackets for a bracket; the one that judges whether a
name can be read at all passes over operator names everywhere. So the function and its argument are found only if the
argument closes the brackets that it opens in either way of reading. Parentheses in the type of the result, as in
`decltype(auto)`, are taken for the list of parameters.

Contents:

* `Returned`, `Instantiation` — an instance of a template with one argument;
* `exists_of_templateArgs` — template arguments that are read close their brackets;
* `resolve_instantiation` — when the name of an instance and its argument are found.
-/

namespace PathSafety.Name

open Text

variable {s t : List Char}

/-! ## Instances of templates -/

/-- The type of a result as it is written: a type without parentheses outside of its brackets, or one that is asked for with
a word and something in parentheses behind it. -/
inductive Returned where
  | none
  | type (text : List Char) (reads : ReadsAsResult text)
  | call (word : Identifier) (gap : Nat) (inner after : List Char) (closed : closes '(' ')' 0 inner = true)
    (ne_anonymous : inner ≠ "anonymous namespace".toList)

namespace Returned

/-- The type, if it can be told apart. -/
def type? : Returned → Option (List Char)
  | type text _ => some text
  | _ => Option.none

/-- The type, in front of what it is the type of. -/
def before : Returned → List Char → List Char
  | none, s => s
  | type text _, s => text ++ ' ' :: s
  | call word gap inner after _ _, s => word.text ++ blanks gap ++ '(' :: (inner ++ ')' :: (after ++ ' ' :: s))

/-- Whether no parenthesis stands outside of the brackets of the type. -/
def isPlain : Returned → Bool
  | call .. => false
  | _ => true

end Returned

/-- An instance of a template with one argument. -/
structure Instantiation where
  returned : Returned
  scopes : List Identifier
  function : Identifier
  argument : List Char
  /-- The number of blanks behind the argument, which keep brackets apart. -/
  gap : Nat
  parameters : List Char
  qualifiers : List Char
  argument_closed : closes '(' ')' 0 argument = true
  parameters_closed : closes '(' ')' 0 parameters = true
  ne_anonymous : parameters ≠ "anonymous namespace".toList

namespace Instantiation

variable (n : Instantiation)

/-- The function with its argument. -/
def last : List Char := n.function.text ++ '<' :: (n.argument ++ blanks n.gap ++ ['>'])

/-- The parts of what stands before the parameters. -/
def parts : Parts := ⟨n.returned.type?, n.scopes.map Identifier.text, n.last⟩

/-- The name as it is written. -/
def text : List Char :=
  n.returned.before (n.parts.qualified ++ '(' :: (n.parameters ++ ')' :: n.qualifiers))

/-- The names of the scopes that show in sources. -/
def sourceScopes : List (List Char) :=
  (n.scopes.map Identifier.text).filter fun scope => !inlineScopes.contains scope

/-- What is to be found: the scopes and the function, and the one argument. -/
def Found (d : Descriptor) : Prop :=
  d.canonical = joinScopes (n.sourceScopes ++ [n.function.text]) ∧ d.templateArgs = some [n.argument]

/-- When it is found: no parenthesis comes before the parameters, and the argument is one argument, whose angle brackets
close both as characters and outside of operator names. -/
structure Legible : Prop where
  plain : n.returned.isPlain = true
  single : splitList n.argument = [n.argument]
  closed : closes '<' '>' 0 n.argument = true
  balanced : anglesBalanced n.parts.head = true

end Instantiation

/-! ## Template arguments close their brackets -/

theorem exists_of_splitFunction {l : List (List Char)} (h : (splitFunction s).2.1 = some l) :
    ∃ t, closes '<' '>' 0 t = true ∧ splitList t = l := by
  unfold splitFunction at h
  split at h <;> exact exists_of_splitTemplate h

/-- Whatever is read as template arguments of a name closes the brackets that it opens. -/
theorem exists_of_templateArgs {d : Descriptor} {l : List (List Char)} (hd : Descriptor.ofText? s = some d)
    (hl : d.templateArgs = some l) : ∃ t, closes '<' '>' 0 t = true ∧ splitList t = l := by
  have hqualified : ∀ {q parameters result}, (Descriptor.ofQualified q parameters result).templateArgs = some l →
      ∃ t, closes '<' '>' 0 t = true ∧ splitList t = l := by
    intro q parameters result h
    rcases Option.or_eq_some_iff.mp h with h | ⟨-, h⟩
    · exact exists_of_splitFunction h
    · obtain ⟨scope, -, hscope⟩ := List.exists_of_findSome?_eq_some h
      exact exists_of_splitTemplate hscope
  unfold Descriptor.ofText? at hd
  dsimp only at hd
  split at hd
  · cases hd
  · split at hd
    · obtain rfl := Option.some.inj hd
      exact hqualified hl
    · -- nothing is told apart, so there are no arguments
      obtain rfl := Option.some.inj hd
      cases hl

/-! ## Reading an instance -/

namespace Instantiation

variable {n : Instantiation}

theorem closes_padded {o e : Char} (ho : isBlank o = false) (he : isBlank e = false) :
    closes o e 0 (n.argument ++ blanks n.gap) = closes o e 0 n.argument := by
  rw [← closes_trim ho he, trim_append_blanks, closes_trim ho he]

theorem splitList_padded : splitList (n.argument ++ blanks n.gap) = splitList n.argument := by
  unfold splitList
  rw [trim_append_blanks]

theorem readable (h : closes '<' '>' 0 n.argument = true) : n.parts.Readable where
  result s hs := by
    have htype : n.returned.type? = some s := hs
    cases hreturned : n.returned with
    | type text reads =>
      rw [hreturned] at htype
      obtain rfl := Option.some.inj htype
      exact reads
    | _ =>
      rw [hreturned] at htype
      cases htype
  scopes s hs := by
    obtain ⟨x, -, rfl⟩ := List.mem_map.mp hs
    exact ⟨x.solid.head, x.plain.reads⟩
  last := by
    refine .of_inert (solid_angles.append_left n.function.solid.head) fun {b r} _ hr => ?_
    have hangles := (closes_padded (by decide) (by decide)).trans h
    have hparens := (closes_padded (by decide) (by decide)).trans n.argument_closed
    obtain ⟨ts, hts, hjoin, hinert⟩ :=
      exists_scans_angles (b := lastChar b n.function.text) (r := r) hangles hparens
    obtain ⟨us, hus, hjoin', hinert'⟩ :=
      n.function.plain.exists_scans (b := b) (r := '<' :: (n.argument ++ blanks n.gap ++ ['>']) ++ r) rfl
    refine ⟨_, hus.append hts, ?_, List.forall_mem_append.mpr ⟨hinert', hinert⟩⟩
    rw [join_append, hjoin, hjoin']
    rfl

theorem splitFunction_last (h : closes '<' '>' 0 n.argument = true) :
    splitFunction n.last = (n.function.text, some (splitList n.argument), false) := by
  have hnone : operatorName? none n.last = none :=
    (n.function.keywordFree.noOperator rfl).operatorName? n.function.nonempty
  have hsplit := splitTemplate_append (s := n.function.text) ((closes_padded (by decide) (by decide)).trans h)
  rw [splitList_padded, trimRight_eq_self n.function.solid.last] at hsplit
  unfold splitFunction
  rw [hnone]
  dsimp only
  rw [show splitTemplate n.last = _ from hsplit]

/-- What is said of an instance that can be told apart. -/
theorem found_ofQualified (h : closes '<' '>' 0 n.argument = true) (hsingle : splitList n.argument = [n.argument])
    (parameters : List (List Char)) (result : Option (List Char)) :
    n.Found (.ofQualified n.parts.qualified parameters result) := by
  have hscopes : (n.scopes.map Identifier.text).map eraseTemplates = n.scopes.map Identifier.text := by
    rw [List.map_map]
    exact List.map_congr_left fun x _ => eraseTemplates_chars x.isBracket_chars
  have hfunction : eraseTemplates n.function.text = n.function.text := eraseTemplates_chars n.function.isBracket_chars
  rw [ofQualified_of_splitScopes (readable h).splitScopes_qualified (splitFunction_last h), hsingle]
  refine ⟨?_, rfl⟩
  unfold Descriptor.canonical Descriptor.canonicalScopes Descriptor.canonicalFunction sourceScopes
  dsimp only
  rw [show n.parts.scopes = n.scopes.map Identifier.text from rfl, hscopes, hfunction]
  rfl

end Instantiation

/-! ## Types that are asked for -/

namespace Identifier

variable (x : Identifier)

theorem readable_parts : Parts.Readable ⟨none, [], x.text⟩ :=
  ⟨nofun, nofun, .of_inert x.solid x.plain.reads⟩

theorem splitFunction_text : splitFunction x.text = (x.text, none, false) := by
  have hnone := (x.keywordFree.noOperator (b := none) (r := []) rfl).operatorName? x.nonempty
  have hlast : ∀ c ∈ x.text.getLast?, c ≠ '>' := fun c hc =>
    ne_of_isIdentifierChar (x.chars c (List.mem_of_getLast? hc)) rfl
  rw [List.append_nil] at hnone
  unfold splitFunction
  rw [hnone]
  dsimp only
  rw [splitTemplate_of_last hlast]

theorem templateArgs_descriptor (parameters : List (List Char)) :
    (Parts.descriptor ⟨none, [], x.text⟩ parameters).templateArgs = none := by
  unfold Parts.descriptor
  split
  · rw [ofQualified_of_splitScopes x.readable_parts.splitScopes_qualified x.splitFunction_text]
    rfl
  · rfl

/-- Behind an identifier and blanks, a list of parameters begins with the first parenthesis. -/
theorem splitParameters_append {k : Nat} {p q : List Char} (hp : closes '(' ')' 0 p = true)
    (hne : p ≠ "anonymous namespace".toList) :
    splitParameters (x.text ++ blanks k ++ '(' :: (p ++ ')' :: q)) = (x.text, splitList p) := by
  have hchar : ∀ c ∈ x.text ++ blanks k, isBracket c = false := by
    intro c hc
    rcases List.mem_append.mp hc with hc | hc
    · exact x.isBracket_chars c hc
    · rw [(List.mem_replicate.mp hc).2]
      rfl
  have hscans : Scans none (x.text ++ blanks k) ('(' :: (p ++ ')' :: q)) ((x.text ++ blanks k).map .char) := by
    refine scans_chars hchar (noOperator_append.mpr ⟨x.keywordFree.noOperator ?_, noOperator_blanks k⟩)
    cases k <;> rfl
  have hparen : ∀ t ∈ (x.text ++ blanks k).map Token.char, t ≠ .char '(' := by
    intro t ht
    obtain ⟨c, hc, rfl⟩ := List.mem_map.mp ht
    rintro ⟨⟩
    cases hchar '(' hc
  have hsplit := splitParameters_of_scans hscans (join_chars _) hparen hp hne
  rwa [trimRight_append_blanks, trimRight_eq_self x.solid.last] at hsplit

end Identifier

/-- A text that asks for a type is read as a function of this name. -/
theorem exists_ofText?_call {word : Identifier} {gap : Nat} {inner after : List Char}
    (hclosed : closes '(' ')' 0 inner = true) (hne : inner ≠ "anonymous namespace".toList)
    (htagged : Tagged t (word.text ++ blanks gap ++ '(' :: (inner ++ ')' :: after)))
    (huntagged : Untagged (word.text ++ blanks gap ++ '(' :: (inner ++ ')' :: after))) :
    ∃ d, Descriptor.ofText? t = some d ∧ d.templateArgs = none := by
  have hhead : ∀ c ∈ (word.text ++ blanks gap).head?, isBlank c = false := by
    rw [List.head?_append, Option.or_of_isSome (List.isSome_head?.mpr word.nonempty)]
    exact word.solid.head
  have htext : Descriptor.ofText? t = some (Parts.descriptor ⟨none, [], word.text⟩ (splitList inner)) := by
    refine word.readable_parts.ofText?_of_splitParameters ?_ ?_ <;> rw [stripTags_of_tagged htagged huntagged]
    · rw [Bool.eq_false_iff, ne_eq, List.isEmpty_iff]
      exact trim_ne_nil rfl
    · rw [trim_append_parameters hhead]
      exact word.splitParameters_append hclosed hne
  exact ⟨_, htext, word.templateArgs_descriptor _⟩

/-! ## What is found -/

namespace Instantiation

variable {n : Instantiation}

theorem text_of_isPlain (h : n.returned.isPlain = true) :
    n.text = n.parts.head ++ '(' :: (n.parameters ++ ')' :: n.qualifiers) := by
  unfold Instantiation.text Parts.head
  rw [show n.parts.result = n.returned.type? from rfl]
  cases hreturned : n.returned with
  | none => rfl
  | type s reads =>
    show s ++ ' ' :: (n.parts.qualified ++ _) = s ++ ' ' :: n.parts.qualified ++ _
    rw [List.append_assoc]
    rfl
  | call =>
    rw [hreturned] at h
    cases h

/-- If the argument closes its brackets, the parameters are found where they are. -/
theorem ofText?_of_tagged (hplain : n.returned.isPlain = true) (hclosed : closes '<' '>' 0 n.argument = true)
    (htagged : Tagged t n.text) (huntagged : Untagged n.text) :
    Descriptor.ofText? t = some (n.parts.descriptor (splitList n.parameters)) := by
  rw [text_of_isPlain hplain] at htagged huntagged
  exact (readable hclosed).ofText?_of_tagged n.parameters_closed n.ne_anonymous htagged huntagged

/-- With a type that is asked for, no template arguments are found. -/
theorem isPlain_of_templateArgs (htagged : Tagged t n.text) (huntagged : Untagged n.text) {d : Descriptor}
    {l : List (List Char)} (hd : Descriptor.ofText? t = some d) (hargs : d.templateArgs = some l) :
    n.returned.isPlain = true := by
  cases hreturned : n.returned with
  | call word gap inner after closed ne_anonymous =>
    unfold Instantiation.text at htagged huntagged
    rw [hreturned] at htagged huntagged
    obtain ⟨d', hd', hnone⟩ := exists_ofText?_call closed ne_anonymous htagged huntagged
    obtain rfl := Option.some.inj (hd.symm.trans hd')
    rw [hnone] at hargs
    cases hargs
  | none => rfl
  | type => rfl

end Instantiation

/-- **Expressions in template arguments.** An instance of a template resolves to its scopes, its function and its one
argument in just these cases: no parenthesis comes before its parameters, its argument is one argument, and the angle
brackets of the argument close, as characters and also outside of operator names. -/
theorem resolve_instantiation {n : Instantiation} {symbol : String} (hsymbol : demangle symbol = .ok (String.ofList t))
    (htagged : Tagged t n.text) (huntagged : Untagged n.text) :
    (∃ d, resolve symbol = .ok d ∧ n.Found d) ↔ n.Legible := by
  constructor
  · rintro ⟨d, hd, -, hargs⟩
    have htext := ofText?_of_resolve hsymbol hd
    have hplain := Instantiation.isPlain_of_templateArgs htagged huntagged htext hargs
    obtain ⟨s, hs, hlist⟩ := exists_of_templateArgs htext hargs
    obtain ⟨heq, hsingle⟩ := splitList_eq_singleton hlist
    have hclosed : closes '<' '>' 0 n.argument = true := by
      rw [heq, closes_trim (by decide) (by decide)]
      exact hs
    refine ⟨hplain, hsingle, hclosed, Decidable.byContradiction fun hbalanced => ?_⟩
    -- without the balance nothing is told apart
    have hdescriptor := Instantiation.ofText?_of_tagged hplain hclosed htagged huntagged
    obtain rfl := Option.some.inj (htext.symm.trans hdescriptor)
    rw [Parts.descriptor, if_neg hbalanced] at hargs
    cases hargs
  · rintro ⟨hplain, hsingle, hclosed, hbalanced⟩
    refine ⟨_, resolve_of_demangle hsymbol (Instantiation.ofText?_of_tagged hplain hclosed htagged huntagged), ?_⟩
    rw [Parts.descriptor, if_pos hbalanced]
    exact Instantiation.found_ofQualified hclosed hsingle _ _

/-! ### Addresses of operators -/

namespace Example

/-- The type of a result with an expression of its own. -/
def enabled : Returned :=
  have hsolid : Solid "E<&S::operator()>".toList := by
    refine ⟨by decide, ?_, ?_⟩ <;> rintro _ ⟨⟩ <;> rfl
  .type "E<&S::operator()>".toList (.of_tokens hsolid (by decide) (by decide) (by decide +kernel))

/-- An instance of a function of a namespace. -/
def ofArgument (returned : Returned) (argument : List Char) (h : closes '(' ')' 0 argument = true) : Instantiation where
  returned := returned
  scopes := [identifier "ns".toList (by decide)]
  function := identifier "f".toList (by decide)
  argument := argument
  gap := 0
  parameters := "int".toList
  qualifiers := []
  argument_closed := h
  parameters_closed := by decide
  ne_anonymous := by decide

/-- The address of a sum. -/
def plus : Instantiation := ofArgument enabled "&S::operator+".toList (by decide)

/-- The address of a comparison. -/
def less : Instantiation := ofArgument enabled "&S::operator<".toList (by decide)

/-- A result of a type that is deduced. -/
def deduced : Instantiation :=
  ofArgument (.call (identifier "decltype".toList (by decide)) 0 "auto".toList [] (by decide) (by decide)) "int".toList
    (by decide)

/-- The address of a sum is an argument, that of a comparison is none, and a deduced type hides the function. -/
theorem found_plus : plus.text = "E<&S::operator()> ns::f<&S::operator+>(int)".toList ∧
    less.text = "E<&S::operator()> ns::f<&S::operator<>(int)".toList ∧
    deduced.text = "decltype(auto) ns::f<int>(int)".toList ∧
    (∃ d, resolve (String.ofList plus.text) = .ok d ∧ plus.Found d) ∧
    (¬ ∃ d, resolve (String.ofList less.text) = .ok d ∧ less.Found d) ∧
    ¬ ∃ d, resolve (String.ofList deduced.text) = .ok d ∧ deduced.Found d := by
  have hplain : ∀ n ∈ [plus, less, deduced], n.text ≠ [] ∧ ¬ mangledOpening <+: n.text ∧ '[' ∉ n.text :=
    List.forall_mem_cons.mpr ⟨by decide, List.forall_mem_cons.mpr ⟨by decide, List.forall_mem_singleton.mpr (by decide)⟩⟩
  have hfound : ∀ n ∈ [plus, less, deduced], (∃ d, resolve (String.ofList n.text) = .ok d ∧ n.Found d) ↔ n.Legible := by
    intro n hn
    obtain ⟨hne, hmangled, htags⟩ := hplain n hn
    exact resolve_instantiation (demangle_ofList hne hmangled) (Tagged.refl _) (untagged_of_not_mem htags)
  refine ⟨rfl, rfl, rfl, (hfound plus (by simp)).mpr ⟨rfl, by decide, by decide, by decide +kernel⟩, ?_, ?_⟩
  · intro h
    -- its bracket is never closed
    exact absurd ((hfound less (by simp)).mp h).closed (by decide)
  · intro h
    cases ((hfound deduced (by simp)).mp h).plain

end Example

end PathSafety.Name
