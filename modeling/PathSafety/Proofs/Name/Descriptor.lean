import PathSafety.Name.Resolve
import PathSafety.Proofs.Name.Heading

/-!
# Descriptors of printed names

Reading a printed name gives back what it was printed from. The scanners that find the list of parameters, the
type of the result, the scopes and the template arguments cut the text at the same places: all of them pass
over what stands in brackets, and none takes an operator name or the name of the anonymous namespace apart.

Contents:

* `Printed.untagged_text` — no tag stands in a printed name;
* `Printed.readable`, `Printed.anglesBalanced_head` — its parts are readable;
* `Printed.descriptor`, `ofText?_of_tagged` — the descriptor of a printed name, tags or not;
* `resolve_text` — names of functions that are no operators.
-/

namespace PathSafety.Name

open Text

variable {r s t : List Char}

/-! ## Tags -/

theorem Operator.untagged_append (op : Operator) : Untagged (op.text ++ s) ↔ Untagged s := by
  have hbrackets : ∀ t, Untagged ('[' :: ']' :: t) ↔ Untagged t := by
    intro t
    rw [untagged_cons, untagged_cons_of_ne (by decide), and_iff_right_iff_imp]
    rintro _ ⟨r, hr⟩
    exact absurd (List.cons.inj (List.cons.inj hr).2).1 (by decide)
  have harray : ∀ array, Untagged (brackets array ++ s) ↔ Untagged s := by
    intro array
    cases array with
    | false => exact Iff.rfl
    | true => exact hbrackets s
  unfold text
  rw [List.append_assoc, untagged_append_of_not_mem (by decide)]
  -- Only brackets could open a tag, and those of an operator are closed at once.
  cases op with
  | symbol t ht =>
    have hall : ∀ t ∈ operatorSymbols, '[' ∉ t := by decide
    exact untagged_append_of_not_mem (hall t ht)
  | call => exact untagged_append_of_not_mem (by decide)
  | index => exact hbrackets s
  | new array =>
    show Untagged (' ' :: ("new".toList ++ brackets array) ++ s) ↔ _
    rw [List.cons_append, List.append_assoc, untagged_cons_of_ne (by decide),
      untagged_append_of_not_mem (by decide), harray]
  | delete array =>
    show Untagged (' ' :: ("delete".toList ++ brackets array) ++ s) ↔ _
    rw [List.cons_append, List.append_assoc, untagged_cons_of_ne (by decide),
      untagged_append_of_not_mem (by decide), harray]
  | literal spaces x =>
    refine untagged_append_of_not_mem fun h => ?_
    rcases List.mem_cons.mp h with h | h
    · cases h
    rcases List.mem_cons.mp h with h | h
    · cases h
    rcases List.mem_append.mp h with h | h
    · exact absurd (List.mem_replicate.mp h).2 (by decide)
    · exact absurd (x.chars '[' h) (by decide)

theorem Callee.untagged_append (x : Callee) : Untagged (x.text ++ s) ↔ Untagged s := by
  have hblanks : ∀ n, '[' ∉ blanks n := fun n h => absurd (List.mem_replicate.mp h).2 (by decide)
  have hname : ∀ t, Untagged (x.name ++ t) ↔ Untagged t := by
    cases x with
    | plain destructor name args =>
      refine fun t => untagged_append_of_not_mem fun h => ?_
      rcases List.mem_append.mp h with h | h
      · cases destructor with
        | false => cases h
        | true => exact absurd (List.mem_singleton.mp h) (by decide)
      · exact absurd (name.chars '[' h) (by decide)
    | operator op gap args spaced => exact fun t => op.untagged_append
  unfold text
  rw [List.append_assoc, hname, List.append_assoc, untagged_append_of_not_mem (hblanks _),
    untagged_templateText_append]

theorem untagged_qualified_append (scopes : List Scope) (callee : Callee) :
    Untagged (qualified scopes callee ++ s) ↔ Untagged s := by
  induction scopes with
  | nil => exact callee.untagged_append
  | cons scope scopes ih =>
    unfold qualified
    rw [List.append_assoc, scope.untagged_append, List.append_assoc, untagged_append_of_not_mem (by decide), ih]

/-! ## Names -/

namespace Printed

variable (n : Printed)

/-- A function with its scopes. -/
abbrev qualified : List Char := Name.qualified n.scopes n.callee

/-- The parameters. -/
def parameters : List (List Char) := (n.signature.map fun x => texts x.parameters).getD []

/-- The parts of what stands before the list of parameters. -/
def parts : Parts := ⟨n.result.map ResultType.text, n.scopes.map Scope.text, n.callee.text⟩

theorem qualified_parts : n.parts.qualified = n.qualified := by
  unfold parts Parts.qualified qualified
  dsimp only
  induction n.scopes with
  | nil => rfl
  | cons scope scopes ih => exact congrArg (fun s => scope.text ++ (separator ++ s)) ih

theorem head_parts : n.parts.head = n.head := by
  unfold Parts.head
  rw [qualified_parts]
  unfold parts head
  cases n.result <;> rfl

/-- What stands before the list of parameters. -/
def heading : Heading := ⟨n.result, n.scopes.map Scope.qualifier, .callee n.callee⟩

theorem parts_heading : n.heading.parts = n.parts := by
  unfold Heading.parts heading parts
  rw [List.map_map]
  rfl

theorem readable : n.parts.Readable := n.parts_heading ▸ n.heading.readable

theorem anglesBalanced_head : anglesBalanced n.parts.head = true := n.parts_heading ▸ n.heading.anglesBalanced_head

theorem untagged_text : Untagged n.text := by
  have hsignature : Untagged ((n.signature.map Signature.text).getD []) := by
    cases n.signature with
    | none => exact untagged_nil
    | some x =>
      show Untagged ('(' :: (commaList (texts x.parameters) ++ ')' :: x.qualifiers))
      rw [untagged_cons_of_ne (by decide), untagged_append_cons (by decide)]
      exact ⟨untagged_commaList _, x.untagged⟩
  unfold text head
  cases n.result with
  | none => exact (untagged_qualified_append _ _).mpr hsignature
  | some result =>
    rw [List.append_assoc, List.cons_append, untagged_append_cons (by decide)]
    exact ⟨result.untagged, (untagged_qualified_append _ _).mpr hsignature⟩

/-! ## Descriptors -/

/-- Whether the function is a destructor. -/
def isDestructor : Bool :=
  match n.callee with
  | .plain destructor _ _ => destructor
  | .operator .. => false

/-- Whether the function is a constructor: it is called as the innermost scope is. -/
def isConstructor : Bool :=
  !n.callee.isOperator && !n.isDestructor && n.scopes.getLast?.any fun scope => scope.name == n.callee.name

/-- What the name says. -/
def descriptor : Descriptor where
  scopes := n.scopes.map Scope.text
  function := n.callee.name
  templateArgs := (n.callee.args.map texts).or (n.scopes.reverse.findSome? Scope.args?)
  parameters := n.parameters
  result := n.result.map ResultType.text
  isOperator := n.callee.isOperator
  isConstructor := n.isConstructor
  isDestructor := n.isDestructor

theorem startsWith_tilde : (!n.callee.isOperator && startsWith ['~'] n.callee.text) = n.isDestructor := by
  unfold isDestructor
  cases n.callee with
  | operator => rfl
  | plain destructor name args =>
    cases destructor with
    | true => rfl
    | false =>
      show startsWith ['~'] (name.text ++ ([] ++ templateText args)) = false
      cases hname : name.text with
      | nil => exact absurd hname name.nonempty
      | cons c s =>
        have hc := name.chars c (hname ▸ List.mem_cons_self)
        exact not_startsWith_of_head (Ne.symm (ne_of_isIdentifierChar hc (by decide)))

theorem ofQualified_qualified : Descriptor.ofQualified n.parts.qualified n.parameters n.parts.result =
    n.descriptor := by
  have hargs : (n.scopes.map Scope.text).reverse.findSome? (fun scope => (splitTemplate scope).2) =
      n.scopes.reverse.findSome? Scope.args? := by
    rw [← List.map_reverse, List.findSome?_map]
    refine congrArg (List.findSome? · _) (funext fun scope => ?_)
    exact congrArg Prod.snd scope.splitTemplate_text
  have hnames : (n.scopes.map Scope.text).getLast?.any (fun scope => (splitTemplate scope).1 == n.callee.name) =
      n.scopes.getLast?.any fun scope => scope.name == n.callee.name := by
    rw [List.getLast?_map, Option.any_map]
    refine congrArg (Option.any · _) (funext fun scope => ?_)
    exact congrArg (fun x : List Char => x == n.callee.name) (congrArg Prod.fst scope.splitTemplate_text)
  rw [ofQualified_of_splitScopes n.readable.splitScopes_qualified n.callee.splitFunction_text]
  unfold descriptor isConstructor parts
  simp only [hargs, hnames, n.startsWith_tilde]

end Printed

/-- **Printed names.** Reading a printed name, with tags put into it or not, gives what it was printed from. -/
theorem ofText?_of_tagged {n : Printed} {t : List Char} (h : Tagged t n.text) :
    Descriptor.ofText? t = some n.descriptor := by
  have huntagged := n.untagged_text
  unfold Printed.text at h huntagged
  rw [← n.head_parts] at h huntagged
  rw [n.readable.ofText?_of_signature n.anglesBalanced_head h huntagged]
  exact congrArg some n.ofQualified_qualified

theorem resolve_of_tagged {n : Printed} {t : List Char} (h : Tagged t n.text)
    (hmangled : ¬ mangledOpening <+: t) : resolve (String.ofList t) = .ok n.descriptor :=
  resolve_ofList (ofText?_of_tagged h) hmangled

/-- **Names of functions that are no operators.** Resolving a printed name undoes printing it: it gives the
scopes as they are written, the function, its parameters and the type of the result, and as template arguments
those of the function, else those of the innermost scope that has any. -/
theorem resolve_text {n : Printed} {destructor : Bool} {name : Identifier} {args : Option (List Item)}
    (hcallee : n.callee = .plain destructor name args) (hmangled : ¬ mangledOpening <+: n.text) :
    resolve (String.ofList n.text) = .ok {
      scopes := n.scopes.map Scope.text
      function := tilde destructor ++ name.text
      templateArgs := (args.map texts).or (n.scopes.reverse.findSome? Scope.args?)
      parameters := (n.signature.map fun x => texts x.parameters).getD []
      result := n.result.map ResultType.text
      isOperator := false
      isConstructor := !destructor && n.scopes.getLast?.any fun scope => scope.name == name.text
      isDestructor := destructor } := by
  have hconstructor : n.isConstructor =
      (!destructor && n.scopes.getLast?.any fun scope => scope.name == name.text) := by
    unfold Printed.isConstructor Printed.isDestructor
    rw [hcallee]
    cases destructor <;> rfl
  have hdestructor : n.isDestructor = destructor := by
    unfold Printed.isDestructor
    rw [hcallee]
  rw [resolve_of_tagged (Tagged.refl n.text) hmangled]
  unfold Printed.descriptor
  rw [hconstructor, hdestructor, hcallee]
  rfl

/-! ### A function of a template -/

namespace Example

/-- A member without brackets. -/
def item (text : List Char)
    (h : text ≠ [] ∧ '[' ∉ text ∧ text.all (fun c => isBracket c = false ∧ c ≠ ',') = true)
    (htrim : trim text = text) (hkeyword : splitFirst? operatorKeyword text = none) : Item where
  text := text
  isItem := ⟨Nested.of_chars (List.all_iff_forall_prop.mp h.2.2), h.1, htrim⟩
  keywordFree := keywordFree_of_splitFirst? hkeyword
  untagged := untagged_of_not_mem h.2.1

/-- The identifier of a text. -/
def identifier (text : List Char)
    (h : text ≠ [] ∧ text.all isIdentifierChar = true ∧ text ≠ operatorKeyword) : Identifier :=
  ⟨text, h.1, List.all_eq_true.mp h.2.1, h.2.2⟩

def int : Item := item "int".toList (by decide) rfl rfl

def list : Identifier := identifier "List".toList (by decide)

/-- The namespace of a version of a library. -/
def version : Identifier := identifier "__1".toList (by decide)

def pushName : Identifier := identifier "push".toList (by decide)

/-- Appending to a list. -/
def push : Printed where
  result := some ⟨"void".toList, Nested.of_chars (List.all_iff_forall_prop.mp rfl), by decide, rfl,
    keywordFree_of_splitFirst? rfl, untagged_of_not_mem (by decide)⟩
  scopes := [.named version none, .named list (some [int])]
  callee := .plain false pushName none
  signature := some ⟨[int, int], " const".toList, untagged_of_not_mem (by decide), by decide⟩

/-- The template arguments are those of the scope. -/
theorem resolve_push : push.text = "void __1::List<int>::push(int, int) const".toList ∧
    ¬ mangledOpening <+: push.text ∧ resolve (String.ofList push.text) = .ok {
      scopes := ["__1".toList, "List<int>".toList]
      function := "push".toList
      templateArgs := some ["int".toList]
      parameters := ["int".toList, "int".toList]
      result := some "void".toList
      isOperator := false
      isConstructor := false
      isDestructor := false } := by
  have hmangled : ¬ mangledOpening <+: push.text := fun h => by
    have hfirst := startsWith_iff.mpr h
    cases hfirst
  have hcallee : push.callee = .plain false pushName none := rfl
  exact ⟨rfl, hmangled, resolve_text hcallee hmangled⟩

end Example

end PathSafety.Name
