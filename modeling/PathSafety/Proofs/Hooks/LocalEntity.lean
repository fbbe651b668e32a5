import PathSafety.Proofs.Hooks.History
import PathSafety.Proofs.Name.Descriptor

/-!
# Functions inside of functions

What is declared inside of a function, a lambda or a member of a local class, is printed behind the parameters of this
function, as in `ns::run(int)::{lambda(char)#1}::operator()(char) const`. The name is cut at the first list of parameters,
though, and nothing behind it is looked at. So whatever is declared inside of a function has the descriptor of the function,
and a hook of the function takes the calls of all that is inside of it.

Contents:

* `Heading.withParameters`, `Heading.inside`, `Heading.descriptor` — a function and what is declared inside of it;
* `findHook_inside` — what is declared inside of a function is taken for the function.
-/

namespace PathSafety.Name

namespace Heading

variable (n : Heading)

/-- A function with its parameters. -/
def withParameters (p : List Char) : List Char := n.parts.head ++ '(' :: (p ++ [')'])

/-- Something that is declared inside of the function. -/
def inside (p entity : List Char) : List Char := n.withParameters p ++ (separator ++ entity)

/-- What the heading says with a list of parameters. -/
def descriptor (p : List Char) : Descriptor := .ofQualified n.parts.qualified (splitList p) n.parts.result

variable {n : Heading} {p q s t : List Char}

/-- The descriptor of a function is told by what stands up to the end of its parameters. -/
theorem ofText?_of_tagged (hp : closes '(' ')' 0 p = true) (hne : p ≠ "anonymous namespace".toList)
    (htagged : Tagged t (n.withParameters p ++ q)) (huntagged : Untagged (n.withParameters p ++ q)) :
    Descriptor.ofText? t = some (n.descriptor p) := by
  have hsplit : n.withParameters p ++ q = n.parts.head ++ '(' :: (p ++ ')' :: q) := by
    unfold withParameters
    rw [List.append_assoc, List.cons_append, List.append_assoc]
    rfl
  rw [hsplit] at htagged huntagged
  rw [n.readable.ofText?_of_tagged hp hne htagged huntagged]
  exact congrArg some (if_pos n.anglesBalanced_head)

theorem scopes_descriptor (p : List Char) : (n.descriptor p).scopes = n.scopes.map Qualifier.text := by
  unfold descriptor
  rw [ofQualified_of_splitScopes n.readable.splitScopes_qualified n.last.splitFunction_text]
  rfl

theorem function_descriptor (p : List Char) : (n.descriptor p).function = n.last.name := by
  unfold descriptor
  rw [ofQualified_of_splitScopes n.readable.splitScopes_qualified n.last.splitFunction_text]

end Heading

variable {n : Heading} {p entity t : List Char} {symbol : String}

/-- **Functions inside of functions** resolve to the function around them: the scopes, the name and the canonical name are
those of this function. A hook that only its canonical name has is found for them too. -/
theorem findHook_inside (hp : closes '(' ')' 0 p = true) (hne : p ≠ "anonymous namespace".toList)
    (hsymbol : demangle symbol = .ok (String.ofList t)) (hmangled : ¬ mangledOpening <+: t)
    (htagged : Tagged t (n.inside p entity)) (huntagged : Untagged (n.inside p entity)) :
    resolve symbol = .ok (n.descriptor p) ∧ (n.descriptor p).scopes = n.scopes.map Qualifier.text ∧
      (n.descriptor p).function = n.last.name ∧
      (∀ u, Tagged u (n.withParameters p) → ¬ mangledOpening <+: u →
        resolve (String.ofList u) = .ok (n.descriptor p)) ∧
      ∃ names, candidates symbol = .ok names ∧ String.ofList (n.descriptor p).canonical ∈ names ∧
        ∀ {α : Type} (r : Registry α) (hook : α), r.Only names (String.ofList (n.descriptor p).canonical) hook →
          r.findHook symbol = .ok (some (String.ofList (n.descriptor p).canonical, hook)) := by
  have htext := Heading.ofText?_of_tagged hp hne htagged huntagged
  have hnames := candidates_of_resolve hsymbol (resolve_ofList htext hmangled)
  have hmem : ∀ x y z (l : List String), z ∈ distinct (symbol :: x :: y :: z :: l) := fun x y z l =>
    mem_distinct.mpr (List.mem_cons_of_mem _ (List.mem_cons_of_mem _ (List.mem_cons_of_mem _ List.mem_cons_self)))
  refine ⟨resolve_of_demangle hsymbol htext, Heading.scopes_descriptor p, Heading.function_descriptor p, ?_, _, hnames,
    hmem _ _ _ _, fun r hook honly => honly.findHook hnames (hmem _ _ _ _)⟩
  intro u htagged' hmangled'
  have huntagged' := huntagged.left
  rw [← List.append_nil (n.withParameters p)] at htagged' huntagged'
  exact resolve_ofList (Heading.ofText?_of_tagged hp hne htagged' huntagged') hmangled'

/-! ### A lambda -/

namespace Example

/-- A function of a namespace. -/
def outer : Heading :=
  ⟨none, [ns], .callee (.plain false (identifier "outer".toList (by decide)) none)⟩

/-- A lambda of the function. -/
def lambda : List Char := outer.inside "int".toList "{lambda(char)#1}::operator()(char) const".toList

/-- A registry with a hook for the function only. -/
def hooked : Registry Nat := { entries := [("ns::outer", 1)] }

theorem only_hooked (names : List String) : hooked.Only names "ns::outer" 1 where
  hook := rfl
  others n _ hn := by
    have hfalse : (n == "ns::outer") = false := beq_false_of_ne hn
    show List.lookup n [("ns::outer", 1)] = none
    rw [List.lookup_cons, hfalse]
    rfl

theorem descriptor_outer : outer.descriptor "int".toList = {
    scopes := ["ns".toList], function := "outer".toList, parameters := ["int".toList] } := by
  unfold Heading.descriptor
  rw [ofQualified_of_splitScopes outer.readable.splitScopes_qualified outer.last.splitFunction_text]
  decide

/-- The lambda is taken for the function that it is in. -/
theorem findHook_lambda : lambda = "ns::outer(int)::{lambda(char)#1}::operator()(char) const".toList ∧
    resolve (String.ofList lambda) = .ok {
      scopes := ["ns".toList], function := "outer".toList, parameters := ["int".toList] } ∧
    hooked.findHook (String.ofList lambda) = .ok (some ("ns::outer", 1)) := by
  have hmangled : ¬ mangledOpening <+: lambda := by decide
  obtain ⟨hresolve, -, -, -, names, -, -, hfind⟩ := findHook_inside (n := outer) (p := "int".toList)
    (by decide) (by decide) (demangle_ofList (by decide) hmangled) hmangled (Tagged.refl lambda)
    (untagged_of_not_mem (by decide))
  have hcanonical : String.ofList (outer.descriptor "int".toList).canonical = "ns::outer" := by
    rw [descriptor_outer]
    decide
  rw [hcanonical] at hfind
  rw [descriptor_outer] at hresolve
  exact ⟨rfl, hresolve, hfind hooked 1 (only_hooked names)⟩

end Example

end PathSafety.Name
