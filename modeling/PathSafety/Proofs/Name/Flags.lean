import PathSafety.Proofs.Name.Cuts
import PathSafety.Proofs.Name.Erasure

/-!
# What a descriptor says of the kind of a function

A function is an operator, a constructor or a destructor, or none of them; and only the name of an operator keeps its
angle brackets. That depends on where the keyword of operators is looked for. A name whose angle brackets have their
partners is told apart first, and the keyword is one if its last part begins with it. A name whose angle brackets have
no partners is not told apart: there the letters of the keyword make an operator, also in the middle of an identifier,
and a tilde anywhere makes a destructor. These names are the only ones for which the laws fail.

Contents:

* `Descriptor.Exclusive`, `exclusive_ofQualified` — a name that is told apart has one kind;
* `detached_of_isOperator` — it names an operator only if the keyword stands in it as a whole word;
* `angleFree_canonical` — only operators keep angle brackets;
* `Blurred`, `kind_of_resolve` — for which names these laws hold.
-/

namespace PathSafety.Name

open Text

variable {b : Option Char} {s head : List Char} {d : Descriptor} {parameters : List (List Char)}
  {result : Option (List Char)}

/-- That a function is at most one of operator, constructor and destructor. -/
def Descriptor.Exclusive (d : Descriptor) : Prop :=
  [d.isOperator, d.isConstructor, d.isDestructor].count true ≤ 1

instance : Decidable d.Exclusive := inferInstanceAs (Decidable (_ ≤ _))

/-! ## Names that are told apart -/

theorem exclusive_ofQualified (s : List Char) : (Descriptor.ofQualified s parameters result).Exclusive := by
  have hflags : ∀ isOperator tilde names : Bool,
      [isOperator, !isOperator && !(!isOperator && tilde) && names, !isOperator && tilde].count true ≤ 1 := by
    decide
  obtain ⟨scopes, last, hsplit⟩ := exists_splitScopes s
  rw [ofQualified_of_splitScopes hsplit rfl]
  exact hflags _ _ _

/-- A name that is told apart names an operator only if the keyword stands in it as a whole word. -/
theorem detached_of_isOperator (h : (Descriptor.ofQualified s parameters result).isOperator = true) :
    Detached operatorKeyword s := by
  obtain ⟨scopes, last, hsplit⟩ := exists_splitScopes s
  rw [ofQualified_of_splitScopes hsplit rfl] at h
  have hoperator : (splitFunction last).2.2 = true := h
  unfold splitFunction at hoperator
  split at hoperator
  · rename_i name rest hname
    exact (detached_of_operatorName? hname).trans (detached_last hsplit)
  · cases hoperator

/-! ## Canonical names -/

theorem angleFree_append {t : List Char} (hs : AngleFree s) (ht : AngleFree t) : AngleFree (s ++ t) :=
  List.forall_mem_append.mpr ⟨hs, ht⟩

theorem angleFree_joinScopes {l : List (List Char)} (h : ∀ s ∈ l, AngleFree s) : AngleFree (joinScopes l) := by
  induction l with
  | nil => exact nofun
  | cons s l ih =>
    obtain ⟨hs, hl⟩ := List.forall_mem_cons.mp h
    by_cases hnil : l = []
    · rwa [hnil, joinScopes_singleton]
    · rw [joinScopes_cons hnil]
      have hseparator : AngleFree separator := by simp [AngleFree, separator]
      exact angleFree_append hs (angleFree_append hseparator (ih hl))

/-- Only the canonical name of an operator has angle brackets. -/
theorem angleFree_canonical (h : d.isOperator = false) : AngleFree d.canonical := by
  have hfunction : d.canonicalFunction = eraseTemplates d.function := by
    unfold Descriptor.canonicalFunction
    rw [h, if_neg Bool.false_ne_true]
  unfold Descriptor.canonical
  rw [hfunction]
  apply angleFree_joinScopes
  intro s hs
  rcases List.mem_append.mp hs with hs | hs
  · obtain ⟨scope, -, rfl⟩ := List.mem_map.mp (List.mem_filter.mp hs).1
    exact angleFree_eraseFrom 0 scope
  · rw [List.mem_singleton.mp hs]
    exact angleFree_eraseFrom 0 d.function

/-! ## Names that are not told apart -/

/-- Without angle brackets none lacks its partner. -/
theorem anglesBalancedFrom_of_angleFree {n : Nat} (hs : AngleFree s) : anglesBalancedFrom b n s = (n == 0) := by
  fun_induction anglesBalancedFrom b n s with
  | case1 => rfl
  | case2 b n c s name rest hname ih =>
    refine ih fun x hx => hs x ?_
    rw [← append_of_operatorName? hname]
    exact List.mem_append_right _ hx
  | case3 b n c s hname hclose => exact absurd hclose.1 (hs c List.mem_cons_self).2
  | case4 b n c s hname hopen ih =>
    obtain ⟨⟨ho, he⟩, hs⟩ := List.forall_mem_cons.mp hs
    have hdepth : angleDepth n c = n := by
      unfold angleDepth
      rw [if_neg ho, if_neg he]
    rw [ih hs, hdepth]

theorem isOperator_ofUnbalanced (head : List Char) (parameters : List (List Char)) :
    (Descriptor.ofUnbalanced head parameters).isOperator = true ↔ operatorKeyword <:+: head := by
  unfold Descriptor.ofUnbalanced
  rw [Option.isSome_iff_ne_none, ne_eq, splitFirst?_eq_none_iff (by decide), not_not]

theorem isDestructor_ofUnbalanced (head : List Char) (parameters : List (List Char)) :
    (Descriptor.ofUnbalanced head parameters).isDestructor = true ↔ '~' ∈ head := List.contains_iff_mem

theorem exclusive_ofUnbalanced : (Descriptor.ofUnbalanced head parameters).Exclusive ↔
    ¬ (operatorKeyword <:+: head ∧ '~' ∈ head) := by
  have hflags : ∀ isOperator isDestructor : Bool,
      [isOperator, false, isDestructor].count true ≤ 1 ↔ ¬ (isOperator = true ∧ isDestructor = true) := by
    decide
  rw [← isOperator_ofUnbalanced head parameters, ← isDestructor_ofUnbalanced head parameters]
  exact hflags _ _

/-- A name that is not told apart keeps its angle brackets if it is taken for an operator. -/
theorem angleFree_canonical_ofUnbalanced (hbalanced : anglesBalanced head = false) :
    AngleFree (Descriptor.ofUnbalanced head parameters).canonical ↔ ¬ operatorKeyword <:+: head := by
  rw [← isOperator_ofUnbalanced head parameters]
  constructor
  · intro hfree hoperator
    have hcanonical : (Descriptor.ofUnbalanced head parameters).canonical = head := by
      have hfunction : (Descriptor.ofUnbalanced head parameters).canonicalFunction = head := if_pos hoperator
      unfold Descriptor.canonical
      rw [hfunction]
      exact joinScopes_singleton head
    rw [hcanonical] at hfree
    have hall : anglesBalanced head = true := anglesBalancedFrom_of_angleFree hfree
    rw [hall] at hbalanced
    cases hbalanced
  · intro hoperator
    exact angleFree_canonical (Bool.eq_false_iff.mpr hoperator)

/-! ## All names -/

/-- What is read before the parameters. -/
def readHead (s : List Char) : List Char := (splitParameters (readText s)).1

/-- That a name is not told apart, since an angle bracket has no partner, while the letters of the keyword of operators
stand somewhere in it. -/
def Blurred (head : List Char) : Prop := anglesBalanced head = false ∧ operatorKeyword <:+: head

instance : Decidable (Blurred head) := inferInstanceAs (Decidable (_ ∧ _))

/-- **Kinds of functions.** Three laws hold of a name that is resolved, whether its brackets close or not, except if it
is blurred: a function is at most one of operator, constructor and destructor, unless the blurred name has a tilde; and
if the keyword of operators does not stand in the name as a whole word, the function is no operator and its canonical
name has no angle bracket, unless the name is blurred. -/
theorem kind_of_resolve {symbol name : String} (hname : demangle symbol = .ok name) (h : resolve symbol = .ok d) :
    (d.Exclusive ↔ ¬ (Blurred (readHead name.toList) ∧ '~' ∈ readHead name.toList)) ∧
    (¬ Detached operatorKeyword (readText name.toList) →
      (d.isOperator = false ↔ ¬ Blurred (readHead name.toList)) ∧
      (AngleFree d.canonical ↔ ¬ Blurred (readHead name.toList))) := by
  have hname' : demangle symbol = .ok (String.ofList name.toList) := by rw [hname, String.ofList_toList]
  obtain ⟨head, parameters, hsplit, hcases⟩ := of_ofText? (ofText?_of_resolve hname' h)
  have hhead : readHead name.toList = head := congrArg Prod.fst hsplit
  have hdetached : Detached head (readText name.toList) := hhead ▸ detached_head _
  rw [hhead]
  rcases hcases with ⟨hbalanced, rfl⟩ | ⟨hbalanced, rfl⟩
  · -- the name is told apart
    have hclear : ¬ Blurred head := fun hblurred => absurd hbalanced (Bool.eq_false_iff.mp hblurred.1)
    refine ⟨iff_of_true (exclusive_ofQualified _) fun hblurred => hclear hblurred.1, fun hkeyword => ?_⟩
    have hoperator :
        (Descriptor.ofQualified (splitResult head).2 parameters (splitResult head).1).isOperator = false := by
      rw [Bool.eq_false_iff]
      intro hoperator
      exact hkeyword ((detached_of_isOperator hoperator).trans ((detached_qualified head).trans hdetached))
    exact ⟨iff_of_true hoperator hclear, iff_of_true (angleFree_canonical hoperator) hclear⟩
  · -- it is not: only the letters of the keyword matter
    have hblurred : Blurred head ↔ operatorKeyword <:+: head := and_iff_right hbalanced
    rw [hblurred]
    refine ⟨exclusive_ofUnbalanced, fun _ => ⟨?_, angleFree_canonical_ofUnbalanced hbalanced⟩⟩
    rw [← isOperator_ofUnbalanced head parameters, Bool.not_eq_true]

namespace Example

/-- The destructor of an instance, the name of which is cut in the template arguments. The letters of the keyword are
the end of an identifier. -/
def cooperator : List Char := "ns::cooperator<int>::~cooperator<int(X)".toList

/-- What is said of the destructor. -/
def cooperatorDescriptor : Descriptor :=
  .ofUnbalanced "ns::cooperator<int>::~cooperator<int".toList ["X".toList]

/-- The keyword does not stand in the name, and still it names an operator and a destructor with angle brackets. -/
theorem kind_cooperator : demangle (String.ofList cooperator) = .ok (String.ofList cooperator) ∧
    resolve (String.ofList cooperator) = .ok cooperatorDescriptor ∧
    ¬ Detached operatorKeyword (readText (String.ofList cooperator).toList) ∧
    Blurred (readHead (String.ofList cooperator).toList) ∧
    ¬ cooperatorDescriptor.Exclusive ∧ cooperatorDescriptor.isOperator = true ∧
    ¬ AngleFree cooperatorDescriptor.canonical := by
  have hmangled : ¬ mangledOpening <+: cooperator := by decide
  have hdemangle := demangle_ofList (List.cons_ne_nil _ _) hmangled
  have hresolve : resolve (String.ofList cooperator) = .ok cooperatorDescriptor :=
    resolve_ofList (by decide +kernel) hmangled
  have hkeyword : ¬ Detached operatorKeyword (readText (String.ofList cooperator).toList) := by decide +kernel
  have hblurred : Blurred (readHead (String.ofList cooperator).toList) := by decide +kernel
  obtain ⟨hexclusive, hlaws⟩ := kind_of_resolve hdemangle hresolve
  obtain ⟨hoperator, hcanonical⟩ := hlaws hkeyword
  refine ⟨hdemangle, hresolve, hkeyword, hblurred, ?_, ?_, ?_⟩
  · rw [hexclusive, not_not]
    exact ⟨hblurred, by decide +kernel⟩
  · by_contra hno
    exact hoperator.mp (Bool.eq_false_iff.mpr hno) hblurred
  · intro hfree
    exact hcanonical.mp hfree hblurred

end Example

end PathSafety.Name
