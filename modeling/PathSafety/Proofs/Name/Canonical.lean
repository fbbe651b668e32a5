import PathSafety.Proofs.Name.Descriptor

/-!
# Canonical names

Hooks are registered under the canonical name of a template and have to be found for each of its instances, of
whichever library build. The canonical name keeps the scopes that show in sources and the function, and nothing
else of a printed name.

Contents:

* `Printed.sourceScopes` — the scopes that show in sources;
* `canonical_descriptor` — the canonical name of a printed one;
* `canonical_of_instances` — instances of a template share their canonical name.
-/

namespace PathSafety.Name

open Text

/-- The names of the scopes that show in sources. -/
def Printed.sourceScopes (n : Printed) : List (List Char) :=
  (n.scopes.map Scope.name).filter fun scope => !inlineScopes.contains scope

/-- Without its template arguments, a scope is its name. -/
theorem Scope.eraseTemplates_text (x : Scope) : eraseTemplates x.text = x.name := by
  cases x with
  | anonymous => rfl
  | named name args =>
    cases args with
    | none =>
      have htext : (named name none).text = name.text := List.append_nil _
      rw [htext]
      exact eraseTemplates_chars name.isBracket_chars
    | some items =>
      exact eraseTemplates_append name.isBracket_chars (nested_commaList (isItem_texts items)).closes_angles

/-- The canonical name of a printed one: the scopes that show in sources, and the function. -/
theorem canonical_descriptor (n : Printed) :
    n.descriptor.canonical = joinScopes (n.sourceScopes ++ [n.callee.name]) := by
  have hscopes : (n.scopes.map Scope.text).map eraseTemplates = n.scopes.map Scope.name := by
    rw [List.map_map]
    exact List.map_congr_left fun scope _ => scope.eraseTemplates_text
  have hfunction : n.descriptor.canonicalFunction = n.callee.name := by
    unfold Descriptor.canonicalFunction Printed.descriptor
    dsimp only
    cases n.callee with
    | operator => rfl
    | plain destructor name args =>
      refine eraseTemplates_chars fun c hc => ?_
      -- No character of a plain name is an angle bracket, so there is nothing to erase.
      rcases List.mem_append.mp hc with hc | hc
      · cases destructor with
        | false => cases hc
        | true =>
          obtain rfl := List.mem_singleton.mp hc
          rfl
      · exact name.isBracket_chars c hc
  unfold Descriptor.canonical Descriptor.canonicalScopes
  rw [hfunction]
  show joinScopes (((n.scopes.map Scope.text).map eraseTemplates).filter _ ++ _) = _
  rw [hscopes]
  rfl

/-- **Instances of a template** have one canonical name. Two names with the same scopes in sources and the same
function may differ in everything else: template arguments, scopes of library versions, tags, the type of the
result, parameters and what qualifies the function. Operators that convert to a type are left out, and with
them `operator co_await`, which is read as if it did. -/
theorem canonical_of_instances {n₁ n₂ : Printed} {t₁ t₂ : List Char} (h₁ : Tagged t₁ n₁.text)
    (h₂ : Tagged t₂ n₂.text) (hmangled₁ : ¬ mangledOpening <+: t₁) (hmangled₂ : ¬ mangledOpening <+: t₂)
    (hscopes : n₁.sourceScopes = n₂.sourceScopes) (hname : n₁.callee.name = n₂.callee.name) :
    (resolve (String.ofList t₁)).map Descriptor.canonical =
      .ok (joinScopes (n₁.sourceScopes ++ [n₁.callee.name])) ∧
    (resolve (String.ofList t₂)).map Descriptor.canonical =
      (resolve (String.ofList t₁)).map Descriptor.canonical := by
  have hcanonical : ∀ {n : Printed} {t : List Char}, Tagged t n.text → ¬ mangledOpening <+: t →
      (resolve (String.ofList t)).map Descriptor.canonical =
        .ok (joinScopes (n.sourceScopes ++ [n.callee.name])) := by
    intro n t h hmangled
    rw [resolve_of_tagged h hmangled]
    exact congrArg Except.ok (canonical_descriptor n)
  refine ⟨hcanonical h₁ hmangled₁, ?_⟩
  rw [hcanonical h₁ hmangled₁, hcanonical h₂ hmangled₂, hscopes, hname]

namespace Example

/-- The instance of an operator in one library build. -/
def shiftInt : Printed where
  result := none
  scopes := [.named list (some [int])]
  callee := .operator (.symbol "<<".toList (by decide)) 0 (some [int]) (by decide)
  signature := none

/-- The instance of the operator in another one. -/
def shift : Printed where
  result := none
  scopes := [.named version none, .named list none]
  callee := .operator (.symbol "<<".toList (by decide)) 0 none (by decide)
  signature := some ⟨[int], [], untagged_nil, by decide⟩

/-- A tag is put behind the operator. -/
def shiftTagged : List Char :=
  "__1::List::operator<<".toList ++ (tagOpening ++ ("v1".toList ++ ']' :: "(int)".toList))

theorem tagged_shift : Tagged shiftTagged shift.text := by
  have hbefore : ∀ (s : List Char) {t u : List Char}, Tagged t u → Tagged (s ++ t) (s ++ u) := by
    intro s
    induction s with
    | nil => exact fun h => h
    | cons c s ih => exact fun h => .char (ih h)
  have htext : shift.text = "__1::List::operator<<".toList ++ "(int)".toList := rfl
  rw [htext]
  exact hbefore _ (.tag (by decide) (Tagged.refl "(int)".toList))

/-- Both instances have the name of the operator in the list. -/
theorem canonical_shift : shiftInt.text = "List<int>::operator<<<int>".toList ∧ Tagged shiftTagged shift.text ∧
    (resolve (String.ofList shiftInt.text)).map Descriptor.canonical = .ok "List::operator<<".toList ∧
    (resolve (String.ofList shiftTagged)).map Descriptor.canonical =
      (resolve (String.ofList shiftInt.text)).map Descriptor.canonical := by
  have hmangled₁ : ¬ mangledOpening <+: shiftInt.text := fun h => by
    have hfirst := startsWith_iff.mpr h
    cases hfirst
  have hmangled₂ : ¬ mangledOpening <+: shiftTagged := fun h => by
    have hfirst := startsWith_iff.mpr h
    cases hfirst
  exact ⟨rfl, tagged_shift,
    canonical_of_instances (Tagged.refl _) tagged_shift hmangled₁ hmangled₂ rfl rfl⟩

end Example

end PathSafety.Name
