import PathSafety.Proofs.Concrete.Operand
import PathSafety.Proofs.IR.TypeText

/-!
# Reading conversions

The text of a conversion names what is converted, behind its type, and the type that it is converted to. What is found
in it depends on what is converted alone: another constant expression, a reference, a number or a null pointer. The type
in front does not matter as long as its names do not look like something else. The target is where the last `to` stands.
It is not read unless it is free of parentheses.

Contents:

* `Ty.Parenthesized` — targets that are not read;
* `ExpressionText.castOperand?_typed` — what is converted, with its type;
* `ExpressionText.integer?_toString`, `integer?_concat` — numbers, and what is no number;
* `ExpressionShape.of?_reference`, `of?_nested`, `of?_integer`, `of?_null` — what is found.
-/

namespace PathSafety

open IR Text

namespace IR

/-- That the text of a type holds a parenthesis, as those of functions and of address spaces do. -/
def Ty.Parenthesized (t : Ty) : Prop := '(' ∈ t.text.toList ∨ ')' ∈ t.text.toList

namespace ExpressionText

variable {k v s : List Char} {t target : Ty} {c : Char}

theorem not_prefix_text (target : Ty) : ¬ "to ".toList <+: target.text.toList := by
  obtain ⟨c, s, htext, _, hc⟩ := Ty.exists_text_eq_cons target
  rw [htext]
  exact fun h => hc (List.cons_prefix_cons.mp h).1.symm

/-- **What is converted** is found with its type, however many conversions it is made of itself. -/
theorem castOperand?_typed (hk : k ∈ castKeywords) (hv : ∃ s c, v = s ++ [c] ∧ isBlank c = false)
    (hto : ¬ " to ".toList <:+: target.text.toList) (htarget : ¬ target.Parenthesized) :
    castOperand? (conversion k (t.text.toList ++ ' ' :: v) target.text.toList) = some (t.text.toList ++ ' ' :: v) := by
  obtain ⟨hopen, hclose⟩ := not_or.mp htarget
  refine castOperand?_conversion hk (trim_eq_self ?_ ?_) hto (not_prefix_text target) hopen hclose
  · intro c hc
    obtain ⟨d, s, htext, hd, _⟩ := Ty.exists_text_eq_cons t
    rw [htext] at hc
    exact Option.some.inj hc ▸ hd
  · intro c hc
    obtain ⟨s, d, rfl, hd⟩ := hv
    rw [← List.cons_append, ← List.append_assoc, List.getLast?_append] at hc
    exact Option.some.inj hc ▸ hd

/-- Nothing is around a conversion that would be taken away. -/
theorem trim_conversion (hk : k ∈ castKeywords) (operand body : List Char) :
    trim (conversion k operand body) = conversion k operand body := by
  refine trim_eq_self ?_ ?_
  · refine of_mem_castKeywords hk ?_ ?_ ?_ ?_
    all_goals
      intro c hc
      obtain rfl := Option.some.inj hc
      decide
  · intro c hc
    unfold conversion at hc
    simp only [← List.append_assoc, List.getLast?_append] at hc
    obtain rfl := Option.some.inj hc
    decide

/-! ## Numbers -/

/-- An integer is read from its type and how it is written, whatever its width and its sign. -/
theorem integer?_toString (w : Nat) (n : Int) :
    integer? ((Ty.int w).text.toList ++ ' ' :: (toString n).toList) = some (w, n) := by
  have hblank : ∀ c ∈ (' ' :: (toString n).toList).head?, digitValue? c = none := by
    rintro c hc
    obtain rfl := Option.some.inj hc
    decide
  have htrim : trimLeft (toString n).toList = (toString n).toList := by
    have := trimLeft_toString n (t := [])
    rwa [List.append_nil] at this
  have hread : int? (toString n).toList = some (n, []) := by
    have := int?_toString n (t := []) nofun
    rwa [List.append_nil] at this
  rw [Ty.toList_text_int]
  show (nat? (Nat.toDigits 10 w ++ ' ' :: (toString n).toList) >>= _) = _
  rw [nat?_toDigits w hblank, Option.bind_eq_bind, Option.bind_some]
  show (int? (trimLeft (toString n).toList) >>= _) = _
  rw [htrim, hread]
  rfl

theorem blanks?_concat (hc : isBlank c = false) (h : blanks? (s ++ [c]) = some v) : ∃ r, v = r ++ [c] := by
  have htrim : ∀ u, ∃ r, trimLeft (u ++ [c]) = r ++ [c] := fun u => by
    unfold trimLeft
    rw [List.dropWhile_append]
    split
    · exact ⟨[], trimLeft_cons hc⟩
    · exact ⟨_, rfl⟩
  cases s with
  | nil =>
    rw [List.nil_append, blanks?, hc] at h
    cases h
  | cons d s =>
    rw [List.cons_append, blanks?] at h
    split at h
    · obtain ⟨r, hr⟩ := htrim s
      exact ⟨r, Option.some.inj h ▸ hr⟩
    · cases h

/-- What does not end in a digit is no integer. -/
theorem integer?_concat (hdigit : digitValue? c = none) (hblank : isBlank c = false) (hi : c ≠ 'i') (s : List Char) :
    integer? (s ++ [c]) = none := by
  refine Option.eq_none_iff_forall_ne_some.mpr fun n h => ?_
  obtain ⟨u, hu, h⟩ := Option.bind_eq_some_iff.mp h
  obtain ⟨⟨width, x⟩, hx, h⟩ := Option.bind_eq_some_iff.mp h
  obtain ⟨y, hy, h⟩ := Option.bind_eq_some_iff.mp h
  obtain ⟨⟨j, rest⟩, hj, h⟩ := Option.bind_eq_some_iff.mp h
  -- each reader leaves the last character to the next
  have hi : ∃ r, u = r ++ [c] := by
    have hprefix : s ++ [c] = 'i' :: u := dropPrefix?_eq_some_iff.mp hu
    cases s with
    | nil => exact absurd (List.cons.inj hprefix).1 hi
    | cons d s => exact ⟨s, (List.cons.inj hprefix).2.symm⟩
  obtain ⟨r, rfl⟩ := hi
  obtain ⟨r, rfl⟩ := nat?_concat hdigit hx
  obtain ⟨r, rfl⟩ := blanks?_concat hblank hy
  cases rest with
  | nil => exact int?_concat hdigit hj rfl
  | cons d rest => cases h

end ExpressionText

end IR

namespace ExpressionShape

open ExpressionText

variable {p : Project} {k v w operand body : List Char} {t target : Ty} {n : String} {i : Nat} {g : GlobalValue}

/-! ## What is found -/

theorem of?_conversion (hk : k ∈ castKeywords) :
    of? p (conversion k operand body) = ofConversion? p (conversion k operand body) := by
  unfold of?
  rw [addressOperands?_conversion hk]
  rfl

section Read

variable (hk : k ∈ castKeywords) (ht : t.Plain) (hto : ¬ " to ".toList <:+: target.text.toList)
  (htarget : ¬ target.Parenthesized)
include hk ht hto htarget

/-- Another constant expression, at a width if it ends in one. -/
theorem of?_nested (hv : ∃ s c, v = s ++ [c] ∧ isBlank c = false) (hw : nestedAt? v = some w) :
    of? p (conversion k (t.text.toList ++ ' ' :: v) target.text.toList) =
      some (.nested v (if w = "ptrtoint".toList then targetWidth? v else none)) := by
  rw [of?_conversion hk]
  unfold ofConversion?
  rw [castOperand?_typed hk hv hto htarget]
  simp only [Option.bind_eq_bind, Option.bind_some, nested?_typed (Ty.inert_text t ht).silent hw]

/-- A global value. -/
theorem of?_reference (hname : nested? false n.toList = none) (hproject : p.global? n = some (i, g)) :
    of? p (conversion k (t.text.toList ++ ' ' :: '@' :: quoted n.toList) target.text.toList) =
      some (.reference i n) := by
  have htype := Ty.inert_text t ht
  -- No keyword opens anywhere in the operand, so it is not read as a nested expression.
  have hnested : nested? false (t.text.toList ++ ' ' :: '@' :: quoted n.toList) = none := by
    have hmark : Silent (' ' :: '@' :: quoted n.toList) := .cons (by decide) (.cons (by decide) (silent_quoted hname))
    have hsilent := htype.silent.append hmark (apart_cons (by decide)) false [] apart_nil
    rwa [List.append_nil] at hsilent
  have hreference : onlyReference? (t.text.toList ++ ' ' :: '@' :: quoted n.toList) = some (n, []) := by
    have hmark : '@' ∉ t.text.toList ++ [' '] := by
      rw [List.mem_append, not_or]
      exact ⟨htype.unmarked, by decide⟩
    have hread := onlyReference?_quoted (t := []) hmark List.not_mem_nil n.toList
    rwa [List.append_nil, String.ofList_toList, List.append_assoc] at hread
  have hv : ∃ s c, '@' :: quoted n.toList = s ++ [c] ∧ isBlank c = false :=
    ⟨'@' :: '"' :: n.toList.flatMap escape, '"', rfl, by decide⟩
  rw [of?_conversion hk]
  unfold ofConversion?
  rw [castOperand?_typed hk hv hto htarget]
  simp only [Option.bind_eq_bind, Option.bind_some, hnested, hreference, hproject]

/-- What holds neither of them says what it says by itself. -/
theorem of?_literal (hv : ∃ s c, v = s ++ [c] ∧ isBlank c = false) (hinert : Inert v) :
    of? p (conversion k (t.text.toList ++ ' ' :: v) target.text.toList) = ofLiteral? (t.text.toList ++ ' ' :: v) := by
  have hoperand : Inert (t.text.toList ++ ' ' :: v) :=
    (Ty.inert_text t ht).append (.cons (by decide) (by decide) hinert) (apart_cons (by decide))
  have hnested : nested? false (t.text.toList ++ ' ' :: v) = none := by
    have hsilent := hoperand.silent false [] apart_nil
    rwa [List.append_nil] at hsilent
  have hreference : onlyReference? (t.text.toList ++ ' ' :: v) = none := by
    unfold onlyReference?
    rw [references_eq_nil hoperand.unmarked]
  rw [of?_conversion hk]
  unfold ofConversion?
  rw [castOperand?_typed hk hv hto htarget]
  simp only [Option.bind_eq_bind, Option.bind_some, hnested, hreference]

/-- A null pointer. -/
theorem of?_null : of? p (conversion k (t.text.toList ++ ' ' :: "null".toList) target.text.toList) = some .null := by
  have hnumber : integer? (t.text.toList ++ " null".toList) = none := by
    have := integer?_concat (c := 'l') (by decide) (by decide) (by decide) (t.text.toList ++ " nul".toList)
    rwa [List.append_assoc] at this
  have hnull : isNull (t.text.toList ++ " null".toList) = true := by
    unfold isNull
    rw [dropSuffix?_append]
    rfl
  refine (of?_literal hk ht hto htarget ⟨"nul".toList, 'l', rfl, by decide⟩
    (inert_word (w := "null".toList) (by decide) (by decide))).trans ?_
  show ofLiteral? (t.text.toList ++ " null".toList) = _
  unfold ofLiteral?
  rw [hnumber, hnull]
  rfl

end Read

/-- A number, with the width of its type. -/
theorem of?_integer (hk : k ∈ castKeywords) (hto : ¬ " to ".toList <:+: target.text.toList)
    (htarget : ¬ target.Parenthesized) (b : Nat) (j : Int) :
    of? p (conversion k ((Ty.int b).text.toList ++ ' ' :: (toString j).toList) target.text.toList) =
      some (.integer b j) := by
  obtain ⟨s, c, hlast, hdigit⟩ := exists_toString_eq_concat j
  have hplain : (Ty.int b).Plain := by
    unfold Ty.Plain
    trivial
  rw [of?_literal hk hplain hto htarget ⟨s, c, hlast, isBlank_of_isDigit hdigit⟩ (inert_toString j)]
  unfold ofLiteral?
  rw [integer?_toString]

end ExpressionShape

end PathSafety
