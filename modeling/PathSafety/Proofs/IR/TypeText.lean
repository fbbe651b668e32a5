import PathSafety.Proofs.IR.ExpressionText

/-!
# The text of types

Types are written with punctuation and words of their own; only the names of identified structs can hold anything. So
the readers of constant expressions find nothing in the text of a type unless they find it in such a name.

Contents:

* `Inert` — texts in which neither nested expressions nor references are found;
* `Ty.Plain`, `Ty.inert_text` — types are such by the names in them;
* `Ty.exists_text_eq_cons` — how types begin.
-/

namespace PathSafety.IR

open PathSafety.Text ExpressionText

namespace ExpressionText

variable {c : Char} {s t w : List Char}

/-- That neither nested expressions nor references are found in a text. -/
structure Inert (s : List Char) : Prop where
  silent : Silent s
  unmarked : '@' ∉ s

theorem inert_nil : Inert [] := ⟨silent_nil, List.not_mem_nil⟩

theorem Inert.append (hs : Inert s) (ht : Inert t) (h : Apart t) : Inert (s ++ t) where
  silent := hs.silent.append ht.silent h
  unmarked hmem := (List.mem_append.mp hmem).elim hs.unmarked ht.unmarked

theorem Inert.cons (h : isWord c = false) (hc : c ≠ '@') (hs : Inert s) : Inert (c :: s) where
  silent := hs.silent.cons h
  unmarked hmem := (List.mem_cons.mp hmem).elim (fun h => hc h.symm) hs.unmarked

theorem not_mem_of_isWord (hw : ∀ c ∈ w, isWord c = true) : '@' ∉ w := fun h => by
  have := hw _ h
  revert this
  decide

theorem inert_word (hw : w.all isWord = true) (hno : w ∉ keywords) : Inert w :=
  ⟨silent_word (List.all_eq_true.mp hw) hno, not_mem_of_isWord (List.all_eq_true.mp hw)⟩

theorem inert_append_toDigits (hw : w.all isWord = true) (n : Nat) : Inert (w ++ Nat.toDigits 10 n) where
  silent := silent_append_toDigits (List.all_eq_true.mp hw) n
  unmarked := not_mem_of_isWord fun c hc => (List.mem_append.mp hc).elim (List.all_eq_true.mp hw c) fun hc =>
    isWord_of_isDigit (Nat.isDigit_of_mem_toDigits (by decide) (by decide) hc)

theorem inert_toDigits (n : Nat) : Inert (Nat.toDigits 10 n) := inert_append_toDigits (w := []) rfl n

/-- Punctuation at the end of a text. -/
theorem inert_append_singleton (h : isWord c = false) (hc : c ≠ '@') (hs : Inert s) : Inert (s ++ [c]) :=
  hs.append (.cons h hc inert_nil) (apart_cons h)

/-- That a name can stand between quotes without anything being found in it. -/
def PlainName (n : String) : Prop := '@' ∉ n.toList ∧ nested? false n.toList = none

theorem inert_quoteName {n : String} (h : PlainName n) : Inert (quoteName n).toList where
  silent := by
    rw [toList_quoteName]
    exact silent_quoted h.2
  unmarked hmem := by
    rw [toList_quoteName] at hmem
    have hescape : '@' ∉ n.toList.flatMap escape := by
      intro hmem
      obtain ⟨c, hc, hmem⟩ := List.mem_flatMap.mp hmem
      unfold escape at hmem
      split at hmem
      · revert hmem
        decide
      · split at hmem
        · revert hmem
          decide
        · exact h.1 (List.mem_singleton.mp hmem ▸ hc)
    simp [quoted, hescape] at hmem

theorem inert_commas {ss : List (List Char)} (hss : ∀ s ∈ ss, Inert s) : Inert (", ".toList.intercalate ss) := by
  induction ss with
  | nil => exact inert_nil
  | cons s ss ih =>
    obtain ⟨hs, hss⟩ := List.forall_mem_cons.mp hss
    cases ss with
    | nil => rwa [List.intercalate_singleton]
    | cons u ss =>
      rw [List.intercalate_cons_cons, List.append_assoc]
      have hrest : Inert (", ".toList ++ ", ".toList.intercalate (u :: ss)) :=
        .cons (by decide) (by decide) (.cons (by decide) (by decide) (ih hss))
      exact hs.append hrest (apart_cons (by decide))

theorem inert_toString (n : Int) : Inert (toString n).toList := by
  rw [toList_toString_int]
  split
  · exact .cons (by decide) (by decide) (inert_toDigits _)
  · exact inert_toDigits _

/-- No reference begins in an index. -/
theorem unmarked_indexText (i : Nat × Int) : '@' ∉ indexText i := by
  unfold indexText
  rw [List.mem_append, List.mem_append, not_or, not_or]
  exact ⟨by decide, (inert_toDigits i.1).unmarked,
    fun h => (List.mem_cons.mp h).elim (by decide) (inert_toString i.2).unmarked⟩

end ExpressionText

namespace Ty

mutual

/-- That nothing is found in the names of the identified structs in a type. -/
def Plain : Ty → Prop
  | int _ | void | half | float | double | label | metadata | ptr _ => True
  | ptrTo t _ | array _ t | vector _ t => t.Plain
  | struct ts _ => PlainAll ts
  | named n => PlainName n
  | fn ret params _ => ret.Plain ∧ PlainAll params

/-- That types of a list are such. -/
def PlainAll : List Ty → Prop
  | [] => True
  | t :: ts => t.Plain ∧ PlainAll ts

end

/-! ## How types are written -/

theorem toList_text_int (n : Nat) : (text (.int n)).toList = 'i' :: Nat.toDigits 10 n := by
  rw [text]
  show ("i" ++ n.repr).toList = _
  rw [String.toList_append, Nat.toList_repr]
  rfl

theorem toList_text_array (n : Nat) (t : Ty) :
    (text (.array n t)).toList = '[' :: (Nat.toDigits 10 n ++ (" x ".toList ++ (t.text.toList ++ [']']))) := by
  rw [text]
  show ("[" ++ n.repr ++ " x " ++ t.text ++ "]").toList = _
  simp only [String.toList_append, Nat.toList_repr, List.append_assoc]
  rfl

theorem toList_text_vector (n : Nat) (t : Ty) :
    (text (.vector n t)).toList = '<' :: (Nat.toDigits 10 n ++ (" x ".toList ++ (t.text.toList ++ ['>']))) := by
  rw [text]
  show ("<" ++ n.repr ++ " x " ++ t.text ++ ">").toList = _
  simp only [String.toList_append, Nat.toList_repr, List.append_assoc]
  rfl

theorem toList_text_struct (ts : List Ty) : (text (.struct ts false)).toList =
    '\x7b' :: (", ".toList.intercalate ((texts ts).map String.toList) ++ ['\x7d']) := by
  rw [text]
  show ("\x7b" ++ ", ".intercalate (texts ts) ++ "\x7d").toList = _
  simp only [String.toList_append, String.toList_intercalate]
  rfl

/-- A packed struct is written like one that is not, between angle brackets. -/
theorem toList_text_packed (ts : List Ty) :
    (text (.struct ts true)).toList = '<' :: ((text (.struct ts false)).toList ++ ['>']) := by
  rw [text, text]
  simp only [if_true, Bool.false_eq_true, if_false]
  rw [String.toList_append, String.toList_append]
  rfl

theorem toList_text_fn (ret : Ty) (params : List Ty) (vararg : Bool) : (text (.fn ret params vararg)).toList =
    ret.text.toList ++ (' ' :: '(' :: (", ".toList.intercalate
      ((texts params ++ if vararg then ["..."] else []).map String.toList) ++ [')'])) := by
  rw [text]
  simp only [String.toList_append, String.toList_intercalate, List.append_assoc]
  rfl

/-! ## Nothing is found in types -/

theorem inert_spaceSuffix (space : Nat) : Inert (spaceSuffix space).toList ∧ Apart (spaceSuffix space).toList := by
  unfold spaceSuffix
  split
  · exact ⟨inert_nil, apart_nil⟩
  · have htext : (s!" addrspace({space})").toList =
        ' ' :: ("addrspace".toList ++ ('(' :: (Nat.toDigits 10 space ++ [')']))) := by
      simp
      rfl
    rw [htext]
    refine ⟨.cons (by decide) (by decide) (.append ?_ ?_ (apart_cons (by decide))), apart_cons (by decide)⟩
    · exact inert_word (by decide) (by decide)
    · exact .cons (by decide) (by decide) (inert_append_singleton (by decide) (by decide) (inert_toDigits space))

/-- The text of a sequence of objects, between brackets. -/
theorem inert_sequence {l r : Char} (hl : isWord l = false ∧ l ≠ '@') (hr : isWord r = false ∧ r ≠ '@') (n : Nat)
    {s : List Char} (hs : Inert s) : Inert (l :: (Nat.toDigits 10 n ++ (" x ".toList ++ (s ++ [r])))) := by
  have hx : Inert (['x'] ++ (' ' :: (s ++ [r]))) :=
    (inert_word (by decide) (by decide)).append
      (.cons (by decide) (by decide) (inert_append_singleton hr.1 hr.2 hs)) (apart_cons (by decide))
  refine .cons hl.1 hl.2 ((inert_toDigits n).append ?_ (apart_cons (by decide)))
  exact .cons (by decide) (by decide) hx

mutual

/-- **Nothing is found in a type** in whose names nothing is found. -/
theorem inert_text (t : Ty) (ht : t.Plain) : Inert t.text.toList := by
  match t with
  | int n =>
    rw [toList_text_int]
    exact inert_append_toDigits (w := ['i']) (by decide) n
  | void | half | float | double | label | metadata => exact inert_word (by decide) (by decide)
  | ptr space =>
    rw [text, String.toList_append]
    exact (inert_word (by decide) (by decide)).append (inert_spaceSuffix space).1 (inert_spaceSuffix space).2
  | ptrTo t space =>
    by_cases hptr : ∃ k, t = .ptr k
    · obtain ⟨k, rfl⟩ := hptr
      rw [text, String.toList_append]
      exact (inert_word (by decide) (by decide)).append (inert_spaceSuffix space).1 (inert_spaceSuffix space).2
    -- A typed pointer is printed with a star behind its pointee; the star ends whatever word stands
    -- before it.
    · rw [text.eq_10 _ _ fun k hk => hptr ⟨k, hk⟩, String.toList_append, String.toList_append, List.append_assoc]
      obtain ⟨hsuffix, hapart⟩ := inert_spaceSuffix space
      have hstar : Apart ['*'] := apart_cons (by decide)
      have ht : Inert t.text.toList := inert_text t (by unfold Plain at ht; exact ht)
      exact ht.append (hsuffix.append (.cons (by decide) (by decide) inert_nil) hstar) (hapart.append hstar)
  | array n t =>
    rw [toList_text_array]
    exact inert_sequence (by decide) (by decide) n (inert_text t (by unfold Plain at ht; exact ht))
  | vector n t =>
    rw [toList_text_vector]
    exact inert_sequence (by decide) (by decide) n (inert_text t (by unfold Plain at ht; exact ht))
  | struct ts packed =>
    unfold Plain at ht
    have hbraces : Inert (text (.struct ts false)).toList := by
      rw [toList_text_struct]
      refine .cons (by decide) (by decide) (inert_append_singleton (by decide) (by decide) ?_)
      exact inert_commas (inert_texts ts ht)
    cases packed with
    | false => exact hbraces
    | true =>
      rw [toList_text_packed]
      exact .cons (by decide) (by decide) (inert_append_singleton (by decide) (by decide) hbraces)
  | named n =>
    unfold Plain at ht
    rw [text, String.toList_append]
    exact .cons (by decide) (by decide) (inert_quoteName ht)
  | fn ret params vararg =>
    unfold Plain at ht
    obtain ⟨hret, hparams⟩ := ht
    rw [toList_text_fn]
    have hdots : ∀ s ∈ (if vararg then ["..."] else []).map String.toList, Inert s := by
      cases vararg with
      | false => exact nofun
      | true =>
        rintro s hs
        obtain rfl := List.mem_singleton.mp hs
        exact .cons (by decide) (by decide) (.cons (by decide) (by decide) (.cons (by decide) (by decide) inert_nil))
    refine (inert_text ret hret).append ?_ (apart_cons (by decide))
    refine .cons (by decide) (by decide) (.cons (by decide) (by decide)
      (inert_append_singleton (by decide) (by decide) (inert_commas fun s hs => ?_)))
    rw [List.map_append] at hs
    exact (List.mem_append.mp hs).elim (inert_texts params hparams s) (hdots s)

theorem inert_texts (ts : List Ty) (hts : PlainAll ts) : ∀ s ∈ (texts ts).map String.toList, Inert s := by
  match ts with
  | [] => exact nofun
  | t :: ts =>
    unfold PlainAll at hts
    unfold texts
    rw [List.map_cons, List.forall_mem_cons]
    exact ⟨inert_text t hts.1, inert_texts ts hts.2⟩

end

/-- Types begin with a bracket, a sign or a letter, and not with that of `to`. -/
theorem exists_text_eq_cons (t : Ty) : ∃ c s, t.text.toList = c :: s ∧ isBlank c = false ∧ c ≠ 't' := by
  match t with
  | int n => exact ⟨'i', _, toList_text_int n, by decide⟩
  | void => exact ⟨'v', _, rfl, by decide⟩
  | half => exact ⟨'h', _, rfl, by decide⟩
  | float => exact ⟨'f', _, rfl, by decide⟩
  | double => exact ⟨'d', _, rfl, by decide⟩
  | label => exact ⟨'l', _, rfl, by decide⟩
  | metadata => exact ⟨'m', _, rfl, by decide⟩
  | ptr space =>
    rw [text, String.toList_append]
    exact ⟨'p', _, rfl, by decide⟩
  | ptrTo t space =>
    by_cases hptr : ∃ k, t = .ptr k
    · obtain ⟨k, rfl⟩ := hptr
      rw [text, String.toList_append]
      exact ⟨'p', _, rfl, by decide⟩
    -- The text opens with that of the pointee.
    · obtain ⟨c, s, hs, hc⟩ := exists_text_eq_cons t
      rw [text.eq_10 _ _ fun k hk => hptr ⟨k, hk⟩, String.toList_append, String.toList_append, hs]
      exact ⟨c, _, rfl, hc⟩
  | array n t => exact ⟨'[', _, toList_text_array n t, by decide⟩
  | vector n t => exact ⟨'<', _, toList_text_vector n t, by decide⟩
  | struct ts false => exact ⟨'\x7b', _, toList_text_struct ts, by decide⟩
  | struct ts true => exact ⟨'<', _, toList_text_packed ts, by decide⟩
  | named n =>
    rw [text, String.toList_append]
    exact ⟨'%', _, rfl, by decide⟩
  | fn ret params vararg =>
    obtain ⟨c, s, hs, hc⟩ := exists_text_eq_cons ret
    rw [toList_text_fn, hs]
    exact ⟨c, _, rfl, hc⟩

end Ty

end PathSafety.IR
