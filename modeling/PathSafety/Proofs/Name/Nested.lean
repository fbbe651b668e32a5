import Mathlib.Data.Bool.AllAny
import PathSafety.Proofs.Name.Erasure
import PathSafety.Proofs.Text.Scan

/-!
# Texts with nested brackets

Names are scanned by functions that count brackets, each of them in its own way: of both kinds together, of
one kind only, forwards or backwards. In a text whose brackets nest properly all these counts return to where
they began, so every scanner passes over it as a whole.

Contents:

* `Nested` — texts whose brackets nest properly, with a condition on what stands outside of them;
* `Nested.closes_angles`, `Nested.closes_parens` — they close the brackets of either kind;
* `splitCommas_append` — commas are looked for behind such a text;
* `commaList`, `splitList_commaList`, `splitList_eq_singleton` — lists with commas;
* `splitTemplate_append`, `eraseTemplates_append` — template arguments at the end.
-/

namespace PathSafety.Name

open Text

/-- Whether a character is a bracket. -/
def isBracket (c : Char) : Bool := c == '<' || c == '>' || c == '(' || c == ')'

/-- Texts whose brackets nest properly. `ok` is what may stand outside of all brackets, the outermost opening
ones included. -/
inductive Nested : (Char → Prop) → List Char → Prop
  | nil {ok : Char → Prop} : Nested ok []
  | char {ok : Char → Prop} {c : Char} {s : List Char} (hc : isBracket c = false) (hok : ok c)
    (r : Nested ok s) : Nested ok (c :: s)
  | angles {ok : Char → Prop} {s t : List Char} (hok : ok '<') (inner : Nested (fun _ => True) s)
    (r : Nested ok t) : Nested ok ('<' :: (s ++ '>' :: t))
  | parens {ok : Char → Prop} {s t : List Char} (hok : ok '(') (inner : Nested (fun _ => True) s)
    (r : Nested ok t) : Nested ok ('(' :: (s ++ ')' :: t))

variable {ok : Char → Prop} {c : Char} {s t r : List Char}

theorem ne_of_isBracket (hc : isBracket c = false) : c ≠ '<' ∧ c ≠ '>' ∧ c ≠ '(' ∧ c ≠ ')' := by
  unfold isBracket at hc
  simp only [Bool.or_eq_false_iff, beq_eq_false_iff_ne] at hc
  exact ⟨hc.1.1.1, hc.1.1.2, hc.1.2, hc.2⟩

namespace Nested

theorem append (hs : Nested ok s) (ht : Nested ok t) : Nested ok (s ++ t) := by
  induction hs with
  | nil => exact ht
  | char hc hok _ ih => exact .char hc hok (ih ht)
  | angles hok inner _ _ ih =>
    rw [List.cons_append, List.append_assoc, List.cons_append]
    exact .angles hok inner (ih ht)
  | parens hok inner _ _ ih =>
    rw [List.cons_append, List.append_assoc, List.cons_append]
    exact .parens hok inner (ih ht)

theorem mono {ok' : Char → Prop} (h : Nested ok s) (hok : ∀ c, ok c → ok' c) : Nested ok' s := by
  induction h with
  | nil => exact .nil
  | char hc hc' _ ih => exact .char hc (hok _ hc') (ih hok)
  | angles hc' inner _ _ ih => exact .angles (hok _ hc') inner (ih hok)
  | parens hc' inner _ _ ih => exact .parens (hok _ hc') inner (ih hok)

/-- Texts without brackets. -/
theorem of_chars (h : ∀ c ∈ s, isBracket c = false ∧ ok c) : Nested ok s := by
  induction s with
  | nil => exact .nil
  | cons c s ih =>
    obtain ⟨hc, hs⟩ := List.forall_mem_cons.mp h
    exact .char hc.1 hc.2 (ih hs)

theorem closes_angles (h : Nested ok s) : closes '<' '>' 0 s = true := by
  induction h with
  | nil => rfl
  | char hc _ _ ih =>
    obtain ⟨h₁, h₂, _, _⟩ := ne_of_isBracket hc
    rwa [closes_other h₁ h₂]
  | angles _ _ _ ihs iht =>
    rw [closes_open, closes_append (k := 1) ihs, closes_close (by decide)]
    exact iht
  | parens _ _ _ ihs iht =>
    rw [closes_other (by decide) (by decide), closes_append (k := 0) ihs, closes_other (by decide) (by decide)]
    exact iht

theorem closes_parens (h : Nested ok s) : closes '(' ')' 0 s = true := by
  induction h with
  | nil => rfl
  | char hc _ _ ih =>
    obtain ⟨_, _, h₃, h₄⟩ := ne_of_isBracket hc
    rwa [closes_other h₃ h₄]
  | angles _ _ _ ihs iht =>
    rw [closes_other (by decide) (by decide), closes_append (k := 0) ihs, closes_other (by decide) (by decide)]
    exact iht
  | parens _ _ _ ihs iht =>
    rw [closes_open, closes_append (k := 1) ihs, closes_close (by decide)]
    exact iht

end Nested

/-- White space at the ends of a text closes nothing. -/
theorem closes_trim {o e : Char} {d : Nat} (ho : isBlank o = false) (he : isBlank e = false) :
    closes o e d (trim s) = closes o e d s := by
  have hblank : ∀ {c}, isBlank c = true → c ≠ o ∧ c ≠ e := by
    intro c hc
    constructor
    · rintro rfl
      rw [ho] at hc
      cases hc
    · rintro rfl
      rw [he] at hc
      cases hc
  obtain ⟨l, r, hs, hl, hr⟩ := exists_eq_trim s
  conv => rhs; rw [hs]
  rw [closes_append_of_forall fun c hc => hblank (hl c hc), closes_append_of_forall_right fun c hc => hblank (hr c hc)]

/-! ## Commas -/

theorem splitCommas_ne_nil (d : Nat) (s : List Char) : splitCommas d s ≠ [] := by
  cases s with
  | nil => exact List.cons_ne_nil _ _
  | cons c s =>
    unfold splitCommas
    split
    · exact List.cons_ne_nil _ _
    · split <;> exact List.cons_ne_nil _ _

theorem splitCommas_cons {d : Nat} (h : d = 0 → c ≠ ',') :
    splitCommas d (c :: s) = (splitCommas (bracketDepth d c) s).modifyHead (c :: ·) := by
  conv => lhs; unfold splitCommas
  rw [if_neg fun hcomma => h hcomma.2 hcomma.1]
  split
  · rename_i part parts heq
    rw [heq]
    rfl
  · rename_i heq
    exact absurd heq (splitCommas_ne_nil _ s)

theorem modifyHead_nil_append (l : List (List Char)) : l.modifyHead ([] ++ ·) = l := by cases l <;> rfl

theorem modifyHead_append (l : List (List Char)) :
    (l.modifyHead (t ++ ·)).modifyHead (s ++ ·) = l.modifyHead (s ++ t ++ ·) := by
  cases l with
  | nil => rfl
  | cons x l => exact congrArg (· :: l) (List.append_assoc s t x).symm

theorem splitCommas_enclosed {o e : Char} {d : Nat} (ho : o ≠ ',') (he : e ≠ ',')
    (hopen : ∀ d, bracketDepth d o = d + 1) (hclose : ∀ d, bracketDepth (d + 1) e = d)
    (hs : ∀ r, splitCommas (d + 1) (s ++ r) = (splitCommas (d + 1) r).modifyHead (s ++ ·))
    (ht : splitCommas d (t ++ r) = (splitCommas d r).modifyHead (t ++ ·)) :
    splitCommas d (o :: (s ++ e :: t) ++ r) =
      (splitCommas d r).modifyHead (o :: (s ++ e :: t) ++ ·) := by
  have htail : splitCommas (d + 1) (e :: (t ++ r)) = (splitCommas d r).modifyHead (e :: t ++ ·) := by
    rw [splitCommas_cons fun _ => he, hclose, ht]
    exact modifyHead_append (s := [e]) _
  rw [List.cons_append, List.append_assoc, List.cons_append, splitCommas_cons fun _ => ho, hopen, hs, htail,
    modifyHead_append]
  exact modifyHead_append (s := [o]) _

/-- Commas are looked for behind a text that has none outside of brackets. -/
theorem splitCommas_append {d : Nat} (h : Nested ok s) (hcomma : d = 0 → ¬ ok ',') :
    splitCommas d (s ++ r) = (splitCommas d r).modifyHead (s ++ ·) := by
  induction h generalizing d r with
  | nil =>
    cases hl : splitCommas d r with
    | nil => exact absurd hl (splitCommas_ne_nil d r)
    | cons x l =>
      rw [List.nil_append, hl]
      rfl
  | @char ok c s hc hok _ ih =>
    obtain ⟨h₁, h₂, h₃, h₄⟩ := ne_of_isBracket hc
    have hdepth : bracketDepth d c = d := by
      unfold bracketDepth
      rw [if_neg (not_or.mpr ⟨h₁, h₃⟩), if_neg (not_or.mpr ⟨h₂, h₄⟩)]
    rw [List.cons_append, splitCommas_cons fun hd hc => hcomma hd (hc ▸ hok), hdepth, ih hcomma]
    exact modifyHead_append (s := [c]) _
  | angles _ _ _ ihs iht =>
    -- One level further down a comma is never a separator, whatever characters are allowed.
    exact splitCommas_enclosed (by simp) (by simp) (fun _ => rfl) (fun _ => rfl)
      (fun _ => ihs fun h => absurd h (Nat.succ_ne_zero d)) (iht hcomma)
  | parens _ _ _ ihs iht =>
    exact splitCommas_enclosed (by simp) (by simp) (fun _ => rfl) (fun _ => rfl)
      (fun _ => ihs fun h => absurd h (Nat.succ_ne_zero d)) (iht hcomma)

theorem eq_of_splitCommas_singleton {d : Nat} (h : splitCommas d s = [t]) : t = s := by
  induction s generalizing d t with
  | nil => exact (List.cons.inj h).1.symm
  | cons c s ih =>
    unfold splitCommas at h
    split at h
    · exact absurd (List.cons.inj h).2 (splitCommas_ne_nil _ _)
    · split at h
      · rename_i part parts heq
        obtain ⟨rfl, rfl⟩ := List.cons.inj h
        rw [ih heq]
      · rename_i heq
        exact absurd heq (splitCommas_ne_nil _ s)

/-- The only member of a list is all of it, without the blanks around. -/
theorem splitList_eq_singleton (h : splitList s = [t]) : t = trim s ∧ splitList t = [t] := by
  unfold splitList at h
  dsimp only at h
  split at h
  · cases h
  · rename_i hne
    obtain ⟨u, hu, rfl⟩ := List.map_eq_singleton_iff.mp h
    obtain rfl := eq_of_splitCommas_singleton hu
    refine ⟨trim_trim s, ?_⟩
    unfold splitList
    rw [trim_trim, trim_trim]
    dsimp only
    rw [if_neg hne, hu, List.map_singleton, trim_trim]

/-- Members with commas and blanks between them. -/
def commaList (items : List (List Char)) : List Char := [',', ' '].intercalate items

@[simp] theorem commaList_nil : commaList [] = [] := rfl

@[simp] theorem commaList_singleton (item : List Char) : commaList [item] = item := by
  simp [commaList, List.intercalate]

theorem commaList_cons_cons (item next : List Char) (items : List (List Char)) :
    commaList (item :: next :: items) = item ++ ',' :: ' ' :: commaList (next :: items) := by
  simp [commaList, List.intercalate, List.intersperse]

/-- A member of a list with commas: not empty, without white space at its ends, and without commas outside
of its brackets, which nest properly. -/
structure IsItem (item : List Char) : Prop where
  nested : Nested (· ≠ ',') item
  nonempty : item ≠ []
  trimmed : trim item = item

theorem splitCommas_commaList {item : List Char} {items : List (List Char)}
    (h : ∀ x ∈ item :: items, IsItem x) :
    splitCommas 0 (commaList (item :: items)) = item :: items.map (' ' :: ·) := by
  induction items generalizing item with
  | nil =>
    have hitem := splitCommas_append (r := []) (d := 0) (h item List.mem_cons_self).nested fun _ hne => hne rfl
    rw [List.append_nil] at hitem
    rw [commaList_singleton, hitem]
    exact congrArg (· :: []) (List.append_nil item)
  | cons next items ih =>
    obtain ⟨hitem, hrest⟩ := List.forall_mem_cons.mp h
    have hcomma : splitCommas 0 (',' :: ' ' :: commaList (next :: items)) =
        [] :: (' ' :: next) :: items.map (' ' :: ·) := by
      conv => lhs; unfold splitCommas
      rw [if_pos ⟨rfl, rfl⟩, splitCommas_cons (by simp)]
      exact congrArg (fun l => [] :: List.modifyHead (' ' :: ·) l) (ih hrest)
    rw [commaList_cons_cons, splitCommas_append hitem.nested fun _ hne => hne rfl, hcomma]
    exact congrArg (· :: _) (List.append_nil item)

theorem IsItem.ends {item : List Char} (h : IsItem item) :
    (∀ c ∈ item.head?, isBlank c = false) ∧ ∀ c ∈ item.getLast?, isBlank c = false :=
  ⟨head_of_trim h.trimmed, last_of_trim h.trimmed⟩

theorem trim_commaList {items : List (List Char)} (h : ∀ x ∈ items, IsItem x) :
    trim (commaList items) = commaList items := by
  refine trim_eq_self ?_ ?_
  · cases items with
    | nil => exact nofun
    | cons item items =>
      have hitem := h item List.mem_cons_self
      have hhead : (commaList (item :: items)).head? = item.head? := by
        cases items with
        | nil => rw [commaList_singleton]
        | cons next items =>
          rw [commaList_cons_cons, List.head?_append, Option.or_of_isSome (List.isSome_head?.mpr hitem.nonempty)]
      rw [hhead]
      exact hitem.ends.1
  -- The last character of the list is that of its last item, which is no blank.
  · induction items with
    | nil => exact nofun
    | cons item items ih =>
      obtain ⟨hitem, hrest⟩ := List.forall_mem_cons.mp h
      cases items with
      | nil =>
        rw [commaList_singleton]
        exact hitem.ends.2
      | cons next items =>
        have hne : commaList (next :: items) ≠ [] := by
          have hnext := (h next (List.mem_cons_of_mem _ List.mem_cons_self)).nonempty
          cases items with
          | nil => rwa [commaList_singleton]
          | cons x items => simp [commaList_cons_cons]
        have hlast : (commaList (item :: next :: items)).getLast? = (commaList (next :: items)).getLast? := by
          rw [commaList_cons_cons, List.getLast?_append, List.getLast?_cons_cons]
          cases hl : commaList (next :: items) with
          | nil => exact absurd hl hne
          | cons c l =>
            rw [List.getLast?_cons_cons, List.getLast?_eq_some_getLast (List.cons_ne_nil c l)]
            rfl
        rw [hlast]
        exact ih hrest

/-- **Lists.** A list with commas falls into its members. -/
theorem splitList_commaList {items : List (List Char)} (h : ∀ x ∈ items, IsItem x) :
    splitList (commaList items) = items := by
  have htrim := trim_commaList h
  unfold splitList
  rw [htrim]
  dsimp only
  cases items with
  | nil => rfl
  | cons item items =>
    obtain ⟨hitem, hrest⟩ := List.forall_mem_cons.mp h
    have hne : (commaList (item :: items)).isEmpty = false := by
      rw [Bool.eq_false_iff]
      intro hempty
      have hnil := List.isEmpty_iff.mp hempty
      cases items with
      | nil => exact hitem.nonempty (by rwa [commaList_singleton] at hnil)
      | cons next items => simp [commaList_cons_cons] at hnil
    have htail : ∀ x ∈ items, trim (' ' :: x) = x := fun x hx => by
      rw [trim_singleton_blank rfl, (hrest x hx).trimmed]
    rw [hne, if_neg Bool.false_ne_true, splitCommas_commaList h, List.map_cons, hitem.trimmed, List.map_map]
    exact congrArg (item :: ·) ((List.map_congr_left htail).trans (List.map_id' items))

theorem nested_commaList {items : List (List Char)} (h : ∀ x ∈ items, IsItem x) :
    Nested (fun _ => True) (commaList items) := by
  have hitem : ∀ x, IsItem x → Nested (fun _ => True) x := fun x hx => hx.nested.mono fun _ _ => trivial
  induction items with
  | nil => exact .nil
  | cons item items ih =>
    obtain ⟨hfirst, hrest⟩ := List.forall_mem_cons.mp h
    cases items with
    | nil =>
      rw [commaList_singleton]
      exact hitem item hfirst
    | cons next items =>
      rw [commaList_cons_cons]
      exact (hitem item hfirst).append (.char rfl trivial (.char rfl trivial (ih hrest)))

/-! ## Template arguments -/

theorem angleFree_of_chars (hs : ∀ c ∈ s, isBracket c = false) : AngleFree s := fun c hc =>
  ⟨(ne_of_isBracket (hs c hc)).1, (ne_of_isBracket (hs c hc)).2.1⟩

theorem eraseTemplates_chars (hs : ∀ c ∈ s, isBracket c = false) : eraseTemplates s = s :=
  eraseTemplates_eq_self (angleFree_of_chars hs)

/-- Without the template arguments at its end, a text without other brackets is what stands before them. -/
theorem eraseTemplates_append (hs : ∀ c ∈ s, isBracket c = false) (h : closes '<' '>' 0 t = true) :
    eraseTemplates (s ++ '<' :: (t ++ ['>'])) = s := by
  have hblock : eraseFrom 0 ('<' :: (t ++ ['>'])) = [] := eraseFrom_block h
  unfold eraseTemplates
  rw [eraseFrom_append_of_angleFree (angleFree_of_chars hs), hblock, List.append_nil]

/-- **Template arguments** at the end of a text are told apart from it. -/
theorem splitTemplate_append (h : closes '<' '>' 0 t = true) :
    splitTemplate (s ++ '<' :: (t ++ ['>'])) = (trimRight s, some (splitList t)) := by
  have hreverse : (s ++ '<' :: (t ++ ['>'])).reverse = '>' :: (t.reverse ++ '<' :: s.reverse) := by
    simp
  have hfound : beforeOpening? 0 (t.reverse ++ '<' :: s.reverse) = some (s.reverse, t.reverse) := by
    have hinner := beforeOpening?_append (k := 0) (r := '<' :: s.reverse) (closes_reverse h)
    rw [hinner]
    exact congrArg (fun l => some (s.reverse, l)) (List.append_nil _)
  unfold splitTemplate
  rw [hreverse]
  simp only [hfound, List.reverse_reverse]

/-- Template arguments that are told apart close the brackets that they open. -/
theorem exists_of_splitTemplate {l : List (List Char)} (h : (splitTemplate s).2 = some l) :
    ∃ t, closes '<' '>' 0 t = true ∧ splitList t = l := by
  unfold splitTemplate at h
  split at h
  · split at h
    · rename_i before behind heq
      exact ⟨behind.reverse, closes_reverse (closes_of_beforeOpening? heq), Option.some.inj h⟩
    · cases h
  · cases h

/-- A text that does not end with an angle bracket has no template arguments at its end. -/
theorem splitTemplate_of_last (h : ∀ c ∈ s.getLast?, c ≠ '>') : splitTemplate s = (s, none) := by
  unfold splitTemplate
  split
  · rename_i r hr
    have hlast : s.getLast? = some '>' := by
      rw [← List.head?_reverse, hr]
      rfl
    exact absurd rfl (h '>' hlast)
  · rfl

end PathSafety.Name
