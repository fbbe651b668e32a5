import PathSafety.Proofs.Hooks.History
import PathSafety.Proofs.Name.Operators
import PathSafety.Proofs.Name.Parts

/-!
# The balanced tail of a name

A function is also looked up by the last part of its name. This part is looked for backwards from the end of the text, at
every separator, and what stands behind a separator is judged by the angle brackets up to the next parenthesis or blank. Two
things come in between. The separators of the parameters are met first, and what stands behind them is taken if its brackets
are balanced. And template arguments with a blank or a parenthesis are cut. Where neither is the case, the function is
found: no separator in its template arguments counts, as more brackets are closed than opened behind it.

Contents:

* `tails_append`, `tails_append_separator` — the texts behind the separators;
* `balancedTail?_append_paren` — the parameters come first;
* `balancedTail?_component` — the last part of a name;
* `balancedTail_inScope` — when the balanced tail is the function, and a hook of the function is found by it.
-/

namespace PathSafety.Name

open Text

variable {c : Char} {p q r s t u : List Char}

/-! ## Separators -/

theorem tails_go_cons (h : ∀ u, c = ':' → s ≠ ':' :: u) : tails.go (c :: s) r = tails.go s (c :: r) := by
  rw [tails.go]
  exact fun u hc hs => h u hc hs

theorem tails_go_append (hc : c ≠ ':') :
    tails.go (s ++ c :: t) r = tails.go s r ++ tails.go t (c :: (s.reverse ++ r)) := by
  fun_induction tails.go s r with
  | case1 s r ih =>
    show r :: tails.go (s ++ c :: t) _ = _
    rw [ih]
    simp [separator]
  | case2 d s r hd ih =>
    rw [List.cons_append, tails_go_cons, ih]
    · simp
    · -- what stands behind the text is no colon that a separator could end with
      intro u hd' hs
      cases s with
      | nil => exact hc (List.cons.inj hs).1
      | cons e s => exact hd s hd' (congrArg (· :: s) (List.cons.inj hs).1)
  | case3 r =>
    rw [List.nil_append, tails_go_cons fun u h => absurd h hc]
    rfl

theorem tails_go_map : tails.go s (r ++ u) = (tails.go s r).map (· ++ u) := by
  fun_induction tails.go s r with
  | case1 s r ih => exact congrArg ((r ++ u) :: ·) ih
  | case2 d s r hd ih =>
    rw [tails_go_cons hd]
    exact ih
  | case3 r => rfl

/-- A character that is no colon parts the separators of a text. -/
theorem tails_append (hc : c ≠ ':') : tails (s ++ c :: t) = tails t ++ (tails s).map (· ++ c :: t) := by
  have hmap := tails_go_map (s := s.reverse) (r := []) (u := c :: t)
  unfold tails
  rw [List.reverse_append, List.reverse_cons, List.append_assoc, List.singleton_append, tails_go_append hc, ← hmap,
    List.reverse_reverse, List.append_nil]
  rfl

theorem tails_cons (hc : c ≠ ':') : tails (c :: s) = tails s := (tails_append (s := []) hc).trans (List.append_nil _)

theorem tails_of_not_mem (h : ':' ∉ s) : tails s = [] := by
  induction s with
  | nil => rfl
  | cons c s ih =>
    rw [tails_cons (Ne.symm (List.ne_of_not_mem_cons h)), ih (List.not_mem_of_not_mem_cons h)]

/-- The first separator from the end is the last one, if no colon stands behind it. -/
theorem tails_append_separator (hc : c ≠ ':') :
    ∃ l, tails (q ++ (separator ++ c :: s)) = tails s ++ (c :: s) :: l := by
  have hlast : tails (q ++ separator) = [] :: tails.go q.reverse separator := by
    unfold tails
    rw [List.reverse_append]
    rfl
  rw [← List.append_assoc, tails_append hc, hlast, List.map_cons, List.nil_append]
  exact ⟨_, rfl⟩

theorem suffix_of_mem_tails_go (h : t ∈ tails.go s r) : t <:+ s.reverse ++ r := by
  fun_induction tails.go s r with
  | case1 s r ih =>
    have hsplit : (':' :: ':' :: s).reverse ++ r = s.reverse ++ (separator ++ r) := by simp [separator]
    rw [hsplit]
    rcases List.mem_cons.mp h with rfl | h
    · rw [← List.append_assoc]
      exact List.suffix_append _ _
    · exact ih h
  | case2 d s r hd ih =>
    rw [List.reverse_cons, List.append_assoc]
    exact ih h
  | case3 r => exact absurd h List.not_mem_nil

theorem suffix_of_mem_tails (h : t ∈ tails s) : t <:+ s := by
  have hsuffix := suffix_of_mem_tails_go h
  rwa [List.reverse_reverse, List.append_nil] at hsuffix

/-! ## What is taken -/

/-- A character that nothing is read over. -/
def Stops (c : Char) : Prop := c = '(' ∨ c = ' '

instance : DecidablePred Stops := fun c => inferInstanceAs (Decidable (c = '(' ∨ c = ' '))

theorem beforeStop_append_paren : beforeStop (s ++ '(' :: p) = beforeStop s := by
  unfold beforeStop
  induction s with
  | nil => rfl
  | cons c s ih => rw [List.cons_append, List.takeWhile_cons, List.takeWhile_cons, ih]

theorem beforeStop_eq_self (h : ∀ c ∈ s, ¬ Stops c) : beforeStop s = s := by
  refine List.takeWhile_eq_self_iff.mpr fun c hc => ?_
  have hne := not_or.mp (h c hc)
  rw [Bool.and_eq_true, bne_iff_ne, bne_iff_ne]
  exact hne

theorem not_stops_of_mem_beforeStop (h : c ∈ beforeStop s) : ¬ Stops c := by
  have hne := List.mem_takeWhile_imp h
  rw [Bool.and_eq_true, bne_iff_ne, bne_iff_ne] at hne
  exact not_or.mpr hne

theorem not_stops_of_balancedTail? (h : balancedTail? s = some t) (hc : c ∈ t) : ¬ Stops c := by
  obtain ⟨u, -, rfl⟩ := List.mem_map.mp (List.mem_of_find?_eq_some h)
  exact not_stops_of_mem_beforeStop hc

/-- **The parameters come first**: only if nothing in them is taken, what stands before them is looked at. -/
theorem balancedTail?_append_paren : balancedTail? (s ++ '(' :: p) = (balancedTail? p).or (balancedTail? s) := by
  have hmap : ((tails s).map (· ++ '(' :: p)).map beforeStop = (tails s).map beforeStop := by
    rw [List.map_map]
    exact List.map_congr_left fun t _ => beforeStop_append_paren
  unfold balancedTail?
  rw [tails_append (by decide), List.map_append, hmap, List.find?_append]

/-- The last part of a name: an identifier, and template arguments if there are any. -/
def component (f : Identifier) (args : Option (List Char)) : List Char :=
  f.text ++ (args.map fun a => '<' :: (a ++ ['>'])).getD []

variable {f : Identifier} {args : Option (List Char)}

theorem exists_eq_cons_component : ∃ d s, component f args = d :: s ∧ d ≠ ':' := by
  cases htext : f.text with
  | nil => exact absurd htext f.nonempty
  | cons d s =>
    have hd := ne_of_isIdentifierChar (d := ':') (f.chars d (htext ▸ List.mem_cons_self)) rfl
    unfold component
    rw [htext, List.cons_append]
    exact ⟨d, _, rfl, hd⟩

/-- Behind a separator of template arguments more brackets are closed than opened. -/
theorem count_lt_of_mem_tails (hargs : ∀ a ∈ args, closes '<' '>' 0 a = true) (ht : t ∈ tails (component f args)) :
    t.count '<' < t.count '>' := by
  have hcolon : tails f.text = [] := tails_of_not_mem fun h => absurd (f.chars ':' h) (by decide)
  cases args with
  | none =>
    rw [component, Option.map_none, Option.getD_none, List.append_nil, hcolon] at ht
    exact absurd ht List.not_mem_nil
  | some a =>
    have htails : tails (component f (some a)) = (tails a).map (· ++ ['>']) := by
      rw [component, Option.map_some, Option.getD_some, tails_append (by decide), hcolon, List.map_nil, List.append_nil,
        tails_append (by decide)]
      rfl
    rw [htails] at ht
    obtain ⟨u, hu, rfl⟩ := List.mem_map.mp ht
    -- what ends the arguments closes all that it opens, and perhaps more
    obtain ⟨l, hl⟩ := suffix_of_mem_tails hu
    obtain ⟨k, hk⟩ := exists_closes_right (hl ▸ hargs a rfl)
    have hcount := count_of_closes (by decide) hk
    rw [List.count_append, List.count_append, hcount]
    show u.count '<' + 0 < u.count '<' + k + 1
    omega

theorem count_component (hargs : ∀ a ∈ args, closes '<' '>' 0 a = true) :
    (component f args).count '<' = (component f args).count '>' := by
  have hnone : ∀ c, isIdentifierChar c = false → f.text.count c = 0 := fun c hc =>
    List.count_eq_zero.mpr fun h => ne_of_isIdentifierChar (f.chars c h) hc rfl
  unfold component
  rw [List.count_append, List.count_append, hnone _ (by decide), hnone _ (by decide)]
  cases args with
  | none => rfl
  | some a => simp [count_of_closes (by decide) (hargs a rfl)]

/-- **The last part** of a name is its balanced tail, if nothing is read over in it. -/
theorem balancedTail?_component (hargs : ∀ a ∈ args, closes '<' '>' 0 a = true)
    (hstops : ∀ c ∈ component f args, ¬ Stops c) :
    balancedTail? (q ++ (separator ++ component f args)) = some (component f args) := by
  obtain ⟨d, s, hs, hd⟩ : ∃ d s, component f args = d :: s ∧ d ≠ ':' := exists_eq_cons_component
  have htails : tails (component f args) = tails s := by rw [hs, tails_cons hd]
  have hcount := count_component hargs (f := f)
  have hinner := fun t (ht : t ∈ tails (component f args)) => count_lt_of_mem_tails hargs ht
  rw [hs] at hstops hcount ⊢
  rw [htails] at hinner
  obtain ⟨l, hl⟩ := tails_append_separator (q := q) (s := s) hd
  have hstop : ∀ t, t <:+ d :: s → beforeStop t = t := fun t ht =>
    beforeStop_eq_self fun c hc => hstops c (ht.subset hc)
  -- none of the separators inside of the template arguments counts
  have hnone : ((tails s).map beforeStop).find? (fun t => !t.isEmpty && t.count '<' == t.count '>') = none := by
    refine List.find?_eq_none.mpr fun t ht => ?_
    obtain ⟨u, hu, rfl⟩ := List.mem_map.mp ht
    rw [hstop u ((suffix_of_mem_tails hu).trans (List.suffix_cons d s)), beq_false_of_ne (Nat.ne_of_lt (hinner u hu)),
      Bool.and_false]
    exact Bool.false_ne_true
  unfold balancedTail?
  rw [hl, List.map_append, List.find?_append, hnone, List.map_cons, hstop _ (List.suffix_refl _), List.find?_cons, hcount,
    beq_self_eq_true]
  rfl

theorem eraseTemplates_component (hargs : ∀ a ∈ args, closes '<' '>' 0 a = true) :
    eraseTemplates (component f args) = f.text := by
  cases args with
  | none =>
    rw [component, Option.map_none, Option.getD_none, List.append_nil]
    exact eraseTemplates_chars f.isBracket_chars
  | some a => exact eraseTemplates_append f.isBracket_chars (hargs a rfl)

/-! ## Functions -/

/-- A function of some scope, with its parameters and all that stands behind them. -/
def inScope (q : List Char) (f : Identifier) (args : Option (List Char)) (p : List Char) : List Char :=
  q ++ (separator ++ component f args) ++ '(' :: p

/-- **The balanced tail** of a name is the last part of the function in just these cases: nothing is read over in this part,
and nothing else is taken behind it. Whatever is taken of the parameters is the balanced tail. If the tail is the last part
of the function, a hook is found that only the bare name of the function has. -/
theorem balancedTail_inScope (hargs : ∀ a ∈ args, closes '<' '>' 0 a = true) {symbol : String}
    (hsymbol : demangle symbol = .ok (String.ofList (inScope q f args p)))
    (hmangled : ¬ mangledOpening <+: inScope q f args p) (huntagged : Untagged (inScope q f args p)) :
    (∀ t ∈ balancedTail? p, balancedTail? (inScope q f args p) = some t) ∧
      (balancedTail? (inScope q f args p) = some (component f args) ↔
        (∀ c ∈ component f args, ¬ Stops c) ∧ ∀ t ∈ balancedTail? p, t = component f args) ∧
      (balancedTail? (inScope q f args p) = some (component f args) →
        ∃ names, candidates symbol = .ok names ∧ String.ofList f.text ∈ names ∧
          ∀ {α : Type} (r : Registry α) (hook : α), r.Only names (String.ofList f.text) hook →
            r.findHook symbol = .ok (some (String.ofList f.text, hook))) := by
  -- The parameters are searched first, so a tail found among them hides the component.
  have hor : balancedTail? (inScope q f args p) =
      (balancedTail? p).or (balancedTail? (q ++ (separator ++ component f args))) := balancedTail?_append_paren
  have hfirst : ∀ t ∈ balancedTail? p, balancedTail? (inScope q f args p) = some t := by
    intro t ht
    rw [hor, Option.mem_def.mp ht]
    rfl
  refine ⟨hfirst, ⟨fun h => ⟨fun c => not_stops_of_balancedTail? h, fun t ht => ?_⟩, ?_⟩, fun h => ?_⟩
  · exact Option.some.inj ((hfirst t ht).symm.trans h)
  · rintro ⟨hstops, hparameters⟩
    cases hp : balancedTail? p with
    | none =>
      rw [hor, hp]
      exact balancedTail?_component hargs hstops
    | some t =>
      obtain rfl := hparameters t hp
      exact hfirst _ hp
  · obtain ⟨d, hd⟩ := exists_ofText? (c := '(') rfl huntagged
    have hnames := candidates_of_resolve hsymbol (resolve_ofList hd hmangled)
    rw [String.toList_ofList, h, Option.map_some, eraseTemplates_component hargs] at hnames
    have hmem : ∀ x y z w v (l : List String), v ∈ distinct (x :: y :: z :: w :: l ++ [v]) := fun x y z w v l =>
      mem_distinct.mpr (List.mem_append_right _ List.mem_cons_self)
    have hbare := hmem symbol (String.ofList (inScope q f args p)) (String.ofList d.qualifiedName)
      (String.ofList d.canonical) (String.ofList f.text) [String.ofList (component f args)]
    exact ⟨_, hnames, hbare, fun r hook honly => honly.findHook hnames hbare⟩

namespace Example

/-- The name of a function. -/
def short : Identifier := ⟨['f'], by decide, List.all_eq_true.mp rfl, by decide⟩

/-- A registry with a hook for the bare name only. -/
def bare : Registry Nat := { entries := [("f", 1)] }

theorem only_bare (names : List String) : bare.Only names "f" 1 where
  hook := rfl
  others n _ hn := by
    have hfalse : (n == "f") = false := beq_false_of_ne hn
    show List.lookup n [("f", 1)] = none
    rw [List.lookup_cons, hfalse]
    rfl

/-- A function of a template is found by its bare name. With a parameter of a type of some scope, a part of this type is
taken for the function. -/
theorem balancedTail_parameters :
    balancedTail? "ns::f<a::b>(int)".toList = some "f<a::b>".toList ∧
      bare.findHook "ns::f<a::b>(int)" = .ok (some ("f", 1)) ∧
      balancedTail? "ns::f(std::string)".toList = some "string)".toList := by
  have hmangled : ∀ s ∈ ["ns::f<a::b>(int)".toList, "ns::f(std::string)".toList], s ≠ [] ∧ ¬ mangledOpening <+: s ∧
      '[' ∉ s := by decide
  obtain ⟨hne, hplain, htags⟩ := hmangled "ns::f<a::b>(int)".toList (by decide)
  have hargs : ∀ a ∈ some "a::b".toList, closes '<' '>' 0 a = true := by
    rintro _ ⟨⟩
    rfl
  obtain ⟨-, htail, hhook⟩ := balancedTail_inScope (q := "ns".toList) (f := short) (p := "int)".toList) hargs
    (demangle_ofList hne hplain) hplain (untagged_of_not_mem htags)
  have hfound := htail.mpr ⟨List.all_iff_forall_prop.mp rfl, by decide⟩
  obtain ⟨names, -, -, hfind⟩ := hhook hfound
  obtain ⟨hne, hplain, htags⟩ := hmangled "ns::f(std::string)".toList (by decide)
  have hnone : ∀ a ∈ (none : Option (List Char)), closes '<' '>' 0 a = true := nofun
  obtain ⟨hfirst, -, -⟩ := balancedTail_inScope (q := "ns".toList) (f := short) (p := "std::string)".toList) hnone
    (demangle_ofList hne hplain) hplain (untagged_of_not_mem htags)
  exact ⟨hfound, hfind bare 1 (only_bare names), hfirst "string)".toList (by decide)⟩

end Example

end PathSafety.Name
