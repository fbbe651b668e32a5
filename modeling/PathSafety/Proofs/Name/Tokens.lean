import PathSafety.Proofs.Name.Nested

/-!
# Tokens of texts that are put together

The tokens of a text are those of its parts one after another, as long as every part leaves no bracket open
and no operator name begins in it. Where the keyword of operators does not stand alone in a part, none does,
whatever the part is put next to that is not of an identifier.

Contents:

* `KeywordFree`, `NoOperator` — texts in which no operator name begins;
* `Scans` — the tokens of a part of a text;
* `scans_chars`, `scans_angles`, `exists_scans` — the tokens of parts, which are `Token.Allowed` there;
* `anglesBalancedFrom_append` — what counts angle brackets passes over such parts.
-/

namespace PathSafety.Name

open Text

variable {ok : Char → Prop} {c : Char} {b : Option Char} {s t r : List Char} {ts us : List Token}

/-! ## Where no operator name begins -/

/-- That the keyword of operators does not stand alone in a text. -/
def KeywordFree (s : List Char) : Prop :=
  ∀ l e, s = l ++ (operatorKeyword ++ e) →
    l.getLast?.any isIdentifierChar = true ∨ e.head?.any isIdentifierChar = true

theorem keywordFree_of_splitFirst? (h : splitFirst? operatorKeyword s = none) : KeywordFree s := fun l e hs =>
  absurd ⟨l, e, (List.append_assoc l _ e).trans hs.symm⟩ ((splitFirst?_eq_none_iff (by decide)).mp h)

theorem isIdentifierChar_of_mem_operatorKeyword : ∀ c ∈ operatorKeyword, isIdentifierChar c = true :=
  List.all_eq_true.mp rfl

theorem keywordFree_nil : KeywordFree [] := keywordFree_of_splitFirst? rfl

/-- What parts two texts without the keyword leaves them so, if it does not stand in identifiers. -/
theorem keywordFree_append_cons (hc : isIdentifierChar c = false) (hs : KeywordFree s) (ht : KeywordFree t) :
    KeywordFree (s ++ c :: t) := by
  have hnot : c ∉ operatorKeyword := fun h => by
    rw [isIdentifierChar_of_mem_operatorKeyword c h] at hc
    cases hc
  intro l e h
  rcases List.append_eq_append_iff.mp h with ⟨a, rfl, ha⟩ | ⟨a, rfl, ha⟩
  · cases a with
    | nil =>
      -- the keyword does not begin with what parts the texts
      exact absurd ((List.cons.inj ha).1 ▸ List.mem_cons_self) hnot
    | cons d a =>
      obtain ⟨rfl, rfl⟩ := List.cons.inj ha
      refine (ht a e rfl).imp_left fun hbefore => ?_
      obtain ⟨y, hy, hyid⟩ := (Option.any_eq_true _ _).mp hbefore
      rw [List.getLast?_append, List.getLast?_cons, hy]
      exact hyid
  · rcases List.append_eq_append_iff.mp ha with ⟨b, rfl, rfl⟩ | ⟨b, hb, hcons⟩
    · refine (hs l b rfl).imp_right fun hafter => ?_
      cases b with
      | nil => cases hafter
      | cons d b => exact hafter
    · cases b with
      | nil =>
        rw [List.append_nil] at hb
        refine (hs l [] (by rw [← hb, List.append_nil])).imp_right fun hafter => ?_
        cases hafter
      | cons d b =>
        obtain rfl := (List.cons.inj hcons).1
        exact absurd (hb ▸ List.mem_append_right _ List.mem_cons_self) hnot
/-- The character before what follows a text. -/
def lastChar (b : Option Char) : List Char → Option Char
  | [] => b
  | c :: s => lastChar (some c) s

@[simp] theorem lastChar_nil : lastChar b [] = b := rfl

@[simp] theorem lastChar_cons : lastChar b (c :: s) = lastChar (some c) s := rfl

@[simp] theorem lastChar_append : lastChar b (s ++ t) = lastChar (lastChar b s) t := by
  induction s generalizing b with
  | nil => rfl
  | cons c s ih => exact ih

/-- That no operator name begins in a text between the character `before` and `rest`. -/
def NoOperator (b : Option Char) : List Char → List Char → Prop
  | [], _ => True
  | c :: s, r => operatorName? b (c :: (s ++ r)) = none ∧ NoOperator (some c) s r

theorem noOperator_cons : NoOperator b (c :: s) r ↔
    operatorName? b (c :: (s ++ r)) = none ∧ NoOperator (some c) s r := Iff.rfl

theorem noOperator_append :
    NoOperator b (s ++ t) r ↔ NoOperator b s (t ++ r) ∧ NoOperator (lastChar b s) t r := by
  induction s generalizing b with
  | nil => exact (and_iff_right True.intro).symm
  | cons c s ih =>
    rw [List.cons_append, noOperator_cons, noOperator_cons, ih, List.append_assoc, and_assoc]
    rfl

theorem NoOperator.operatorName? (h : NoOperator b s r) (hs : s ≠ []) : operatorName? b (s ++ r) = none := by
  cases s with
  | nil => exact absurd rfl hs
  | cons c s => exact h.1

/-- An operator name begins with its keyword. -/
theorem operatorName?_of_ne (hc : c ≠ 'o') : operatorName? b (c :: s) = none := by
  have hkeyword : dropPrefix? operatorKeyword (c :: s) = none := dropPrefix?_eq_none_of_ne (Ne.symm hc)
  unfold operatorName?
  rw [hkeyword]

theorem operatorName?_of_before (h : b.any isIdentifierChar = true) : operatorName? b s = none := by
  unfold operatorName?
  cases dropPrefix? operatorKeyword s with
  | none => rfl
  | some e =>
    dsimp only
    rw [h, Bool.true_or, if_pos rfl]

theorem operatorName?_of_after {e : List Char} (hs : s = operatorKeyword ++ e)
    (h : e.head?.any isIdentifierChar = true) : operatorName? b s = none := by
  unfold operatorName?
  rw [dropPrefix?_eq_some_iff.mpr hs]
  dsimp only
  rw [h, Bool.or_true, if_pos rfl]

theorem operatorName?_of_not_prefix (h : ¬ operatorKeyword <+: s) : operatorName? b s = none := by
  unfold operatorName?
  rw [dropPrefix?_eq_none_iff.mpr h]

/-- Only whether an identifier goes on matters of the character before. -/
theorem operatorName?_congr {b' : Option Char} (h : b.any isIdentifierChar = b'.any isIdentifierChar) :
    operatorName? b s = operatorName? b' s := by
  unfold operatorName?
  rw [h]

/-- Where no operator name begins, none begins if something is put behind the text that no identifier goes on in. -/
theorem operatorName?_append_none (h : operatorName? b (c :: s) = none) (hrest : r.head?.any isIdentifierChar = false) :
    operatorName? b (c :: (s ++ r)) = none := by
  by_cases hstarts : operatorKeyword <+: c :: (s ++ r)
  · obtain ⟨x, hx⟩ := hstarts
    have inside : ∀ a, c :: s = operatorKeyword ++ a → operatorName? b (c :: (s ++ r)) = none := by
      intro a ha
      unfold operatorName? at h ⊢
      rw [← List.cons_append, ha, List.append_assoc, dropPrefix?_append]
      rw [ha, dropPrefix?_append] at h
      dsimp only at h ⊢
      have hstop : (b.any isIdentifierChar || a.head?.any isIdentifierChar) = true :=
        Decidable.byContradiction fun hgo => by
          rw [if_neg hgo] at h
          cases h
      cases a with
      | nil =>
        rw [show b.any isIdentifierChar = true by simpa using hstop, Bool.true_or, if_pos rfl]
      | cons d a => exact if_pos hstop
    rcases List.append_eq_append_iff.mp (hx.trans (@List.cons_append Char c s r).symm) with
      ⟨a, ha, _⟩ | ⟨a, ha, hax⟩
    · exact inside a ha
    · cases a with
      | nil => exact inside [] (by rw [ha, List.append_nil, List.append_nil])
      | cons d a =>
        -- the keyword would go on behind the text
        have hid := isIdentifierChar_of_mem_operatorKeyword d (ha ▸ List.mem_append_right _ List.mem_cons_self)
        rw [hax, List.cons_append] at hrest
        exact absurd hid (by simpa using hrest)
  · exact operatorName?_of_not_prefix hstarts

/-- No operator name begins in a text in which the keyword does not stand alone, if no identifier goes on
behind it. -/
theorem KeywordFree.noOperator (h : KeywordFree s) (hrest : r.head?.any isIdentifierChar = false) :
    NoOperator b s r := by
  -- On what is left to read; what has been read stays known, since an occurrence of the keyword
  -- counts only where no word runs into it.
  have main : ∀ l e, s = l ++ e → NoOperator (lastChar b l) e r := by
    intro l e hs
    induction e generalizing l with
    | nil => exact True.intro
    | cons c e ih =>
      refine ⟨operatorName?_append_none ?_ hrest, ?_⟩
      · by_cases hstarts : operatorKeyword <+: c :: e
        · obtain ⟨a, ha⟩ := hstarts
          rcases h l a (hs.trans (congrArg (l ++ ·) ha.symm)) with hbefore | hafter
          · refine operatorName?_of_before ?_
            obtain ⟨y, hy, hyid⟩ := (Option.any_eq_true _ _).mp hbefore
            obtain ⟨l', rfl⟩ := List.getLast?_eq_some_iff.mp hy
            rw [lastChar_append]
            exact hyid
          · exact operatorName?_of_after ha.symm hafter
        · exact operatorName?_of_not_prefix hstarts
      · have hrest' := ih (l ++ [c]) (by rw [hs, List.append_assoc]; rfl)
        rwa [lastChar_append] at hrest'
  exact main [] s rfl

/-! ## Tokens -/

theorem tokensFrom_inner {angle paren : Nat} (h : ¬ (angle = 0 ∧ paren = 0)) :
    tokensFrom b angle paren (c :: s) =
      .inner c :: tokensFrom (some c) (angleDepth angle c) (parenDepth paren c) s := by
  conv => lhs; unfold tokensFrom
  rw [if_neg h]

theorem tokensFrom_char (hanonymous : ¬ anonymousNamespace <+: c :: s)
    (hname : operatorName? b (c :: s) = none) :
    tokensFrom b 0 0 (c :: s) = .char c :: tokensFrom (some c) (angleDepth 0 c) (parenDepth 0 c) s := by
  conv => lhs; unfold tokensFrom
  rw [if_pos ⟨rfl, rfl⟩]
  split
  · rename_i e he
    exact absurd ⟨e, (dropPrefix?_eq_some_iff.mp he).symm⟩ hanonymous
  · split
    · rename_i name e he
      rw [hname] at he
      cases he
    · rfl

theorem tokensFrom_operator {name : List Char} (hname : operatorName? b (name ++ r) = some (name, r)) :
    tokensFrom b 0 0 (name ++ r) = .operator name :: tokensFrom name.getLast? 0 0 r := by
  cases hs : name ++ r with
  | nil =>
    rw [hs] at hname
    cases hname
  | cons c s =>
    rw [hs] at hname
    conv => lhs; unfold tokensFrom
    rw [if_pos ⟨rfl, rfl⟩]
    split
    · -- the keyword is not the name of the anonymous namespace
      rename_i e he
      have hc : c = '(' := by
        have hhead := congrArg List.head? (dropPrefix?_eq_some_iff.mp he)
        exact Option.some.inj hhead
      rw [operatorName?_of_ne (by rw [hc]; decide)] at hname
      cases hname
    · split
      · rename_i name' e he
        rw [hname] at he
        obtain ⟨rfl, rfl⟩ := Prod.mk.inj (Option.some.inj he)
        rfl
      · rename_i he
        rw [hname] at he
        cases he

/-- That the tokens of a text in front of `rest` are `ts`, and no bracket is open then. -/
def Scans (b : Option Char) (s r : List Char) (ts : List Token) : Prop :=
  tokensFrom b 0 0 (s ++ r) = ts ++ tokensFrom (lastChar b s) 0 0 r

theorem Scans.append (hs : Scans b s (t ++ r) ts) (ht : Scans (lastChar b s) t r us) :
    Scans b (s ++ t) r (ts ++ us) := by
  unfold Scans at hs ht ⊢
  rw [List.append_assoc, hs, ht, lastChar_append, List.append_assoc]

theorem scans_nil : Scans b [] r [] := rfl

theorem tokens_of_scans (h : Scans none s [] ts) : tokens s = ts := by
  unfold Scans at h
  have hnil : tokensFrom (lastChar none s) 0 0 [] = [] := by
    unfold tokensFrom
    rfl
  rw [List.append_nil, hnil, List.append_nil] at h
  exact h

theorem lastChar_of_ne_nil (hs : s ≠ []) : lastChar b s = s.getLast? := by
  induction s generalizing b with
  | nil => exact absurd rfl hs
  | cons c s ih =>
    cases s with
    | nil => rfl
    | cons d s =>
      rw [lastChar_cons, ih (List.cons_ne_nil d s)]
      rfl

theorem scans_operator {name : List Char} (hne : name ≠ [])
    (hname : operatorName? b (name ++ r) = some (name, r)) : Scans b name r [.operator name] := by
  unfold Scans
  rw [tokensFrom_operator hname, lastChar_of_ne_nil hne]
  rfl

/-- The name of the anonymous namespace begins with a parenthesis. -/
theorem not_anonymous_of_ne (hc : c ≠ '(') : ¬ anonymousNamespace <+: c :: s := by
  rintro ⟨e, he⟩
  exact hc (Option.some.inj (congrArg List.head? he)).symm

theorem scans_anonymous : Scans b anonymousNamespace r [.anonymous] := by
  have hstarts := dropPrefix?_append anonymousNamespace r
  unfold Scans
  cases hs : anonymousNamespace ++ r with
  | nil => cases hs
  | cons c s =>
    rw [hs] at hstarts
    conv => lhs; unfold tokensFrom
    rw [if_pos ⟨rfl, rfl⟩]
    split
    · rename_i e he
      rw [hstarts] at he
      obtain rfl := Option.some.inj he
      rfl
    · rename_i he
      rw [hstarts] at he
      cases he

theorem scans_char (hbracket : isBracket c = false) (hname : operatorName? b (c :: r) = none) :
    Scans b [c] r [.char c] := by
  obtain ⟨h₁, h₂, h₃, h₄⟩ := ne_of_isBracket hbracket
  have hangle : angleDepth 0 c = 0 := by
    unfold angleDepth
    rw [if_neg h₁, if_neg h₂]
  have hparen : parenDepth 0 c = 0 := by
    unfold parenDepth
    rw [if_neg h₃, if_neg h₄]
  have hchar := tokensFrom_char (not_anonymous_of_ne h₃) hname
  rw [hangle, hparen] at hchar
  exact hchar

/-- Characters that are no brackets are tokens of their own. -/
theorem scans_chars (hs : ∀ c ∈ s, isBracket c = false) (hname : NoOperator b s r) :
    Scans b s r (s.map .char) := by
  induction s generalizing b with
  | nil => exact scans_nil
  | cons c s ih =>
    obtain ⟨hc, hs⟩ := List.forall_mem_cons.mp hs
    exact (scans_char hc hname.1).append (ih hs hname.2)

/-- What stands inside brackets is no token of its own. -/
theorem tokensFrom_inside {angle paren a p : Nat} (ha : closes '<' '>' a s = true) (hp : closes '(' ')' p s = true)
    (hopen : ¬ (angle = 0 ∧ paren = 0)) :
    tokensFrom b (angle + a) (paren + p) (s ++ r) =
      s.map .inner ++ tokensFrom (lastChar b s) angle paren r := by
  induction s generalizing b a p with
  | nil =>
    obtain rfl := closes_nil.mp ha
    obtain rfl := closes_nil.mp hp
    rfl
  | cons c s ih =>
    obtain ⟨ha, hangle⟩ := closes_angleDepth ha
    obtain ⟨hp, hparen⟩ := closes_parenDepth hp
    rw [List.cons_append, tokensFrom_inner fun h => hopen ⟨by omega, by omega⟩, hangle, hparen]
    exact congrArg (.inner c :: ·) (ih ha hp)

/-- Of angle brackets with what stands in them, the first one alone is a token of its own. -/
theorem scans_angles (ha : closes '<' '>' 0 s = true) (hp : closes '(' ')' 0 s = true) :
    Scans b ('<' :: (s ++ ['>'])) r (.char '<' :: (s ++ ['>']).map .inner) := by
  have hin : ¬ (1 = 0 ∧ 0 = 0) := by decide
  have hbegin : tokensFrom b 0 0 ('<' :: (s ++ '>' :: r)) =
      .char '<' :: tokensFrom (some '<') 1 0 (s ++ '>' :: r) :=
    tokensFrom_char (not_anonymous_of_ne (by decide)) (operatorName?_of_ne (by decide))
  have hinside : tokensFrom (some '<') 1 0 (s ++ '>' :: r) = _ := tokensFrom_inside ha hp hin
  have hend : ∀ b, tokensFrom b 1 0 ('>' :: r) = .inner '>' :: tokensFrom (some '>') 0 0 r :=
    fun b => tokensFrom_inner hin
  unfold Scans
  rw [List.cons_append, List.append_assoc, List.singleton_append, hbegin, hinside, hend]
  simp

/-- That a token is no operator name and, if it stands outside of brackets, some character that may stand there. -/
def Token.Allowed (ok : Char → Prop) : Token → Prop
  | char c => ok c
  | inner _ => True
  | operator _ | anonymous => False

theorem Token.Allowed.isOperator {t : Token} (h : t.Allowed ok) : t.isOperator = false := by
  cases t with
  | operator => exact h.elim
  | _ => rfl

theorem Token.Allowed.ne_char {t : Token} (h : t.Allowed ok) (hc : ¬ ok c) : t ≠ .char c := by
  rintro rfl
  exact hc h

/-- The tokens of a text without parentheses outside of angle brackets. -/
theorem exists_scans (h : Nested ok s) (hparen : ¬ ok '(') (hname : NoOperator b s r) :
    ∃ ts, Scans b s r ts ∧ Token.join ts = s ∧ ∀ t ∈ ts, t.Allowed ok := by
  induction h generalizing b with
  | nil => exact ⟨[], scans_nil, rfl, List.forall_mem_nil _⟩
  | @char _ c s hc hok _ ih =>
    obtain ⟨ts, hts, hjoin, hall⟩ := ih hparen hname.2
    exact ⟨.char c :: ts, (scans_char hc hname.1).append hts, congrArg (c :: ·) hjoin,
      List.forall_mem_cons.mpr ⟨hok, hall⟩⟩
  | @angles _ s t hok hs _ _ iht =>
    -- Everything inside the angle brackets is one run of inner characters, whatever it is nested
    -- in.
    have hsplit : '<' :: (s ++ '>' :: t) = '<' :: (s ++ ['>']) ++ t := by simp
    rw [hsplit] at hname ⊢
    obtain ⟨ts, hts, hjoin, hall⟩ := iht hparen (noOperator_append.mp hname).2
    refine ⟨_, (scans_angles hs.closes_angles hs.closes_parens).append hts, ?_, ?_⟩
    · have hinner : Token.join ((s ++ ['>']).map .inner) = s ++ ['>'] := by
        unfold Token.join
        rw [List.flatMap_map]
        exact List.flatMap_singleton' _
      show Token.join (.char '<' :: (s ++ ['>']).map .inner ++ ts) = _
      unfold Token.join at hjoin hinner ⊢
      rw [List.flatMap_append, List.flatMap_cons, hinner, hjoin]
      rfl
    · refine List.forall_mem_append.mpr ⟨List.forall_mem_cons.mpr ⟨hok, ?_⟩, hall⟩
      intro t ht
      obtain ⟨c, _, rfl⟩ := List.mem_map.mp ht
      exact True.intro
  | parens hok => exact absurd hok hparen

/-- Only whether an identifier goes on matters of the character before. -/
theorem tokensFrom_congr {b' : Option Char} {angle paren : Nat}
    (h : b.any isIdentifierChar = b'.any isIdentifierChar) : tokensFrom b angle paren s = tokensFrom b' angle paren s := by
  cases s with
  | nil =>
    unfold tokensFrom
    rfl
  | cons c s =>
    unfold tokensFrom
    rw [operatorName?_congr h]

/-- The tokens of a text that closes its brackets stay what they are when something is put behind it, if it has neither
an operator name nor a parenthesis outside of brackets. -/
theorem tokensFrom_append {angle paren : Nat} (ha : closes '<' '>' angle s = true) (hp : closes '(' ')' paren s = true)
    (h : ∀ t ∈ tokensFrom b angle paren s, t.isOperator = false ∧ t ≠ .char '(')
    (hrest : r.head?.any isIdentifierChar = false) :
    tokensFrom b angle paren (s ++ r) = tokensFrom b angle paren s ++ tokensFrom (lastChar b s) 0 0 r := by
  -- Along the tokens of the first part. An operator's name is excluded there, since it could run on
  -- into the second.
  fun_induction tokensFrom b angle paren s with
  | case1 =>
    obtain rfl := closes_nil.mp ha
    obtain rfl := closes_nil.mp hp
    rfl
  | case2 b angle paren c s hopen rest hdrop ih =>
    obtain ⟨rfl, rfl⟩ := hopen
    have hs := dropPrefix?_eq_some_iff.mp hdrop
    have hscan : Scans b anonymousNamespace (rest ++ r) [.anonymous] := scans_anonymous
    rw [hs] at ha hp ⊢
    have hcloses : closes '<' '>' 0 rest = true ∧ closes '(' ')' 0 rest = true := ⟨ha, hp⟩
    rw [List.append_assoc, lastChar_append, hscan, List.cons_append, List.nil_append]
    exact congrArg (.anonymous :: ·) (ih hcloses.1 hcloses.2 fun t ht => h t (List.mem_cons_of_mem _ ht))
  | case3 b angle paren c s hopen hno name rest hname ih =>
    exact absurd (h _ List.mem_cons_self).1 (by simp [Token.isOperator])
  | case4 b angle paren c s hopen hno hname ih =>
    obtain ⟨rfl, rfl⟩ := hopen
    have hc : c ≠ '(' := fun hc => (h _ List.mem_cons_self).2 (congrArg Token.char hc)
    rw [List.cons_append, tokensFrom_char (not_anonymous_of_ne hc) (operatorName?_append_none hname hrest)]
    exact congrArg (.char c :: ·)
      (ih (closes_angleDepth ha).1 (closes_parenDepth hp).1 fun t ht => h t (List.mem_cons_of_mem _ ht))
  | case5 b angle paren c s hopen ih =>
    rw [List.cons_append, tokensFrom_inner hopen]
    exact congrArg (.inner c :: ·)
      (ih (closes_angleDepth ha).1 (closes_parenDepth hp).1 fun t ht => h t (List.mem_cons_of_mem _ ht))

/-! ## Counting angle brackets -/

theorem anglesBalancedFrom_cons {d : Nat} (hname : operatorName? b (c :: s) = none)
    (hd : ¬ (c = '>' ∧ d = 0)) :
    anglesBalancedFrom b d (c :: s) = anglesBalancedFrom (some c) (angleDepth d c) s := by
  conv => lhs; unfold anglesBalancedFrom
  split
  · rename_i name e he
    rw [hname] at he
    cases he
  · rw [if_neg hd]

theorem anglesBalancedFrom_operator {name : List Char} {d : Nat}
    (hname : operatorName? b (name ++ r) = some (name, r)) :
    anglesBalancedFrom b d (name ++ r) = anglesBalancedFrom name.getLast? d r := by
  cases hs : name ++ r with
  | nil =>
    rw [hs] at hname
    cases hname
  | cons c s =>
    rw [hs] at hname
    conv => lhs; unfold anglesBalancedFrom
    split
    · rename_i name' e he
      rw [hname] at he
      obtain ⟨rfl, rfl⟩ := Prod.mk.inj (Option.some.inj he)
      rfl
    · rename_i he
      rw [hname] at he
      cases he

/-- Counting angle brackets passes over a text that closes its own ones. -/
theorem anglesBalancedFrom_append {d : Nat} (h : closes '<' '>' 0 s = true) (hname : NoOperator b s r) :
    anglesBalancedFrom b d (s ++ r) = anglesBalancedFrom (lastChar b s) d r := by
  have main : ∀ {s : List Char} {b : Option Char} {k : Nat}, closes '<' '>' k s = true → NoOperator b s r →
      anglesBalancedFrom b (d + k) (s ++ r) = anglesBalancedFrom (lastChar b s) d r := by
    intro s
    induction s with
    | nil =>
      intro b k h _
      obtain rfl := closes_nil.mp h
      rfl
    | cons c s ih =>
      intro b k h ⟨hc, hs⟩
      -- a bracket that closes has its partner in the text
      have hpartner : ¬ (c = '>' ∧ d + k = 0) := by
        rintro ⟨rfl, hk⟩
        obtain rfl : k = 0 := by omega
        cases h
      obtain ⟨htail, hdepth⟩ := closes_angleDepth h
      rw [List.cons_append, anglesBalancedFrom_cons hc hpartner, hdepth]
      exact ih htail hs
  exact main h hname

end PathSafety.Name
