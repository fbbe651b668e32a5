import PathSafety.Name.Resolve
import PathSafety.Proofs.Name.Tags
import PathSafety.Proofs.Name.Tokens

/-!
# The parts of a name

What stands before the parameters of a name falls into the type of the result, the scopes and the function. The
scanners that find these parts pass over each of them for one reason: outside of brackets it has nothing that they
look for. That is all that is asked of the parts here; which texts have this property is the matter of grammars of
names.

Contents:

* `Inert`, `splitScopeTokens_append`, `splitBlank?_append_none`, `splitParenthesis?_append` — the tokens that end no
  part;
* `Solid` — texts without white space at their ends;
* `Plain` — texts that are read as a whole, since nothing in them ends a part;
* `Parts`, `Parts.Readable` — the parts of what stands before the parameters, and when they are readable;
* `Parts.Readable.splitScopes_qualified`, `Parts.Readable.splitResult_head`, `splitParameters_of_scans` — the parts
  are found where they are;
* `Parts.anglesBalanced_head` — every angle bracket has its partner if those of every part have;
* `Parts.Readable.ofText?_of_tagged` — the descriptor of a name.
-/

namespace PathSafety.Name

open Text

variable {b : Option Char} {c : Char} {r s t p q : List Char} {ts us : List Token} {ok : Token → Prop}

/-! ## Lists of tokens -/

/-- A token that no part of a name ends with. -/
structure Inert (t : Token) : Prop where
  operator : t.isOperator = false
  paren : t ≠ .char '('
  colon : t ≠ .char ':'
  blank : t ≠ .char ' '

theorem join_append : Token.join (ts ++ us) = Token.join ts ++ Token.join us := List.flatMap_append

theorem join_cons (t : Token) : Token.join (t :: ts) = t.text ++ Token.join ts := List.flatMap_cons

@[simp] theorem join_chars (s : List Char) : Token.join (s.map .char) = s := by
  unfold Token.join
  rw [List.flatMap_map]
  exact List.flatMap_singleton' s

@[simp] theorem join_inners (s : List Char) : Token.join (s.map .inner) = s := by
  unfold Token.join
  rw [List.flatMap_map]
  exact List.flatMap_singleton' s

/-- No token of angle brackets with what stands in them ends a part. -/
theorem exists_scans_angles (ha : closes '<' '>' 0 s = true) (hp : closes '(' ')' 0 s = true) :
    ∃ ts, Scans b ('<' :: (s ++ ['>'])) r ts ∧ Token.join ts = '<' :: (s ++ ['>']) ∧ ∀ t ∈ ts, Inert t := by
  refine ⟨_, scans_angles ha hp, ?_, ?_⟩
  · rw [join_cons, join_inners]
    rfl
  · refine List.forall_mem_cons.mpr ⟨⟨rfl, by decide, by decide, by decide⟩, fun t ht => ?_⟩
    obtain ⟨c, _, rfl⟩ := List.mem_map.mp ht
    exact ⟨rfl, nofun, nofun, nofun⟩

theorem splitParenthesis?_append (h : ∀ t ∈ ts, t ≠ .char '(') :
    splitParenthesis? (ts ++ us) = (splitParenthesis? us).map fun x => (Token.join ts ++ x.1, x.2) := by
  induction ts with
  | nil => exact (Option.map_id' (x := splitParenthesis? us)).symm
  | cons t ts ih =>
    obtain ⟨ht, hts⟩ := List.forall_mem_cons.mp h
    rw [List.cons_append]
    conv => lhs; unfold splitParenthesis?
    rw [if_neg ht, ih hts, Option.map_map]
    refine congrArg (Option.map · _) (funext fun x => ?_)
    rw [join_cons, List.append_assoc]
    rfl

theorem splitBlank?_append_some {a b : List Char} (h : ∀ t ∈ ts, t.isOperator = false)
    (hus : splitBlank? us = some (a, b)) : splitBlank? (ts ++ us) = some (Token.join ts ++ a, b) := by
  induction ts with
  | nil => exact hus
  | cons t ts ih =>
    obtain ⟨ht, hts⟩ := List.forall_mem_cons.mp h
    rw [List.cons_append]
    conv => lhs; unfold splitBlank?
    rw [ht, if_neg Bool.false_ne_true, ih hts]
    dsimp only
    rw [join_cons, List.append_assoc]

theorem splitBlank?_append_none (h : ∀ t ∈ ts, t ≠ .char ' ') (hus : splitBlank? us = none) :
    splitBlank? (ts ++ us) = none := by
  induction ts with
  | nil => exact hus
  | cons t ts ih =>
    obtain ⟨ht, hts⟩ := List.forall_mem_cons.mp h
    rw [List.cons_append]
    unfold splitBlank?
    rw [ih hts]
    dsimp only
    rw [if_neg ht, ite_self]

theorem splitScopeTokens_ne_nil (ts : List Token) : splitScopeTokens ts ≠ [] := by
  unfold splitScopeTokens
  split
  · exact List.cons_ne_nil _ _
  · exact List.cons_ne_nil _ _
  · split <;> exact List.cons_ne_nil _ _

theorem splitScopeTokens_cons {t : Token} (ht : t ≠ .char ':') :
    splitScopeTokens (t :: ts) = (splitScopeTokens ts).modifyHead (t.text ++ ·) := by
  conv => lhs; unfold splitScopeTokens
  split
  · rename_i heq
    cases heq
  · rename_i heq
    exact absurd (List.cons.inj heq).1 ht
  · rename_i heq
    obtain ⟨rfl, rfl⟩ := List.cons.inj heq
    split
    · rename_i heq
      rw [heq]
      rfl
    · rename_i heq
      exact absurd heq (splitScopeTokens_ne_nil _)

theorem splitScopeTokens_append (h : ∀ t ∈ ts, t ≠ .char ':') :
    splitScopeTokens (ts ++ us) = (splitScopeTokens us).modifyHead (Token.join ts ++ ·) := by
  induction ts with
  | nil => exact (modifyHead_nil_append _).symm
  | cons t ts ih =>
    obtain ⟨ht, hts⟩ := List.forall_mem_cons.mp h
    rw [List.cons_append, splitScopeTokens_cons ht, ih hts, modifyHead_append, join_cons]

/-! ## White space at the ends -/

/-- That no white space stands at the ends of a text, which is not empty. -/
structure Solid (s : List Char) : Prop where
  nonempty : s ≠ []
  head : ∀ c ∈ s.head?, isBlank c = false
  last : ∀ c ∈ s.getLast?, isBlank c = false

theorem Solid.trim (h : Solid s) : trim s = s := trim_eq_self h.head h.last

/-- What stands before a solid text only has to begin without white space. -/
theorem Solid.append_left {t : List Char} (hs : Solid s) (ht : ∀ c ∈ t.head?, isBlank c = false) :
    Solid (t ++ s) where
  nonempty := fun h => hs.nonempty (List.append_eq_nil_iff.mp h).2
  head := by
    cases t with
    | nil => exact hs.head
    | cons c t => exact ht
  last := by
    rw [List.getLast?_append, Option.or_of_isSome (List.getLast?_isSome.mpr hs.nonempty)]
    exact hs.last

theorem solid_angles : Solid ('<' :: (s ++ ['>'])) where
  nonempty := List.cons_ne_nil _ _
  head := by
    rintro _ ⟨⟩
    rfl
  last c hc := by
    have hlast : ('<' :: s ++ ['>']).getLast? = some '>' := List.getLast?_concat
    obtain rfl := Option.some.inj (hlast.symm.trans hc)
    rfl

/-! ## Texts that are read as a whole -/

/-- What may follow a function: the list of parameters, if anything. -/
def EndsHead (r : List Char) : Prop := r.head? = none ∨ r.head? = some '('

theorem EndsHead.not_identifier (h : EndsHead r) : r.head?.any isIdentifierChar = false := by
  rcases h with h | h <;> rw [h] <;> rfl

/-- That a text which no identifier goes on from or into has tokens of some kind only, and leaves no bracket open. -/
def Reads (ok : Token → Prop) (s : List Char) : Prop :=
  ∀ {b : Option Char} {r : List Char}, b.any isIdentifierChar = false → r.head?.any isIdentifierChar = false →
    ∃ ts, Scans b s r ts ∧ Token.join ts = s ∧ ∀ t ∈ ts, ok t

/-- The type of a result: no operator name and no parenthesis stands outside of its brackets. -/
structure ReadsAsResult (s : List Char) : Prop where
  solid : Solid s
  reads : Reads (fun t => t.isOperator = false ∧ t ≠ .char '(') s

/-- A text that closes its brackets is read as such a type if it is one on its own. -/
theorem ReadsAsResult.of_tokens (hsolid : Solid s) (ha : closes '<' '>' 0 s = true) (hp : closes '(' ')' 0 s = true)
    (h : ∀ t ∈ tokens s, t.isOperator = false ∧ t ≠ .char '(') : ReadsAsResult s where
  solid := hsolid
  reads {b r} hb hr := by
    have halone : tokensFrom b 0 0 s = tokens s := tokensFrom_congr hb
    have happend := tokensFrom_append (b := b) ha hp (halone ▸ h) hr
    exact ⟨tokens s, happend.trans (congrArg (· ++ _) halone), join_tokens s, h⟩

/-- A scope: nothing that ends a part stands outside of its brackets. -/
structure ReadsAsScope (s : List Char) : Prop where
  head : ∀ c ∈ s.head?, isBlank c = false
  reads : Reads Inert s

/-- A function: no parenthesis and no colon stands outside of its brackets, and a blank only behind an operator
name. -/
structure ReadsAsFunction (s : List Char) : Prop where
  solid : Solid s
  reads : ∀ {b : Option Char} {r : List Char}, b.any isIdentifierChar = false → EndsHead r →
    ∃ ts, Scans b s r ts ∧ Token.join ts = s ∧ (∀ t ∈ ts, t ≠ .char '(' ∧ t ≠ .char ':') ∧ splitBlank? ts = none

theorem splitBlank?_of_inert (h : ∀ t ∈ ts, Inert t) : splitBlank? ts = none := by
  have hnone : splitBlank? (ts ++ []) = none := splitBlank?_append_none (fun t ht => (h t ht).blank) rfl
  rwa [List.append_nil] at hnone

/-- What is read as a scope is read as a function. -/
theorem ReadsAsFunction.of_inert (hsolid : Solid s) (hreads : Reads Inert s) : ReadsAsFunction s where
  solid := hsolid
  reads hb hr := by
    obtain ⟨ts, hts, hjoin, hinert⟩ := hreads hb hr.not_identifier
    exact ⟨ts, hts, hjoin, fun t ht => ⟨(hinert t ht).paren, (hinert t ht).colon⟩, splitBlank?_of_inert hinert⟩

/-- A text in which brackets nest properly, and nothing that ends a part stands outside of them. -/
structure Plain (s : List Char) : Prop where
  nested : Nested (fun c => c ≠ '(' ∧ c ≠ ':' ∧ c ≠ ' ') s
  keywordFree : KeywordFree s

theorem Plain.exists_scans (h : Plain s) (hr : r.head?.any isIdentifierChar = false) :
    ∃ ts, Scans b s r ts ∧ Token.join ts = s ∧ ∀ t ∈ ts, Inert t := by
  obtain ⟨ts, hts, hjoin, hall⟩ := Name.exists_scans h.nested (fun h => h.1 rfl) (h.keywordFree.noOperator hr)
  refine ⟨ts, hts, hjoin, fun t ht => ⟨(hall t ht).isOperator, ?_, ?_, ?_⟩⟩
  · exact (hall t ht).ne_char fun h => h.1 rfl
  · exact (hall t ht).ne_char fun h => h.2.1 rfl
  · exact (hall t ht).ne_char fun h => h.2.2 rfl

theorem Plain.reads (h : Plain s) : Reads Inert s := fun _ hr => h.exists_scans hr

/-! ## Parts -/

/-- A function in its scopes. -/
def inScopes : List (List Char) → List Char → List Char
  | [], last => last
  | scope :: scopes, last => scope ++ (separator ++ inScopes scopes last)

/-- The parts of what stands before the parameters. -/
structure Parts where
  result : Option (List Char)
  scopes : List (List Char)
  last : List Char

namespace Parts

variable (x : Parts)

/-- The function in its scopes. -/
def qualified : List Char := inScopes x.scopes x.last

/-- What stands before the parameters. -/
def head : List Char :=
  match x.result with
  | none => x.qualified
  | some result => result ++ ' ' :: x.qualified

/-- That all parts are read as such. -/
structure Readable : Prop where
  result : ∀ s ∈ x.result, ReadsAsResult s
  scopes : ∀ s ∈ x.scopes, ReadsAsScope s
  last : ReadsAsFunction x.last

end Parts

theorem scans_separator : Scans b separator r [.char ':', .char ':'] :=
  (scans_char rfl (operatorName?_of_ne (by decide))).append (scans_char rfl (operatorName?_of_ne (by decide)))

/-- The tokens of a function in its scopes: the separators among them part the scopes. -/
theorem exists_scans_inScopes {scopes : List (List Char)} {last : List Char} (hscopes : ∀ s ∈ scopes, ReadsAsScope s)
    (hlast : ReadsAsFunction last) (hbefore : b.any isIdentifierChar = false) (h : EndsHead r) :
    ∃ ts, Scans b (inScopes scopes last) r ts ∧ Token.join ts = inScopes scopes last ∧
      (∀ t ∈ ts, t ≠ .char '(') ∧ splitBlank? ts = none ∧ splitScopeTokens ts = scopes ++ [last] := by
  induction scopes generalizing b with
  | nil =>
    obtain ⟨ts, hts, hjoin, hall, hblank⟩ := hlast.reads hbefore h
    refine ⟨ts, hts, hjoin, fun t ht => (hall t ht).1, hblank, ?_⟩
    have hsplit : splitScopeTokens (ts ++ []) = _ := splitScopeTokens_append fun t ht => (hall t ht).2
    rw [List.append_nil, hjoin] at hsplit
    exact hsplit.trans (congrArg (· :: []) (List.append_nil last))
  | cons scope scopes ih =>
    obtain ⟨hscope, hscopes⟩ := List.forall_mem_cons.mp hscopes
    obtain ⟨ts, hts, hjoin, hinert⟩ := hscope.reads (r := separator ++ inScopes scopes last ++ r) hbefore rfl
    have hcolon : lastChar (lastChar b scope) separator = some ':' := rfl
    -- Behind a separator stands a colon, so the next scope starts a word of its own.
    obtain ⟨us, hus, hjoin', hall, hblank, hsplit⟩ := ih (b := some ':') hscopes rfl
    rw [← hcolon] at hus
    refine ⟨_, hts.append (scans_separator.append hus), ?_, ?_, ?_, ?_⟩
    · rw [join_append, join_append, hjoin, hjoin']
      rfl
    · refine List.forall_mem_append.mpr ⟨fun t ht => (hinert t ht).paren, ?_⟩
      exact List.forall_mem_append.mpr ⟨by decide, hall⟩
    · refine splitBlank?_append_none (fun t ht => (hinert t ht).blank) ?_
      exact splitBlank?_append_none (by decide) hblank
    · rw [splitScopeTokens_append fun t ht => (hinert t ht).colon, hjoin]
      show ([] :: splitScopeTokens us).modifyHead (scope ++ ·) = _
      rw [hsplit]
      exact congrArg (· :: (scopes ++ [last])) (List.append_nil scope)

theorem solid_inScopes {scopes : List (List Char)} {last : List Char} (hscopes : ∀ s ∈ scopes, ReadsAsScope s)
    (hlast : ReadsAsFunction last) : Solid (inScopes scopes last) := by
  induction scopes with
  | nil => exact hlast.solid
  | cons scope scopes ih =>
    obtain ⟨hscope, hscopes⟩ := List.forall_mem_cons.mp hscopes
    unfold inScopes
    rw [← List.append_assoc]
    refine (ih hscopes).append_left ?_
    cases scope with
    | nil =>
      intro c hc
      obtain rfl := Option.some.inj hc
      rfl
    | cons c scope => exact hscope.head

namespace Parts.Readable

variable {x : Parts} (h : x.Readable)

include h

theorem splitScopes_qualified : splitScopes x.qualified = x.scopes ++ [x.last] := by
  obtain ⟨ts, hts, _, _, _, hsplit⟩ :=
    exists_scans_inScopes (b := none) (r := []) h.scopes h.last rfl (Or.inl rfl)
  unfold splitScopes qualified
  rw [tokens_of_scans hts, hsplit]

theorem solid_qualified : Solid x.qualified := solid_inScopes h.scopes h.last

theorem solid_head : Solid x.head := by
  unfold head
  cases hx : x.result with
  | none => exact h.solid_qualified
  | some result =>
    have hresult := (h.result result hx).solid
    dsimp only
    rw [List.append_cons]
    refine h.solid_qualified.append_left ?_
    rw [List.head?_append, Option.or_of_isSome (List.isSome_head?.mpr hresult.nonempty)]
    exact hresult.head

/-- The tokens of what stands before the parameters. -/
theorem exists_scans_head (hr : EndsHead r) :
    ∃ ts, Scans none x.head r ts ∧ Token.join ts = x.head ∧ (∀ t ∈ ts, t ≠ .char '(') ∧
      splitBlank? ts = x.result.map fun result => (result, x.qualified) := by
  unfold head
  cases hx : x.result with
  | none =>
    obtain ⟨ts, hts, hjoin, hall, hblank, _⟩ :=
      exists_scans_inScopes (b := none) h.scopes h.last rfl hr
    exact ⟨ts, hts, hjoin, hall, hblank⟩
  | some result =>
    obtain ⟨ts, hts, hjoin, hall⟩ :=
      (h.result result hx).reads (b := none) (r := ' ' :: x.qualified ++ r) rfl rfl
    obtain ⟨us, hus, hjoin', hall', hblank, _⟩ :=
      exists_scans_inScopes (b := some ' ') h.scopes h.last rfl hr
    -- The blank behind the result is the first one on the top level, and the head is split there.
    have hgap : Scans (lastChar none result) [' '] (x.qualified ++ r) [.char ' '] :=
      scans_char rfl (operatorName?_of_ne (by decide))
    refine ⟨_, hts.append (hgap.append hus), ?_, ?_, ?_⟩
    · rw [join_append, join_append, hjoin, hjoin']
      rfl
    · refine List.forall_mem_append.mpr ⟨fun t ht => (hall t ht).2, ?_⟩
      exact List.forall_mem_append.mpr ⟨by decide, hall'⟩
    · have hsplit : splitBlank? ([.char ' '] ++ us) = some ([], x.qualified) := by
        show splitBlank? (.char ' ' :: us) = _
        unfold splitBlank?
        rw [hblank, hjoin']
        rfl
      rw [splitBlank?_append_some (fun t ht => (hall t ht).1) hsplit, hjoin, List.append_nil]
      rfl

/-- The type of the result is told apart from the function. -/
theorem splitResult_head : splitResult x.head = (x.result, x.qualified) := by
  obtain ⟨ts, hts, _, _, hblank⟩ := h.exists_scans_head (r := []) (Or.inl rfl)
  unfold splitResult
  rw [tokens_of_scans hts, hblank]
  cases hx : x.result with
  | none =>
    have hhead : x.head = x.qualified := by
      unfold head
      rw [hx]
    rw [Option.map_none, hhead]
    exact congrArg (Prod.mk none) h.solid_qualified.trim
  | some result =>
    have hresult := (h.result result hx).solid
    rw [Option.map_some]
    dsimp only
    rw [hresult.trim, h.solid_qualified.trim, if_neg (by rw [List.isEmpty_iff]; exact hresult.nonempty)]

end Parts.Readable

/-! ## Angle brackets -/

/-- That counting angle brackets passes over a text that no identifier goes on from, in front of what `ends` says. -/
def Passes (ends : List Char → Prop) (s : List Char) : Prop :=
  ∀ {b : Option Char} {d : Nat} {r : List Char}, b.any isIdentifierChar = false → ends r →
    anglesBalancedFrom b d (s ++ r) = anglesBalancedFrom (lastChar b s) d r

theorem passes_of_noOperator {ends : List Char → Prop} (hs : closes '<' '>' 0 s = true)
    (hno : ∀ {b r}, ends r → NoOperator b s r) : Passes ends s := fun _ hr => anglesBalancedFrom_append hs (hno hr)

theorem Plain.passes (h : Plain s) : Passes (fun r => r.head?.any isIdentifierChar = false) s :=
  passes_of_noOperator h.nested.closes_angles h.keywordFree.noOperator

theorem passes_inScopes {scopes : List (List Char)} {last : List Char}
    (hscopes : ∀ s ∈ scopes, Passes (fun r => r.head?.any isIdentifierChar = false) s) (hlast : Passes EndsHead last) :
    Passes EndsHead (inScopes scopes last) := by
  intro b d r hbefore hr
  induction scopes generalizing b with
  | nil => exact hlast hbefore hr
  | cons scope scopes ih =>
    obtain ⟨hscope, hscopes⟩ := List.forall_mem_cons.mp hscopes
    have hseparator : NoOperator (lastChar b scope) separator (inScopes scopes last ++ r) :=
      ⟨operatorName?_of_ne (by decide), operatorName?_of_ne (by decide), True.intro⟩
    have htail := ih hscopes (b := some ':') rfl
    unfold inScopes
    rw [List.append_assoc, List.append_assoc, hscope hbefore rfl, anglesBalancedFrom_append rfl hseparator,
      lastChar_append, lastChar_append]
    exact htail

/-- Every angle bracket before the parameters has its partner if those of every part have. -/
theorem Parts.anglesBalanced_head {x : Parts}
    (hresult : ∀ s ∈ x.result, Passes (fun r => r.head?.any isIdentifierChar = false) s)
    (hscopes : ∀ s ∈ x.scopes, Passes (fun r => r.head?.any isIdentifierChar = false) s)
    (hlast : Passes EndsHead x.last) : anglesBalanced x.head = true := by
  have hqualified : ∀ b : Option Char, b.any isIdentifierChar = false →
      anglesBalancedFrom b 0 x.qualified = true := by
    intro b hbefore
    have hpass := passes_inScopes hscopes hlast (d := 0) (r := []) hbefore (Or.inl rfl)
    rw [List.append_nil] at hpass
    rw [qualified, hpass]
    unfold anglesBalancedFrom
    rfl
  unfold anglesBalanced head
  cases hx : x.result with
  | none => exact hqualified none rfl
  | some result =>
    have hgap : ∀ b, anglesBalancedFrom b 0 (' ' :: x.qualified) =
        anglesBalancedFrom (some ' ') 0 x.qualified := fun b =>
      anglesBalancedFrom_cons (operatorName?_of_ne (by decide)) (by decide)
    dsimp only
    rw [hresult result hx rfl rfl, hgap]
    exact hqualified (some ' ') rfl

/-! ## Parameters -/

/-- A list of parameters is no name of the anonymous namespace if it does not read so. -/
theorem not_anonymous_of_closes (hp : closes '(' ')' 0 p = true) (hne : p ≠ "anonymous namespace".toList) :
    ¬ anonymousNamespace <+: '(' :: (p ++ ')' :: q) := by
  rintro ⟨r, hr⟩
  have hparts : anonymousNamespace ++ r = '(' :: ("anonymous namespace".toList ++ ')' :: r) := rfl
  rw [hparts] at hr
  -- what stands before the parenthesis that closes is the list, and the name
  have hname : beforeClosing 0 (p ++ ')' :: q) = "anonymous namespace".toList := by
    rw [← (List.cons.inj hr).2]
    exact beforeClosing_close rfl
  rw [beforeClosing_close hp] at hname
  exact hne hname

/-- The parameters begin at the first parenthesis outside of brackets, whatever comes behind them. -/
theorem splitParameters_of_scans (hts : Scans none s ('(' :: (p ++ ')' :: q)) ts) (hjoin : Token.join ts = s)
    (hall : ∀ t ∈ ts, t ≠ .char '(') (hp : closes '(' ')' 0 p = true) (hne : p ≠ "anonymous namespace".toList) :
    splitParameters (s ++ '(' :: (p ++ ')' :: q)) = (trimRight s, splitList p) := by
  have hopen := tokensFrom_char (b := lastChar none s) (not_anonymous_of_closes (q := q) hp hne)
    (operatorName?_of_ne (by decide))
  have hfound : splitParenthesis? (tokens (s ++ '(' :: (p ++ ')' :: q))) = some (s, p ++ ')' :: q) := by
    have htokens := hts.trans (congrArg (ts ++ ·) hopen)
    unfold tokens
    rw [htokens, splitParenthesis?_append hall]
    unfold splitParenthesis?
    rw [if_pos rfl, join_tokensFrom, Option.map_some, hjoin, List.append_nil]
  unfold splitParameters
  rw [hfound]
  dsimp only
  rw [beforeClosing_close hp]

/-- Without a parenthesis outside of brackets there are no parameters. -/
theorem splitParameters_of_scans_nil (hts : Scans none s [] ts) (hall : ∀ t ∈ ts, t ≠ .char '(')
    (hangles : anglesBalanced s = true) : splitParameters s = (s, []) := by
  have hnone : splitParenthesis? (tokens s) = none := by
    have hsplit : splitParenthesis? (ts ++ []) = _ := splitParenthesis?_append hall
    rw [List.append_nil] at hsplit
    rw [tokens_of_scans hts, hsplit]
    rfl
  unfold splitParameters
  rw [hnone]
  dsimp only
  rw [hangles, if_pos rfl]

/-- White space at the end of a name stands behind the parameters. -/
theorem trim_append_parameters (hhead : ∀ c ∈ s.head?, isBlank c = false) :
    trim (s ++ '(' :: (p ++ ')' :: q)) = s ++ '(' :: (p ++ ')' :: trimRight q) := by
  have hright := trimRight_append (s := s ++ '(' :: p) (t := q) (c := ')') rfl
  have hleft : trimLeft (s ++ '(' :: (p ++ ')' :: q)) = s ++ '(' :: (p ++ ')' :: q) := by
    cases s with
    | nil => exact trimLeft_cons rfl
    | cons c s => exact trimLeft_cons (hhead c rfl)
  unfold trim
  rw [hleft]
  rw [List.append_assoc, List.append_assoc] at hright
  exact hright

/-! ## Descriptors -/

/-- A text that is no mangled name is its own printed name. -/
theorem demangle_ofList (hne : t ≠ []) (hmangled : ¬ mangledOpening <+: t) :
    demangle (String.ofList t) = .ok (String.ofList t) := by
  have hempty : (String.ofList t).isEmpty = false := by
    rw [Bool.eq_false_iff, ne_eq, String.isEmpty_iff]
    intro h
    exact hne (by rw [← String.toList_ofList (l := t), h]; rfl)
  have hstarts : startsWith mangledOpening t = false := by
    rw [Bool.eq_false_iff, ne_eq, startsWith_iff]
    exact hmangled
  unfold demangle
  rw [hempty, String.toList_ofList, hstarts]
  rfl

/-- A symbol has the descriptor of its printed name. -/
theorem resolve_of_demangle {symbol : String} {d : Descriptor} (hsymbol : demangle symbol = .ok (String.ofList t))
    (h : Descriptor.ofText? t = some d) : resolve symbol = .ok d := by
  unfold resolve
  rw [hsymbol]
  simp only [bind, Except.bind, String.toList_ofList, h]
  rfl

theorem ofText?_of_resolve {symbol : String} {d : Descriptor} (hsymbol : demangle symbol = .ok (String.ofList t))
    (h : resolve symbol = .ok d) : Descriptor.ofText? t = some d := by
  unfold resolve at h
  rw [hsymbol] at h
  simp only [bind, Except.bind, String.toList_ofList] at h
  cases htext : Descriptor.ofText? t with
  | none =>
    rw [htext] at h
    cases h
  | some d' =>
    rw [htext] at h
    rw [Except.ok.inj h]

theorem resolve_ofList {d : Descriptor} (h : Descriptor.ofText? t = some d) (hmangled : ¬ mangledOpening <+: t) :
    resolve (String.ofList t) = .ok d := by
  refine resolve_of_demangle (demangle_ofList ?_ hmangled) h
  rintro rfl
  -- a blank name has no descriptor
  unfold Descriptor.ofText? at h
  rw [stripTags_of_untagged untagged_nil] at h
  cases h

/-- A name without tags that is not all white space has a descriptor. -/
theorem exists_ofText? (hc : isBlank c = false) (huntagged : Untagged (s ++ c :: t)) :
    ∃ d, Descriptor.ofText? (s ++ c :: t) = some d := by
  have hne : (trim (s ++ c :: t)).isEmpty = false := by
    rw [Bool.eq_false_iff, ne_eq, List.isEmpty_iff]
    exact trim_ne_nil hc
  unfold Descriptor.ofText?
  rw [stripTags_of_untagged huntagged]
  dsimp only
  rw [hne, if_neg Bool.false_ne_true]
  split <;> exact ⟨_, rfl⟩

/-- The descriptor of a function from its last part. -/
theorem ofQualified_of_splitScopes {scopes parameters : List (List Char)} {last function : List Char}
    {result : Option (List Char)} {args : Option (List (List Char))} {isOperator : Bool}
    (hsplit : splitScopes s = scopes ++ [last]) (hfunction : splitFunction last = (function, args, isOperator)) :
    Descriptor.ofQualified s parameters result = {
      scopes, function, parameters, result, isOperator
      templateArgs := args.or (scopes.reverse.findSome? fun scope => (splitTemplate scope).2)
      isConstructor := !isOperator && !(!isOperator && startsWith ['~'] last) &&
        scopes.getLast?.any fun scope => (splitTemplate scope).1 == function
      isDestructor := !isOperator && startsWith ['~'] last } := by
  have hlast : (scopes ++ [last]).getLast?.getD [] = last := by
    rw [List.getLast?_append]
    rfl
  unfold Descriptor.ofQualified
  rw [hsplit]
  simp only [List.dropLast_concat, hlast, hfunction]

/-- What is said of a function by its parts and its parameters. -/
def Parts.descriptor (x : Parts) (parameters : List (List Char)) : Descriptor :=
  if anglesBalanced x.head then .ofQualified x.qualified parameters x.result else .ofUnbalanced x.head parameters

/-- The descriptor of a name is the one that its parts make, once its parameters are found. -/
theorem Parts.Readable.ofText?_of_splitParameters {x : Parts} (h : x.Readable) {parameters : List (List Char)}
    (hne : (trim (stripTags s)).isEmpty = false) (hsplit : splitParameters (trim (stripTags s)) = (x.head, parameters)) :
    Descriptor.ofText? s = some (x.descriptor parameters) := by
  unfold Descriptor.ofText? descriptor
  dsimp only
  rw [hne, if_neg Bool.false_ne_true, hsplit]
  dsimp only
  rw [h.splitResult_head]
  split <;> rfl

/-- A name without parameters says what its parts say. -/
theorem Parts.Readable.ofText?_of_tagged_head {x : Parts} (h : x.Readable) (hangles : anglesBalanced x.head = true)
    (htagged : Tagged t x.head) (huntagged : Untagged x.head) :
    Descriptor.ofText? t = some (x.descriptor []) := by
  obtain ⟨ts, hts, _, hall, _⟩ := h.exists_scans_head (r := []) (Or.inl rfl)
  refine h.ofText?_of_splitParameters ?_ ?_ <;> rw [stripTags_of_tagged htagged huntagged, h.solid_head.trim]
  · rw [Bool.eq_false_iff, ne_eq, List.isEmpty_iff]
    exact h.solid_head.nonempty
  · exact splitParameters_of_scans_nil hts hall hangles

/-- **Parts of a name.** A name with tags put into it says what its parts say. What stands behind the parameters says
nothing. -/
theorem Parts.Readable.ofText?_of_tagged {x : Parts} (h : x.Readable) (hp : closes '(' ')' 0 p = true)
    (hne : p ≠ "anonymous namespace".toList) (htagged : Tagged t (x.head ++ '(' :: (p ++ ')' :: q)))
    (huntagged : Untagged (x.head ++ '(' :: (p ++ ')' :: q))) :
    Descriptor.ofText? t = some (x.descriptor (splitList p)) := by
  obtain ⟨ts, hts, hjoin, hall, _⟩ := h.exists_scans_head (r := '(' :: (p ++ ')' :: trimRight q)) (Or.inr rfl)
  have hsplit := splitParameters_of_scans hts hjoin hall hp hne
  rw [trimRight_eq_self h.solid_head.last] at hsplit
  refine h.ofText?_of_splitParameters ?_ ?_ <;>
    rw [stripTags_of_tagged htagged huntagged, trim_append_parameters h.solid_head.head]
  · rw [Bool.eq_false_iff, ne_eq, List.isEmpty_iff]
    exact fun hnil => h.solid_head.nonempty (List.append_eq_nil_iff.mp hnil).1
  · exact hsplit

end PathSafety.Name
