import PathSafety.Proofs.Name.Operators
import PathSafety.Proofs.Name.Parts

/-!
# Printed names

The grammar of printed names: an optional type of the result, scopes, the function with optional template
arguments, an optional list of parameters and what qualifies the function. Every part carries what makes it
readable: brackets that nest properly, no operator name and no tag inside, no commas outside of the brackets of
a member of a list.

Contents:

* `Item`, `ResultType`, `Scope`, `Callee`, `Signature`, `Printed` — the parts of a name, and how they are
  printed;
* `Identifier.plain`, `Plain.append_templateText` — identifiers with template arguments are plain texts;
* `ResultType.readsAsResult`, `Callee.readsAsFunction` — the parts are read as such;
* `ResultType.passes`, `Callee.passes` — every angle bracket has its partner in its part;
* `Scope.splitTemplate_text`, `Callee.splitFunction_text` — names and template arguments are told apart.
-/

namespace PathSafety.Name

open Text

variable {b : Option Char} {r s : List Char} {ts us : List Token}

/-! ## The grammar -/

/-- A template argument or a parameter. -/
structure Item where
  text : List Char
  isItem : IsItem text
  keywordFree : KeywordFree text
  untagged : Untagged text

/-- The type of a result; parentheses stand only inside of its angle brackets. -/
structure ResultType where
  text : List Char
  nested : Nested (· ≠ '(') text
  nonempty : text ≠ []
  trimmed : trim text = text
  keywordFree : KeywordFree text
  untagged : Untagged text

/-- The texts of members of a list. -/
def texts (items : List Item) : List (List Char) := items.map Item.text

/-- Template arguments as they are printed. -/
def templateText : Option (List Item) → List Char
  | none => []
  | some items => '<' :: (commaList (texts items) ++ ['>'])

/-- What a function is declared in. -/
inductive Scope where
  | named (name : Identifier) (args : Option (List Item))
  | anonymous

namespace Scope

/-- The scope as it is written. -/
def text : Scope → List Char
  | named name args => name.text ++ templateText args
  | anonymous => anonymousNamespace

/-- The scope without template arguments. -/
def name : Scope → List Char
  | named name _ => name.text
  | anonymous => anonymousNamespace

/-- Its template arguments. -/
def args? : Scope → Option (List (List Char))
  | named _ args => args.map texts
  | anonymous => none

end Scope

/-- The function: an identifier, which may be that of a destructor, or an operator. Blanks may stand between
an operator and its template arguments, and have to behind the symbol `<`. -/
inductive Callee where
  | plain (destructor : Bool) (name : Identifier) (args : Option (List Item))
  | operator (op : Operator) (gap : Nat) (args : Option (List Item)) (spaced : op.suffix = ['<'] → 0 < gap)

/-- How destructors begin. -/
def tilde (destructor : Bool) : List Char := if destructor then ['~'] else []

namespace Callee

/-- The name without template arguments. -/
def name : Callee → List Char
  | plain destructor name _ => tilde destructor ++ name.text
  | operator op _ _ _ => op.text

/-- The template arguments. -/
def args : Callee → Option (List Item)
  | plain _ _ args => args
  | operator _ _ args _ => args

/-- How many blanks stand before the template arguments. -/
def gap : Callee → Nat
  | operator _ gap (some _) _ => gap
  | _ => 0

/-- The function as it is written. -/
def text (x : Callee) : List Char := x.name ++ (blanks x.gap ++ templateText x.args)

/-- Whether the function is an operator. -/
def isOperator : Callee → Bool
  | plain .. => false
  | operator .. => true

end Callee

/-- The list of parameters and what qualifies the function. Without any scopes a list must not read as the name
of the anonymous namespace. -/
structure Signature where
  parameters : List Item
  qualifiers : List Char
  untagged : Untagged qualifiers
  ne_anonymous : texts parameters ≠ ["anonymous namespace".toList]

/-- The signature as it is written. -/
def Signature.text (x : Signature) : List Char :=
  '(' :: (commaList (texts x.parameters) ++ ')' :: x.qualifiers)

/-- A printed name. -/
structure Printed where
  result : Option ResultType
  scopes : List Scope
  callee : Callee
  signature : Option Signature

/-- A function with its scopes as it is written. -/
def qualified : List Scope → Callee → List Char
  | [], callee => callee.text
  | scope :: scopes, callee => scope.text ++ (separator ++ qualified scopes callee)

namespace Printed

variable (n : Printed)

/-- What stands before the list of parameters. -/
def head : List Char :=
  match n.result with
  | none => qualified n.scopes n.callee
  | some result => result.text ++ ' ' :: qualified n.scopes n.callee

/-- The name as it is written. -/
def text : List Char := n.head ++ (n.signature.map Signature.text).getD []

end Printed

/-! ## Template arguments -/

theorem isItem_texts (items : List Item) : ∀ x ∈ texts items, IsItem x := by
  intro x hx
  obtain ⟨item, _, rfl⟩ := List.mem_map.mp hx
  exact item.isItem

theorem keywordFree_commaList (items : List Item) : KeywordFree (commaList (texts items)) := by
  induction items with
  | nil => exact keywordFree_nil
  | cons item items ih =>
    cases items with
    | nil =>
      unfold texts
      rw [List.map_cons, List.map_nil, commaList_singleton]
      exact item.keywordFree
    | cons next items =>
      unfold texts at ih ⊢
      rw [List.map_cons, List.map_cons, commaList_cons_cons]
      exact keywordFree_append_cons (by decide) item.keywordFree
        (keywordFree_append_cons (s := []) (by decide) keywordFree_nil ih)

theorem untagged_commaList (items : List Item) : Untagged (commaList (texts items)) := by
  induction items with
  | nil => exact untagged_nil
  | cons item items ih =>
    cases items with
    | nil =>
      unfold texts
      rw [List.map_cons, List.map_nil, commaList_singleton]
      exact item.untagged
    | cons next items =>
      unfold texts at ih ⊢
      rw [List.map_cons, List.map_cons, commaList_cons_cons, untagged_append_cons (by decide),
        untagged_cons_of_ne (by decide)]
      exact ⟨item.untagged, ih⟩

/-- Template arguments may stand behind a plain text. -/
theorem Plain.append_templateText (h : Plain s) (args : Option (List Item)) : Plain (s ++ templateText args) := by
  cases args with
  | none => rwa [show s ++ templateText none = s from List.append_nil s]
  | some items =>
    refine ⟨h.nested.append (.angles (by decide) (nested_commaList (isItem_texts items)) .nil), ?_⟩
    exact keywordFree_append_cons (by decide) h.keywordFree
      (keywordFree_append_cons (by decide) (keywordFree_commaList items) keywordFree_nil)

theorem plain_templateText (args : Option (List Item)) : Plain (templateText args) :=
  Plain.append_templateText ⟨.nil, keywordFree_nil⟩ args

theorem untagged_templateText_append (args : Option (List Item)) :
    Untagged (templateText args ++ s) ↔ Untagged s := by
  cases args with
  | none => exact Iff.rfl
  | some items =>
    unfold templateText
    rw [List.cons_append, List.append_assoc, List.singleton_append, untagged_cons_of_ne (by decide),
      untagged_append_cons (by decide), and_iff_right (untagged_commaList items)]

theorem splitTemplate_text (args : Option (List Item)) (hblank : ∀ c ∈ s.getLast?, isBlank c = false)
    (hangle : ∀ c ∈ s.getLast?, c ≠ '>') : splitTemplate (s ++ templateText args) = (s, args.map texts) := by
  cases args with
  | none =>
    have hnil : s ++ templateText none = s := List.append_nil s
    rw [hnil, splitTemplate_of_last hangle]
    rfl
  | some items =>
    have hitems := isItem_texts items
    unfold templateText
    rw [splitTemplate_append (nested_commaList hitems).closes_angles, splitList_commaList hitems,
      trimRight_eq_self hblank]
    rfl

/-! ## Identifiers and scopes -/

theorem Identifier.last (x : Identifier) : ∀ c ∈ (s ++ x.text).getLast?, isIdentifierChar c = true := by
  intro c hc
  rw [List.getLast?_append, Option.or_of_isSome (List.getLast?_isSome.mpr x.nonempty)] at hc
  exact x.chars c (List.mem_of_getLast? hc)

theorem Identifier.plain (x : Identifier) : Plain x.text where
  nested := Nested.of_chars fun c hc => ⟨x.isBracket_chars c hc, ne_of_isIdentifierChar (x.chars c hc) (by decide),
    ne_of_isIdentifierChar (x.chars c hc) (by decide), ne_of_isIdentifierChar (x.chars c hc) (by decide)⟩
  keywordFree := x.keywordFree

namespace Scope

variable (x : Scope)

theorem splitTemplate_text : splitTemplate x.text = (x.name, x.args?) := by
  cases x with
  | named name args =>
    have hlast := Identifier.last (s := []) name
    exact Name.splitTemplate_text args (fun c hc => isBlank_of_isIdentifierChar (hlast c hc))
      fun c hc => ne_of_isIdentifierChar (hlast c hc) (by decide)
  | anonymous => rfl

theorem untagged_append : Untagged (x.text ++ s) ↔ Untagged s := by
  cases x with
  | named name args =>
    unfold text
    rw [List.append_assoc, untagged_append_of_not_mem fun h => absurd (name.chars '[' h) (by decide),
      untagged_templateText_append]
  | anonymous => exact untagged_append_of_not_mem (by decide)

end Scope

theorem ResultType.readsAsResult (x : ResultType) : ReadsAsResult x.text where
  solid := ⟨x.nonempty, head_of_trim x.trimmed, last_of_trim x.trimmed⟩
  reads _ hr := by
    obtain ⟨ts, hts, hjoin, hall⟩ := Name.exists_scans x.nested (fun h => h rfl) (x.keywordFree.noOperator hr)
    exact ⟨ts, hts, hjoin, fun t ht => ⟨(hall t ht).isOperator, (hall t ht).ne_char fun h => h rfl⟩⟩

theorem ResultType.passes (x : ResultType) : Passes (fun r => r.head?.any isIdentifierChar = false) x.text :=
  passes_of_noOperator x.nested.closes_angles x.keywordFree.noOperator

/-! ## Functions -/

theorem endsName_templateText (args : Option (List Item)) (h : EndsHead r) :
    EndsName (templateText args ++ r) := by
  cases args with
  | none => exact h.imp_right Or.inr
  | some items => exact Or.inr (Or.inl rfl)

theorem noOperator_blanks (n : Nat) : NoOperator b (blanks n) r := by
  induction n generalizing b with
  | zero => exact True.intro
  | succ n ih => exact ⟨operatorName?_of_ne (by decide), ih⟩

theorem Operator.last_text (op : Operator) : ∀ c ∈ op.text.getLast?, isBlank c = false := by
  have closed : ∀ l : List Char, l ≠ [] → l.getLast?.any isBlank = false →
      ∀ c ∈ (operatorKeyword ++ l).getLast?, isBlank c = false := by
    intro l hne hl c hc
    rw [List.getLast?_append, Option.or_of_isSome (List.getLast?_isSome.mpr hne)] at hc
    rwa [Option.mem_def.mp hc, Option.any_some] at hl
  cases op with
  | symbol t ht =>
    have hall : ∀ t ∈ operatorSymbols, t ≠ [] ∧ t.getLast?.any isBlank = false := by decide
    exact closed t (hall t ht).1 (hall t ht).2
  | call => exact closed _ (List.cons_ne_nil _ _) rfl
  | index => exact closed _ (List.cons_ne_nil _ _) rfl
  | new array => cases array <;> exact closed _ (List.cons_ne_nil _ _) rfl
  | delete array => cases array <;> exact closed _ (List.cons_ne_nil _ _) rfl
  | literal spaces x =>
    refine closed _ (List.cons_ne_nil _ _) ?_
    cases hc : (Operator.literal spaces x).suffix.getLast? with
    | none => rfl
    | some c => exact isBlank_of_isIdentifierChar (x.last (s := '"' :: '"' :: blanks spaces) c hc)

theorem Operator.text_ne_nil (op : Operator) : op.text ≠ [] := nofun

namespace Callee

variable (x : Callee)

theorem exists_operatorName? {op : Operator} {gap : Nat} (args : Option (List Item))
    (spaced : op.suffix = ['<'] → 0 < gap) (hbefore : b.any isIdentifierChar = false) (h : EndsHead r) :
    ∃ k j, (operator op gap args spaced).text = op.text ++ blanks k ++ (blanks j ++ templateText args) ∧
      operatorName? b (op.text ++ blanks k ++ (blanks j ++ templateText args ++ r)) =
        some (op.text ++ blanks k, blanks j ++ templateText args ++ r) := by
  generalize hn : (operator op gap args spaced).gap = n
  -- A `<` printed right behind `operator<` would read as another operator, so a blank stands
  -- between them.
  have hspaced : op.suffix = ['<'] → (templateText args ++ r).head? = some '<' → 0 < n := by
    intro hop hhead
    cases args with
    | none =>
      rw [show templateText none ++ r = r from rfl] at hhead
      rcases h with h | h <;> rw [h] at hhead <;> cases hhead
    | some items => exact hn ▸ spaced hop
  obtain ⟨k, hk, hname⟩ := operatorName?_text op hbefore (endsName_templateText args h) hspaced
  have hblanks : blanks n = blanks k ++ blanks (n - k) := by
    rw [List.replicate_append_replicate, Nat.add_sub_cancel' hk]
  refine ⟨k, n - k, ?_, ?_⟩
  · unfold text
    rw [hn, hblanks, List.append_assoc, List.append_assoc]
    rfl
  · rw [hblanks, List.append_assoc] at hname
    rw [List.append_assoc, List.append_assoc]
    exact hname

theorem plain_name (destructor : Bool) (name : Identifier) : Plain (tilde destructor ++ name.text) := by
  cases destructor with
  | false => exact name.plain
  | true =>
    exact ⟨.char rfl (by decide) name.plain.nested,
      keywordFree_append_cons (s := []) rfl keywordFree_nil name.keywordFree⟩

theorem plain_text (destructor : Bool) (name : Identifier) (args : Option (List Item)) :
    Plain (plain destructor name args).text := (plain_name destructor name).append_templateText args

/-- The tokens of a function: none of them opens a list of parameters or parts scopes, and a blank stands only
behind an operator name. -/
theorem exists_scans (hbefore : b.any isIdentifierChar = false) (h : EndsHead r) :
    ∃ ts, Scans b x.text r ts ∧ Token.join ts = x.text ∧
      (∀ t ∈ ts, t ≠ .char '(' ∧ t ≠ .char ':') ∧ splitBlank? ts = none := by
  cases hx : x with
  | plain destructor name args =>
    obtain ⟨ts, hts, hjoin, hinert⟩ := (plain_text destructor name args).exists_scans h.not_identifier
    exact ⟨ts, hts, hjoin, fun t ht => ⟨(hinert t ht).paren, (hinert t ht).colon⟩, splitBlank?_of_inert hinert⟩
  | operator op gap args spaced =>
    obtain ⟨k, j, htext, hname⟩ := exists_operatorName? args spaced hbefore h
    obtain ⟨ts, hts, hjoin, hinert⟩ := (plain_templateText args).exists_scans
      (b := lastChar (lastChar b (op.text ++ blanks k)) (blanks j)) h.not_identifier
    have hgap : Scans (lastChar b (op.text ++ blanks k)) (blanks j) (templateText args ++ r)
        ((blanks j).map .char) := by
      refine scans_chars (fun c hc => ?_) (noOperator_blanks _)
      rw [(List.mem_replicate.mp hc).2]
      rfl
    rw [htext]
    refine ⟨_, (scans_operator (by simp [op.text_ne_nil]) hname).append (hgap.append hts), ?_, ?_, rfl⟩
    · rw [join_append, join_append, join_chars, hjoin]
      simp [Token.join, Token.text]
    · refine List.forall_mem_append.mpr ⟨List.forall_mem_singleton.mpr ⟨by rintro ⟨⟩, by rintro ⟨⟩⟩, ?_⟩
      refine List.forall_mem_append.mpr ⟨fun t ht => ?_, fun t ht => ⟨(hinert t ht).paren, (hinert t ht).colon⟩⟩
      obtain ⟨c, hc, rfl⟩ := List.mem_map.mp ht
      rw [(List.mem_replicate.mp hc).2]
      exact ⟨by decide, by decide⟩

/-- Counting angle brackets passes over a function. -/
theorem anglesBalancedFrom_text {d : Nat} (hbefore : b.any isIdentifierChar = false) (h : EndsHead r) :
    anglesBalancedFrom b d (x.text ++ r) = anglesBalancedFrom (lastChar b x.text) d r := by
  cases hx : x with
  | plain destructor name args => exact (plain_text destructor name args).passes hbefore h.not_identifier
  | operator op gap args spaced =>
    obtain ⟨k, j, htext, hname⟩ := exists_operatorName? args spaced hbefore h
    have hgap : Nested (fun _ => True) (blanks j) := .of_chars fun c hc => by
      rw [(List.mem_replicate.mp hc).2]
      exact ⟨rfl, True.intro⟩
    have hargs := plain_templateText args
    rw [htext, List.append_assoc, anglesBalancedFrom_operator hname, List.append_assoc,
      anglesBalancedFrom_append hgap.closes_angles (noOperator_blanks j),
      anglesBalancedFrom_append hargs.nested.closes_angles (hargs.keywordFree.noOperator h.not_identifier),
      ← lastChar_of_ne_nil (b := b) (by simp [op.text_ne_nil]), ← lastChar_append, ← lastChar_append]

theorem splitFunction_text : splitFunction x.text = (x.name, x.args.map texts, x.isOperator) := by
  cases hx : x with
  | plain destructor name args =>
    have hlast : ∀ c ∈ (tilde destructor ++ name.text).getLast?, isIdentifierChar c = true := name.last
    have hnone : operatorName? none (plain destructor name args).text = none := by
      have hno := (plain_text destructor name args).keywordFree.noOperator (b := none) (r := []) rfl
      have hfirst := hno.operatorName? (by simp [text, Callee.name, name.nonempty])
      rwa [List.append_nil] at hfirst
    have hsplit : splitTemplate (plain destructor name args).text = (tilde destructor ++ name.text, args.map texts) :=
      splitTemplate_text args (fun c hc => isBlank_of_isIdentifierChar (hlast c hc))
        fun c hc => ne_of_isIdentifierChar (hlast c hc) (by decide)
    unfold splitFunction
    rw [hnone]
    dsimp only
    rw [hsplit]
    rfl
  | operator op gap args spaced =>
    -- The reader may take some of the blanks behind an operator into its name, so the split is
    -- known up to where they are cut.
    obtain ⟨k, j, htext, hname⟩ := exists_operatorName? (b := none) (r := []) args spaced rfl
      (Or.inl rfl)
    rw [List.append_nil] at hname
    have hargs : (splitTemplate (trim (blanks j ++ templateText args))).2 = args.map texts := by
      have htrim : ∀ n, trim (blanks n ++ templateText args) = trim (templateText args) := by
        intro n
        induction n with
        | zero => rfl
        | succ n ih => exact (trim_singleton_blank rfl).trans ih
      have hself : trim (templateText args) = templateText args := by
        cases args with
        | none => rfl
        | some items =>
          unfold templateText
          rw [trim_cons rfl, trimRight_concat rfl]
      have hsplit := splitTemplate_text (s := []) args nofun nofun
      rw [List.nil_append] at hsplit
      rw [htrim, hself, hsplit]
    rw [htext]
    unfold splitFunction
    rw [hname]
    dsimp only
    rw [hargs, trimRight_append_blanks, trimRight_eq_self op.last_text]
    rfl

end Callee

theorem Identifier.solid (x : Identifier) : Solid x.text where
  nonempty := x.nonempty
  head c hc := isBlank_of_isIdentifierChar (x.chars c (List.mem_of_head? hc))
  last c hc := isBlank_of_isIdentifierChar (x.chars c (List.mem_of_getLast? hc))

theorem Callee.solid_name (x : Callee) : Solid x.name := by
  cases x with
  | plain destructor name args =>
    refine name.solid.append_left ?_
    cases destructor with
    | false => exact fun c hc => nomatch hc
    | true =>
      intro c hc
      obtain rfl := Option.some.inj hc
      rfl
  | operator op gap args spaced =>
    refine ⟨op.text_ne_nil, fun c hc => ?_, op.last_text⟩
    obtain rfl := Option.some.inj hc
    rfl

theorem Callee.solid (x : Callee) : Solid x.text := by
  have hname := x.solid_name
  unfold text
  cases hargs : x.args with
  | none =>
    have hgap : x.gap = 0 := by
      cases x with
      | plain => rfl
      | operator op gap args spaced =>
        obtain rfl : args = none := hargs
        rfl
    rw [hgap]
    show Solid (x.name ++ [])
    rw [List.append_nil]
    exact hname
  | some items =>
    have htemplate : Solid (templateText (some items)) := solid_angles
    rw [← List.append_assoc]
    refine htemplate.append_left fun c hc => hname.head c ?_
    rwa [List.head?_append, Option.or_of_isSome (List.isSome_head?.mpr hname.nonempty)] at hc

theorem Callee.readsAsFunction (x : Callee) : ReadsAsFunction x.text where
  solid := x.solid
  reads := x.exists_scans

theorem Callee.passes (x : Callee) : Passes EndsHead x.text := x.anglesBalancedFrom_text

end PathSafety.Name
