import PathSafety.IR.Printer
import PathSafety.Proofs.IR.Conversion

/-!
# Constant addresses

Addresses that can be written as constants: an address computation with constant indices on a global variable, and any
conversions of it one inside the other. They are kept as text; what is read from the text is what was written.

Contents:

* `ConstantAddress`, `ConstantAddress.operand` — constant addresses, and how they are written;
* `ConstantAddress.WellTyped`, `ConstantAddress.Legible` — the conversions there are, and the names that can be read;
* `shape_element`, `shape_reference`, `shape_nested` — what is read, by what was written.
-/

namespace PathSafety.IR

open PathSafety.Text

/-- A constant address, by how it is computed. -/
inductive ConstantAddress where
  | global (name : String)
  /-- An address computation on a variable, with indices of some widths. -/
  | element (inbounds : Bool) (name : String) (indices : List (Nat × Int))
  | cast (op : CastOp) (e : ConstantAddress) (target : Ty)

namespace ConstantAddress

/-- The variable that an address is based on. -/
def name : ConstantAddress → String
  | global n | element _ n _ => n
  | cast _ e _ => e.name

/-- An index as an operand. -/
def index (i : Nat × Int) : Operand := .constant (.int i.1) (.int i.2)

/-- The address as an operand: all but the bare name of a variable is text. -/
def operand (scope : Scope) : ConstantAddress → Operand
  | global n => .global n
  | element inbounds n is =>
    .constant (scope.gepType (.global n) none (is.map index)) (.expression
      ("getelementptr " ++ (if inbounds then "inbounds " else "") ++ "(" ++
        (scope.accessType (.global n) none).text ++ ", " ++ scope.typed (.global n) ++
        String.join (is.map fun i => ", " ++ scope.typed (index i)) ++ ")"))
  | cast op e target =>
    .constant target (.expression
      (op.keyword ++ " (" ++ scope.typed (e.operand scope) ++ " to " ++ target.text ++ ")"))

/-- The type of the address, or of the number that it was converted to. -/
def type (scope : Scope) (e : ConstantAddress) : Ty := scope.operandType (e.operand scope)

/-- That the conversions are such as there are: addresses become other addresses and integers, and integers addresses;
anything else keeps its bits. -/
def WellTyped (l : Layout) (scope : Scope) : ConstantAddress → Prop
  | global _ | element .. => True
  | cast op e target => e.WellTyped l scope ∧
    match op with
    | .bitcast => l.bits? target = l.bits? (e.type scope)
    | .ptrtoint => (e.type scope).isPointer = true ∧ ∃ n, n ≠ 0 ∧ target = .int n
    | .inttoptr => (∃ n, e.type scope = .int n) ∧ target.isPointer = true
    | .addrspacecast => (e.type scope).isPointer = true ∧ target.isPointer = true
    | _ => False

/-- That the names in an address, and the types that are converted to, do not look like something else that constant
addresses are made of. -/
def Legible (scope : Scope) : ConstantAddress → Prop
  | global n => ExpressionText.nested? false n.toList = none
  | element _ n _ => (scope.accessType (.global n) none).Plain
  | cast _ e target => e.Legible scope ∧ (e.type scope).Plain ∧ '(' ∉ target.text.toList ∧ ')' ∉ target.text.toList ∧
    ¬ " to ".toList <:+: target.text.toList

variable {p : Project} {scope : Scope} {e : ConstantAddress} {n : String} {is : List (Nat × Int)} {inbounds : Bool}
  {op : CastOp} {target : Ty} {k : Nat} {g : Global}

/-! ## How addresses are written -/

/-- The text that an address is written as, without its type. -/
def text (scope : Scope) (e : ConstantAddress) : List Char := (scope.reference (e.operand scope)).toList

theorem toList_typed (scope : Scope) (o : Operand) :
    (scope.typed o).toList = (scope.operandType o).text.toList ++ ' ' :: (scope.reference o).toList := by
  unfold Scope.typed
  rw [String.toList_append, String.toList_append, List.append_assoc]
  rfl

theorem text_global : text scope (global n) = '@' :: ExpressionText.quoted n.toList := by
  unfold text operand Scope.reference
  rw [String.toList_append, ExpressionText.toList_quoteName]
  rfl

/-- What is between the parentheses of an address computation, before the indices. -/
def elementHead (scope : Scope) (n : String) : List Char :=
  (scope.accessType (.global n) none).text.toList ++ ", ".toList ++ (scope.operandType (.global n)).text.toList ++ [' ']

theorem toList_index (scope : Scope) (i : Nat × Int) :
    (", " ++ scope.typed (index i)).toList = ExpressionText.indexText i := by
  rw [String.toList_append, toList_typed]
  show ", ".toList ++ ((Ty.int i.1).text.toList ++ ' ' :: (toString i.2).toList) = _
  rw [Ty.toList_text_int]
  rfl

theorem text_element : text scope (element inbounds n is) = ExpressionText.element inbounds
    (elementHead scope n ++ '@' :: (ExpressionText.quoted n.toList ++ is.flatMap ExpressionText.indexText)) := by
  have hindices : (String.join (is.map fun i => ", " ++ scope.typed (index i))).toList =
      is.flatMap ExpressionText.indexText := by
    rw [String.toList_join, List.flatMap_map]
    exact congrArg (List.flatMap · is) (funext (toList_index scope))
  have hvariable : (scope.reference (.global n)).toList = '@' :: ExpressionText.quoted n.toList := text_global
  show ("getelementptr " ++ (if inbounds then "inbounds " else "") ++ "(" ++
    (scope.accessType (.global n) none).text ++ ", " ++ scope.typed (.global n) ++
    String.join (is.map fun i => ", " ++ scope.typed (index i)) ++ ")").toList = _
  unfold ExpressionText.element elementHead
  simp only [String.toList_append, hindices, toList_typed, hvariable, List.append_assoc, List.cons_append]
  cases inbounds <;> rfl

theorem text_cast : text scope (cast op e target) = ExpressionText.conversion op.keyword.toList
    ((e.type scope).text.toList ++ ' ' :: e.text scope) target.text.toList := by
  show (op.keyword ++ " (" ++ scope.typed (e.operand scope) ++ " to " ++ target.text ++ ")").toList = _
  unfold ExpressionText.conversion
  simp only [String.toList_append, toList_typed, List.append_assoc]
  rfl

/-- Addresses end with a quote or a parenthesis. -/
theorem exists_text_eq_concat (scope : Scope) (e : ConstantAddress) :
    ∃ s c, e.text scope = s ++ [c] ∧ isBlank c = false := by
  cases e with
  | global n => exact ⟨'@' :: '"' :: n.toList.flatMap ExpressionText.escape, '"', text_global, by decide⟩
  | element inbounds n is =>
    rw [text_element]
    unfold ExpressionText.element
    simp only [← List.append_assoc, ← List.cons_append]
    exact ⟨_, ')', rfl, by decide⟩
  | cast op e target =>
    rw [text_cast]
    unfold ExpressionText.conversion
    simp only [← List.append_assoc]
    exact ⟨_, ')', rfl, by decide⟩

theorem last_text (scope : Scope) (e : ConstantAddress) : ∀ c ∈ (e.text scope).getLast?, isBlank c = false := by
  intro c hc
  obtain ⟨s, d, htext, hd⟩ := exists_text_eq_concat scope e
  rw [htext, List.getLast?_append] at hc
  exact Option.some.inj hc ▸ hd

/-! ## What is read -/

theorem operandType_global (hlocal : scope.module.global? n = some (.data g)) :
    scope.operandType (.global n) = .ptrTo g.ty 0 := by
  simp only [Scope.operandType, hlocal]
  rfl

theorem accessType_global (hlocal : scope.module.global? n = some (.data g)) :
    scope.accessType (.global n) none = g.ty := by
  show ((scope.operandType (.global n)).pointee?.getD .void) = _
  rw [operandType_global hlocal]
  rfl

theorem plain_pointer {t : Ty} (ht : t.Plain) (space : Nat) : (Ty.ptrTo t space).Plain := by
  unfold Ty.Plain
  exact ht

theorem isPointer_type_global (hlocal : scope.module.global? n = some (.data g)) :
    ((global n).type scope).isPointer = true := by
  show (scope.operandType (.global n)).isPointer = true
  rw [operandType_global hlocal]
  rfl

theorem isPointer_type_element (hlocal : scope.module.global? n = some (.data g)) :
    ((element inbounds n is).type scope).isPointer = true := by
  show (scope.gepType (.global n) none (is.map index)).isPointer = true
  unfold Scope.gepType
  rw [operandType_global hlocal]
  rfl

/-- The conversions that there are have keywords that are read. -/
theorem keyword_mem {l : Layout} (htyped : (cast op e target).WellTyped l scope) :
    op.keyword.toList ∈ ExpressionText.castKeywords := by
  obtain ⟨_, hop⟩ := htyped
  cases op with
  | bitcast | ptrtoint | inttoptr | addrspacecast => decide
  | _ => exact hop.elim

/-- An address computation is read as what it is. -/
theorem shape_element (hlocal : scope.module.global? n = some (.data g)) (hproject : p.global? n = some (k, .data g'))
    (hlegible : Legible scope (element inbounds n is)) :
    ExpressionShape.of? p (text scope (element inbounds n is)) = some (.element k g' n is) := by
  have hplain : g.ty.Plain := by
    unfold Legible at hlegible
    rwa [accessType_global hlocal] at hlegible
  -- The reader takes the first marked name, so no type in front of it may hold the mark.
  have hhead : '@' ∉ elementHead scope n := by
    unfold elementHead
    rw [accessType_global hlocal, operandType_global hlocal]
    have ht := (Ty.inert_text g.ty hplain).unmarked
    have hpointer := (Ty.inert_text _ (plain_pointer hplain 0)).unmarked
    simp [ht, hpointer]
  have hindices : '@' ∉ is.flatMap ExpressionText.indexText := by
    intro h
    obtain ⟨i, _, h⟩ := List.mem_flatMap.mp h
    exact ExpressionText.unmarked_indexText i h
  have hread := ExpressionText.onlyReference?_quoted hhead hindices n.toList
  unfold ExpressionShape.of?
  rw [text_element, ExpressionText.addressOperands?_element, Option.bind_some, hread]
  dsimp only
  rw [String.ofList_toList, hproject]
  dsimp only
  rw [ExpressionText.indices?_flatMap (ExpressionText.length_le_flatMap_indexText is)]

/-- A conversion of a variable is read as what it is. -/
theorem shape_reference {v : GlobalValue} (hproject : p.global? n = some (k, v))
    (hkeyword : op.keyword.toList ∈ ExpressionText.castKeywords) (hlegible : Legible scope (cast op (global n) target)) :
    ExpressionShape.of? p (text scope (cast op (global n) target)) = some (.reference k n) := by
  obtain ⟨hname, htype, hopen, hclose, hto⟩ := hlegible
  rw [text_cast, text_global]
  exact ExpressionShape.of?_reference hkeyword htype hto (not_or.mpr ⟨hopen, hclose⟩) hname hproject

/-- A conversion of another address is read as one of its text, at a width if that ends in one. -/
theorem shape_nested (hkeyword : op.keyword.toList ∈ ExpressionText.castKeywords)
    (hlegible : Legible scope (cast op e target)) {w : List Char} (he : ExpressionText.nestedAt? (e.text scope) = some w) :
    ExpressionShape.of? p (text scope (cast op e target)) =
      some (.nested (e.text scope)
        (if w = "ptrtoint".toList then ExpressionText.targetWidth? (e.text scope) else none)) := by
  obtain ⟨_, htype, hopen, hclose, hto⟩ := hlegible
  rw [text_cast]
  exact ExpressionShape.of?_nested hkeyword htype hto (not_or.mpr ⟨hopen, hclose⟩) (exists_text_eq_concat scope e) he

/-- The width at which a number is read that other conversions are made of: its own only if it is written at the end. -/
def readBits (pointerBits bits : Nat) : ConstantAddress → Nat
  | cast .ptrtoint _ _ => bits
  | _ => pointerBits

/-- A nested address is found by its keyword, and read at some width. -/
theorem exists_nestedAt? {l : Layout} {bits : Nat} (htyped : e.WellTyped l scope) (he : ∀ n, e ≠ global n)
    (hbits : l.bits? (e.type scope) = some bits) :
    ∃ w, ExpressionText.nestedAt? (e.text scope) = some w ∧
      (if w = "ptrtoint".toList then ExpressionText.targetWidth? (e.text scope) else none).getD l.pointerBits =
        e.readBits l.pointerBits bits := by
  cases e with
  | global n => exact absurd rfl (he n)
  | element inbounds n is => exact ⟨_, by rw [text_element, ExpressionText.nestedAt?_element], rfl⟩
  | cast op e target =>
    refine ⟨op.keyword.toList, ?_, ?_⟩
    · rw [text_cast, ExpressionText.nestedAt?_conversion (keyword_mem htyped)]
    · obtain ⟨_, hop⟩ := htyped
      cases op with
      | ptrtoint =>
        obtain ⟨_, n, _, rfl⟩ := hop
        obtain rfl : n = bits := Option.some.inj hbits
        rw [text_cast, Ty.toList_text_int, ExpressionText.targetWidth?_conversion]
        rfl
      | bitcast | inttoptr | addrspacecast => rfl
      | _ => exact hop.elim

theorem trim_text {l : Layout} (htyped : e.WellTyped l scope) (he : ∀ n, e ≠ global n) :
    trim (e.text scope) = e.text scope := by
  cases e with
  | global n => exact absurd rfl (he n)
  | element inbounds n is =>
    refine trim_eq_self ?_ (last_text scope _)
    rw [text_element]
    intro c hc
    obtain rfl := Option.some.inj hc
    decide
  | cast op e target =>
    rw [text_cast]
    exact ExpressionText.trim_conversion (keyword_mem htyped) _ _

/-- All constant addresses but the bare names of variables are written as constants. -/
theorem exists_operand_eq (scope : Scope) (he : ∀ n, e ≠ global n) :
    ∃ t : String, e.operand scope = .constant (e.type scope) (.expression t) ∧ t.toList = e.text scope := by
  cases e with
  | global n => exact absurd rfl (he n)
  | element | cast => exact ⟨_, rfl, rfl⟩

end ConstantAddress

end PathSafety.IR
