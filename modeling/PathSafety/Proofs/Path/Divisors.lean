import Mathlib.Data.List.Forall2
import PathSafety.Proofs.Machine.Defects
import PathSafety.Proofs.Machine.Meets
import PathSafety.Proofs.Path.Accesses
import PathSafety.Proofs.Path.Exploration

/-!
# Divisors that were watched

A monitor evaluates a divisor, and then the instruction evaluates it once more. By then the global names that it refers
to have their addresses, so it has the value that it had, but for symbols, which are new each time. So where divisions
are watched no constants are divided by zero, and that whatever the types of the project are.

Contents:

* `Term.HasSymbol`, `Value.Same` — values that are equal but for their symbols;
* `Machine.Recalls`, `Machine.Repeats` — that an action gives the same once more, or the same but for symbols;
* `repeats_siteEval` — evaluating an operand once more;
* `Engine.not_dividesByZero_of_feasible` — watched divisors are not zero.
-/

namespace PathSafety

open IR

/-! ## Values with symbols -/

/-- That a term is a symbol, or is put together from parts of which one is. -/
inductive Term.HasSymbol : {w : Nat} → Term w → Prop
  | symbol {w : Nat} (s : Symbol) (hw : 0 < w) : HasSymbol (Term.symbol s : Term w)
  | hi {m n w : Nat} {a : Term m} {b : Term n} (h : w = m + n) (ha : HasSymbol a) : HasSymbol (.concat a b h)
  | lo {m n w : Nat} {a : Term m} {b : Term n} (h : w = m + n) (hb : HasSymbol b) : HasSymbol (.concat a b h)

namespace Term

variable {m n w : Nat} {t : Term w} {a : Term m} {b : Term n}

theorem HasSymbol.pos (h : t.HasSymbol) : 0 < w := by
  induction h with
  | symbol s hw => exact hw
  | hi h _ ih | lo h _ ih => omega

theorem HasSymbol.const?_eq_none (h : t.HasSymbol) : t.const? = none := by
  cases h <;> rfl

/-- Symbols are not fused with what stands beside them. -/
theorem not_hasSymbol_of_fuse? {t : Term (m + n)} (h : fuse? a b = some t) : ¬ a.HasSymbol ∧ ¬ b.HasSymbol := by
  unfold fuse? at h
  split at h
  · exact ⟨nofun, nofun⟩
  · exact ⟨nofun, nofun⟩
  · cases h

theorem hasSymbol_cast (h : n = w) : (h ▸ b : Term w).HasSymbol ↔ b.HasSymbol := by
  subst h
  rfl

/-- A concatenation has the symbols of its parts. -/
theorem hasSymbol_mkConcat {a : Term m} {b : Term n} (h : w = m + n) (hab : a.HasSymbol ∨ b.HasSymbol) :
    (mkConcat a b w h).HasSymbol := by
  -- The constructor nests to the right and fuses neighbours; what it fuses are constants and slices,
  -- and `not_hasSymbol_of_fuse?` says that no symbol gets lost there.
  fun_induction mkConcat a b w h with
  | case1 lo t => exact (hasSymbol_cast _).mpr (hab.resolve_left fun h => absurd h.pos (Nat.lt_irrefl 0))
  | case2 n t _ lo => exact hab.resolve_right fun h => absurd h.pos (Nat.lt_irrefl 0)
  | case3 lo hn p q a b hm ihb iha =>
    show (a.mkConcat (b.mkConcat lo (q + _) _) (p + q + _) _).HasSymbol
    rcases hab with hab | hlo
    · cases hab with
      | hi _ ha => exact iha (Or.inl ha)
      | lo _ hb => exact iha (Or.inr (ihb (Or.inl hb)))
    · exact iha (Or.inr (ihb (Or.inr hlo)))
  | case4 lo _ m _ t hi _ hf =>
    obtain ⟨hhi, hlo⟩ := not_hasSymbol_of_fuse? hf
    exact absurd hab (not_or.mpr ⟨hhi, hlo⟩)
  | case5 m _ p q a b t hi _ _ h _ hf _ =>
    dsimp only
    rw [hf]
    obtain ⟨hhi, ha⟩ := not_hasSymbol_of_fuse? hf
    cases hab.resolve_left hhi with
    | hi _ h => exact absurd h ha
    | lo _ hb => exact .lo _ hb
  | case6 m _ p q a b hi _ _ h _ hf _ =>
    dsimp only
    rw [hf]
    rcases hab with hhi | hlo
    · exact .hi _ hhi
    · exact .lo _ hlo
  | case7 =>
    rcases hab with hhi | hlo
    · exact .hi _ hhi
    · exact .lo _ hlo

end Term

namespace Value

/-- That two values are equal, or have symbols both of them. -/
inductive Same : Value → Value → Prop
  | refl (v : Value) : Same v v
  | symbols {v w : Value} (hv : v.term.HasSymbol) (hw : w.term.HasSymbol) : Same v w

theorem const?_of_hasSymbol {v : Value} (h : v.term.HasSymbol) : v.const? = none := by
  unfold const?
  rw [h.const?_eq_none]
  rfl

/-- Parts that are the same give values that are. -/
theorem same_stack {v w : Value} {vs ws : List Value} (h : Same v w) (hs : List.Forall₂ Same vs ws) :
    Same (stack v vs) (stack w ws) := by
  induction hs generalizing v w with
  | nil => exact h
  | @cons u u' us us' hu _ ih =>
    refine ih ?_
    cases h with
    | refl =>
      cases hu with
      | refl => exact .refl _
      | symbols hu hu' => exact .symbols (Term.hasSymbol_mkConcat _ (Or.inl hu)) (Term.hasSymbol_mkConcat _ (Or.inl hu'))
    | symbols hv hw => exact .symbols (Term.hasSymbol_mkConcat _ (Or.inr hv)) (Term.hasSymbol_mkConcat _ (Or.inr hw))

theorem same_concat {vs ws : List Value} (h : List.Forall₂ Same vs ws) : Same (concat vs) (concat ws) := by
  cases h with
  | nil => exact .refl _
  | cons hv hs => exact same_stack hv hs

end Value

namespace Machine

variable {s : Setting} {α β γ : Type} {m m' : Machine}

/-! ## Doing things once more -/

/-- That an action that is done once more gives what it gave, and leaves the machine as it is. -/
def Recalls (α : Type) (x : Action α) : Prop :=
  ∀ m a m', x m = .ok a m' → Extends m m' ∧ ∀ n, Extends m' n → x n = .ok a n

/-- That an action that is done once more gives something that stands in a relation to what it gave. -/
def Repeats (E : α → α → Prop) (x : Action α) : Prop :=
  ∀ m a m', x m = .ok a m' → Extends m m' ∧ ∀ n, Extends m' n → ∃ b n', x n = .ok b n' ∧ Extends n n' ∧ E a b

theorem Recalls.repeats {E : α → α → Prop} {x : Action α} (h : Recalls α x) (hE : ∀ a, E a a) : Repeats E x := by
  intro m a m' hx
  obtain ⟨hext, hagain⟩ := h m a m' hx
  exact ⟨hext, fun n hn => ⟨a, n, hagain n hn, extends_refl n, hE a⟩⟩

/-- Two actions one after the other, whose results are put together. -/
theorem Repeats.combine {E : α → α → Prop} {F : β → β → Prop} {G : γ → γ → Prop} {x : Action α} {y : Action β}
    {g : α → β → γ} (hx : Repeats E x) (hy : Repeats F y) (hg : ∀ a a' b b', E a a' → F b b' → G (g a b) (g a' b')) :
    Repeats G (do
      let a ← x
      let b ← y
      return g a b) := by
  intro m c m' h
  obtain ⟨a, m₁, ha, h⟩ := exists_of_bind h
  obtain ⟨b, m₂, hb, h⟩ := exists_of_bind h
  obtain ⟨rfl, rfl⟩ := of_pure h
  obtain ⟨hext₁, hagain₁⟩ := hx m a m₁ ha
  obtain ⟨hext₂, hagain₂⟩ := hy m₁ b m₂ hb
  refine ⟨hext₁.trans hext₂, fun n hn => ?_⟩
  obtain ⟨a', n₁, ha', hn₁, haa'⟩ := hagain₁ n (hext₂.trans hn)
  obtain ⟨b', n₂, hb', hn₂, hbb'⟩ := hagain₂ n₁ (hn.trans hn₁)
  refine ⟨g a' b', n₂, ?_, hn₁.trans hn₂, hg a a' b b' haa' hbb'⟩
  rw [bind_of_ok ha', bind_of_ok hb']
  rfl

/-- The number of a constant is the same on all machines. -/
theorem exists_evalNat_of_const {v : Value} (hv : v.isSymbolic = false) : ∃ k, ∀ n : Machine, evalNat v n = .ok k n := by
  have hconst : v.term.isConst = true := by simpa [Value.isSymbolic] using hv
  obtain ⟨w, hw⟩ := Option.isSome_iff_exists.mp hconst
  refine ⟨w.toNat, fun n => ?_⟩
  unfold evalNat
  rw [bind_of_ok (rfl : (get : Action Machine) n = .ok n n), PathCondition.anyValue?_of_const? hw]
  rfl

/-- Computing with constants gives the same once more. -/
theorem computes_recalls : Computes Recalls where
  pure a m b m' h := by
    obtain ⟨rfl, rfl⟩ := of_pure h
    exact ⟨extends_refl m, fun n _ => rfl⟩
  bind hx hf m b m' h := by
    obtain ⟨a, m₁, ha, hb⟩ := exists_of_bind h
    obtain ⟨hext₁, hagain₁⟩ := hx m a m₁ ha
    obtain ⟨hext₂, hagain₂⟩ := hf a m₁ b m' hb
    refine ⟨hext₁.trans hext₂, fun n hn => ?_⟩
    rw [bind_of_ok (hagain₁ n (hext₂.trans hn))]
    exact hagain₂ n hn
  fault _ _ _ _ _ h := absurd h not_fault
  mismatch _ _ _ h := absurd h not_defect
  missing _ _ _ h := absurd h not_defect
  evalNat v hv m k m' h := by
    obtain ⟨w, hnumber⟩ := exists_evalNat_of_const hv
    obtain ⟨rfl, rfl⟩ := EStateM.Result.ok.inj ((hnumber m).symm.trans h)
    exact ⟨extends_refl m, fun n _ => hnumber n⟩

/-- A global name that has been met has its address. -/
theorem get?_of_addressWithin {depth module : Nat} {name : String} {v : Value}
    (h : addressWithin s depth module name m = .ok v m') : m'.addresses.get? name = some v := by
  cases depth with
  | zero => exact absurd h not_defect
  | succ depth =>
    cases hmet : m.addresses.get? name with
    | some w =>
      unfold addressWithin at h
      rw [bind_of_ok (rfl : (get : Action Machine) m = .ok m m), hmet] at h
      obtain ⟨rfl, rfl⟩ := of_pure h
      exact hmet
    | none =>
      obtain ⟨rfl, ⟨_, _, rfl⟩ | ⟨_, _, ⟨_, rfl⟩ | ⟨init, w, m₁, _, hw, hwrite⟩⟩⟩ := cases_of_meet hmet h
      · exact get?_entered_self
      · exact get?_entered_self
      · have hinit : Keeps Precedes (evalWith s (addressWithin s depth) module ∅ init) :=
          (admits_precedes s).anyOperand depth module ∅ init
        exact ((hinit hw).trans (precedes_of_write hwrite)).addresses name _ get?_entered_self

theorem recalls_address (module : Nat) (name : String) : Recalls Value (address s module name) := by
  intro m v m' h
  have hmet := get?_of_addressWithin h
  exact ⟨((admits_precedes s).anyAddress _ _ _ h).addresses, fun n hn => address_of_met (hn name v hmet)⟩

/-- A new symbol takes the place of the one before. -/
theorem repeats_fresh (name : String) (bits : Int) : Repeats Value.Same (fresh name bits) := by
  intro m v m' h
  unfold fresh at h ⊢
  split at h
  · obtain ⟨_, _, hfault, _⟩ := exists_of_bind h
    exact absurd hfault not_fault
  · rename_i hbits
    have hpos : 0 < bits.toNat := by omega
    cases h
    refine ⟨extends_refl _, fun n _ => ?_⟩
    refine ⟨⟨(.symbol ⟨n.nextSymbol, name⟩ : Term bits.toNat)⟩, { n with nextSymbol := n.nextSymbol + 1 }, ?_,
      extends_refl n, .symbols (.symbol _ hpos) (.symbol _ hpos)⟩
    rw [if_neg hbits]
    rfl

/-! ## Operands -/

theorem repeats_concat {x : Action (List Value)} (hx : Repeats (List.Forall₂ Value.Same) x) :
    Repeats Value.Same (do
      let parts ← x
      if parts.isEmpty then fault .emptyAggregate
      return Value.concat parts) := by
  intro m v m' h
  obtain ⟨parts, m₁, hparts, h⟩ := exists_of_bind h
  cases parts with
  | nil => cases h
  | cons u us =>
    obtain ⟨rfl, rfl⟩ := of_pure h
    obtain ⟨hext, hagain⟩ := hx m _ m₁ hparts
    refine ⟨hext, fun n hn => ?_⟩
    obtain ⟨parts', n', hparts', hn', hsame⟩ := hagain n hn
    refine ⟨Value.concat parts', n', ?_, hn', Value.same_concat hsame⟩
    rw [bind_of_ok hparts']
    cases hsame
    rfl

mutual

/-- **Operands** have the same value once more, but for symbols. -/
theorem repeats_evalWith (module : Nat) (rs : Registers) (o : Operand) :
    Repeats Value.Same (evalWith s (address s) module rs o) := by
  match o with
  | .register n =>
    unfold evalWith
    split
    · exact (computes_recalls.pure _).repeats .refl
    · exact fun _ _ _ h => absurd h not_fault
  | .global n =>
    unfold evalWith
    exact (recalls_address module n).repeats .refl
  | .assembly .. =>
    unfold evalWith
    exact fun _ _ _ h => absurd h not_fault
  | .constant t v =>
    unfold evalWith
    split
    · exact repeats_evalConstant module rs t _ v
    · exact fun _ _ _ h => absurd h not_fault

theorem repeats_evalConstant (module : Nat) (rs : Registers) (t : Ty) (bits : Nat) (v : ConstantValue) :
    Repeats Value.Same (evalConstant s (address s) module rs t bits v) := by
  have hfault : ∀ f, Repeats Value.Same (fault f) := fun f _ _ _ h => absurd h not_fault
  -- By the shape of the constant: what is not fresh is computed alike each time, and what is fresh
  -- gives the same value up to its symbol.
  match v with
  | .expression text =>
    unfold evalConstant
    exact (computes_recalls.evalExpression (fun name module _ _ _ => recalls_address module name) bits).repeats .refl
  | .undef =>
    unfold evalConstant
    exact repeats_fresh _ _
  | .null =>
    unfold evalConstant
    exact (computes_recalls.pure _).repeats .refl
  | .int n =>
    unfold evalConstant
    split
    · exact (computes_recalls.pure _).repeats .refl
    · exact repeats_fresh _ _
    · exact repeats_fresh _ _
    · exact repeats_fresh _ _
    · exact hfault _
  | .real _ =>
    unfold evalConstant
    split
    · exact repeats_fresh _ _
    · exact repeats_fresh _ _
    · exact repeats_fresh _ _
    · exact hfault _
  | .bytes bs =>
    unfold evalConstant
    split
    · split
      · exact hfault _
      · exact (computes_recalls.pure _).repeats .refl
      · exact hfault _
    · split
      · exact hfault _
      · exact (computes_recalls.pure _).repeats .refl
      · exact hfault _
    · exact hfault _
  | .elements es =>
    unfold evalConstant
    exact repeats_concat (repeats_evalAll module rs _ es)

theorem repeats_evalAll (module : Nat) (rs : Registers) (n : Nat) (os : List Operand) :
    Repeats (List.Forall₂ Value.Same) (evalAll s (address s) module rs n os) := by
  match n, os with
  | 0, _ | _ + 1, [] =>
    unfold evalAll
    exact (computes_recalls.pure _).repeats fun vs => List.forall₂_same.mpr fun v _ => .refl v
  | n + 1, o :: os =>
    unfold evalAll
    exact (repeats_evalWith module rs o).combine (repeats_evalAll module rs n os) fun _ _ _ _ => .cons

end

theorem repeats_siteEval (site : Site) (o : Operand) : Repeats Value.Same (site.eval s o) :=
  repeats_evalWith site.routine.module site.registers o

end Machine

open Machine

/-! ## Watching divisors -/

/-- A divisor that a monitor lets pass is not the constant zero. -/
theorem Checker.exists_of_watchDivision {s : Setting} {site : Site} {m m' : Machine} {op : ArithOp}
    {flags : List String} {a b : Operand} (hop : site.instr.op = .arith op flags a b)
    (hdivides : Value.divides op = true) (hm : m.condition.Feasible) (h : watchDivision s site m = .ok () m') :
    ∃ v, site.eval s b m = .ok v m' ∧ v.const? ≠ some 0 := by
  unfold watchDivision at h
  rw [hop] at h
  dsimp only at h
  rw [if_pos hdivides] at h
  obtain ⟨v, m₁, hv, h⟩ := exists_of_bind h
  obtain ⟨rfl, hanswer⟩ := ask_iff.mp h
  refine ⟨v, hv, fun hzero => ?_⟩
  have heval := robust_siteEval (D := fun _ => True) trivial trivial s site b
  obtain ⟨ν, hν⟩ := ((heval m hm (ready_globalCount s m)).1 v m' hv).feasible
  obtain ⟨w, hw, hzero⟩ := Option.map_eq_some_iff.mp hzero
  have hdenote : (v.term.denote ν).toNat = 0 := by
    rw [Term.eq_const_of_const? hw]
    exact hzero
  have hpossible : (m'.condition.sat [v.equals 0]).1 = true :=
    PathCondition.sat_iff.mpr ⟨ν, hν, (PathCondition.holds_equals (Nat.two_pow_pos _)).mpr hdenote⟩
  cases hanswer.symm.trans hpossible

namespace Engine

variable {p : Project} {e : Engine p} {st : State p} {site : Site} {m m' : Machine}

/-- The machine that a monitor looks at is a feasible one, and the one that it leaves is extended by those after it. -/
theorem exists_of_watch {monitors : List Monitor} {monitor : Monitor} (hmem : monitor ∈ monitors)
    (hmonitors : ∀ monitor ∈ monitors, ∃ k : Checker, k.monitor? = some monitor) (hm : m.condition.Feasible)
    (h : e.watch site monitors m = .ok () m') :
    ∃ m₁ m₂, m₁.condition.Feasible ∧ monitor e.setting site m₁ = .ok () m₂ ∧ Extends m₂ m' := by
  have hrobust : ∀ monitor ∈ monitors, Robust e.setting (globalCount e.setting.project + 1) (fun _ => True) Unit
      (monitor e.setting site) := fun monitor hmonitor => by
    obtain ⟨k, hk⟩ := hmonitors monitor hmonitor
    exact robust_monitor trivial trivial e.setting site hk
  induction monitors generalizing m with
  | nil => cases hmem
  | cons first rest ih =>
    obtain ⟨_, m₁, hfirst, hrest⟩ := exists_of_bind h
    have hlater := (hrobust first List.mem_cons_self m hm (ready_globalCount e.setting m)).1 _ m₁ hfirst
    have hrest' : ∀ monitor ∈ rest, Robust e.setting (globalCount e.setting.project + 1) (fun _ => True) Unit
        (monitor e.setting site) := fun monitor hmonitor => hrobust monitor (List.mem_cons_of_mem _ hmonitor)
    rcases List.mem_cons.mp hmem with rfl | hmem
    · refine ⟨m, m₁, hm, hfirst, ?_⟩
      have hwatch : Robust e.setting (globalCount e.setting.project + 1) (fun _ => True) Unit (e.watch site rest) :=
        (prepares_robust trivial trivial).watch hrest'
      exact (hwatch m₁ hlater.feasible (ready_globalCount e.setting m₁)).1 _ m' hrest |>.addresses
    · exact ih hmem (fun monitor hmonitor => hmonitors monitor (List.mem_cons_of_mem _ hmonitor)) hlater.feasible hrest
        hrest'

/-- **Watched divisors are not zero** when the instruction evaluates them once more, in any project. -/
theorem not_dividesByZero_of_feasible (hbuiltin : e.BuiltIn) (hwatched : Checker.watchDivision ∈ e.monitors)
    (hst : st.machine.condition.Feasible) : ¬ e.DividesByZero st := by
  rintro ⟨i, m, hi, hwatch, @⟨op, flags, a, b, u, v, m₁, m₂, hop, hdivides, ha, hb, hu, hv, hwidth⟩⟩
  obtain ⟨m₃, m₄, hm₃, hlook, hext⟩ := exists_of_watch hwatched hbuiltin.monitors hst hwatch
  obtain ⟨v', hv', hnonzero⟩ := Checker.exists_of_watchDivision hop hdivides hm₃ hlook
  have hdividend : Extends m m₁ := ((admits_precedes e.setting).anyEval _ a ha).addresses
  obtain ⟨w, m₅, hw, _, hsame⟩ := (repeats_siteEval _ b m₃ v' m₄ hv').2 m₁ (hext.trans hdividend)
  obtain ⟨rfl, _⟩ := EStateM.Result.ok.inj (hb.symm.trans hw)
  cases hsame with
  | refl => exact hnonzero hv
  | symbols _ hsymbol =>
    rw [Value.const?_of_hasSymbol hsymbol] at hv
    cases hv

end Engine

end PathSafety
