import PathSafety.Proofs.Concrete.Input

/-!
# Which symbols stand for what

Symbols are numbered in the order in which a path made them, so that a table of origins says what each of
them stands for. A term is known to a table if it looks only at symbols of the table, used as the table
says. What such a term means for an input is what it denotes under a valuation, and the other way round.

Contents:

* `Agree`, `Term.Known` — readings and valuations that agree on a table, and terms that see no more;
* `Input.valuation` — the valuation of an input;
* `Value.exists_arith`, `Value.word_concat`, ... — what operations on values do to words.
-/

namespace PathSafety

/-- What the symbols of a path stand for, by number. -/
abbrev Table := List Origin

/-- That a reading and a valuation give the symbols of a table the same values. -/
def Agree (T : Table) (ρ : Reading) (ν : Valuation) : Prop :=
  ∀ k o, T[k]? = some o → ρ ⟨k, o.name⟩ o.width = BitVec.ofNat o.width (ν k)

theorem Agree.of_append {T new : Table} {ρ : Reading} {ν : Valuation} (h : Agree (T ++ new) ρ ν) :
    Agree T ρ ν := by
  intro k o hk
  obtain ⟨hlt, _⟩ := List.getElem?_eq_some_iff.mp hk
  exact h k o (by rw [List.getElem?_append_left hlt, hk])

namespace Input

/-- The values that an input gives the symbols of a table. -/
def valuation (i : Input) (T : Table) : Valuation := fun k => (T[k]?.map i.valueOf).getD 0

theorem agree_valuation (i : Input) (T : Table) : Agree T i.reading (i.valuation T) := by
  intro k o hk
  rw [reading_of_origin]
  unfold valuation
  rw [hk]
  rfl

end Input

namespace Term

/-- That a term looks only at the symbols of a table. -/
def Known (T : Table) {w : Nat} (t : Term w) : Prop :=
  ∀ ρ ν, Agree T ρ ν → t.meaning ρ = t.denote ν

variable {T : Table} {w : Nat}

theorem Known.append {t : Term w} (h : t.Known T) (new : Table) : t.Known (T ++ new) :=
  fun ρ ν hρ => h ρ ν hρ.of_append

theorem known_const (v : BitVec w) : (Term.const v).Known T := fun _ _ _ => rfl

theorem known_symbol {k : Nat} {o : Origin} (h : T[k]? = some o) :
    (Term.symbol ⟨k, o.name⟩ : Term o.width).Known T := fun _ _ hρ => hρ k o h

theorem known_mkArith {op : ArithOp} {a b : Term w} (ha : a.Known T) (hb : b.Known T) :
    (mkArith op a b).Known T := by
  intro ρ ν hρ
  rw [denote_eq_meaning, meaning_mkArith, meaning_mkArith, ← denote_eq_meaning, ← denote_eq_meaning,
    ha ρ ν hρ, hb ρ ν hρ]

theorem known_mkCmp {n : Nat} {op : CmpOp} {a b : Term n} (ha : a.Known T) (hb : b.Known T) :
    (mkCmp op a b).Known T := by
  intro ρ ν hρ
  rw [denote_eq_meaning, meaning_mkCmp, meaning_mkCmp, ← denote_eq_meaning, ← denote_eq_meaning,
    ha ρ ν hρ, hb ρ ν hρ]

theorem known_mkNot {a : Term w} (ha : a.Known T) : a.mkNot.Known T := by
  intro ρ ν hρ
  rw [denote_eq_meaning, meaning_mkNot, meaning_mkNot, ← denote_eq_meaning, ha ρ ν hρ]

theorem known_mkIte {c : Cond} {a b : Term w} (hc : c.Known T) (ha : a.Known T) (hb : b.Known T) :
    (mkIte c a b).Known T := by
  intro ρ ν hρ
  rw [denote_eq_meaning, meaning_mkIte, meaning_mkIte, ← denote_eq_meaning, ← denote_eq_meaning,
    ← denote_eq_meaning, hc ρ ν hρ, ha ρ ν hρ, hb ρ ν hρ]

theorem known_mkSlice {n : Nat} {a : Term n} (ha : a.Known T) (lo w : Nat) :
    (mkSlice lo w a).Known T := by
  intro ρ ν hρ
  rw [denote_eq_meaning, meaning_mkSlice, meaning_mkSlice, ← denote_eq_meaning, ha ρ ν hρ]

theorem known_mkConcat {m n : Nat} {a : Term m} {b : Term n} (ha : a.Known T) (hb : b.Known T) (w : Nat)
    (h : w = m + n) : (mkConcat a b w h).Known T := by
  intro ρ ν hρ
  rw [denote_eq_meaning, meaning_mkConcat, meaning_mkConcat, ← denote_eq_meaning, ← denote_eq_meaning,
    ha ρ ν hρ, hb ρ ν hρ]

theorem known_mkResize {n : Nat} {a : Term n} (ha : a.Known T) (w : Nat) : (mkResize w a).Known T := by
  intro ρ ν hρ
  rw [denote_eq_meaning, meaning_mkResize, meaning_mkResize, ← denote_eq_meaning, ha ρ ν hρ]

theorem known_mkSignedResize {n : Nat} {a : Term n} (ha : a.Known T) (w : Nat) :
    (mkSignedResize w a).Known T := by
  intro ρ ν hρ
  rw [denote_eq_meaning, meaning_mkSignedResize, meaning_mkSignedResize, ← denote_eq_meaning, ha ρ ν hρ]

theorem known_mkAll {cs : List Cond} (h : ∀ c ∈ cs, c.Known T) : (mkAll cs).Known T := by
  induction cs with
  | nil => exact known_const _
  | cons c cs ih =>
    exact known_mkArith (h c List.mem_cons_self) (ih fun d hd => h d (List.mem_cons_of_mem _ hd))

/-- What a known condition says of an input is what it says of the valuation of the input. -/
theorem Known.meaning_eq {t : Term w} (h : t.Known T) (i : Input) :
    t.meaning i.reading = t.denote (i.valuation T) := h _ _ (i.agree_valuation T)

end Term

namespace Value

variable {T : Table} (i : Input)

/-- That a value looks only at the symbols of a table. -/
def Known (T : Table) (v : Value) : Prop := v.term.Known T

theorem Known.append {v : Value} (h : v.Known T) (new : Table) : v.Known (T ++ new) :=
  Term.Known.append h new

/-! ## Constants -/

theorem known_ofNat (w n : Nat) : (ofNat w n).Known T := Term.known_const _

theorem known_ofInt (w : Nat) (n : Int) : (ofInt w n).Known T := Term.known_const _

@[simp] theorem word_ofNat (w n : Nat) : (ofNat w n).word i = .ofNat w n := rfl

@[simp] theorem word_ofInt (w : Nat) (n : Int) : (ofInt w n).word i = .ofInt w n := rfl

@[simp] theorem width_word (v : Value) : (v.word i).width = v.width := rfl

theorem isZero_iff {v : Value} : v.term.isZero = true ↔ v.const? = some 0 := by
  unfold const? Term.isZero
  cases v.term.const? with
  | none => simp
  | some b => simp [← BitVec.toNat_inj]

theorem word_of_const? {v : Value} {n : Nat} (h : v.const? = some n) : (v.word i).toNat = n := by
  obtain ⟨b, hb, rfl⟩ := Option.map_eq_some_iff.mp h
  exact congrArg BitVec.toNat (Term.meaning_of_const? hb)

/-! ## Operations -/

theorem exists_terms {a b : Value} (h : b.width = a.width) :
    ∃ (w : Nat) (s t : Term w), a = ⟨s⟩ ∧ b = ⟨t⟩ :=
  ⟨a.width, a.term, h ▸ b.term, rfl, by cases b; cases a; cases h; rfl⟩

/-- What operations on values of one width have for a result. -/
theorem aligned_mk {α : Type} {w : Nat} (s t : Term w) (f : {w : Nat} → Term w → Term w → α) :
    aligned ⟨s⟩ ⟨t⟩ f = .ok (f s t) := dif_pos rfl

theorem word_aligned_mk {α : Type} {w : Nat} (u v : BitVec w) (f : {w : Nat} → BitVec w → BitVec w → α) :
    (Word.mk u).aligned (Word.mk v) f = some (f u v) := dif_pos rfl

/-- An arithmetic operation on values does to words what it does to numbers, unless it divides by the
constant zero. -/
theorem exists_arith (op : ArithOp) {a b : Value} (hw : b.width = a.width) :
    arith op a b = .error .divisionByZero ∧ divides op = true ∧ a.isSymbolic = false ∧ b.term.isZero = true ∨
      ∃ r, arith op a b = .ok r ∧ r.width = a.width ∧ (a.Known T → b.Known T → r.Known T) ∧
        ∀ i, Word.arith op (a.word i) (b.word i) = some (r.word i) := by
  obtain ⟨w, s, t, rfl, rfl⟩ := exists_terms hw
  unfold arith
  split
  · rename_i h
    simp only [Bool.and_eq_true, Bool.not_eq_true'] at h
    exact Or.inl ⟨rfl, h.1.1.1, h.1.1.2, h.1.2⟩
  · refine Or.inr ⟨_, aligned_mk s t _, rfl, Term.known_mkArith, fun i => ?_⟩
    show (Word.mk _).aligned (Word.mk _) _ = _
    rw [word_aligned_mk, ← Term.meaning_mkArith]
    rfl

theorem exists_cmp (op : CmpOp) {a b : Value} (hw : b.width = a.width) :
    ∃ c, cmp op a b = .ok c ∧ (a.Known T → b.Known T → c.Known T) ∧
      ∀ i, ∃ r, (a.word i).compare op (b.word i) = some r ∧ c.meaning i.reading = BitVec.ofBool r := by
  obtain ⟨w, s, t, rfl, rfl⟩ := exists_terms hw
  refine ⟨_, aligned_mk s t _, Term.known_mkCmp, fun i => ⟨_, word_aligned_mk _ _ _, ?_⟩⟩
  exact Term.meaning_mkCmp op s t

/-- The condition that two values are equal. -/
theorem exists_cmp_eq {a b : Value} (hw : b.width = a.width) :
    ∃ c, cmp .eq a b = .ok c ∧ (a.Known T → b.Known T → c.Known T) ∧
      ∀ i, c.meaning i.reading = 1#1 ↔ (a.word i).toNat = (b.word i).toNat := by
  obtain ⟨w, s, t, rfl, rfl⟩ := exists_terms hw
  refine ⟨_, aligned_mk s t _, Term.known_mkCmp, fun i => ?_⟩
  rw [Term.meaning_mkCmp]
  show BitVec.ofBool (s.meaning i.reading == t.meaning i.reading) = 1#1 ↔
    (s.meaning i.reading).toNat = (t.meaning i.reading).toNat
  rw [BitVec.toNat_inj]
  by_cases h : s.meaning i.reading = t.meaning i.reading
  · simp [h]
  · simp [h, beq_false_of_ne h]

/-- A comparison of values has the truth value that it has for words. -/
theorem exists_condition (q : IR.IntPredicate) {a b : Value} (hw : b.width = a.width) :
    ∃ c, q.condition a b = .ok c ∧ (a.Known T → b.Known T → c.Known T) ∧
      ∀ i, ∃ r, Concrete.compare q (a.word i) (b.word i) = some r ∧
        c.meaning i.reading = BitVec.ofBool r := by
  -- The solver has no greater-than, so those four swap their operands.
  have swap {op : CmpOp} : ∃ c, cmp op b a = .ok c ∧ (a.Known T → b.Known T → c.Known T) ∧
      ∀ i, ∃ r, (b.word i).compare op (a.word i) = some r ∧ c.meaning i.reading = BitVec.ofBool r := by
    obtain ⟨c, hc, hknown, hr⟩ := exists_cmp (T := T) op hw.symm
    exact ⟨c, hc, fun ha hb => hknown hb ha, hr⟩
  cases q with
  | ne =>
    obtain ⟨c, hc, hknown, hr⟩ := exists_cmp (T := T) .eq hw
    refine ⟨c.mkNot, ?_, fun ha hb => Term.known_mkNot (hknown ha hb), fun i => ?_⟩
    · show (cmp .eq a b).map Term.mkNot = _
      rw [hc]
      rfl
    · obtain ⟨r, hcmp, hmeaning⟩ := hr i
      refine ⟨!r, ?_, ?_⟩
      · show ((a.word i).compare .eq (b.word i)).map not = _
        rw [hcmp]
        rfl
      · rw [Term.meaning_mkNot, hmeaning]
        cases r <;> rfl
  | eq | ult | ule | slt | sle => exact exists_cmp _ hw
  | ugt | uge | sgt | sge => exact swap

theorem exists_ite {c : Cond} {a b : Value} (hw : b.width = a.width) :
    ∃ r, ite c a b = .ok r ∧ r.width = a.width ∧ (c.Known T → a.Known T → b.Known T → r.Known T) ∧
      ∀ i, r.word i = if c.meaning i.reading = 1#1 then a.word i else b.word i := by
  obtain ⟨w, s, t, rfl, rfl⟩ := exists_terms hw
  refine ⟨_, aligned_mk s t _, rfl, Term.known_mkIte, fun i => ?_⟩
  show Word.mk _ = _
  rw [Term.meaning_mkIte]
  split <;> rfl

/-! ## Equality with a number -/

theorem known_equals {v : Value} (h : v.Known T) (n : Nat) : (v.equals n).Known T :=
  Term.known_mkCmp h (Term.known_const _)

theorem meaning_equals {v : Value} {n : Nat} (hn : n < 2 ^ v.width) {ρ : Reading} :
    (v.equals n).meaning ρ = 1#1 ↔ (v.term.meaning ρ).toNat = n := by
  unfold equals
  rw [Term.meaning_mkCmp, Term.meaning_const, CmpOp.eval]
  constructor
  · intro h
    by_cases heq : v.term.meaning ρ = BitVec.ofNat _ n
    · rw [heq, BitVec.toNat_ofNat, Nat.mod_eq_of_lt hn]
    · simp [beq_false_of_ne heq] at h
  · rintro rfl
    simp

/-! ## Widths -/

@[simp] theorem width_resize {bits : Nat} (h : bits ≠ 0) (v : Value) : (v.resize bits).width = bits := by
  unfold resize
  rw [if_neg h]

@[simp] theorem word_resize {bits : Nat} (h : bits ≠ 0) (v : Value) :
    (v.resize bits).word i = (v.word i).resize bits := by
  unfold resize
  rw [if_neg h]
  exact congrArg Word.mk (Term.meaning_mkResize bits v.term)

theorem known_resize {v : Value} (hv : v.Known T) (bits : Nat) : (v.resize bits).Known T := by
  unfold resize
  split
  · exact hv
  · exact Term.known_mkResize hv bits

@[simp] theorem width_signedResize {bits : Nat} (h : bits ≠ 0) (v : Value) :
    (v.signedResize bits).width = bits := by
  unfold signedResize
  rw [if_neg h]

@[simp] theorem word_signedResize {bits : Nat} (h : bits ≠ 0) (v : Value) :
    (v.signedResize bits).word i = (v.word i).signedResize bits := by
  unfold signedResize
  rw [if_neg h]
  exact congrArg Word.mk (Term.meaning_mkSignedResize bits v.term)

theorem known_signedResize {v : Value} (hv : v.Known T) (bits : Nat) : (v.signedResize bits).Known T := by
  unfold signedResize
  split
  · exact hv
  · exact Term.known_mkSignedResize hv bits

/-! ## Values one above another -/

theorem known_stack {v : Value} {us : List Value} (hv : v.Known T) (hus : ∀ u ∈ us, u.Known T) :
    (stack v us).Known T := by
  induction us generalizing v with
  | nil => exact hv
  | cons u us ih =>
    exact ih (Term.known_mkConcat (hus u List.mem_cons_self) hv _ rfl)
      fun x hx => hus x (List.mem_cons_of_mem _ hx)

theorem known_concat {vs : List Value} (h : ∀ v ∈ vs, v.Known T) : (concat vs).Known T := by
  cases vs with
  | nil => exact known_ofNat 0 0
  | cons v vs =>
    exact known_stack (h v List.mem_cons_self) fun u hu => h u (List.mem_cons_of_mem _ hu)

theorem width_stack (v : Value) (us : List Value) :
    (stack v us).width = (us.map width).sum + v.width := by
  induction us generalizing v with
  | nil => exact (Nat.zero_add _).symm
  | cons u us ih =>
    rw [stack, ih, List.map_cons, List.sum_cons, ← Nat.add_assoc, Nat.add_comm u.width]

theorem width_concat (vs : List Value) : (concat vs).width = (vs.map width).sum := by
  cases vs with
  | nil => rfl
  | cons v vs => rw [concat, width_stack, List.map_cons, List.sum_cons, Nat.add_comm]

/-- The word that a value stands for under a reading. -/
def wordUnder (ρ : Reading) (v : Value) : Word := ⟨v.term.meaning ρ⟩

theorem toNat_stack (ρ : Reading) (v : Value) (us : List Value) :
    ((stack v us).wordUnder ρ).toNat =
      2 ^ v.width * (Word.concat (us.map (wordUnder ρ))).toNat + (v.wordUnder ρ).toNat := by
  induction us generalizing v with
  | nil =>
    show _ = 2 ^ v.width * 0 + _
    rw [Nat.mul_zero, Nat.zero_add]
    rfl
  | cons u us ih =>
    -- The next part goes on top of what has been stacked so far.
    have hu : (Value.wordUnder ρ ⟨Term.mkConcat u.term v.term _ rfl⟩).toNat =
        2 ^ v.width * (u.wordUnder ρ).toNat + (v.wordUnder ρ).toNat := by
      show ((Term.mkConcat u.term v.term _ rfl).meaning ρ).toNat = _
      rw [Term.meaning_mkConcat, BitVec.cast_eq, BitVec.toNat_append, Nat.shiftLeft_eq, Nat.mul_comm,
        ← Nat.two_pow_add_eq_or_of_lt (v.term.meaning ρ).isLt]
      rfl
    rw [stack, ih, hu, List.map_cons, Word.toNat_concat_cons, Nat.pow_add]
    show 2 ^ u.width * 2 ^ v.width * _ + _ = 2 ^ v.width * (2 ^ u.width * _ + _) + _
    rw [Nat.mul_comm (2 ^ u.width), Nat.mul_assoc, Nat.mul_add, Nat.add_assoc]

/-- Values one above another make the words one above another. -/
theorem wordUnder_concat (ρ : Reading) (vs : List Value) :
    (concat vs).wordUnder ρ = Word.concat (vs.map (wordUnder ρ)) := by
  apply Word.ext_toNat
  · show (concat vs).width = _
    rw [width_concat]
    induction vs with
    | nil => rfl
    | cons v vs ih =>
      rw [List.map_cons, List.sum_cons, List.map_cons, Word.width_concat_cons, ih, Nat.add_comm]
      rfl
  · cases vs with
    | nil => rfl
    | cons v vs =>
      rw [concat, toNat_stack, List.map_cons, Word.toNat_concat_cons]
      rfl

theorem word_concat (vs : List Value) : (concat vs).word i = Word.concat (vs.map (word i)) :=
  wordUnder_concat i.reading vs

end Value

end PathSafety
