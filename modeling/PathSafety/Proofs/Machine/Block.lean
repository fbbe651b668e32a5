import PathSafety.Proofs.Machine.Storage

/-!
# Block operations

Copying and filling blocks of memory do what they do in a run as long as their accesses are proper. A block
is read whole before it is written, so source and destination may overlap.

Contents:

* `quietly_blockOperands` — the destination and the length;
* `Works`, `does_block` — block operations, which do nothing at length zero;
* `effect_of_copy`, `effect_of_fill` — what accesses of blocks do;
* `does_copyBlock`, `does_fillBlock` — the operations.
-/

namespace PathSafety.Machine

open IR

variable {s : Setting} {place : Concrete.Placement} {all : Prop} {T T₁ : Table} {m m₁ m₂ : Machine}
  {D : Prop} {site : Site} {callee : Operand} {args : List Operand} {f : Function}

/-! ## What carries over from one machine to another -/

theorem possible_iff_of_conds (h : m₁.condition.conds = m.condition.conds) {w : Nat} (t : Term w) (n : Nat) :
    m₁.condition.Possible t n ↔ m.condition.Possible t n := by
  unfold PathCondition.Possible
  rw [h]

theorem Single.of_conds {a : Value} (ha : Single a m) (h : m₁.condition.conds = m.condition.conds) :
    Single a m₁ := fun x y hx hy =>
  ha x y ((possible_iff_of_conds h _ _).mp hx) ((possible_iff_of_conds h _ _).mp hy)

theorem Clear.of_eq {a : Value} {n : Nat} (ha : Clear s place a n m)
    (h : m₁.condition.conds = m.condition.conds) (haddresses : m₁.addresses = m.addresses) :
    Clear s place a n m₁ := fun x hx name b g hnone =>
  ha x ((possible_iff_of_conds h _ _).mp hx) name b g (by rwa [← haddresses])

/-! ## Arguments -/

/-- A call of an intrinsic has the arguments that the intrinsic looks at, and all of them have values. -/
theorem exists_arg {k : Intrinsic} (hop : site.instr.op = .call callee args)
    (htarget : Fits.target? site.routine callee = some f) (hk : Intrinsic.ofName? f.name = some k)
    (hfits : Fits.op s.project site.routine site.instr.op = true) {j : Nat} (hj : j < Fits.argumentCount k) :
    ∃ o w, args[j]? = some o ∧ Call.arg ⟨site, callee, args⟩ j = pure o ∧
      Fits.width? s.project site.routine o = some w := by
  rw [hop] at hfits
  simp only [Fits.op, htarget, hk, Bool.and_eq_true, decide_eq_true_iff] at hfits
  have hlt : j < args.length := Nat.lt_of_lt_of_le hj hfits.2
  obtain ⟨w, hw⟩ := Option.isSome_iff_exists.mp
    (List.all_eq_true.mp hfits.1 args[j] (List.getElem_mem hlt))
  refine ⟨args[j], w, List.getElem?_eq_getElem hlt, ?_, hw⟩
  unfold Call.arg
  dsimp only
  rw [List.getElem?_eq_getElem hlt]

/-- An argument of a run that is the word of a value. -/
theorem arg_eq {o : Operand} {j : Nat} (ho : args[j]? = some o) {v : Value}
    (hv : Evaluates s T site.registers (fun place cs => Concrete.operand s.project place cs o) v m) {i : Input}
    {c : Concrete.Config} (hcovers : Covers s place m) (hc : site.Holds i c) :
    Concrete.Config.arg s.project place c args j = some (v.word i) := by
  show (do Concrete.operand s.project place c.current.registers (← args[j]?)) = _
  rw [ho]
  exact hv.word i place _ hcovers hc.registers

/-- The destination and the length of a block operation. -/
theorem quietly_blockOperands (place : Concrete.Placement) (hfit : Fit s) (hsite : site.WellTyped s T) (hm : Sound s T m)
    (hop : site.instr.op = .call callee args) (htarget : Fits.target? site.routine callee = some f)
    {k : Intrinsic} (hk : Intrinsic.ofName? f.name = some k) (hcount : Fits.argumentCount k = 3)
    (name : String) :
    Quietly D s T (blockOperands s ⟨site, callee, args⟩ name) m fun r m' =>
      r.1.Known T ∧ ∀ i c, Covers s place m' → site.Holds i c →
        Concrete.Config.arg s.project place c args 0 = some (r.1.word i) ∧
          ∃ length, Concrete.Config.arg s.project place c args 2 = some length ∧ length.toNat = r.2 := by
  obtain ⟨o₀, w₀, ho₀, harg₀, hw₀⟩ := exists_arg hop htarget hk hsite.fits (j := 0) (by omega)
  obtain ⟨o₂, w₂, ho₂, harg₂, hw₂⟩ := exists_arg hop htarget hk hsite.fits (j := 2) (by omega)
  unfold blockOperands
  rw [harg₀, harg₂]
  refine does_bind (does_pure ?_)
  refine quietly_bind (quietly_site_eval hfit hsite (Op.mem_taken hop (List.mem_of_getElem? ho₀)) hw₀ hm)
    fun dest m₁ h₁ hdest => ?_
  refine does_bind (does_pure ?_)
  refine quietly_bind (quietly_site_eval hfit hsite (Op.mem_taken hop (List.mem_of_getElem? ho₂)) hw₂ h₁.sound)
    fun length m₂ h₂ hlength => ?_
  -- The length has to be a constant here; a symbolic one ends the path with a fault before any
  -- access.
  by_cases hsymbolic : length.isSymbolic = true
  · rw [if_pos hsymbolic]
    exact quietly_bind (Q := fun _ _ => False) (quietly_fault rfl) fun _ _ _ h => h.elim
  · rw [if_neg hsymbolic]
    obtain ⟨n, hn⟩ := exists_const?_of_not_isSymbolic hsymbolic
    refine quietly_bind (quietly_evalNat h₂.sound hn) fun n' m₃ h₃ hn' => ?_
    subst hn'
    refine quietly_pure h₃.sound ⟨hdest.2.1.known, fun i c hcovers hc => ?_⟩
    have hcovers₂ := hcovers.of_addresses h₃.addresses
    exact ⟨arg_eq ho₀ (hdest.2.1.quiet h₂) hcovers₂ hc, _, arg_eq ho₂ hlength.2.1 hcovers₂ hc,
      Value.word_of_const? i hn⟩

/-! ## Calls of intrinsics -/

theorem target?_of_holds {i : Input} {c : Concrete.Config} (hc : site.Holds i c) (callee : Operand) :
    c.target? callee = Fits.target? site.routine callee := by
  have hcurrent : c.target? callee = Fits.target? c.current.routine callee := by cases callee <;> rfl
  rw [hcurrent, hc.routine]

theorem exec_intrinsic {k : Intrinsic} (hop : site.instr.op = .call callee args)
    (htarget : Fits.target? site.routine callee = some f) (hk : Intrinsic.ofName? f.name = some k) {i : Input}
    {c : Concrete.Config} (hc : site.Holds i c) (entry : Concrete.Registers) :
    Concrete.exec s.project place c entry site.instr.op = Concrete.intrinsic s.project place c args k := by
  rw [hop]
  show Concrete.call s.project place c callee args = _
  unfold Concrete.call
  rw [target?_of_holds hc, htarget]
  simp only [Option.bind_eq_bind, Option.bind_some, hk]

/-- What a call accesses. -/
theorem accessed_call (hop : site.instr.op = .call callee args)
    (htarget : Fits.target? site.routine callee = some f) {i : Input} {c : Concrete.Config}
    (hc : site.Holds i c) :
    Concrete.accessed s.project place c site.instr.op =
      match Intrinsic.ofName? f.name with
      | some .copy =>
        if (Concrete.Config.arg s.project place c args 2).any (·.toNat ≠ 0) then
          (Concrete.Config.arg s.project place c args 0).toList ++
            (Concrete.Config.arg s.project place c args 1).toList
        else []
      | some .fill =>
        if (Concrete.Config.arg s.project place c args 2).any (·.toNat ≠ 0) then
          (Concrete.Config.arg s.project place c args 0).toList
        else []
      | _ => [] := by
  rw [hop]
  simp only [Concrete.accessed]
  rw [target?_of_holds hc, htarget]
  rfl

/-- An intrinsic that does nothing that a run sees. -/
theorem effect_none_of_quiet {k : Intrinsic} (hm : Quiet s T m m₁) (hop : site.instr.op = .call callee args)
    (htarget : Fits.target? site.routine callee = some f) (hk : Intrinsic.ofName? f.name = some k)
    (hexec : ∀ (i : Input) (c : Concrete.Config), Covers s place m₁ → site.Holds i c →
      Concrete.intrinsic s.project place c args k = some (c.finish none) ∧
        Concrete.accessed s.project place c site.instr.op = []) :
    Effect s place all site T m none T m₁ where
  steps := hm.steps
  typed v hv := nomatch hv
  exec := by
    intro i c entry stack hcovers hloads hpristine _ hc _ hmemory hstack _
    rw [hop] at hstack
    rw [exec_intrinsic hop htarget hk hc, (hexec i c hcovers hc).1, hm.bytes i place hcovers hloads hpristine,
      ← hmemory, show stack = c.stack from hstack.symm]
    rfl
  safe := by
    intro _ i c hcovers _ hc a ha
    rw [(hexec i c hcovers hc).2] at ha
    exact absurd ha List.not_mem_nil

/-! ## Blocks -/

/-- That a block operation has something to do: it has a destination, a length that is not zero and a second argument,
and the machine that these leave differs from the first one in nothing that a run sees. -/
structure Works (s : Setting) (place : Concrete.Placement) (T : Table) (site : Site) (callee : Operand)
    (args : List Operand) (name : String) (m : Machine) (dest : Value) (n : Nat) (second : Value) (m₂ : Machine) :
    Prop where
  pos : n ≠ 0
  evaluated : ∃ o m₁, blockOperands s ⟨site, callee, args⟩ name m = .ok (dest, n) m₁ ∧
    Call.arg ⟨site, callee, args⟩ 1 = pure o ∧ Call.eval s ⟨site, callee, args⟩ o m₁ = .ok second m₂
  quiet : Quiet s T m m₂
  destKnown : dest.Known T
  secondKnown : second.Known T
  words : ∀ i c, Covers s place m₂ → site.Holds i c →
    Concrete.Config.arg s.project place c args 0 = some (dest.word i) ∧
      Concrete.Config.arg s.project place c args 1 = some (second.word i) ∧
      ∃ length, Concrete.Config.arg s.project place c args 2 = some length ∧ length.toNat = n

/-- **Block operations** do nothing if the length is zero, and are left to what is done with their arguments else. -/
theorem does_block (hfit : Fit s) (hsite : site.WellTyped s T) (hm : Sound s T m)
    (hop : site.instr.op = .call callee args) (htarget : Fits.target? site.routine callee = some f) {k : Intrinsic}
    (hk : Intrinsic.ofName? f.name = some k) (hblock : k = .copy ∨ k = .fill) (act : Value → Nat → Value → Action Unit)
    (hact : ∀ dest n second m₂, Works s place T site callee args f.name m dest n second m₂ →
      Does D (act dest n second) m₂ (fun _ m' => ∃ T', Effect s place all site T m none T' m')
        (Halts s place all site T m)) :
    Does D (do
        let (dest, n) ← blockOperands s ⟨site, callee, args⟩ f.name
        if n ≠ 0 then
          let second ← Call.eval s ⟨site, callee, args⟩ (← Call.arg ⟨site, callee, args⟩ 1)
          act dest n second) m
      (fun _ m' => ∃ T', Effect s place all site T m none T' m') (Halts s place all site T m) := by
  have hcount : Fits.argumentCount k = 3 := by rcases hblock with rfl | rfl <;> rfl
  obtain ⟨o, w, ho, harg, hw⟩ := exists_arg hop htarget hk hsite.fits (j := 1) (by omega)
  refine does_bind (Does.mono (quietly_blockOperands place hfit hsite hm hop htarget hk hcount f.name).and_eq ?_
    fun g m' hg => hg.halts)
  rintro ⟨dest, n⟩ m₁ ⟨hrun₁, h₁, hdest, hargs⟩
  dsimp only at hdest hargs ⊢
  by_cases hzero : n = 0
  · -- a run does nothing and accesses nothing either
    rw [if_neg (not_not_intro hzero)]
    refine does_pure ⟨T, effect_none_of_quiet h₁ hop htarget hk fun i c hcovers hc => ?_⟩
    obtain ⟨hd, length, hn, hlength⟩ := hargs i c hcovers hc
    rw [hzero] at hlength
    rw [accessed_call hop htarget hc, hk, hn]
    rcases hblock with rfl | rfl
    · simp only [Concrete.intrinsic, hd, hn, Option.bind_eq_bind, Option.bind_some, hlength, if_true]
      exact ⟨rfl, by simp [hlength]⟩
    · simp only [Concrete.intrinsic, hd, hn, Option.bind_eq_bind, Option.bind_some, hlength, if_true]
      exact ⟨rfl, by simp [hlength]⟩
  · rw [if_pos hzero, harg]
    refine does_bind (does_pure (does_bind (Does.mono (quietly_site_eval hfit hsite
      (Op.mem_taken hop (List.mem_of_getElem? ho)) hw h₁.sound).and_eq ?_ fun g m' hg => (h₁.harmless hg).halts)))
    rintro second m₂ ⟨hrun₂, h₂, _, hsecond, _⟩
    refine hact dest n second m₂ ⟨hzero, ⟨o, m₁, hrun₁, harg, hrun₂⟩, h₁.trans h₂, hdest, hsecond.known, ?_⟩
    intro i c hcovers hc
    obtain ⟨hd, hlength⟩ := hargs i c (hcovers.of_addresses h₂.addresses) hc
    exact ⟨hd, arg_eq ho hsecond hcovers hc, hlength⟩

/-! ## Copying -/

/-- What a copy accesses, and what a run accesses. -/
theorem Works.accesses_copy {dest source : Value} {n : Nat} (hop : site.instr.op = .call callee args)
    (htarget : Fits.target? site.routine callee = some f) (hk : Intrinsic.ofName? f.name = some .copy)
    (h : Works s place T site callee args f.name m dest n source m₂) :
    accesses s site m = .ok [⟨source, n, false⟩, ⟨dest, n, true⟩] m₂ ∧
      ∀ i c, Covers s place m₂ → site.Holds i c →
        Concrete.accessed s.project place c site.instr.op = [dest.word i, source.word i] := by
  constructor
  · obtain ⟨o, m₁, hrun₁, harg, hrun₂⟩ := h.evaluated
    have hcall : Call.target? ⟨site, callee, args⟩ = some f := htarget
    unfold accesses
    rw [hop]
    simp only [hcall, Option.map_some, hk]
    simp only [bind, EStateM.bind, pure, EStateM.pure, hrun₁, if_neg h.pos, harg, hrun₂]
  · intro i c hcovers hc
    obtain ⟨hd, hsource, length, hn, hlength⟩ := h.words i c hcovers hc
    rw [accessed_call hop htarget hc, hk]
    dsimp only
    rw [hn, hd, hsource, if_pos (by simpa [hlength] using h.pos)]
    rfl

/-- The effect of reading a block and writing it is that of a copy: the block is read whole before it is written. -/
theorem effect_of_copy {dest source v : Value} {n : Nat} {m₃ : Machine} (hop : site.instr.op = .call callee args)
    (htarget : Fits.target? site.routine callee = some f) (hk : Intrinsic.ofName? f.name = some .copy)
    (hworks : Works s place T site callee args f.name m dest n source m₂)
    (hclear : all → Clear s place source (byteCount (8 * n)) m₂) (hread : ReadAs s source (8 * n) T m₂ v T₁ m₃)
    (hclear₁ : Clear s place dest (byteCount v.width) m₃) (hwrite : Written s dest v T₁ m₃ m₁) :
    Effect s place all site T m none T₁ m₁ where
  steps := (hworks.quiet.steps.trans (hread.steps hclear)).trans
    (hwrite.steps hread.touched.sound (hread.touched.known hworks.destKnown) hclear₁)
  typed := fun u hu => absurd hu.symm (Option.some_ne_none u)
  exec := by
    intro i c entry stack hcovers hloads hpristine hmeets hc _ hmemory hstack _
    -- Reading and writing lay out no variable, so the placement covers the machine between the two
    -- as well.
    have hcovers₂ : Covers s place m₂ := (hcovers.of_eq hwrite.touched.addresses).of_eq hread.touched.addresses
    have hmeets₂ : i.Meets m₂.condition.conds := by rwa [hworks.quiet.conds]
    have hword := hread.word i hmeets₂
    have hbytes := hwrite.bytes i (by rwa [hread.conds])
    rw [hread.bytes i, hworks.quiet.bytes i place hcovers₂ hloads hpristine, ← hmemory] at hbytes
    rw [hworks.quiet.bytes i place hcovers₂ hloads hpristine, ← hmemory] at hword
    obtain ⟨hd, hsource, n, hn, hlength⟩ := hworks.words i c hcovers₂ hc
    rw [hop] at hstack
    rw [exec_intrinsic hop htarget hk hc, hbytes, hword, show stack = c.stack from hstack.symm]
    simp only [Concrete.intrinsic, hd, hn, hsource, Option.bind_eq_bind, Option.bind_some, hlength,
      if_neg hworks.pos]
    rfl
  safe := by
    intro hs i c hcovers hmeets hc b hb
    have hcovers₂ : Covers s place m₂ := (hcovers.of_eq hwrite.touched.addresses).of_eq hread.touched.addresses
    have hmeets₂ : i.Meets m₂.condition.conds := by rwa [hworks.quiet.conds]
    rw [(hworks.accesses_copy hop htarget hk).2 i c hcovers₂ hc] at hb
    rcases List.mem_cons.mp hb with rfl | hb
    · exact hwrite.notNull hs i (by rwa [hread.conds])
    · rw [List.mem_singleton.mp hb]
      exact hread.notNull hs i hmeets₂

/-- **Copies.** -/
theorem does_copyBlock (hfit : Fit s) (hsite : site.WellTyped s T) (hm : Sound s T m)
    (hop : site.instr.op = .call callee args) (htarget : Fits.target? site.routine callee = some f)
    (hk : Intrinsic.ofName? f.name = some .copy) (hproper : Proper s place all site m) :
    Does D (copyBlock s ⟨site, callee, args⟩ f.name) m
      (fun _ m' => ∃ T', Effect s place all site T m none T' m') (Halts s place all site T m) := by
  refine does_block hfit hsite hm hop htarget hk (Or.inl rfl)
    (fun dest length source => do write s dest (← read s source (8 * length))) fun dest length source m₂ hworks => ?_
  obtain ⟨haccesses, haddresses⟩ := hworks.accesses_copy hop htarget hk
  have hquiet := hworks.quiet
  -- The source is read before the destination is written, in this order also where the two overlap.
  have hread := hproper _ _ haccesses _ List.mem_cons_self
  have hwrite := hproper _ _ haccesses _ (List.mem_cons_of_mem _ List.mem_cons_self)
  have hcount : byteCount (8 * length) = length := by
    unfold byteCount
    omega
  have hpos := Nat.pos_of_ne_zero hworks.pos
  refine does_bind ((does_read (8 * length) hquiet.sound hworks.secondKnown (by omega) (hread.near rfl).1
    (by rw [hcount]; exact (hread.near rfl).2)).mono ?_ fun g m' hg => ?_)
  · rintro v m₃ ⟨T₃, h₃⟩
    have hclear : all → Clear s place source (byteCount (8 * length)) m₂ := fun hall => by
      rw [hcount]
      exact hread.clear (Or.inr hall)
    have hdest₃ : dest.Known T₃ := h₃.touched.known hworks.destKnown
    refine (does_write h₃.touched.sound hdest₃ h₃.known
      ((hwrite.single rfl).of_conds h₃.conds)).mono ?_ fun g m' hg => ?_
    · intro _ m₄ h₄
      have hclear₃ : Clear s place dest (byteCount v.width) m₃ := by
        rw [h₃.width, hcount]
        exact (hwrite.clear (Or.inl rfl)).of_eq h₃.conds h₃.touched.addresses
      exact ⟨T₃, effect_of_copy hop htarget hk hworks hclear h₃ hclear₃ h₄⟩
    · have hsteps₃ : Steps s place all T m T₃ m₃ := hquiet.steps.trans (h₃.steps hclear)
      refine hsteps₃.halts (hg.halts h₃.touched.sound hdest₃ fun i c hcovers hc => ?_)
      rw [haddresses i c (hcovers.of_eq h₃.touched.addresses) hc]
      exact List.mem_cons_self
  · refine (hquiet.steps).halts (hg.halts hquiet.sound hworks.secondKnown fun i c hcovers hc => ?_)
    rw [haddresses i c hcovers hc]
    exact List.mem_cons_of_mem _ List.mem_cons_self

/-! ## Filling -/

theorem width_replicate (n : Nat) {v : Value} (hv : v.width = 8) :
    (Value.concat (List.replicate n v)).width = 8 * n := by
  rw [Value.width_concat, List.map_replicate, hv, List.sum_replicate_nat, Nat.mul_comm]

/-- What a fill accesses, and what a run accesses. -/
theorem Works.accesses_fill {dest byte : Value} {n : Nat} (hop : site.instr.op = .call callee args)
    (htarget : Fits.target? site.routine callee = some f) (hk : Intrinsic.ofName? f.name = some .fill)
    (h : Works s place T site callee args f.name m dest n byte m₂) :
    accesses s site m = .ok [⟨dest, n, true⟩] m₂ ∧
      ∀ i c, Covers s place m₂ → site.Holds i c →
        Concrete.accessed s.project place c site.instr.op = [dest.word i] := by
  constructor
  · obtain ⟨o, m₁, hrun₁, harg, hrun₂⟩ := h.evaluated
    have hcall : Call.target? ⟨site, callee, args⟩ = some f := htarget
    unfold accesses
    rw [hop]
    simp only [hcall, Option.map_some, hk]
    simp only [bind, EStateM.bind, pure, EStateM.pure, hrun₁, if_neg h.pos, harg, hrun₂]
  · intro i c hcovers hc
    obtain ⟨hd, _, length, hn, hlength⟩ := h.words i c hcovers hc
    rw [accessed_call hop htarget hc, hk]
    dsimp only
    rw [hn, hd, if_pos (by simpa [hlength] using h.pos)]
    rfl

/-- A byte, as often as a block is long. -/
abbrev filling (n : Nat) (byte : Value) : Value := Value.concat (List.replicate n (byte.resize 8))

/-- The effect of writing a byte all over a block is that of a fill. -/
theorem effect_of_fill {dest byte : Value} {n : Nat} (hop : site.instr.op = .call callee args)
    (htarget : Fits.target? site.routine callee = some f) (hk : Intrinsic.ofName? f.name = some .fill)
    (hworks : Works s place T site callee args f.name m dest n byte m₂)
    (hclear : Clear s place dest (byteCount (filling n byte).width) m₂)
    (hwrite : Written s dest (filling n byte) T m₂ m₁) : Effect s place all site T m none T m₁ where
  steps := hworks.quiet.steps.trans (hwrite.steps hworks.quiet.sound hworks.destKnown hclear)
  typed := fun u hu => absurd hu.symm (Option.some_ne_none u)
  exec := by
    intro i c entry stack hcovers hloads hpristine hmeets hc _ hmemory hstack _
    have hcovers₂ : Covers s place m₂ := hcovers.of_eq hwrite.touched.addresses
    -- A repeated byte means the concatenation of its repetitions, which is what the concrete fill
    -- stores.
    have hword : (filling n byte).word i = Word.concat (List.replicate n ((byte.word i).resize 8)) := by
      rw [Value.word_concat, List.map_replicate, Value.word_resize i (by decide)]
    have hbytes := hwrite.bytes i (by rwa [hworks.quiet.conds])
    rw [hworks.quiet.bytes i place hcovers₂ hloads hpristine, ← hmemory, hword] at hbytes
    obtain ⟨hd, hbyte, n, hn, hlength⟩ := hworks.words i c hcovers₂ hc
    rw [hop] at hstack
    rw [exec_intrinsic hop htarget hk hc, hbytes, show stack = c.stack from hstack.symm]
    simp only [Concrete.intrinsic, hd, hn, hbyte, Option.bind_eq_bind, Option.bind_some, hlength,
      if_neg hworks.pos]
    rfl
  safe := by
    intro hs i c hcovers hmeets hc b hb
    have hcovers₂ : Covers s place m₂ := hcovers.of_eq hwrite.touched.addresses
    rw [(hworks.accesses_fill hop htarget hk).2 i c hcovers₂ hc, List.mem_singleton] at hb
    rw [hb]
    exact hwrite.notNull hs i (by rwa [hworks.quiet.conds])

/-- **Fills.** -/
theorem does_fillBlock (hfit : Fit s) (hsite : site.WellTyped s T) (hm : Sound s T m)
    (hop : site.instr.op = .call callee args) (htarget : Fits.target? site.routine callee = some f)
    (hk : Intrinsic.ofName? f.name = some .fill) (hproper : Proper s place all site m) :
    Does D (fillBlock s ⟨site, callee, args⟩ f.name) m
      (fun _ m' => ∃ T', Effect s place all site T m none T' m') (Halts s place all site T m) := by
  refine does_block hfit hsite hm hop htarget hk (Or.inr rfl)
    (fun dest length byte => write s dest (filling length byte)) fun dest length byte m₂ hworks => ?_
  obtain ⟨haccesses, haddresses⟩ := hworks.accesses_fill hop htarget hk
  have hquiet := hworks.quiet
  have hwrite := hproper _ _ haccesses _ List.mem_cons_self
  -- The store takes its size from the value, which is `length` bytes wide by construction.
  have hwidth : byteCount (filling length byte).width = length := by
    rw [width_replicate length (Value.width_resize (by decide) byte)]
    unfold byteCount
    omega
  have hknown : (filling length byte).Known T := Value.known_concat fun v hv => by
    rw [(List.mem_replicate.mp hv).2]
    exact Value.known_resize hworks.secondKnown 8
  refine (does_write hquiet.sound hworks.destKnown hknown (hwrite.single rfl)).mono ?_ fun g m' hg => ?_
  · intro _ m₃ h₃
    have hclear : Clear s place dest (byteCount (filling length byte).width) m₂ := by
      rw [hwidth]
      exact hwrite.clear (Or.inl rfl)
    exact ⟨T, effect_of_fill hop htarget hk hworks hclear h₃⟩
  · refine (hquiet.steps).halts (hg.halts hquiet.sound hworks.destKnown fun i c hcovers hc => ?_)
    rw [haddresses i c hcovers hc]
    exact List.mem_singleton_self _

end PathSafety.Machine
