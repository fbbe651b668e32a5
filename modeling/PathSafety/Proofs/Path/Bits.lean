import PathSafety.Proofs.IR.Bits
import PathSafety.Proofs.Path.Calls

/-!
# Single bits stay single bits

In a well-typed module a register of type `i1` holds one bit, whatever a path has executed: the operations that assign it
give one bit, and functions that return `i1` return one. So conditional branches test single bits.

Contents:

* `Machine.gives_bit_eval`, `Machine.gives_bit_arith`, … — operands, and results of operations, that are single bits;
* `Call.ReturnsBit`, `Engine.ReturnsBits` — hooks that return single bits where functions do;
* `Frame.HoldsBits`, `Convention.singleBits` — that the registers of calls hold single bits;
* `Engine.bits_move` — instructions leave it so.
-/

namespace PathSafety

open IR Machine

variable {p : Project} {e : Engine p} {f g : Frame p} {i : Instr} {st : State p} {site : Site} {m m' : Machine}
  {s : Setting} {bits : List String}

/-! ## Widths -/

namespace Machine

theorem gives_width_fresh (name : String) (bits : Int) : Gives (fun v => v.width = bits.toNat) (fresh name bits) := by
  unfold fresh
  split
  · exact gives_fault_bind
  · exact gives_bind fun _ => gives_bind fun _ => gives_pure rfl

/-- A single bit is cut out of the byte that it stands in. -/
theorem gives_bit_read (address : Value) : Gives (fun v => v.width = 1) (read s address 1) := by
  unfold read
  refine gives_bind fun _ => gives_bind fun v => ?_
  rw [if_neg (by decide)]
  split
  · exact gives_defect
  · exact gives_pure (Value.width_resize Nat.one_ne_zero v)

/-- A type of a single bit has the size of one. -/
theorem of_sized_bit {t : Ty} (ht : t.isBit = true) {n : Nat} (h : sized s t m = .ok n m') : n = 1 := by
  obtain rfl := Ty.eq_of_isBit ht
  exact (of_pure h).1.symm

/-- A constant expression of type `i1` is one bit, if it is no address. -/
theorem gives_bit_expression {address : Addressing} {fuel : Nat} {text : List Char}
    (h : ∀ k g n is, ExpressionShape.of? s.project text ≠ some (.element k g n is)) :
    Gives (fun v => v.width = 1) (evalExpression s address fuel text 1) := by
  cases fuel with
  | zero => exact gives_fault
  | succ fuel =>
    obtain ⟨f, _, heq⟩ := evalExpression_eq s address fuel 1 text
    rw [heq]
    unfold evalShape
    split
    · rename_i hshape
      exact absurd hshape (h _ _ _ _)
    · exact gives_bind fun v => gives_pure (Value.width_resize Nat.one_ne_zero v)
    · exact gives_bind fun v => gives_pure (Value.width_resize Nat.one_ne_zero v)
    · exact gives_pure rfl
    · exact gives_pure rfl
    · exact gives_fault

/-- **Operands** that are single bits by their types have one bit, if registers have. -/
theorem gives_bit_eval {o : Operand} (ho : o.isBit s.project bits = true)
    (hregisters : ∀ n ∈ bits, ∀ v, site.registers.get? n = some v → v.width = 1) :
    Gives (fun v => v.width = 1) (site.eval s o) := by
  show Gives _ (evalWith s (Machine.address s) site.routine.module site.registers o)
  unfold evalWith
  cases o with
  | register n =>
    have hn : n ∈ bits := by simpa [Operand.isBit] using ho
    dsimp only
    split
    · rename_i v hv
      exact gives_pure (hregisters n hn v hv)
    · exact gives_fault
  | global | assembly => cases ho
  | constant t c =>
    simp only [Operand.isBit, Bool.and_eq_true] at ho
    obtain ⟨ht, hc⟩ := ho
    obtain rfl := Ty.eq_of_isBit ht
    have hbits : s.project.layout.bits? (.int 1) = some 1 := rfl
    dsimp only
    rw [hbits]
    show Gives _ (evalConstant s _ _ _ (.int 1) 1 c)
    unfold evalConstant
    cases c with
    | expression text =>
      -- The one expression wider than a bit is an element address, which `isBit` excludes.
      refine gives_bit_expression fun k g n is hshape => ?_
      simp [ConstantValue.isBit, hshape] at hc
    | undef => exact gives_width_fresh "undef" 1
    | null | int => exact gives_pure rfl
    | real | bytes => exact gives_fault
    | elements => cases hc

/-- The width of a result is that of the first operand. -/
theorem gives_bit_arith {op : ArithOp} {a b : Operand} (ha : Gives (fun v => v.width = 1) (site.eval s a)) :
    Gives (fun v => v.width = 1) (arith s site op a b) := by
  intro m r m' hr
  obtain ⟨u, m₁, hu, hr⟩ := exists_of_bind hr
  obtain ⟨w, m₂, _, hr⟩ := exists_of_bind hr
  rw [Value.width_of_arith (of_valueOr hr).1]
  exact ha hu

theorem gives_bit_cast {op : CastOp} {v : Operand} {t : Ty} (ht : t.isBit = true) :
    Gives (fun v => v.width = 1) (cast s site op v t) := by
  intro m r m' hr
  obtain ⟨u, m₁, _, hr⟩ := exists_of_bind hr
  obtain ⟨n, m₂, hn, hr⟩ := exists_of_bind hr
  obtain rfl := of_sized_bit ht hn
  obtain ⟨rfl, _⟩ := of_pure hr
  split
  · exact Value.width_signedResize Nat.one_ne_zero u
  · exact Value.width_resize Nat.one_ne_zero u

theorem gives_bit_load {a : Operand} {t : Option Ty} (ht : (site.routine.scope.accessType a t).isBit = true) :
    Gives (fun v => v.width = 1) (load s site a t) := by
  intro m r m' hr
  obtain ⟨n, m₁, hn, hr⟩ := exists_of_bind hr
  obtain rfl := of_sized_bit ht hn
  obtain ⟨address, m₂, _, hr⟩ := exists_of_bind hr
  exact gives_bit_read address hr

theorem gives_bit_select {c a b : Operand} (ha : Gives (fun v => v.width = 1) (site.eval s a)) :
    Gives (fun v => v.width = 1) (select s site c a b) := by
  intro m r m' hr
  obtain ⟨u, m₁, _, hr⟩ := exists_of_bind hr
  obtain ⟨v, m₂, hv, hr⟩ := exists_of_bind hr
  obtain ⟨w, m₃, _, hr⟩ := exists_of_bind hr
  rw [Value.width_of_ite (of_valueOr hr).1]
  exact ha hv

theorem gives_bit_phi {incoming : List (Operand × String)}
    (h : ∀ x ∈ incoming, Gives (fun v => v.width = 1) (site.eval s x.1)) :
    Gives (fun v => v.width = 1) (phi s site incoming) := by
  unfold phi
  split
  · rename_i hfound
    exact h _ (List.mem_of_find?_eq_some hfound)
  · exact gives_fault

end Machine

/-! ## Calls under way -/

namespace Frame

/-- That some registers hold single bits. -/
def HoldsBits (f : Frame p) (bits : List String) : Prop := ∀ n ∈ bits, ∀ v, f.registers.get? n = some v → v.width = 1

theorem HoldsBits.finish (h : f.HoldsBits bits) (hi : f.instr? = some i) {result : Option Value}
    (hresult : i.name ∈ bits → ∀ v, result = some v → v.width = 1) : (f.finish result).HoldsBits bits := by
  intro n hn v hv
  cases result with
  | none =>
    rw [registers_finish_none] at hv
    exact h n hn v hv
  | some w =>
    rw [get?_finish hi] at hv
    by_cases heq : i.name = n
    · rw [if_pos heq] at hv
      exact hresult (heq ▸ hn) v hv
    · rw [if_neg heq] at hv
      exact h n hn v hv

/-- Parameters hold single bits if arguments are single bits where the types are. -/
theorem holdsBits_call {r : Routine} {hr : r ∈ p.routines} {args : List Value} (hg : call? r hr args = some g)
    (htypes : r.typesBits p bits = true)
    (hargs : ∀ x ∈ r.function.params.zip args, x.1.2.isBit = true → x.2.width = 1) : g.HoldsBits bits := by
  obtain ⟨_, _, _, _, _, _, hregisters⟩ := eq_of_call? hg
  -- Over the parameters bound so far: a later one of the same name shadows the earlier, and is a
  -- bit too.
  have hbind : ∀ (xs : List ((String × Ty) × Value)) (rs : Registers),
      (∀ x ∈ xs, x.1 ∈ r.function.params ∧ (x.1.2.isBit = true → x.2.width = 1)) →
        (∀ n ∈ bits, ∀ v, rs.get? n = some v → v.width = 1) →
          ∀ n ∈ bits, ∀ v, (xs.foldl (fun rs x => rs.insert x.1.1 x.2) rs).get? n = some v → v.width = 1 := by
    intro xs
    induction xs with
    | nil => exact fun _ _ h => h
    | cons x xs ih =>
      intro rs hxs hrs
      obtain ⟨⟨hparam, hwidth⟩, hrest⟩ := List.forall_mem_cons.mp hxs
      refine ih _ hrest fun n hn v hv => ?_
      rw [get?_insert_name] at hv
      by_cases heq : x.1.1 = n
      · rw [if_pos heq] at hv
        obtain rfl := Option.some.inj hv
        exact hwidth (Routine.isBit_of_param htypes hparam (heq ▸ hn))
      · rw [if_neg heq] at hv
        exact hrs n hn v hv
  unfold HoldsBits
  rw [hregisters]
  refine hbind _ ∅ (fun x hx => ⟨(List.of_mem_zip hx).1, hargs x hx⟩) fun n _ v hv => ?_
  simp at hv

end Frame

/-- The symbol of a parameter of one bit has one bit. -/
theorem Start.width_of_parameters {l : Layout} {params : List (String × Ty)} {args : List (String × Value)}
    (h : parameters l params m = .ok args m') :
    ∀ x ∈ params.zip (args.map (·.2)), x.1.2.isBit = true → x.2.width = 1 := by
  have hvalues := forall₂_parameters h
  clear h
  induction hvalues with
  | nil => simp
  | cons hv _ ih =>
    obtain ⟨n, m₁, m₂, hbits, hv⟩ := hv
    refine List.forall_mem_cons.mpr ⟨fun ht => ?_, ih⟩
    rw [Ty.eq_of_isBit ht] at hbits
    obtain rfl : 1 = n := Option.some.inj hbits
    exact gives_width_fresh _ _ hv

/-- The registers that are single bits by their types hold one bit. A call that waits for one waits for a function that
returns one. -/
def Convention.singleBits (bits : Routine → List String) : Convention p where
  holds f := f.HoldsBits (bits f.routine)
  expects g i r := i.name ∈ bits g.routine → r.function.ret.isBit = true

/-- That what a call returns is a single bit if the function that it names returns one. A call that names no function
returns nothing else. -/
def Call.ReturnsBit (c : Call) (o : Outcome) : Prop :=
  (∀ fn, c.target? = some fn → fn.ret.isBit = true) → ∀ v, o = .returned v → v.width = 1

namespace Engine

/-- That hooks return single bits where the functions do that they stand in for. -/
def ReturnsBits (e : Engine p) : Prop :=
  ∀ h, e.HasHook h → ∀ c : Call, c.site.routine ∈ p.routines → Gives c.ReturnsBit (h e.setting c)

/-- Intrinsics return nothing. -/
theorem gives_intrinsic {c : Call} {name : String} (k : Intrinsic) :
    Gives (fun o => ∀ v, o ≠ .returned v) (intrinsic s c name k) := by
  cases k with
  | abort | marker => exact gives_pure nofun
  | throwing => exact gives_bind fun _ => gives_bind fun _ => gives_pure nofun
  | copy | fill => exact gives_bind fun _ => gives_pure nofun

section Moves

variable {modules : List Module} {layout : Layout} {bits : Routine → List String}
  (hp : Project.ofModules? modules layout = some p) (htypes : p.TypesBits bits) (he : e.ReturnsBits)

/-- The values of arguments for parameters of one bit have one bit. -/
theorem width_of_values {c : Call} {params : List (String × Ty)} {args : List Operand} {vs : List Value}
    (hvalues : List.Forall₂ (fun o v => ∃ m₁ m₂, c.eval e.setting o m₁ = .ok v m₂) args vs)
    (hbit : ∀ o, o.isBit p (bits c.site.routine) = true → Gives (fun v => v.width = 1) (c.eval e.setting o))
    (hargs : ∀ x ∈ params.zip args, (!x.1.2.isBit || x.2.isBit p (bits c.site.routine)) = true) :
    ∀ x ∈ params.zip vs, x.1.2.isBit = true → x.2.width = 1 := by
  induction hvalues generalizing params with
  | nil => simp
  | cons hv _ ih =>
    cases params with
    | nil => simp
    | cons param params =>
      obtain ⟨ho, hargs⟩ := List.forall_mem_cons.mp hargs
      refine List.forall_mem_cons.mpr ⟨fun hparam => ?_, ih hargs⟩
      obtain ⟨m₁, m₂, hv⟩ := hv
      refine hbit _ ?_ hv
      simpa [hparam] using ho

include hp htypes he

/-- **Calls** return single bits where they are expected, and pass them where they are. -/
theorem bits_call (hframe : st.frame.HoldsBits (bits st.frame.routine)) (hi : st.frame.instr? = some i)
    {callee : Operand} {args : List Operand} (hop : i.op = .call callee args) :
    Gives ((Convention.singleBits bits).Sends st.frame i) (e.call st ⟨st.frame.site i, callee, args⟩) := by
  have hroutine := htypes st.frame.routine st.frame.routine_mem
  obtain ⟨hgives, htakes⟩ := Routine.typesBits_instr hroutine st.frame.block_mem (List.mem_of_getElem? hi)
  rw [hop] at hgives htakes
  have hresume : ∀ {x : Action Outcome}, Gives (Call.ReturnsBit ⟨st.frame.site i, callee, args⟩) x →
      Gives ((Convention.singleBits bits).Sends st.frame i) (do return resume (← x)) := by
    intro x hx m mv m' h
    obtain ⟨o, m₁, ho, h⟩ := exists_of_bind h
    obtain ⟨rfl, _⟩ := of_pure h
    cases o with
    | returned v =>
      refine hframe.finish hi fun hname w hw => ?_
      obtain rfl := Option.some.inj hw
      refine hx ho (fun fn hfn => ?_) v rfl
      have htarget : Fits.target? st.frame.routine callee = some fn := hfn
      simpa only [Op.givesBit, htarget] using hgives hname
    | returnedVoid => exact hframe.finish hi fun _ w hw => nomatch hw
    | threw | aborted => trivial
  unfold call
  split
  · split
    · exact hresume (he _ (Or.inr (by assumption)) _ st.frame.routine_mem)
    · exact gives_fault
  · rename_i fn hfn
    have htarget : Fits.target? st.frame.routine callee = some fn := hfn
    split
    · exact hresume fun m o m' ho _ v hv => absurd hv (gives_intrinsic _ ho v)
    · split
      · exact hresume (he _ (hasHook_of_hookOf? (by assumption)) _ st.frame.routine_mem)
      · split
        · exact gives_fault_bind
        · -- the called function itself
          obtain ⟨r, hr, _, rfl⟩ := Fits.exists_routineIn?_of_target? hp st.frame.routine_mem htarget
          intro m mv m' h
          obtain ⟨r', hr', vs, g, hr'', hvalues, hg, rfl⟩ := gives_entered _ _ h
          obtain rfl := Option.some.inj (hr.symm.trans hr'')
          obtain ⟨_, _, hgroutine, _⟩ := Frame.eq_of_call? hg
          simp only [Op.takesBits, Op.givesBit, htarget] at htakes hgives
          have hbit : ∀ o, o.isBit p (bits st.frame.routine) = true →
              Gives (fun v => v.width = 1) ((st.frame.site i).eval e.setting o) := fun o ho => gives_bit_eval ho hframe
          have hwidths := width_of_values hvalues hbit (List.all_eq_true.mp htakes)
          constructor
          · show g.HoldsBits (bits g.routine)
            rw [hgroutine]
            exact Frame.holdsBits_call hg (htypes _ hr') hwidths
          · intro hname
            rw [hgroutine]
            exact hgives hname

omit htypes he hp in
/-- **Jumps** leave registers as they are. -/
theorem bits_goto (hframe : st.frame.HoldsBits (bits st.frame.routine)) (hjumps : i.op.Jumps) :
    Gives ((Convention.singleBits bits).Sends st.frame i) (e.move st (st.frame.site i)) := by
  intro m mv m' h
  obtain ⟨g, others, rfl, hgoto⟩ := gives_goto st (st.frame.site i) hjumps h
  intro g' hg'
  obtain ⟨_, _, hjump⟩ := hgoto g' hg'
  obtain ⟨_, _, hroutine, _, _, _, hregisters⟩ := Frame.eq_of_jump? hjump
  refine ⟨hroutine, ?_⟩
  show Frame.HoldsBits g' (bits g'.routine)
  unfold Frame.HoldsBits
  rw [hroutine, hregisters]
  exact hframe

omit he hp in
/-- **Returns** give one bit to calls that wait for one. -/
theorem bits_ret (hframe : st.frame.HoldsBits (bits st.frame.routine)) (hi : st.frame.instr? = some i)
    {result : Option Operand} (hop : i.op = .ret result) :
    Gives ((Convention.singleBits bits).Sends st.frame i) (e.move st (st.frame.site i)) := by
  have hroutine := htypes st.frame.routine st.frame.routine_mem
  obtain ⟨-, htakes⟩ := Routine.typesBits_instr hroutine st.frame.block_mem (List.mem_of_getElem? hi)
  rw [hop] at htakes
  unfold move
  dsimp only
  rw [show (st.frame.site i).instr.op = .ret result from hop]
  cases result with
  | none => exact gives_pure fun g j hg hj _ => hg.finish hj fun _ w hw => nomatch hw
  | some v =>
    intro m mv m' h
    obtain ⟨w, m₁, hw, h⟩ := exists_of_bind h
    obtain ⟨rfl, _⟩ := of_pure h
    intro g j hg hj hexpects
    refine Frame.HoldsBits.finish hg hj fun hname u hu => ?_
    obtain rfl := Option.some.inj hu
    have hret := hexpects hname
    have hv : v.isBit p (bits st.frame.routine) = true := by simpa [Op.takesBits, hret] using htakes
    have heval : Gives (fun v => v.width = 1) ((st.frame.site i).eval e.setting v) := gives_bit_eval hv hframe
    exact heval hw

/-- **Instructions** leave single bits in the registers that hold them by their types, and return them where they are
expected. -/
theorem bits_move (hframe : st.frame.HoldsBits (bits st.frame.routine)) (hi : st.frame.instr? = some i) :
    Gives ((Convention.singleBits bits).Sends st.frame i) (e.move st (st.frame.site i)) := by
  have hroutine := htypes st.frame.routine st.frame.routine_mem
  obtain ⟨hgives, -⟩ := Routine.typesBits_instr hroutine st.frame.block_mem (List.mem_of_getElem? hi)
  have heval : ∀ {o}, o.isBit p (bits st.frame.routine) = true →
      Gives (fun v => v.width = 1) ((st.frame.site i).eval e.setting o) := fun ho => gives_bit_eval ho hframe
  -- Every instruction that binds a register needs one fact only: its value is one bit wide if the
  -- register is a listed one.
  have hbound : ∀ {x : Action Value} {op : Op}, i.op = op →
      (op.givesBit p st.frame.routine (bits st.frame.routine) = true → Gives (fun v => v.width = 1) x) →
        Gives ((Convention.singleBits bits).Sends st.frame i) (do return .next (some (← x))) := by
    rintro x op rfl hx m mv m' h
    obtain ⟨v, m₁, hv, h⟩ := exists_of_bind h
    obtain ⟨rfl, _⟩ := of_pure h
    refine hframe.finish hi fun hname w hw => ?_
    obtain rfl := Option.some.inj hw
    exact hx (hgives hname) hv
  by_cases hjumps : i.op.Jumps
  · exact bits_goto hframe hjumps
  by_cases hret : ∃ result, i.op = .ret result
  · obtain ⟨result, hop⟩ := hret
    exact bits_ret htypes hframe hi hop
  unfold move
  dsimp only
  rw [show (st.frame.site i).instr.op = i.op from rfl]
  cases hop : i.op with
  | arith op flags a b => exact hbound hop fun h => gives_bit_arith (heval h)
  | icmp q a b => exact hbound hop fun _ => gives_bind fun u => gives_bind fun w => gives_bind fun c => gives_pure rfl
  | cast op v t => exact hbound hop gives_bit_cast
  | load a t => exact hbound hop fun h => gives_bit_load h
  | select c a b => exact hbound hop fun h => gives_bit_select (heval h)
  | phi t incoming => exact hbound hop fun h => gives_bit_phi fun x hx => heval (List.all_eq_true.mp h x hx)
  | alloca | gep => exact hbound hop nofun
  | store => exact gives_bind fun _ => gives_pure (hframe.finish hi fun _ w hw => nomatch hw)
  | call callee args => exact bits_call hp htypes he hframe hi hop
  | br | condBr | switch => exact absurd (hop ▸ True.intro) hjumps
  | ret result => exact absurd ⟨result, hop⟩ hret
  | unreachable | unmodeled => exact gives_fault

end Moves

end Engine

end PathSafety
