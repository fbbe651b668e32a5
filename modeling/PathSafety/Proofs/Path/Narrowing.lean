import PathSafety.Proofs.Analysis.Evaluate
import PathSafety.Proofs.Machine.Meets
import PathSafety.Proofs.Path.Accesses
import PathSafety.Proofs.Solver.Extremes

/-!
# What accesses to memory do to a path

An access at an address that is not known keeps the path to one address in some cases: a write always takes
the greatest of the possible ones, and a read picks one where they are too far apart to go through all of
them. The inputs with which the address is another one leave the path then. Nothing else that an instruction
does, forks apart, adds to the path condition.

Contents:

* `Machine.Restricts`, `Machine.Narrows` — the inputs that are left when addresses are settled;
* `conds_of_read`, `conds_of_write` — what one access adds to the path condition;
* `Engine.Settles` — the addresses that an instruction settles;
* `Engine.valuations_of_proceed` — the inputs that are left on a path after a step.
-/

namespace PathSafety

open IR Machine

namespace Machine

variable {s : Setting} {m m' m₁ m₂ : Machine} {address v : Value} {bits : Nat}

/-! ## Settled addresses -/

/-- That those inputs are left on which every settled address is its number. -/
def Restricts (settled : List (Value × Nat)) (m m' : Machine) : Prop :=
  ∀ ν, Term.AllHold ν m'.condition.conds ↔
    Term.AllHold ν m.condition.conds ∧ ∀ x ∈ settled, (x.1.term.denote ν).toNat = x.2

/-- That the inputs that are left come of settling some addresses. -/
def Narrows (Q : Value → Nat → Prop) (m m' : Machine) : Prop :=
  ∃ settled : List (Value × Nat), (∀ x ∈ settled, Q x.1 x.2) ∧ Restricts settled m m'

theorem Restricts.trans {xs ys : List (Value × Nat)} (h₁ : Restricts xs m m₁) (h₂ : Restricts ys m₁ m₂) :
    Restricts (xs ++ ys) m m₂ := by
  intro ν
  rw [h₂ ν, h₁ ν, List.forall_mem_append, and_assoc]

theorem restricts_of_conds (h : m'.condition.conds = m.condition.conds) : Restricts [] m m' := by
  intro ν
  rw [h]
  exact ⟨fun hν => ⟨hν, List.forall_mem_nil _⟩, fun hν => hν.1⟩

/-- Settling one address on a number that it can be. -/
theorem restricts_of_equals {n : Nat} (hn : m.condition.Possible address.term n)
    (h : m'.condition.conds = address.equals n :: m.condition.conds) : Restricts [(address, n)] m m' := by
  intro ν
  rw [h]
  have hcons : Term.AllHold ν (address.equals n :: m.condition.conds) ↔
      (address.equals n).Holds ν ∧ Term.AllHold ν m.condition.conds := List.forall_mem_cons
  rw [hcons, List.forall_mem_singleton, and_comm]
  exact and_congr_right fun _ => PathCondition.holds_equals hn.lt

/-- Settling an address that can be no other number leaves all inputs. -/
theorem restricts_nil_of_single {n : Nat} (hsingle : Single address m)
    (hn : m.condition.Possible address.term n) (h : Restricts [(address, n)] m m') : Restricts [] m m' := by
  intro ν
  rw [h ν]
  refine and_congr_right fun hν => ⟨fun _ => List.forall_mem_nil _, fun _ => ?_⟩
  rw [List.forall_mem_singleton]
  exact hsingle _ n ⟨ν, hν, rfl⟩ hn

theorem narrows_of_conds {Q : Value → Nat → Prop} (h : m'.condition.conds = m.condition.conds) :
    Narrows Q m m' :=
  ⟨[], List.forall_mem_nil _, restricts_of_conds h⟩

theorem Narrows.trans {Q : Value → Nat → Prop} (h₁ : Narrows Q m m₁) (h₂ : Narrows Q m₁ m₂) :
    Narrows Q m m₂ := by
  obtain ⟨xs, hxs, h₁⟩ := h₁
  obtain ⟨ys, hys, h₂⟩ := h₂
  exact ⟨xs ++ ys, List.forall_mem_append.mpr ⟨hxs, hys⟩, h₁.trans h₂⟩

/-! ## Accesses -/

/-- A write adds nothing to the path condition, or that its address is the greatest possible one. -/
theorem conds_of_write (h : write s address v m = .ok () m') :
    address.const? ≠ none ∧ m'.condition.conds = m.condition.conds ∨
      address.const? = none ∧ ∃ n, m.condition.greatest? address.term = some n ∧
        m'.condition.conds = address.equals n :: m.condition.conds := by
  unfold write at h
  obtain ⟨_, m₁, hnull, h⟩ := exists_of_bind h
  obtain rfl := of_checkNull hnull
  dsimp only at h
  -- A known address is stored to as it is; a symbolic one is pinned to its greatest possible value.
  cases hconst : address.const? with
  | some a =>
    rw [hconst] at h
    cases h
    exact Or.inl ⟨nofun, rfl⟩
  | none =>
    rw [hconst] at h
    obtain ⟨m₂, m₃, hget, h⟩ := exists_of_bind h
    cases hget
    cases hgreatest : m.condition.greatest? address.term with
    | none =>
      rw [hgreatest] at h
      exact absurd h not_defect
    | some n =>
      rw [hgreatest] at h
      obtain ⟨_, m₄, hassume, h⟩ := exists_of_bind h
      cases hassume
      cases h
      exact Or.inr ⟨rfl, n, rfl, rfl⟩

/-- A write at an address that cannot be zero is carried out. -/
theorem exists_write (s : Setting) (v : Value) (hno : ¬ m.condition.Possible address.term 0)
    (hm : m.condition.Feasible) : ∃ m', write s address v m = .ok () m' := by
  unfold write
  rw [bind_of_ok (checkNull_of_not_possible hno)]
  cases hconst : address.const? with
  | some a => exact ⟨_, rfl⟩
  | none =>
    obtain ⟨n, hn, _⟩ := PathCondition.exists_greatest? (t := address.term) hm
    have hget : (get : Action Machine) m = .ok m m := rfl
    dsimp only
    rw [bind_of_ok hget, hn]
    exact ⟨_, rfl⟩

/-- A read adds nothing to the path condition, or that its address is one number of those that lie too far
apart. -/
theorem conds_of_read (h : read s address bits m = .ok v m') :
    m'.condition.conds = m.condition.conds ∨
      address.const? = none ∧ ∃ n, m.condition.possible address.term readSpan = .inr (some n) ∧
        m'.condition.conds = address.equals n :: m.condition.conds := by
  have bytes : ∀ a n, Keeps (fun m m' => m'.condition = m.condition) (readBytes a n) := by
    intro a n m w m' h
    cases h
    rfl
  have any := (computes_keeps (R := fun m m' => m'.condition = m.condition) (fun _ => rfl)
    fun h h' => h'.trans h).readAny bytes
  unfold read at h
  obtain ⟨_, m₁, hnull, h⟩ := exists_of_bind h
  obtain rfl := of_checkNull hnull
  obtain ⟨w, m₁, hbytes, h⟩ := exists_of_bind h
  -- cutting off the bits that are too many leaves the machine
  obtain rfl : m₁ = m' := by
    split at h
    · exact (of_pure h).2
    · split at h
      · exact absurd h not_defect
      · exact (of_pure h).2
  unfold readBytesAt at hbytes
  cases hconst : address.const? with
  | some a =>
    rw [hconst] at hbytes
    exact Or.inl (congrArg PathCondition.conds (bytes a _ hbytes))
  | none =>
    rw [hconst] at hbytes
    obtain ⟨m₂, m₃, hget, hbytes⟩ := exists_of_bind hbytes
    cases hget
    cases hpossible : m.condition.possible address.term readSpan with
    | inl l =>
      rw [hpossible] at hbytes
      cases l with
      | nil => exact absurd hbytes not_defect
      | cons a others => exact Or.inl (congrArg PathCondition.conds (any address _ a others hbytes))
    | inr picked =>
      rw [hpossible] at hbytes
      cases picked with
      | none => exact absurd hbytes not_defect
      | some n =>
        obtain ⟨_, m₄, hassume, hbytes⟩ := exists_of_bind hbytes
        cases hassume
        exact Or.inr ⟨rfl, n, rfl, congrArg PathCondition.conds (bytes n _ hbytes)⟩

/-- That an address that is not known is settled on a number by a read: the possible ones are too far apart to
go through, and the number is one of them. -/
def SettledByRead (m : Machine) (address : Value) (n : Nat) : Prop :=
  address.const? = none ∧ ¬ Near address m ∧ m.condition.Possible address.term n

/-- That an address that is not known is settled on a number by a write: the number is the greatest possible
one. -/
def SettledByWrite (m : Machine) (address : Value) (n : Nat) : Prop :=
  address.const? = none ∧ m.condition.Possible address.term n ∧
    ∀ x, m.condition.Possible address.term x → x ≤ n

/-- **Reading** narrows a path at most by settling its address. -/
theorem restricts_of_read (h : read s address bits m = .ok v m') :
    Restricts [] m m' ∨ ∃ n, SettledByRead m address n ∧ Restricts [(address, n)] m m' := by
  rcases conds_of_read h with hconds | ⟨hconst, n, hpicked, hconds⟩
  · exact Or.inl (restricts_of_conds hconds)
  · have hterm : address.term.const? = none := Option.map_eq_none_iff.mp hconst
    obtain ⟨hn, x, y, hx, hy, hfar⟩ := PathCondition.possible_of_inr hterm hpicked
    have hnear : ¬ Near address m := fun hnear => by
      have := hnear x y hx hy
      omega
    exact Or.inr ⟨n, ⟨hconst, hnear, hn⟩, restricts_of_equals hn hconds⟩

/-- **Writing** narrows a path at most by settling its address. -/
theorem restricts_of_write (h : write s address v m = .ok () m') :
    Restricts [] m m' ∨ ∃ n, SettledByWrite m address n ∧ Restricts [(address, n)] m m' := by
  rcases conds_of_write h with ⟨_, hconds⟩ | ⟨hconst, n, hgreatest, hconds⟩
  · exact Or.inl (restricts_of_conds hconds)
  · obtain ⟨hn, hmax⟩ := PathCondition.greatest?_spec hgreatest
    exact Or.inr ⟨n, ⟨hconst, hn, hmax⟩, restricts_of_equals hn hconds⟩

/-- Evaluating narrows nothing. -/
theorem admits_narrows (s : Setting) (Q : Value → Nat → Prop) {A : String → Nat → Prop} : Admits s A (Narrows Q) where
  refl _ := narrows_of_conds rfl
  trans := Narrows.trans
  ask _ _ := narrows_of_conds (PathCondition.conds_sat _)
  symbol _ := narrows_of_conds rfl
  reserve _ _ := narrows_of_conds rfl
  bytes a n m v m' h := by
    cases h
    exact narrows_of_conds rfl
  meet depth module name m a m' _ hname heval h := by
    obtain ⟨_, ⟨f, _, rfl⟩ | ⟨g, hg, ⟨_, rfl⟩ | ⟨init, w, m₁, hinit, hw, hwrite⟩⟩⟩ := cases_of_meet hname h
    · exact narrows_of_conds rfl
    · exact narrows_of_conds rfl
    · -- the initial value is written to a known address
      refine Narrows.trans (narrows_of_conds rfl) ((heval g init hg hinit hw).trans ?_)
      rcases conds_of_write hwrite with ⟨_, hconds⟩ | ⟨hconst, _⟩
      · exact narrows_of_conds hconds
      · cases hconst

end Machine

/-! ## Steps of a path -/

variable {p : Project} {e : Engine p} {st st' : State p}

namespace Engine

/-- That the next instruction of a path may settle an address on a number. -/
def Settles (e : Engine p) (st : State p) (address : Value) (n : Nat) : Prop :=
  ∃ site m₀ m, e.Starts st site m₀ ∧
    ((e.Reads site m₀ address m ∧ SettledByRead m address n) ∨
      ∃ v, e.Writes site m₀ address v m ∧ SettledByWrite m address n)

/-- That the next instruction of a path settles nothing: what it reads lies close together, and what it
writes is at one place. -/
def SettlesNothing (e : Engine p) (st : State p) : Prop :=
  ∀ site m₀ m address, e.Starts st site m₀ →
    (e.Reads site m₀ address m → Near address m) ∧ ∀ v, e.Writes site m₀ address v m → Single address m

/-- A choice among several ways to go on goes to a block. -/
theorem goto_of_forks {site : Site} (hforks : site.instr.op.Forks) :
    Gives (fun mv : Move p => ∃ target others, mv = .goto target others) (e.move st site) := by
  have hbranch : ∀ f ss, Gives (fun mv : Move p => ∃ target others, mv = .goto target others)
      (branch f ss) := by
    intro f ss
    unfold branch
    refine gives_bind fun arms => ?_
    split
    · exact fun _ _ _ h => absurd h not_fault
    · refine gives_bind fun g m mv m' h => ?_
      obtain ⟨rfl, _⟩ := of_pure h
      exact ⟨_, _, rfl⟩
    · refine gives_bind fun others => gives_bind fun _ => gives_bind fun g m mv m' h => ?_
      obtain ⟨rfl, _⟩ := of_pure h
      exact ⟨_, _, rfl⟩
  obtain ⟨successors, hsuccessors⟩ := e.exists_successors? hforks
  rw [move_of_successors? hsuccessors]
  exact gives_bind fun ss => hbranch _ _

/-- A step by which a path proceeds narrows it as its accesses do. -/
theorem narrows_of_proceed (hbuiltin : e.BuiltIn) {Q : Value → Nat → Prop}
    (hreads : ∀ site m₀, e.Starts st site m₀ → ∀ address m, e.Reads site m₀ address m →
      ∀ bits v m', read e.setting address bits m = .ok v m' → Narrows Q m m')
    (hwrites : ∀ site m₀, e.Starts st site m₀ → ∀ address v m, e.Writes site m₀ address v m →
      ∀ m', write e.setting address v m = .ok () m' → Narrows Q m m')
    (h : e.step st = .proceed st') : Narrows Q st.machine st'.machine := by
  have hR : Admits e.setting (fun _ _ => True) (Narrows Q) := admits_narrows e.setting Q
  rcases e.exists_of_step st with ⟨path, hpath⟩ | ⟨site, m₀, mv, m', hstarts, hmove, hstep⟩
  · rw [hpath] at h
    cases h
  · rw [hstep] at h
    obtain ⟨hmachine, hgoto⟩ := of_follow_proceed h
    have heval : ∀ o ∈ site.instr.op.taken, Keeps (Narrows Q) (site.eval e.setting o) := fun o _ =>
      hR.anyEval site o
    have hm₀ : Narrows Q st.machine m₀ := by
      obtain ⟨_, _, _, hwatch⟩ := hstarts
      exact keeps_watch hR.toAllows heval hbuiltin hwatch
    have hforks : ¬ site.instr.op.Forks := fun hforks => by
      obtain ⟨target, others, hmv⟩ := goto_of_forks hforks hmove
      exact hgoto target others hmv
    obtain ⟨hm', _⟩ := keeps_move hR.toAllows heval (hreads site m₀ hstarts) (hwrites site m₀ hstarts) hbuiltin
      (fun h => absurd h hforks) hmove
    rw [hmachine]
    exact hm₀.trans hm'

/-- **Accesses and path conditions.** Wherever a path proceeds by a load, a store, an intrinsic or a built-in
hook, the inputs that are left on it are those on which every address that the instruction has settled is the
number that it was settled on. Nothing is settled, and all inputs are left, if the possible addresses of what
is read lie close together and what is written has one possible address. -/
theorem valuations_of_proceed (hbuiltin : e.BuiltIn) (h : e.step st = .proceed st') :
    (∃ settled : List (Value × Nat), (∀ x ∈ settled, e.Settles st x.1 x.2) ∧
      Restricts settled st.machine st'.machine) ∧
    (e.SettlesNothing st → ∀ ν,
      Term.AllHold ν st'.machine.condition.conds ↔ Term.AllHold ν st.machine.condition.conds) := by
  refine ⟨?_, fun hnothing => ?_⟩
  · refine narrows_of_proceed hbuiltin ?_ ?_ h
    · intro site m₀ hstarts address m hr bits v m' hread
      rcases restricts_of_read hread with hnil | ⟨n, hsettled, hn⟩
      · exact ⟨[], List.forall_mem_nil _, hnil⟩
      · refine ⟨[(address, n)], List.forall_mem_singleton.mpr ?_, hn⟩
        exact ⟨site, m₀, m, hstarts, Or.inl ⟨hr, hsettled⟩⟩
    · intro site m₀ hstarts address v m hw m' hwrite
      rcases restricts_of_write hwrite with hnil | ⟨n, hsettled, hn⟩
      · exact ⟨[], List.forall_mem_nil _, hnil⟩
      · refine ⟨[(address, n)], List.forall_mem_singleton.mpr ?_, hn⟩
        exact ⟨site, m₀, m, hstarts, Or.inr ⟨v, hw, hsettled⟩⟩
  -- Nothing is settled here, so every access narrows by no address at all.
  · have hnone : Narrows (fun _ _ => False) st.machine st'.machine := by
      refine narrows_of_proceed hbuiltin ?_ ?_ h
      · intro site m₀ hstarts address m hr bits v m' hread
        rcases restricts_of_read hread with hnil | ⟨n, ⟨_, hfar, _⟩, _⟩
        · exact ⟨[], List.forall_mem_nil _, hnil⟩
        · exact absurd ((hnothing site m₀ m address hstarts).1 hr) hfar
      · intro site m₀ hstarts address v m hw m' hwrite
        refine ⟨[], List.forall_mem_nil _, ?_⟩
        rcases restricts_of_write hwrite with hnil | ⟨n, ⟨_, hpossible, _⟩, hn⟩
        · exact hnil
        · exact restricts_nil_of_single ((hnothing site m₀ m address hstarts).2 v hw) hpossible hn
    obtain ⟨settled, hsettled, hrestricts⟩ := hnone
    intro ν
    rw [hrestricts ν]
    exact and_iff_left fun x hx => (hsettled x hx).elim

end Engine

/-! ### A store that leaves inputs out -/

namespace Narrowing

/-- A function that marks the entry of a table that its argument says, and only then looks whether this is
zero. -/
def marking : Module :=
  ⟨[], [⟨"main", .int 32, [("x", .int 8)], false, [
    ⟨"entry", [
      ⟨"a", .alloca (.array 256 (.int 8)) none⟩,
      ⟨"w", .cast .zext (.register "x") (.int 64)⟩,
      ⟨"p", .gep false (.register "a") (some (.array 256 (.int 8)))
        [.constant (.int 64) (.int 0), .register "w"]⟩,
      ⟨"", .store (.constant (.int 8) (.int 1)) (.register "p")⟩,
      ⟨"c", .icmp .eq (.register "x") (.constant (.int 8) (.int 0))⟩,
      ⟨"", .condBr (.register "c") "yes" "no"⟩]⟩,
    ⟨"yes", [⟨"", .ret (some (.constant (.int 32) (.int 1)))⟩]⟩,
    ⟨"no", [⟨"", .ret (some (.constant (.int 32) (.int 0)))⟩]⟩]⟩]⟩

/-- What the paths of the function are explored with. -/
def engine : Engine (Context.projectOf marking) := (Context.ofModule marking).engine

theorem builtIn_engine : engine.BuiltIn :=
  Context.builtIn_of_make Registry.builtIn_sandbox (Context.make_ofModule marking)

/-- Where the exploration of the function begins. -/
def start : Start (Context.projectOf marking) :=
  (Start.of (Context.projectOf marking) "main").toOption.get rfl

/-- The path where the entry is about to be marked. -/
def before : State (Context.projectOf marking) := (engine.stateAfter? 3 start.first.entered).get rfl

theorem reaches_before : engine.Reaches start.first.entered before :=
  Engine.reaches_of_stateAfter? (Option.some_get _).symm

/-- The address of the entry. -/
def entry : Value :=
  ⟨(.arith .add (.const 0x10000000#64) (.concat (.const 0#56) (.symbol ⟨0, "arg_x"⟩ : Term 8) rfl) : Term 64)⟩

theorem toNat_entry (ν : Valuation) : (entry.term.denote ν).toNat = 0x10000000 + ν 0 % 256 := by
  have hsum : ∀ x : BitVec 8, (0x10000000#64 + (0#56 ++ x)).toNat = 0x10000000 + x.toNat := by
    intro x
    have hlt := x.isLt
    rw [BitVec.toNat_add, BitVec.toNat_append, BitVec.toNat_ofNat, BitVec.toNat_ofNat]
    simp
    omega
  exact (hsum (BitVec.ofNat 8 (ν 0))).trans (congrArg _ (BitVec.toNat_ofNat _ _))

/-- The store is executed; the table is not at zero. -/
theorem exists_after : ∃ i st', before.frame.instr? = some i ∧
    i.op = .store (.constant (.int 8) (.int 1)) (.register "p") ∧ engine.step before = .proceed st' ∧
    ∃ n, before.machine.condition.greatest? entry.term = some n ∧
      st'.machine.condition.conds = entry.equals n :: before.machine.condition.conds := by
  -- The pointer is not null under any valuation, so the store goes through.
  have hnot : ¬ before.machine.condition.Possible entry.term 0 := by
    rintro ⟨ν, _, hzero⟩
    rw [toNat_entry] at hzero
    omega
  have hfeasible : before.machine.condition.Feasible := ⟨fun _ => 0, List.forall_mem_nil _⟩
  obtain ⟨i, hi, hop, hstarts, haddress, hvalue⟩ : ∃ i, before.frame.instr? = some i ∧
      i.op = .store (.constant (.int 8) (.int 1)) (.register "p") ∧
      engine.Starts before (before.frame.site i) before.machine ∧
      (before.frame.site i).eval engine.setting (.register "p") before.machine = .ok entry before.machine ∧
      (before.frame.site i).eval engine.setting (.constant (.int 8) (.int 1)) before.machine =
        .ok (.ofNat 8 1) before.machine :=
    ⟨_, rfl, rfl, ⟨_, rfl, rfl, rfl⟩, rfl, rfl⟩
  obtain ⟨m', hwrite⟩ := exists_write engine.setting (.ofNat 8 1) hnot hfeasible
  have hmove : engine.move (before.note (before.frame.site i).location) (before.frame.site i) before.machine =
      .ok (.next none) m' := by
    have hstore : Machine.store engine.setting (before.frame.site i) (.constant (.int 8) (.int 1))
        (.register "p") before.machine = .ok () m' := by
      unfold Machine.store
      rw [bind_of_ok haddress, bind_of_ok hvalue]
      exact hwrite
    have hop' : (before.frame.site i).instr.op = .store (.constant (.int 8) (.int 1)) (.register "p") := hop
    unfold Engine.move
    rw [hop']
    dsimp only
    rw [bind_of_ok hstore]
    rfl
  refine ⟨i, _, hi, hop, Engine.step_of_move hstarts hmove, ?_⟩
  rcases conds_of_write hwrite with ⟨hconst, _⟩ | ⟨_, n, hn, hconds⟩
  · exact absurd rfl hconst
  · exact ⟨n, hn, hconds⟩

/-- Marking an entry of the table keeps the path to the last entry: the argument zero leaves it, though the
path is still to ask for it. -/
theorem zero_left_out : engine.BuiltIn ∧
    Start.of (Context.projectOf marking) "main" = .ok start ∧
    start.first.enter engine.loopBound = .ok start.first.entered ∧
    engine.Reaches start.first.entered before ∧
    ∃ i st', before.frame.instr? = some i ∧ i.op = .store (.constant (.int 8) (.int 1)) (.register "p") ∧
      engine.step before = .proceed st' ∧
      Term.AllHold (fun _ => 0) before.machine.condition.conds ∧
      ¬ Term.AllHold (fun _ => 0) st'.machine.condition.conds := by
  refine ⟨builtIn_engine, rfl, rfl, reaches_before, ?_⟩
  obtain ⟨i, st', hi, hop, hstep, n, hn, hconds⟩ := exists_after
  refine ⟨i, st', hi, hop, hstep, List.forall_mem_nil _, fun hall => ?_⟩
  obtain ⟨hpossible, hmax⟩ := PathCondition.greatest?_spec hn
  -- the last entry is possible, and it is not the first
  have hlast : 0x10000000 + 255 ≤ n := hmax _ ⟨fun _ => 255, List.forall_mem_nil _, toNat_entry _⟩
  have hequals : (entry.equals n).Holds (fun _ => 0) := hall _ (hconds ▸ List.mem_cons_self)
  have hfirst := (PathCondition.holds_equals hpossible.lt).mp hequals
  rw [toNat_entry] at hfirst
  omega

/-- What is left on the path that marks an entry comes of settling addresses. -/
theorem entry_settled : engine.BuiltIn ∧ ∃ st', engine.step before = .proceed st' ∧
    ∃ settled : List (Value × Nat), (∀ x ∈ settled, engine.Settles before x.1 x.2) ∧
      Restricts settled before.machine st'.machine := by
  obtain ⟨_, st', _, _, hstep, _⟩ := exists_after
  exact ⟨builtIn_engine, st', hstep, (Engine.valuations_of_proceed builtIn_engine hstep).1⟩

end Narrowing

end PathSafety
