import PathSafety.Path.Start
import PathSafety.Proofs.Machine.Meets
import PathSafety.Proofs.Path.Accesses
import PathSafety.Proofs.Path.CallStack

/-!
# Global values on a path

A global name gets its address where a path meets it first, and keeps it. The module of this first reference decides what
is there: its initial value is written, and nothing if it only declares the variable. From then on the bytes stay until an
instruction writes over them.

Contents:

* `Engine.Stores`, `Engine.Avoids` — instructions that write a byte, and paths without them;
* `Engine.LoadsAt`, `Engine.GoesOn` — the machines that loads read from, and with which a path goes on;
* `Engine.FirstRefers`, `Engine.LoadsLater` — the first reference to a name, and the loads behind it;
* `Engine.begins_of_next`, `Engine.kept_of_avoids` — what steps and paths keep that write nothing at a byte;
* `Engine.keeps_reaches` — what every path keeps;
* `Engine.exists_firstRefers` — that there is a first reference to every name that has been met;
* `Engine.load_after_first_reference` — addresses and first bytes of global values.
-/

namespace PathSafety

open IR Machine

variable {p : Project} {e : Engine p} {st st' st₀ st₁ : State p} {x : Nat} {X : Nat → Prop} {i : Instr} {m : Machine}
  {n : String} {address v : Value}

namespace Engine

/-! ## Loads and stores on a path -/

/-- That the next instruction of a path writes a byte. -/
def Stores (e : Engine p) (st : State p) (x : Nat) : Prop :=
  ∃ site m₀ address v m b, e.Starts st site m₀ ∧ e.Writes site m₀ address v m ∧
    m.target? address = some b ∧ b ≤ x ∧ x < b + byteCount v.width

/-- Only stores and calls write. -/
theorem not_stores (hi : st.frame.instr? = some i) (hstore : ∀ v a, i.op ≠ .store v a)
    (hcall : ∀ f args, i.op ≠ .call f args) : ¬ e.Stores st x := by
  rintro ⟨site, m₀, address, v, m, b, ⟨i', hi', rfl, _⟩, hwrites, _⟩
  obtain rfl := Option.some.inj (hi.symm.trans hi')
  cases hwrites with
  | store hop => exact hstore _ _ hop
  | copy hop => exact hcall _ _ hop
  | fill hop => exact hcall _ _ hop
  | assign hop => exact hcall _ _ hop

/-- The states that come up in exploring a state as long as a byte is not written. -/
inductive Avoids (e : Engine p) (x : Nat) (st : State p) : State p → Prop
  | refl : Avoids e x st st
  | next {st₁ st₂ : State p} (rest : Avoids e x st st₁) (hx : ¬ e.Stores st₁ x) (h : e.Next st₁ st₂) : Avoids e x st st₂

theorem Avoids.reaches (h : e.Avoids x st₀ st) : e.Reaches st₀ st := by
  induction h with
  | refl => exact .refl
  | next _ _ h ih => exact ih.next h

/-- A load that is about to read: its address, and the machine that it reads from. -/
def LoadsAt (e : Engine p) (st : State p) (address : Value) (m : Machine) : Prop :=
  ∃ site pointer written m₀, e.Starts st site m₀ ∧ site.instr.op = .load pointer written ∧
    site.eval e.setting pointer m₀ = .ok address m

theorem LoadsAt.not_stores (h : e.LoadsAt st address m) : ¬ e.Stores st x := by
  obtain ⟨site, pointer, written, m₀, ⟨i, hi, rfl, _⟩, hop, _⟩ := h
  have hop : i.op = .load pointer written := hop
  refine Engine.not_stores hi (fun v a => ?_) fun f args => ?_
  · rw [hop]
    exact nofun
  · rw [hop]
    exact nofun

/-- The machines with which a path goes on from a state, and from which it loads there. -/
inductive GoesOn (e : Engine p) (st : State p) : Machine → Prop
  | next {st' : State p} (h : e.Next st st') : GoesOn e st st'.machine
  | load {address : Value} {m : Machine} (h : e.LoadsAt st address m) : GoesOn e st m

/-- That the next instruction of a path is the first that refers to a name, which has an address from then on. -/
structure FirstRefers (e : Engine p) (st : State p) (n : String) (v : Value) (m : Machine) : Prop where
  unmet : st.machine.addresses.get? n = none
  goesOn : e.GoesOn st m
  met : m.addresses.get? n = some v

/-- The machines that loads read from, at a state from which the path goes on with a machine, and behind it as long as no
instruction writes a byte. -/
inductive LoadsLater (e : Engine p) (x : Nat) (st : State p) (m : Machine) : Machine → Prop
  | now {address : Value} (h : e.LoadsAt st address m) : LoadsLater e x st m m
  | later {st₁ st₂ : State p} {address : Value} {m' : Machine} (hx : ¬ e.Stores st x) (hnext : e.Next st st₁)
    (hm : st₁.machine = m) (havoids : e.Avoids x st₁ st₂) (h : e.LoadsAt st₂ address m') : LoadsLater e x st m m'

/-! ## What paths keep -/

/-- **A step** keeps a relation that evaluating and its accesses keep, where evaluating meets names that the instruction
leads to. -/
theorem keeps_next {R : Machine → Machine → Prop} (hR : Admits e.setting st.LeadsTo R)
    (hassume : ∀ m c, R m { m with condition := m.condition.assume c }) (hbuiltin : e.BuiltIn)
    (hwrites : ∀ site m, e.Starts st site m → ∀ address v m₁, e.Writes site m address v m₁ →
      ∀ m₂, write e.setting address v m₁ = .ok () m₂ → R m₁ m₂) (h : e.Next st st') : R st.machine st'.machine := by
  obtain ⟨hproceed, harrive⟩ := keeps_step hR.toAllows hassume hbuiltin (State.keeps_taken hR)
    (fun _ _ _ address _ _ bits _ _ hread => keeps_read hR.toAllows hassume address bits hread) hwrites
  cases h with
  | proceed h => exact hproceed _ h
  | enter h hb hin =>
    obtain rfl := Arrival.eq_of_enter hin
    exact harrive _ _ h _ hb

/-- **A path** keeps a relation that steps keep. -/
theorem keeps_reaches {R : Machine → Machine → Prop} (hrefl : ∀ m, R m m)
    (htrans : ∀ {m₁ m₂ m₃}, R m₁ m₂ → R m₂ m₃ → R m₁ m₃) (hnext : ∀ {st st'}, e.Next st st' → R st.machine st'.machine)
    (h : e.Reaches st₀ st) : R st₀.machine st.machine := by
  induction h with
  | refl => exact hrefl _
  | proceed _ h ih => exact htrans ih (hnext (.proceed h))
  | enter _ h hb hin ih => exact htrans ih (hnext (.enter h hb hin))

/-- **An instruction** keeps the bytes that it does not write, and the names that it meets begin with the initial values
that the modules give them through which it leads to them. -/
theorem begins_of_goesOn (hbuiltin : e.BuiltIn) (hfit : InitialsFit e.setting) (hX : ∀ x, X x → ¬ e.Stores st x)
    (h : e.GoesOn st m) : Machine.Begins e.setting st.LeadsTo X st.machine m := by
  have hR := admits_begins hfit st.LeadsTo X
  cases h with
  | next h =>
    refine keeps_next hR begins_assume hbuiltin (fun site m₀ hstarts address v m hw m' hwrite => ?_) h
    exact begins_of_write hwrite fun b htarget x hx hin =>
      hX x hx ⟨site, m₀, address, v, m, b, hstarts, hw, htarget, hin⟩
  | load h =>
    obtain ⟨site, pointer, written, m₀, ⟨i, hi, rfl, hwatch⟩, hop, hpointer⟩ := h
    have heval := State.keeps_taken hR i hi
    have hwatches := keeps_watch hR.toAllows heval hbuiltin hwatch
    exact hwatches.trans (heval pointer (Op.mem_taken hop List.mem_cons_self) hpointer)

/-- What a path keeps that avoids a byte. -/
theorem kept_of_avoids (hbuiltin : e.BuiltIn) (hfit : InitialsFit e.setting) (h : e.Avoids x st₀ st) :
    Kept e.setting (fun y => y = x) st₀.machine st.machine := by
  induction h with
  | refl => exact ((admits_begins hfit (fun _ _ => True) _).refl _).toKept
  | next _ hx h ih =>
    have hstep : ∀ y, y = x → ¬ e.Stores _ y := fun y hy => hy ▸ hx
    exact ih.trans (begins_of_goesOn hbuiltin hfit hstep (.next h)).toKept

/-- What is kept until a load reads. -/
theorem kept_of_loadsLater (hbuiltin : e.BuiltIn) (hfit : InitialsFit e.setting) {m' : Machine}
    (h : e.LoadsLater x st m m') : Kept e.setting (fun y => y = x) m m' := by
  cases h with
  | now => exact ((admits_begins hfit (fun _ _ => True) _).refl _).toKept
  | later _ _ hm havoids hload =>
    subst hm
    have hlast := begins_of_goesOn (X := fun y => y = x) hbuiltin hfit (fun _ _ => hload.not_stores) (.load hload)
    exact (kept_of_avoids hbuiltin hfit havoids).trans hlast.toKept

theorem LoadsLater.not_stores {m' : Machine} (h : e.LoadsLater x st m m') : ¬ e.Stores st x := by
  cases h with
  | now h => exact h.not_stores
  | later hx => exact hx

/-- The machine of a path comes after that of each state before. -/
theorem precedes_of_reaches (hbuiltin : e.BuiltIn) (h : e.Reaches st₀ st) : Precedes st₀.machine st.machine :=
  keeps_reaches precedes_refl Precedes.trans (keeps_next (admits_precedes e.setting)
    (fun _ _ => precedes_of_eq rfl (Nat.le_refl _)) hbuiltin fun _ _ _ _ _ _ _ _ => precedes_of_write) h

/-- What a path keeps of the addresses of names in one instruction. -/
theorem extends_of_goesOn (hbuiltin : e.BuiltIn) (hfit : InitialsFit e.setting) (h : e.GoesOn st m) :
    Extends st.machine m :=
  (begins_of_goesOn (X := fun _ => False) hbuiltin hfit (fun _ => False.elim) h).addresses

/-- **A name that has an address** has got it from one instruction of the path. -/
theorem exists_next_meets (hbuiltin : e.BuiltIn) (hfit : InitialsFit e.setting) (h : e.Avoids x st₀ st)
    (hunmet : st₀.machine.addresses.get? n = none) (hmet : st.machine.addresses.get? n = some v) :
    ∃ st₁ st₂, e.Reaches st₀ st₁ ∧ st₁.machine.addresses.get? n = none ∧ ¬ e.Stores st₁ x ∧ e.Next st₁ st₂ ∧
      st₂.machine.addresses.get? n = some v ∧ e.Avoids x st₂ st := by
  induction h generalizing v with
  | refl =>
    rw [hunmet] at hmet
    cases hmet
  | @next st₁ st₂ rest hx hnext ih =>
    cases hbefore : st₁.machine.addresses.get? n with
    | none => exact ⟨st₁, st₂, rest.reaches, hbefore, hx, hnext, hmet, .refl⟩
    | some u =>
      obtain rfl := Option.some.inj ((extends_of_goesOn hbuiltin hfit (.next hnext) n u hbefore).symm.trans hmet)
      obtain ⟨st₃, st₄, hreaches, hnone, hx', hnext', hsome, havoids⟩ := ih hbefore
      exact ⟨st₃, st₄, hreaches, hnone, hx', hnext', hsome, .next havoids hx hnext⟩

/-- **The first reference** to a name that has an address where a load reads: it comes up on the path, and the load comes
up behind it. -/
theorem exists_firstRefers (hbuiltin : e.BuiltIn) (hfit : InitialsFit e.setting) (h : e.Avoids x st₀ st)
    (hunmet : st₀.machine.addresses.get? n = none) (hload : e.LoadsAt st address m)
    (hmet : m.addresses.get? n = some v) :
    ∃ st₁ m₁, e.Reaches st₀ st₁ ∧ e.FirstRefers st₁ n v m₁ ∧ e.LoadsLater x st₁ m₁ m := by
  cases hbefore : st.machine.addresses.get? n with
  | none => exact ⟨st, m, h.reaches, ⟨hbefore, .load hload, hmet⟩, .now hload⟩
  | some u =>
    obtain rfl := Option.some.inj ((extends_of_goesOn hbuiltin hfit (.load hload) n u hbefore).symm.trans hmet)
    obtain ⟨st₁, st₂, hreaches, hnone, hx, hnext, hsome, havoids⟩ := exists_next_meets hbuiltin hfit h hunmet hbefore
    exact ⟨st₁, st₂.machine, hreaches, ⟨hnone, .next hnext, hsome⟩, .later hx hnext rfl havoids hload⟩

end Engine

/-! ## The beginning -/

theorem of_parameters {l : Layout} {params : List (String × Ty)} {m m' : Machine}
    {args : List (String × Value)} (h : Start.parameters l params m = .ok args m') :
    m'.addresses = m.addresses ∧ m'.nextAddress = m.nextAddress := by
  induction params generalizing m m' args with
  | nil =>
    obtain ⟨_, rfl⟩ := of_pure h
    exact ⟨rfl, rfl⟩
  | cons q params ih =>
    obtain ⟨n, t⟩ := q
    unfold Start.parameters at h
    cases hbits : l.bits? t with
    | none =>
      rw [hbits] at h
      exact absurd h not_fault
    | some bits =>
      rw [hbits] at h
      obtain ⟨v, m₁, hfresh, h⟩ := exists_of_bind h
      obtain ⟨vs, m₂, hrest, h⟩ := exists_of_bind h
      obtain ⟨_, rfl⟩ := of_pure h
      obtain ⟨haddresses, hnext⟩ := ih hrest
      -- A parameter is a fresh symbol, and making one lays out nothing.
      have hm₁ : m₁.addresses = m.addresses ∧ m₁.nextAddress = m.nextAddress := by
        unfold fresh at hfresh
        split at hfresh
        · obtain ⟨_, _, hfault, _⟩ := exists_of_bind hfresh
          exact absurd hfault not_fault
        · cases hfresh
          exact ⟨rfl, rfl⟩
      exact ⟨haddresses.trans hm₁.1, hnext.trans hm₁.2⟩

/-- In the beginning no name has been met. -/
theorem machine_of_start {f : String} {start : Start p} (h : Start.of p f = .ok start) :
    start.first.state.machine.addresses = ∅ ∧
      start.first.state.machine.nextAddress = allocationBase := by
  obtain ⟨_, _, _, _, _, _, _, hparameters, _, rfl⟩ := Start.exists_of_ok h
  exact of_parameters hparameters

/-! ## Addresses and first bytes -/

/-- **Global values on a path.** Once a name has an address, every reference to it in any module yields this
address, also by a constant expression. The address is set apart where the name is met first, and it is the module of
that first reference that decides what is there. If it only declares the variable, nothing is written. If it gives the
variable an initial value, this is evaluated there and then, and every load that the path comes to before an instruction
has written a byte finds this byte of it, as long as addresses have not run out. There is such a first reference for every
name that has an address where a load reads. -/
theorem Engine.load_after_first_reference (hbuiltin : e.BuiltIn) (hfit : InitialsFit e.setting) {f : String}
    {start : Start p} (hstart : Start.of p f = .ok start) (hfirst : start.first.enter e.loopBound = .ok st₀) :
    (∀ st₁ st₂ : State p, e.Reaches st₁ st₂ → ∀ n v, st₁.machine.addresses.get? n = some v →
      ∀ module, Machine.address e.setting module n st₂.machine = .ok v st₂.machine ∧
        ∀ fuel text bits, YieldsFrom e.setting module n v
          (evalExpression e.setting (Machine.address e.setting) (fuel + 1) text bits) text bits st₂.machine) ∧
    (∀ module n m₁ v m₂, Meets e.setting module n m₁ v m₂ →
      v = .ofNat e.setting.pointerBits m₁.nextAddress ∧
        ∀ g, p.globalIn? module n = some (.data g) → g.init = none → m₂.memory = m₁.memory) ∧
    (∀ st n v m, e.Reaches st₀ st → e.FirstRefers st n v m →
      ∃ module m₁ m₂, st.LeadsTo n module ∧ Met e.setting module n v st.machine m₁ m₂ m ∧
        ∀ g init, p.globalIn? module n = some (.data g) → g.init = some init →
          ∃ w m₃, InitialAt e.setting module n g init m₁ w m₃ ∧ Precedes m₃ m ∧
            ∀ k < byteCount w.width, ∀ m', e.LoadsLater (m₁.nextAddress + k) st m m' →
              m'.nextAddress ≤ 2 ^ e.setting.pointerBits →
                read e.setting (.ofNat e.setting.pointerBits (m₁.nextAddress + k)) 8 m' = .ok ⟨w.byte k⟩ m') ∧
    ∀ x st, e.Avoids x st₀ st → ∀ address m, e.LoadsAt st address m → ∀ n v, m.addresses.get? n = some v →
      ∃ st₁ m₁, e.Reaches st₀ st₁ ∧ e.FirstRefers st₁ n v m₁ ∧ e.LoadsLater x st₁ m₁ m := by
  have hst₀ : st₀.machine.addresses = ∅ ∧ st₀.machine.nextAddress = allocationBase := by
    obtain rfl := Arrival.eq_of_enter hfirst
    exact machine_of_start hstart
  refine ⟨?_, ?_, ?_, ?_⟩
  · intro st₁ st₂ hreaches n v hn module
    have hmet := (precedes_of_reaches hbuiltin hreaches).addresses n v hn
    exact ⟨address_of_met hmet, fun fuel text bits => yieldsFrom_of_met hmet⟩
  · intro module n m₁ v m₂ hmeets
    obtain ⟨depth, hdepth⟩ := hmeets.exists_depth
    obtain ⟨hv, hcases⟩ := cases_of_meet hmeets.1 hdepth
    refine ⟨hv, fun g hg hnone => ?_⟩
    rcases hcases with ⟨_, _, rfl⟩ | ⟨g', hg', ⟨_, rfl⟩ | ⟨init, _, _, hinit, _⟩⟩
    · rfl
    · rfl
    · obtain rfl := GlobalValue.data.inj (Option.some.inj (hg.symm.trans hg'))
      rw [hnone] at hinit
      cases hinit
  · intro st n v m hreaches hrefers
    have hbegins := begins_of_goesOn (X := fun x => ¬ e.Stores st x) hbuiltin hfit (fun _ hx => hx) hrefers.goesOn
    obtain ⟨module, m₁, m₂, hleads, hmet, hbegun⟩ := hbegins.met n v hrefers.unmet hrefers.met
    refine ⟨module, m₁, m₂, hleads, hmet, fun g init hg hinit => ?_⟩
    obtain ⟨w, m₃, hw, hm₃, hin, hbytes⟩ := hbegun g init hg hinit
    refine ⟨w, m₃, hw, hm₃, fun k hk m' hload hroom => ?_⟩
    -- from the first reference on the byte stays until the load
    have hkept := kept_of_loadsLater hbuiltin hfit hload
    have hnext := hkept.next
    have hnext₃ := hm₃.next
    obtain ⟨c, hc, hbyte⟩ := hbytes (by omega) k hk hload.not_stores
    have hc' := hkept.cell hroom _ rfl (by omega) c hc
    -- the first address is not null, and all others lie behind it
    have hbefore := hmet.before.next
    have hbase := (precedes_of_reaches hbuiltin hreaches).next
    rw [hst₀.2] at hbase
    have hpos : 0 < allocationBase := by decide
    rw [← hbyte]
    exact read_of_cell hc' (by omega) (by omega)
  · intro x st havoids address m hload n v hmet
    refine exists_firstRefers hbuiltin hfit havoids ?_ hload hmet
    rw [hst₀.1]
    rfl

/-! ### A variable that only one of two modules gives an initial value -/

namespace Globals

/-- Numbers are as large as their variables. -/
theorem initialsFit_of_numbers {s : Setting} (h : ∀ md ∈ s.project.modules, ∀ g ∈ md.globals, ∀ init,
    g.init = some init → ∃ w k, g.ty = .int w ∧ init = .constant (.int w) (.int k)) : InitialsFit s := by
  rintro module n g init hg hinit v ⟨depth, m, m', hv⟩
  obtain ⟨md, hmd, hglobal⟩ := Option.bind_eq_some_iff.mp hg
  obtain ⟨w, k, hty, rfl⟩ := h md (List.mem_of_getElem? hmd) g (Module.mem_of_global? hglobal).1 init hinit
  have hbits : s.project.layout.bits? (.int w) = some w := rfl
  unfold evalWith at hv
  rw [hbits] at hv
  unfold evalConstant at hv
  obtain ⟨rfl, _⟩ := of_pure hv
  unfold storage
  rw [hty, hbits]
  show byteCount w ≤ _
  by_cases hw : w = 0
  · subst hw
    exact Nat.zero_le _
  · rw [Option.getD_some, if_neg hw]
    exact Nat.le_max_right _ _

/-- A constant expression on the variable. -/
def cast : String := "bitcast (i32* @\"g\" to i8*)"

/-- A module that gives a variable an initial value. -/
def defining : Module := ⟨[⟨"g", .int 32, some (.constant (.int 32) (.int 7))⟩], []⟩

/-- A module that only declares the variable. One of its functions reads the variable at once, the other one reads it first
by a constant expression, which looks the name up in the whole project. -/
def declaring : Module :=
  ⟨[⟨"g", .int 32, none⟩],
    [⟨"direct", .int 32, [], false, [⟨"entry", [
      ⟨"r", .load (.global "g") (some (.int 32))⟩,
      ⟨"", .ret (some (.register "r"))⟩]⟩]⟩,
    ⟨"indirect", .int 32, [], false, [⟨"entry", [
      ⟨"b", .load (.constant (.ptrTo (.int 8) 0) (.expression cast)) (some (.int 8))⟩,
      ⟨"r", .load (.global "g") (some (.int 32))⟩,
      ⟨"", .ret (some (.register "r"))⟩]⟩]⟩]⟩

/-- The project of both modules. -/
def shared : Project := (Project.ofModules? [defining, declaring] ⟨[], 64⟩).get rfl

/-- Paths of the project without any hooks or monitors. -/
def plain : Engine shared := {}

theorem builtIn_plain : plain.BuiltIn where
  byName _ _ h := nomatch h
  default _ h := nomatch h
  monitors _ h := absurd h List.not_mem_nil

theorem initialsFit_shared : InitialsFit plain.setting := by
  refine initialsFit_of_numbers fun md hmd g hg init hinit => ?_
  have hmodules : plain.setting.project.modules = [defining.number, declaring.number] := rfl
  rw [hmodules] at hmd
  rcases List.mem_cons.mp hmd with rfl | hmd
  · obtain rfl := List.mem_singleton.mp hg
    exact ⟨32, 7, rfl, (Option.some.inj hinit).symm⟩
  · obtain rfl := List.mem_singleton.mp hmd
    obtain rfl := List.mem_singleton.mp hg
    cases hinit

/-- Where the exploration of the first function begins. -/
def direct : Start shared := (Start.of shared "direct").toOption.get rfl

/-- Where that of the second one begins. -/
def indirect : Start shared := (Start.of shared "indirect").toOption.get rfl

/-- The path of the second function behind its first reference to the variable. -/
def behind : State shared := (plain.stateAfter? 1 indirect.first.entered).get (by decide +kernel)

/-- The instruction that refers to the variable first. -/
def first : Instr :=
  ⟨"b", .load (.constant (.ptrTo (.int 8) 0) (.expression cast)) (some (.int 8))⟩

/-- What comes next is the load of the variable. -/
theorem instr?_of_step {st : State shared} (h : plain.step indirect.first.entered = .proceed st) :
    st.frame.instr? = some ⟨"r", .load (.global "g") (some (.int 32))⟩ := by
  obtain ⟨i, mv, m, hi, _, hfollow⟩ := Engine.act_of_proceed h
  rcases Engine.follow_proceed_cases hfollow with ⟨result, _, rfl⟩ | ⟨_, _, _, _, hcallers, _⟩
  · rfl
  · cases hcallers

/-- The names that the first instruction of the second function leads to: the variable, as the module has it that gives it
an initial value. -/
theorem eq_zero_of_leadsTo {n : String} {j : Nat} (h : indirect.first.entered.LeadsTo n j) : n = "g" ∧ j = 0 := by
  have hinitial : ∀ n' j', ¬ (Operand.constant (.int 32) (.int 7)).RefersTo shared 0 n' j' := by
    intro n' j' h
    cases h with
    | name h => cases h
    | expression htext => cases htext
  obtain ⟨i, hi, o, ho, hleads⟩ := h
  obtain rfl : first = i := Option.some.inj hi
  obtain rfl := List.mem_singleton.mp (ho : o ∈ [_])
  clear hi ho
  induction hleads with
  | refers h =>
    cases h with
    | name h => cases h
    | @expression text j v htext hname hv =>
      obtain rfl := List.mem_singleton.mp htext
      have hname' : expressionName? shared ((Text.trim cast.toList).length + 1) (Text.trim cast.toList) = some "g" := by
        decide +kernel
      obtain rfl := Option.some.inj (hname'.symm.trans hname)
      have hmodule : (shared.global? "g").map Prod.fst = some 0 := rfl
      rw [hv] at hmodule
      exact ⟨rfl, Option.some.inj hmodule⟩
  | initial _ hg hinit hn' ih =>
    obtain ⟨rfl, rfl⟩ := ih
    obtain rfl := GlobalValue.data.inj (Option.some.inj hg)
    obtain rfl := Option.some.inj hinit
    exact absurd hn' (hinitial _ _)

/-- **The module of the first reference decides.** If the module reads the variable at once, nothing has been written to
its storage. If a constant expression has led to the other module before, the same load finds the initial value. -/
theorem first_reference_decides :
    (∃ address m, plain.LoadsAt direct.first.entered address m ∧
      Meets plain.setting 1 "g" direct.first.entered.machine address m ∧
      m.memory = direct.first.entered.machine.memory) ∧
    ∃ st address, plain.Next indirect.first.entered st ∧ plain.LoadsAt st address st.machine ∧
      read plain.setting address 8 st.machine = .ok (.ofNat 8 7) st.machine := by
  constructor
  · have hload : ∃ address m, plain.LoadsAt direct.first.entered address m ∧
        Meets plain.setting 1 "g" direct.first.entered.machine address m :=
      ⟨_, _, ⟨_, _, _, _, ⟨_, rfl, rfl, rfl⟩, rfl, rfl⟩, rfl, globalCount shared + 1, rfl⟩
    obtain ⟨address, m, hload, hmeets⟩ := hload
    obtain ⟨_, hmet, _⟩ := Engine.load_after_first_reference builtIn_plain initialsFit_shared
      (rfl : Start.of shared "direct" = .ok direct) (rfl : direct.first.enter plain.loopBound = .ok direct.first.entered)
    exact ⟨address, m, hload, hmeets, (hmet 1 "g" _ _ _ hmeets).2 _ rfl rfl⟩
  · obtain ⟨hshared, hmeets, hrefers, _⟩ := Engine.load_after_first_reference builtIn_plain initialsFit_shared
      (rfl : Start.of shared "indirect" = .ok indirect)
      (rfl : indirect.first.enter plain.loopBound = .ok indirect.first.entered)
    obtain ⟨st, hstep, hsome, hroom⟩ : ∃ st, plain.step indirect.first.entered = .proceed st ∧
        (st.machine.addresses.get? "g").isSome = true ∧ st.machine.nextAddress ≤ 2 ^ 64 :=
      ⟨behind, Engine.step_of_stateAfter? (Option.some_get _).symm, by decide +kernel, by decide +kernel⟩
    obtain ⟨v, hmet⟩ := Option.isSome_iff_exists.mp hsome
    -- the variable has got its address from the first instruction, and the second one loads from there
    have hnext : plain.Next indirect.first.entered st := .proceed hstep
    have hload : plain.LoadsAt st v st.machine :=
      ⟨_, _, _, _, ⟨_, instr?_of_step hstep, rfl, rfl⟩, rfl, (hshared st st .refl "g" v hmet _).1⟩
    have hstores : ∀ x, ¬ plain.Stores indirect.first.entered x := fun x =>
      Engine.not_stores (i := first) rfl nofun nofun
    obtain ⟨module, m₁, m₂, hleads, hbetween, hbytes⟩ := hrefers _ _ _ _ .refl ⟨rfl, .next hnext, hmet⟩
    obtain ⟨-, rfl⟩ := eq_zero_of_leadsTo hleads
    obtain ⟨w, m₃, ⟨depth, hw⟩, hm₃, hread⟩ := hbytes _ _ rfl rfl
    obtain ⟨rfl, _⟩ := of_pure hw
    obtain rfl : v = .ofNat 64 m₁.nextAddress := (hmeets _ _ _ _ _ hbetween.meets).1
    exact ⟨st, _, hnext, hload, hread 0 (by decide) st.machine (.later (hstores _) hnext rfl .refl hload) hroom⟩

end Globals
end PathSafety
