import PathSafety.Proofs.Machine.Composes
import PathSafety.Proofs.Path.Exploration

/-!
# What actions can fault with

The faults of an action are among some faults if those of its parts are. What a machine does by itself faults for
reasons of computing only, whatever else operands and hooks add.

Contents:

* `Machine.Faults` — that an action faults only with some faults;
* `faults_bind`, `faults_guarded`, … — parts, and what is put together from them;
* `queries_faults`, `composes_faults` — whatever machines do faults with no other faults than computing;
* `faults_siteEval` — operands, where they may lack a value;
* `Registry.faults_dispatch`, `Context.faults_of_make` — the hooks of a registry, and those of an analysis;
* `Engine.faults_forks`, `Engine.faults_move` — and so do forks and instructions;
* `Engine.of_finish_fault` — paths that end at an instruction.
-/

namespace PathSafety

open IR

namespace Machine

variable {s : Setting} {P : Fault → Prop} {α β : Type}

/-- That an action faults only with some faults. -/
def Faults (P : Fault → Prop) (α : Type) (x : Action α) : Prop := ∀ m f m', x m = .error (.fault f) m' → P f

theorem faults_guarded (hreject : ∀ f, P f → P f.reject) {x : Action α} (hx : Faults P α x) :
    Faults P α (guarded x) := by
  intro m f m' h
  cases hrun : x m with
  | ok b m₁ =>
    rw [guarded_ok hrun] at h
    cases h
  | error g m₁ =>
    cases g with
    | fault g =>
      rw [guarded_fault hrun] at h
      cases h
      exact hreject g (hx m g _ hrun)
    | defect d =>
      rw [guarded_defect hrun] at h
      cases h

theorem faults_bind {x : Action α} {f : α → Action β} (hx : Faults P α x) (hf : ∀ a, Faults P β (f a)) :
    Faults P β (x >>= f) := by
  intro m g m' h
  rcases error_of_bind h with h | ⟨a, m₁, _, h⟩
  · exact hx m g m' h
  · exact hf a m₁ g m' h

/-- Actions that do not fail. -/
theorem faults_of_total {x : Action α} (h : ∀ m g m', x m ≠ .error g m') : Faults P α x :=
  fun _ _ _ hx => absurd hx (h _ _ _)

theorem faults_fault {f : Fault} (hf : P f) : Faults P α (fault f) := by
  intro m g m' h
  cases h
  exact hf

theorem faults_defect (d : Defect) : Faults P α (defect d) := by
  intro m f m' h
  cases h

theorem faults_pure (a : α) : Faults P α (pure a) := faults_of_total fun m g m' h => by cases h

theorem faults_get : Faults P Machine get := faults_of_total fun m g m' h => by cases h

theorem faults_modify (f : Machine → Machine) : Faults P PUnit (modify f) :=
  faults_of_total fun m g m' h => by cases h

theorem faults_evalNat (v : Value) : Faults P Nat (evalNat v) := by
  refine faults_bind faults_get fun m => ?_
  split
  · exact faults_pure _
  · exact faults_defect _

theorem faults_sat (extra : List Cond) : Faults P Bool (sat extra) := faults_of_total fun m g m' h => by cases h

section Plain

variable (hplain : ∀ f : Fault, f.isPlain = true → P f)
include hplain

/-- Computing and asking faults only with faults of computing. -/
theorem queries_faults : Queries (Faults P) where
  pure := faults_pure
  bind := faults_bind
  fault f hf := faults_fault (hplain f hf)
  mismatch := faults_defect _
  missing := faults_defect _
  fresh name bits := by
    unfold fresh
    split
    · exact faults_bind (faults_fault (hplain _ rfl)) fun _ => faults_of_total fun m g m' h => by cases h
    · exact faults_of_total fun m g m' h => by cases h
  sat := faults_sat
  evalNat v _ := faults_evalNat v

theorem faults_read (address : Value) (bits : Nat) : Faults P Value (read s address bits) := by
  have hQ : Queries (Faults P) := queries_faults hplain
  have hbytes : ∀ a n, Faults P Value (readBytes a n) := fun a n => faults_of_total fun m g m' h => by cases h
  exact hQ.read <|
    hQ.readBytesAt hbytes (fun h => faults_bind faults_get h) (fun c => faults_modify _) (faults_defect _) address _

theorem faults_write (address v : Value) : Faults P Unit (write s address v) := by
  refine faults_bind ((queries_faults hplain).checkNull address) fun _ => ?_
  dsimp only
  split
  · exact faults_modify _
  · refine faults_bind faults_get fun m => ?_
    split
    · exact faults_defect _
    · exact faults_bind (faults_modify _) fun _ => faults_modify _

/-- Whatever machines do by themselves faults only with faults of computing, which hooks may reject. -/
theorem composes_faults (hreject : ∀ f, P f → P f.reject) : Composes s (Faults P) where
  toQueries := queries_faults hplain
  allocate bits := faults_of_total fun m g m' h => by cases h
  write := faults_write hplain
  guarded := faults_guarded hreject

/-- A global name gets its address, where the initial value of a variable is evaluated at most once. -/
theorem faults_meet {depth module : Nat} {name : String}
    (hnone : s.project.globalIn? module name = none → P .unboundOperand)
    (hinit : ∀ g init, s.project.globalIn? module name = some (.data g) → g.init = some init →
      Faults P Value (evalWith s (addressWithin s depth) module ∅ init)) :
    Faults P Value (addressWithin s (depth + 1) module name) := by
  unfold addressWithin
  refine faults_bind faults_get fun m => ?_
  dsimp only
  have henter : ∀ bits, Faults P Value (do
      let a ← allocate s bits
      modify fun m => { m with addresses := m.addresses.insert name a }
      return a) := fun bits =>
    faults_bind (faults_of_total fun m g m' h => by cases h) fun a => faults_bind (faults_modify _) fun _ => faults_pure a
  split
  · exact faults_pure _
  · split
    · exact faults_fault (hnone (by assumption))
    · exact henter 8
    · refine faults_bind (henter _) fun a => ?_
      split
      · refine faults_bind (hinit _ _ (by assumption) (by assumption)) fun v => ?_
        exact faults_bind (faults_write hplain a v) fun _ => faults_pure a
      · exact faults_pure a

section Operands

variable (hunbound : P .unboundOperand)
include hunbound

theorem faults_address (module : Nat) (name : String) : Faults P Value (address s module name) := by
  have hwithin : ∀ depth module name, Faults P Value (addressWithin s depth module name) := by
    intro depth
    induction depth with
    | zero => exact fun _ _ => faults_defect _
    | succ depth ih =>
      intro module name
      refine faults_meet hplain (fun _ => hunbound) fun g init _ _ => ?_
      exact (queries_faults hplain).evalAny (faults_fault hunbound) ih module ∅ init
  exact hwithin _ module name

theorem faults_siteEval (site : Site) (o : Operand) : Faults P Value (site.eval s o) :=
  (queries_faults hplain).eval (faults_fault hunbound) (faults_address hplain hunbound) site o

end Operands

end Plain

end Machine

/-! ## Hooks -/

open Machine

/-- Two steps of which each may fail do so where the first does, or the second after it. -/
theorem cases_of_bind_error {ε α β : Type} {x : Except ε α} {f : α → Except ε β} {e : ε}
    (h : (x >>= f) = .error e) : x = .error e ∨ ∃ a, x = .ok a ∧ f a = .error e := by
  cases x with
  | error _ =>
    cases h
    exact Or.inl rfl
  | ok a => exact Or.inr ⟨a, rfl, h⟩

namespace Name

variable {P : Fault → Prop} (hempty : P .emptyName) (hmangled : ∀ n, P (.notDemangled n)) {symbol : String} {f : Fault}
include hempty hmangled

/-- A symbol has no printed name only if it is empty, or mangled and not to be demangled. -/
theorem of_demangle_error (h : demangle symbol = .error f) : P f := by
  unfold demangle at h
  split at h
  · cases h
    exact hempty
  · split at h
    · split at h
      · cases h
      · cases h
        exact hmangled _
    · cases h

variable (hparse : ∀ n, P (.nothingToParse n))
include hparse

/-- A symbol has no descriptor only if it has no printed name, or one with nothing to parse. -/
theorem of_resolve_error (h : resolve symbol = .error f) : P f := by
  rcases cases_of_bind_error h with h | ⟨name, _, h⟩
  · exact of_demangle_error hempty hmangled h
  · split at h
    · cases h
    · cases h
      exact hparse _

/-- Reading the name of a function fails only because the name cannot be read. -/
theorem of_candidates_error (h : candidates symbol = .error f) : P f := by
  rcases cases_of_bind_error h with h | ⟨name, _, h⟩
  · exact of_demangle_error hempty hmangled h
  · rcases cases_of_bind_error h with h | ⟨d, _, h⟩
    · exact of_resolve_error hempty hmangled hparse h
    -- Whatever is made of the descriptor, nothing of it can fail.
    · cases h

end Name

/-- Reading the name of a function fails for reasons of computing only. -/
theorem Name.isPlain_of_candidates {symbol : String} {f : Fault} (h : candidates symbol = .error f) :
    f.isPlain = true :=
  of_candidates_error (P := fun f => f.isPlain = true) rfl (fun _ => rfl) (fun _ => rfl) h

/-- Sending calls to hooks faults with what the hooks fault with. -/
theorem Registry.faults_dispatch {s : Setting} {r : Registry Hook} {c : Call} {P : Fault → Prop}
    (hplain : ∀ f : Fault, f.isPlain = true → P f) (hr : r.All fun h => Machine.Faults P Outcome (h s c)) :
    Machine.Faults P Outcome (r.dispatch s c) := by
  unfold dispatch
  split
  · exact faults_fault (hplain _ rfl)
  · rename_i f _
    split
    -- A failed lookup is one of parsing the name, and those faults are plain.
    · rename_i g hg
      refine faults_fault (hplain _ ?_)
      unfold findHook at hg
      split at hg
      · cases hg
      · cases hnames : Name.candidates f.name with
        | error g' =>
          rw [hnames] at hg
          cases hg
          exact Name.isPlain_of_candidates hnames
        | ok names =>
          rw [hnames] at hg
          cases hg
    · rename_i found hfound
      exact hr.1 _ _ (mem_of_findHook hfound)
    · split
      · rename_i hook hhook
        exact hr.2 hook hhook
      · exact faults_fault (hplain _ rfl)

/-- **The hooks and monitors of an analysis** fault as operands do. -/
theorem Context.faults_of_make {P : Fault → Prop} (hplain : ∀ f : Fault, f.isPlain = true → P f)
    (hreject : ∀ f, P f → P f.reject) (hunbound : P .unboundOperand) {project : Project} {config : Config} {c : Context}
    (h : make project config Registry.sandbox = .ok c) :
    c.engine.Hooked (Machine.Faults P Outcome) ∧
      ∀ monitor ∈ c.engine.monitors, ∀ site, Machine.Faults P Unit (monitor c.engine.setting site) := by
  have hbuiltin : c.engine.BuiltIn := builtIn_of_make Registry.builtIn_sandbox h
  have heval : ∀ (site : Site) o, Faults P Value (site.eval c.engine.setting o) :=
    faults_siteEval hplain hunbound
  have hdispatch : ∀ call, Machine.Faults P Outcome (Registry.sandbox.dispatch c.engine.setting call) := fun call =>
    Registry.faults_dispatch hplain <| Registry.all_sandbox fun b =>
      (composes_faults hplain hreject).sandbox (faults_read hplain) call (fun o _ => heval call.site o) b
  refine ⟨⟨fun n hook hhook call => ?_, fun hook hhook call => ?_⟩, fun monitor hmonitor site => ?_⟩
  · exact eq_dispatch_of_make h (Or.inl ⟨n, hhook⟩) ▸ hdispatch call
  · exact eq_dispatch_of_make h (Or.inr hhook) ▸ hdispatch call
  · obtain ⟨k, hk⟩ := hbuiltin.monitors monitor hmonitor
    exact (queries_faults hplain).checker (fun o _ => heval site o)
      (fun o _ => faults_bind (heval site o) faults_evalNat) hk

/-! ## Instructions of paths -/

namespace Engine

variable {p : Project} {P : Fault → Prop}

/-- Forks fault as their operands do, where they may have no successor. -/
theorem faults_forks (hplain : ∀ f : Fault, f.isPlain = true → P f) (hdead : ∀ l, P (.noSuccessor l)) {e : Engine p}
    {site : Site} (heval : ∀ o ∈ site.instr.op.operands, Faults P Value (site.eval e.setting o)) (f : Frame p)
    (successors : Action (List (Cond × String))) (h : e.successors? site = some successors) :
    Faults P (Move p) (successors >>= branch f) := by
  have hQ : Queries (Faults P) := queries_faults hplain
  refine faults_bind (hQ.successors heval h) (hQ.branch (fun h => faults_bind faults_get h) ?_ ?_ f)
  · exact fun c => faults_modify _
  · exact fun l => faults_fault (hdead l)

/-- **Instructions** fault only with faults of computing, as far as their operands, phis, hooks and forks do. -/
theorem faults_move (hplain : ∀ f : Fault, f.isPlain = true → P f) (hreject : ∀ f, P f → P f.reject) {e : Engine p}
    {site : Site} (heval : ∀ o ∈ site.instr.op.operands, Faults P Value (site.eval e.setting o))
    (hphi : ∀ t incoming, site.instr.op = .phi t incoming → Faults P Value (Machine.phi e.setting site incoming))
    (hhooks : ∀ callee args, site.instr.op = .call callee args →
      ∀ h, e.HasHook h → Faults P Outcome (h e.setting ⟨site, callee, args⟩)) (st : State p)
    (hforks : ∀ successors, e.successors? site = some successors →
      Faults P (Move p) (successors >>= branch st.frame)) :
    Faults P (Move p) (e.move st site) := by
  refine (composes_faults hplain hreject).move (faults_read hplain) heval (fun o ho => ?_) hphi hhooks
    st hforks fun op flags a b hop => ?_
  · exact faults_bind (heval o ho) faults_evalNat
  · rw [hop] at heval
    refine faults_bind (heval a (by simp [Op.operands])) fun v => ?_
    refine faults_bind (heval b (by simp [Op.operands])) fun w => ?_
    cases hr : Value.arith op v w with
    | ok r => exact faults_pure r
    | error err => cases err <;> exact faults_defect _

/-- A path that ends with a fault at an instruction has the fault from executing it. -/
theorem of_finish_fault {e : Engine p} {st : State p} {path : Path} {f : Fault}
    (hact : ∀ i, st.frame.instr? = some i → Faults P (Move p) (e.act st i)) (h : e.step st = .finish path)
    (hf : path.ending = .fault f) : P f := by
  obtain ⟨i, m, hi, hrun⟩ := act_of_fault h hf
  exact hact i hi _ _ _ hrun

end Engine

end PathSafety
