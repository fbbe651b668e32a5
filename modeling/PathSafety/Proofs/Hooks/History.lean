import Mathlib.Data.List.Induction
import Mathlib.Data.List.Nodup
import PathSafety.Proofs.Machine.Faults

/-!
# The history of a registry

A registry is built by operations that come in any order and may fail. What it ends up with is told by its history: the
registrations before it was frozen for the first time. A name has the hook of its last registration, and the names come
in the order of their first. From this follows which hook a function gets: the last one that was registered for the first
of the names that the function is looked up by.

Contents:

* `Registry.Operation`, `Registry.perform`, `Registry.after` — operations and histories of them;
* `Registry.registrations`, `Registry.IsLast` — what histories have registered;
* `Registry.Records`, `Registry.records_after` — what a registry ends up with;
* `Name.forms`, `Name.candidates_eq_forms` — the names that a function is looked up by, with repetitions;
* `Registry.Only.findHook` — the only hook among these names is the one that is found;
* `Registry.follows_history` — which hook a function gets.
-/

namespace PathSafety

variable {α : Type} {wrap : SandboxHook → α} {r t : Registry α} {history : List (String × α)} {name : String} {hook : α}
  {names : List String}

namespace Name

/-! ## Names without repetitions -/

theorem distinct_append_singleton (names : List String) (n : String) :
    distinct (names ++ [n]) = if n ∈ distinct names then distinct names else distinct names ++ [n] := by
  unfold distinct
  rw [List.foldl_append]
  simp

@[simp] theorem mem_distinct {n : String} : n ∈ distinct names ↔ n ∈ names := by
  induction names using List.reverseRecOn with
  | nil => simp [distinct]
  | append_singleton names m ih =>
    rw [distinct_append_singleton]
    split
    · rename_i hm
      rw [ih, List.mem_append, List.mem_singleton]
      constructor
      · exact Or.inl
      · rintro (h | rfl)
        · exact h
        · exact ih.mp hm
    · simp [ih]

theorem nodup_distinct (names : List String) : (distinct names).Nodup := by
  induction names using List.reverseRecOn with
  | nil => exact List.nodup_nil
  | append_singleton names m ih =>
    rw [distinct_append_singleton]
    split
    · exact ih
    · rename_i hm
      exact List.nodup_append.mpr ⟨ih, List.nodup_singleton m, by grind⟩

/-- Names stay in the order in which they come first. -/
theorem pairwise_idxOf_distinct (names : List String) :
    (distinct names).Pairwise fun a b => names.idxOf a < names.idxOf b := by
  induction names using List.reverseRecOn with
  | nil => exact List.Pairwise.nil
  | append_singleton names m ih =>
    have hbefore : (distinct names).Pairwise fun a b => (names ++ [m]).idxOf a < (names ++ [m]).idxOf b := by
      refine ih.imp_of_mem fun ha hb hlt => ?_
      rw [List.idxOf_append_of_mem (mem_distinct.mp ha), List.idxOf_append_of_mem (mem_distinct.mp hb)]
      exact hlt
    rw [distinct_append_singleton]
    split
    · exact hbefore
    · -- a new name comes first where it is added, behind all others
      rename_i hm
      refine List.pairwise_append.mpr ⟨hbefore, List.pairwise_singleton _ m, fun a ha b hb => ?_⟩
      obtain rfl := List.mem_singleton.mp hb
      rw [mem_distinct] at ha hm
      rw [List.idxOf_append_of_mem ha, List.idxOf_append_of_notMem hm]
      exact Nat.lt_of_lt_of_le (List.idxOf_lt_length_of_mem ha) (Nat.le_add_right _ _)

/-- The first name with some property is the same with repetitions as without. -/
theorem findSome?_distinct {β : Type} (f : String → Option β) (names : List String) :
    (distinct names).findSome? f = names.findSome? f := by
  induction names using List.reverseRecOn with
  | nil => rfl
  | append_singleton names m ih =>
    rw [distinct_append_singleton, List.findSome?_append]
    split
    · -- what is repeated has been tried before
      rename_i hm
      rw [ih]
      cases hfind : names.findSome? f with
      | some x => rfl
      | none => simp [List.findSome?_eq_none_iff.mp hfind m (mem_distinct.mp hm)]
    · rw [List.findSome?_append, ih]

/-! ## The names that a function is looked up by -/

/-- The names that a function is looked up by, the most specific first: its symbol, its printed name, its qualified name,
its canonical name, and the balanced tail of its printed name, with templates and without. Some of them can be the same. -/
def forms (symbol : String) : Except Fault (List String) := do
  let printed ← demangle symbol
  let d ← resolve printed
  let tails := match balancedTail? printed.toList with
    | some t => [String.ofList t, String.ofList (eraseTemplates t)]
    | none => []
  return symbol :: printed :: String.ofList d.qualifiedName :: String.ofList d.canonical :: tails

theorem candidates_eq_forms (symbol : String) : candidates symbol = (forms symbol).map distinct := by
  unfold candidates forms
  cases demangle symbol with
  | error f => rfl
  | ok printed =>
    show (resolve printed >>= _) = Except.map _ (resolve printed >>= _)
    cases resolve printed <;> rfl

theorem candidates_of_resolve {symbol printed : String} {d : Descriptor} (hsymbol : demangle symbol = .ok printed)
    (hd : resolve printed = .ok d) :
    candidates symbol = .ok (distinct (symbol :: printed :: String.ofList d.qualifiedName :: String.ofList d.canonical ::
      ((balancedTail? printed.toList).map fun t => [String.ofList t, String.ofList (eraseTemplates t)]).getD [])) := by
  unfold candidates
  rw [hsymbol]
  show (resolve printed >>= _) = _
  rw [hd]
  cases balancedTail? printed.toList <;> rfl

/-- The first of the names is the symbol. -/
theorem exists_eq_cons_of_forms {symbol : String} {all : List String} (h : forms symbol = .ok all) :
    ∃ rest, all = symbol :: rest := by
  unfold forms at h
  cases hprinted : demangle symbol with
  | error f =>
    rw [hprinted] at h
    cases h
  | ok printed =>
    rw [hprinted] at h
    have h : (resolve printed >>= _ : Except Fault (List String)) = .ok all := h
    cases hd : resolve printed with
    | error f =>
      rw [hd] at h
      cases h
    | ok d =>
      rw [hd] at h
      exact ⟨_, (Except.ok.inj h).symm⟩

end Name

namespace Registry

/-! ## Histories -/

/-- What can be done with a registry. -/
inductive Operation (α : Type) where
  | register (name : String) (hook : α)
  | setDefault (hook : α)
  | builtin
  | freeze
  | lookup (names : List String)
  | find (symbol : String)

/-- Changes a registry step by step. Where a step fails, what has been done so far stays. -/
def attempt (r : Registry α) :
    List (Registry α → Except RegistryError (Registry α)) → Registry α × Option RegistryError
  | [] => (r, none)
  | change :: changes =>
    match change r with
    | .ok t => attempt t changes
    | .error err => (r, some err)

/-- How the sandbox hooks are registered. -/
def builtinSteps (wrap : SandboxHook → α) : List (Registry α → Except RegistryError (Registry α)) :=
  SandboxHook.table.map (fun x r => r.register x.1 (wrap x.2)) ++ [fun r => r.setDefault (wrap .default)]

/-- The steps of an operation. -/
def Operation.steps (wrap : SandboxHook → α) :
    Operation α → List (Registry α → Except RegistryError (Registry α))
  | .register name hook => [fun r => r.register name hook]
  | .setDefault hook => [fun r => r.setDefault hook]
  | .builtin => builtinSteps wrap
  | .freeze => [fun r => .ok r.freeze]
  | .lookup _ | .find _ => []

/-- An operation leaves a registry behind, and may fail. -/
def perform (wrap : SandboxHook → α) (r : Registry α) (operation : Operation α) : Registry α × Option RegistryError :=
  r.attempt (operation.steps wrap)

/-- The registry that operations leave behind. -/
def after (wrap : SandboxHook → α) (r : Registry α) (operations : List (Operation α)) : Registry α :=
  operations.foldl (fun r operation => (r.perform wrap operation).1) r

/-- The hooks that operations register until one of them freezes the registry. -/
def registrations (wrap : SandboxHook → α) : List (Operation α) → List (String × α)
  | [] | .freeze :: _ => []
  | .register name hook :: rest => (name, hook) :: registrations wrap rest
  | .builtin :: rest => SandboxHook.table.map (fun x => (x.1, wrap x.2)) ++ registrations wrap rest
  | .setDefault _ :: rest | .lookup _ :: rest | .find _ :: rest => registrations wrap rest

/-- That the last registration for a name is one of some hook. -/
def IsLast (history : List (String × α)) (name : String) (hook : α) : Prop :=
  ∃ before after, history = before ++ (name, hook) :: after ∧ ∀ x ∈ after, x.1 ≠ name

theorem lookup_reverse_eq_some_iff : history.reverse.lookup name = some hook ↔ IsLast history name hook := by
  rw [List.lookup_eq_some_iff]
  constructor
  · rintro ⟨after, before, heq, hafter⟩
    refine ⟨before.reverse, after.reverse, ?_, fun x hx => ?_⟩
    · have := congrArg List.reverse heq
      simpa using this
    · have := hafter x (List.mem_reverse.mp hx)
      exact Ne.symm (by simpa using this)
  · rintro ⟨before, after, rfl, hafter⟩
    refine ⟨after.reverse, before.reverse, by simp, fun x hx => ?_⟩
    have := hafter x (List.mem_reverse.mp hx)
    simpa using this.symm

theorem lookup_reverse_eq_none_iff : history.reverse.lookup name = none ↔ name ∉ history.map (·.1) := by
  rw [List.lookup_eq_none_iff]
  constructor
  · intro h hmem
    obtain ⟨x, hx, rfl⟩ := List.mem_map.mp hmem
    simpa using h x (List.mem_reverse.mpr hx)
  · intro h x hx
    have hne : name ≠ x.1 := by
      rintro rfl
      exact h (List.mem_map_of_mem (List.mem_reverse.mp hx))
    simpa using hne

/-! ## What a registry ends up with -/

/-- That a registry has what has been registered: for each name the last hook, and the names in the order in which they
came first. -/
structure Records (r : Registry α) (history : List (String × α)) : Prop where
  hooks : ∀ n, r.hook? n = history.reverse.lookup n
  names : r.names = Name.distinct (history.map (·.1))

theorem records_nil : ({} : Registry α).Records [] where
  hooks := fun _ => rfl
  names := rfl

theorem names_put (entries : List (String × α)) : (put name hook entries).map (·.1) =
    if name ∈ entries.map (·.1) then entries.map (·.1) else entries.map (·.1) ++ [name] := by
  induction entries with
  | nil => rfl
  | cons x entries ih =>
    unfold put
    by_cases hx : x.1 = name
    · simp [hx]
    · rw [if_neg hx, List.map_cons, ih]
      have hmem : name ∈ (x :: entries).map (·.1) ↔ name ∈ entries.map (·.1) := by
        simp [Ne.symm hx]
      by_cases hname : name ∈ entries.map (·.1)
      · rw [if_pos hname, if_pos (hmem.mpr hname)]
        rfl
      · rw [if_neg hname, if_neg (hname ∘ hmem.mp)]
        rfl

/-- **One registration** puts a hook in the place of the one that its name had, or behind all others. -/
theorem Records.register (h : r.Records history) (hregister : r.register name hook = .ok t) :
    t.Records (history ++ [(name, hook)]) where
  hooks := by
    intro n
    rw [hook?_of_register hregister, h.hooks, List.reverse_append]
    by_cases hn : n = name
    · simp [hn]
    · rw [if_neg hn]
      simp [List.lookup_cons, beq_false_of_ne hn]
  names := by
    unfold Registry.register at hregister
    split at hregister
    · cases hregister
    · obtain rfl := Except.ok.inj hregister
      show (put name hook r.entries).map (·.1) = _
      have hnames : r.entries.map (·.1) = Name.distinct (history.map (·.1)) := h.names
      rw [names_put, hnames, List.map_append, List.map_singleton, Name.distinct_append_singleton]

theorem frozen_of_register (h : r.register name hook = .ok t) : r.frozen = false ∧ t.frozen = false := by
  unfold Registry.register at h
  cases hfrozen : r.frozen with
  | true =>
    rw [hfrozen] at h
    cases h
  | false =>
    rw [hfrozen] at h
    obtain rfl := Except.ok.inj h
    constructor <;> rfl

theorem exists_ok_of_register (hfrozen : r.frozen = false) (name : String) (hook : α) :
    ∃ t, r.register name hook = .ok t := by
  unfold Registry.register
  rw [hfrozen]
  exact ⟨_, rfl⟩

/-- Several registrations are taken one after another, as long as nothing is frozen. -/
theorem exists_attempt_registerEach (hfrozen : r.frozen = false) (h : r.Records history) (entries : List (String × α))
    (changes : List (Registry α → Except RegistryError (Registry α))) :
    ∃ t, r.registerEach entries = .ok t ∧ t.frozen = false ∧ t.Records (history ++ entries) ∧
      r.attempt (entries.map (fun x r => r.register x.1 x.2) ++ changes) = t.attempt changes := by
  induction entries generalizing r history with
  | nil => exact ⟨r, rfl, hfrozen, by rwa [List.append_nil], rfl⟩
  | cons x entries ih =>
    -- the first of them cannot fail, and leaves a registry that takes the others
    obtain ⟨r₁, hr₁⟩ := exists_ok_of_register hfrozen x.1 x.2
    obtain ⟨t, ht, htfrozen, hrecords, hattempt⟩ := ih (frozen_of_register hr₁).2 (h.register hr₁)
    refine ⟨t, ?_, htfrozen, ?_, ?_⟩
    · unfold registerEach at ht ⊢
      rw [List.foldlM_cons, hr₁]
      exact ht
    · rwa [List.append_assoc] at hrecords
    · rw [List.map_cons, List.cons_append, attempt, hr₁]
      exact hattempt

theorem attempt_of_ok {step : Registry α → Except RegistryError (Registry α)} (h : step r = .ok t)
    (steps : List (Registry α → Except RegistryError (Registry α))) : r.attempt (step :: steps) = t.attempt steps := by
  rw [attempt, h]

theorem attempt_of_error {step : Registry α → Except RegistryError (Registry α)} {err : RegistryError}
    (h : step r = .error err) (steps : List (Registry α → Except RegistryError (Registry α))) :
    r.attempt (step :: steps) = (r, some err) := by
  rw [attempt, h]

theorem register_of_frozen (hfrozen : r.frozen = true) (name : String) (hook : α) :
    r.register name hook = .error .frozen := by
  unfold Registry.register
  rw [hfrozen]
  rfl

/-- **A frozen registry** stays as it is, and takes nothing. -/
theorem perform_of_frozen (hfrozen : r.frozen = true) (operation : Operation α) :
    (r.perform wrap operation).1 = r := by
  cases operation with
  | register name hook => exact congrArg _ (attempt_of_error (register_of_frozen hfrozen name hook) [])
  | setDefault hook =>
    have hstep : r.setDefault hook = .error .frozen := by
      unfold Registry.setDefault
      rw [hfrozen]
      rfl
    exact congrArg _ (attempt_of_error hstep [])
  | builtin => exact congrArg _ (attempt_of_error (register_of_frozen hfrozen _ _) _)
  | freeze =>
    obtain ⟨entries, default, frozen⟩ := r
    obtain rfl : frozen = true := hfrozen
    rfl
  | lookup | find => rfl

theorem after_of_frozen (hfrozen : r.frozen = true) (operations : List (Operation α)) :
    r.after wrap operations = r := by
  unfold after
  induction operations with
  | nil => rfl
  | cons operation operations ih => rw [List.foldl_cons, perform_of_frozen hfrozen, ih]

/-- The default hook is none of those that are registered. -/
theorem exists_ok_of_setDefault (hfrozen : r.frozen = false) (h : r.Records history) (hook : α) :
    ∃ t, r.setDefault hook = .ok t ∧ t.frozen = false ∧ t.Records history := by
  unfold Registry.setDefault
  rw [hfrozen]
  exact ⟨_, rfl, rfl, h.hooks, h.names⟩

/-- The sandbox hooks are registered step by step, with the same result as at once. -/
theorem exists_builtin (wrap : SandboxHook → α) (hfrozen : r.frozen = false) (h : r.Records history) :
    ∃ t, r.registerAll wrap = .ok t ∧ r.perform wrap .builtin = (t, none) ∧ t.frozen = false ∧
      t.Records (history ++ SandboxHook.table.map (fun x => (x.1, wrap x.2))) := by
  obtain ⟨r₁, hr₁, hr₁frozen, hrecords, hattempt⟩ := exists_attempt_registerEach hfrozen h
    (SandboxHook.table.map fun x => (x.1, wrap x.2)) [fun r => r.setDefault (wrap .default)]
  obtain ⟨t, ht, htfrozen, htrecords⟩ := exists_ok_of_setDefault hr₁frozen hrecords (wrap .default)
  refine ⟨t, ?_, ?_, htfrozen, htrecords⟩
  · unfold registerAll
    rw [hr₁]
    exact ht
  · rw [List.map_map] at hattempt
    exact hattempt.trans (attempt_of_ok ht [])

/-- **One operation** on a registry that is not frozen does not fail. -/
theorem exists_perform (wrap : SandboxHook → α) (hfrozen : r.frozen = false) (h : r.Records history)
    {operation : Operation α} (hop : operation ≠ .freeze) : ∃ t, r.perform wrap operation = (t, none) ∧ t.frozen = false ∧
      t.Records (history ++ registrations wrap [operation]) := by
  cases operation with
  | register name hook =>
    obtain ⟨t, ht⟩ := exists_ok_of_register hfrozen name hook
    exact ⟨t, attempt_of_ok ht [], (frozen_of_register ht).2, h.register ht⟩
  | setDefault hook =>
    obtain ⟨t, ht, htfrozen, hrecords⟩ := exists_ok_of_setDefault hfrozen h hook
    refine ⟨t, attempt_of_ok ht [], htfrozen, ?_⟩
    show t.Records (history ++ [])
    rwa [List.append_nil]
  | builtin =>
    obtain ⟨t, _, ht, htfrozen, hrecords⟩ := exists_builtin wrap hfrozen h
    refine ⟨t, ht, htfrozen, ?_⟩
    show t.Records (history ++ (_ ++ []))
    rwa [List.append_nil]
  | freeze => exact absurd rfl hop
  | lookup | find =>
    refine ⟨r, rfl, hfrozen, ?_⟩
    show r.Records (history ++ [])
    rwa [List.append_nil]

theorem registrations_cons {operation : Operation α} (hop : operation ≠ .freeze) (rest : List (Operation α)) :
    registrations wrap (operation :: rest) = registrations wrap [operation] ++ registrations wrap rest := by
  cases operation with
  | freeze => exact absurd rfl hop
  | builtin =>
    show _ ++ registrations wrap rest = (_ ++ []) ++ registrations wrap rest
    rw [List.append_nil]
  | _ => rfl

/-- **A history** leaves behind what it has registered before the registry was frozen. -/
theorem records_after (wrap : SandboxHook → α) (hfrozen : r.frozen = false) (h : r.Records history)
    (operations : List (Operation α)) :
    (r.after wrap operations).Records (history ++ registrations wrap operations) ∧
      ((r.after wrap operations).frozen = true ↔ .freeze ∈ operations) := by
  induction operations generalizing r history with
  | nil =>
    rw [registrations, List.append_nil]
    exact ⟨h, by simp [after, hfrozen]⟩
  | cons operation operations ih =>
    by_cases hop : operation = .freeze
    · -- nothing counts any more
      subst hop
      have hafter : r.after wrap (.freeze :: operations) = r.freeze := after_of_frozen (r := r.freeze) rfl operations
      rw [hafter, registrations, List.append_nil]
      exact ⟨⟨h.hooks, h.names⟩, by simp [freeze]⟩
    · obtain ⟨t, ht, htfrozen, hrecords⟩ := exists_perform wrap hfrozen h hop
      have hafter : r.after wrap (operation :: operations) = t.after wrap operations := by
        unfold after
        rw [List.foldl_cons, ht]
      rw [hafter, registrations_cons hop, ← List.append_assoc]
      obtain ⟨hrest, hfreeze⟩ := ih htfrozen hrecords
      refine ⟨hrest, hfreeze.trans ?_⟩
      rw [List.mem_cons]
      exact ⟨Or.inr, fun hmem => hmem.resolve_left (Ne.symm hop)⟩

/-! ## Which hook a function gets -/

/-- That something is found for the names of a function: the first of them for which something was registered, with the
hook of its last registration, or nothing if there is none. -/
def Selects (history : List (String × α)) (forms : List String) : Option (String × α) → Prop
  | none => ∀ k ∈ forms, k ∉ history.map (·.1)
  | some (k, hook) =>
    (∃ before after, forms = before ++ k :: after ∧ ∀ j ∈ before, j ∉ history.map (·.1)) ∧ IsLast history k hook

theorem Records.selects (h : r.Records history) (forms : List String) :
    Selects history forms (r.lookup? (Name.distinct forms)) := by
  have hnone : ∀ {k}, (r.hook? k).map (k, ·) = none → k ∉ history.map (·.1) := by
    intro k hk
    rw [Option.map_eq_none_iff, h.hooks] at hk
    exact lookup_reverse_eq_none_iff.mp hk
  unfold lookup?
  rw [Name.findSome?_distinct]
  cases hfind : forms.findSome? fun n => (r.hook? n).map (n, ·) with
  | none => exact fun k hk => hnone (List.findSome?_eq_none_iff.mp hfind k hk)
  | some found =>
    obtain ⟨before, k, after, hforms, hk, hbefore⟩ := List.findSome?_eq_some_iff.mp hfind
    obtain ⟨hook, hhook, rfl⟩ := Option.map_eq_some_iff.mp hk
    rw [h.hooks] at hhook
    exact ⟨⟨before, after, hforms, fun j hj => hnone (hbefore j hj)⟩, lookup_reverse_eq_some_iff.mp hhook⟩

/-- What operations on an empty registry come to. The hook of a function is selected from what they have registered, by
the names that it is looked up by; its symbol alone will do. A frozen registry is not changed by what fails. -/
structure Follows (wrap : SandboxHook → α) (operations : List (Operation α)) (r : Registry α) : Prop where
  found : ∀ n keys, Name.candidates n = .ok keys → ∃ forms found, Name.forms n = .ok forms ∧ keys = Name.distinct forms ∧
    r.findHook n = .ok found ∧ Selects (registrations wrap operations) forms found
  symbol : ∀ n hook, IsLast (registrations wrap operations) n hook → r.findHook n = .ok (some (n, hook))
  unreadable : ∀ n f, r.findHook n = .error f ↔
    n ∉ (registrations wrap operations).map (·.1) ∧ Name.candidates n = .error f
  kind : ∀ n f, r.findHook n = .error f → f.kind = .unparseableName
  refused : ∀ operation err, (r.perform wrap operation).2 = some err →
    .freeze ∈ operations ∧ err = .frozen ∧ (r.perform wrap operation).1 = r
  names : r.names = Name.distinct ((registrations wrap operations).map (·.1))
  nodup : r.names.Nodup
  mem : ∀ n, n ∈ r.names ↔ n ∈ (registrations wrap operations).map (·.1)
  order : r.names.Pairwise fun a b =>
    ((registrations wrap operations).map (·.1)).idxOf a < ((registrations wrap operations).map (·.1)).idxOf b

theorem findHook_of_hook? {n : String} (h : r.hook? n = some hook) : r.findHook n = .ok (some (n, hook)) := by
  unfold findHook
  rw [h]

theorem findHook_of_none {n : String} (h : r.hook? n = none) :
    r.findHook n = (Name.candidates n).map fun keys => r.lookup? keys := by
  unfold findHook
  rw [h]
  cases Name.candidates n <;> rfl

/-- That of some names only one has a hook. -/
structure Only (r : Registry α) (names : List String) (name : String) (hook : α) : Prop where
  hook : r.hook? name = some hook
  others : ∀ n ∈ names, n ≠ name → r.hook? n = none

theorem Only.lookup? (h : r.Only names name hook) (hmem : name ∈ names) : r.lookup? names = some (name, hook) := by
  obtain ⟨hhook, hothers⟩ := h
  unfold Registry.lookup?
  induction names with
  | nil => exact absurd hmem List.not_mem_nil
  | cons n names ih =>
    rw [List.findSome?_cons]
    by_cases hn : n = name
    · rw [hn, hhook]
      rfl
    · rw [hothers n List.mem_cons_self hn]
      have hrest := (List.mem_cons.mp hmem).resolve_left (Ne.symm hn)
      exact ih hrest fun m hm => hothers m (List.mem_cons_of_mem n hm)

/-- **The only hook** among the names that a function is looked up by is the hook of the function. -/
theorem Only.findHook {symbol : String} (h : r.Only names name hook) (hnames : Name.candidates symbol = .ok names)
    (hmem : name ∈ names) : r.findHook symbol = .ok (some (name, hook)) := by
  cases hsymbol : r.hook? symbol with
  | none =>
    rw [findHook_of_none hsymbol, hnames]
    exact congrArg Except.ok (h.lookup? hmem)
  | some other =>
    -- the symbol is one of the names, so the hook is its own
    have hfirst : symbol ∈ names := by
      rw [Name.candidates_eq_forms] at hnames
      cases hforms : Name.forms symbol with
      | error f =>
        rw [hforms] at hnames
        cases hnames
      | ok forms =>
        rw [hforms] at hnames
        obtain rfl := Except.ok.inj hnames
        obtain ⟨rest, rfl⟩ := Name.exists_eq_cons_of_forms hforms
        exact Name.mem_distinct.mpr List.mem_cons_self
    have heq : symbol = name := Decidable.byContradiction fun hne => by
      rw [h.others symbol hfirst hne] at hsymbol
      cases hsymbol
    rw [heq]
    exact findHook_of_hook? h.hook

/-- A function with a readable name gets the hook that its names select. -/
theorem Records.exists_findHook (h : r.Records history) {n : String} {keys : List String}
    (hkeys : Name.candidates n = .ok keys) : ∃ forms found, Name.forms n = .ok forms ∧ keys = Name.distinct forms ∧
      r.findHook n = .ok found ∧ Selects history forms found := by
  rw [Name.candidates_eq_forms] at hkeys
  cases hforms : Name.forms n with
  | error f =>
    rw [hforms] at hkeys
    cases hkeys
  | ok forms =>
    rw [hforms] at hkeys
    obtain rfl := Except.ok.inj hkeys
    refine ⟨forms, r.lookup? (Name.distinct forms), rfl, rfl, ?_, h.selects forms⟩
    have hcandidates : Name.candidates n = .ok (Name.distinct forms) := by
      rw [Name.candidates_eq_forms, hforms]
      rfl
    cases hn : r.hook? n with
    | none =>
      rw [findHook_of_none hn, hcandidates]
      rfl
    | some hook =>
      -- the symbol is the first of the names
      obtain ⟨rest, rfl⟩ := Name.exists_eq_cons_of_forms hforms
      rw [findHook_of_hook? hn]
      unfold lookup?
      rw [Name.findSome?_distinct, List.findSome?_cons, hn]
      rfl

/-- Finding a hook fails for functions without a readable name, unless there is a hook for the symbol itself. -/
theorem Records.findHook_error_iff (h : r.Records history) {n : String} {f : Fault} :
    r.findHook n = .error f ↔ n ∉ history.map (·.1) ∧ Name.candidates n = .error f := by
  rw [← lookup_reverse_eq_none_iff, ← h.hooks]
  constructor
  · intro hfind
    cases hn : r.hook? n with
    | some hook =>
      rw [findHook_of_hook? hn] at hfind
      cases hfind
    | none =>
      rw [findHook_of_none hn] at hfind
      cases hkeys : Name.candidates n with
      | ok keys =>
        rw [hkeys] at hfind
        cases hfind
      | error g =>
        rw [hkeys] at hfind
        obtain rfl := Except.error.inj hfind
        exact ⟨rfl, rfl⟩
  · rintro ⟨hn, hkeys⟩
    rw [findHook_of_none hn, hkeys]
    rfl

/-- **Dispatch follows the history**, whatever has been done with a registry. -/
theorem follows_history (wrap : SandboxHook → α) (operations : List (Operation α)) :
    Follows wrap operations (({} : Registry α).after wrap operations) := by
  have hempty : ({} : Registry α).frozen = false := rfl
  obtain ⟨hrecords, hfrozen⟩ := records_after wrap hempty records_nil operations
  rw [List.nil_append] at hrecords
  constructor
  · intro n keys hkeys
    exact hrecords.exists_findHook hkeys
  · intro n hook hlast
    refine findHook_of_hook? ?_
    rw [hrecords.hooks]
    exact lookup_reverse_eq_some_iff.mpr hlast
  · intro n f
    exact hrecords.findHook_error_iff
  · intro n f hfind
    exact Name.of_candidates_error (P := fun f => f.kind = .unparseableName) rfl (fun _ => rfl) (fun _ => rfl)
      (hrecords.findHook_error_iff.mp hfind).2
  · intro operation err hfails
    cases hstate : (({} : Registry α).after wrap operations).frozen with
    | true =>
      cases err
      exact ⟨hfrozen.mp hstate, rfl, perform_of_frozen hstate operation⟩
    | false =>
      -- what is not frozen takes everything
      by_cases hop : operation = .freeze
      · subst hop
        cases hfails
      · obtain ⟨t, ht, _⟩ := exists_perform wrap hstate hrecords hop
        rw [ht] at hfails
        cases hfails
  · exact hrecords.names
  · rw [hrecords.names]
    exact Name.nodup_distinct _
  · intro n
    rw [hrecords.names]
    exact Name.mem_distinct
  · rw [hrecords.names]
    exact Name.pairwise_idxOf_distinct _

/-- A hook takes the place of the one before, and nothing is taken by a frozen registry. -/
example : (({} : Registry Nat).after (fun _ => 0)
    [.register "f" 1, .register "g" 2, .find "f", .register "f" 3, .freeze, .register "g" 4, .setDefault 5]).entries =
      [("f", 3), ("g", 2)] := by
  decide

end Registry

end PathSafety
