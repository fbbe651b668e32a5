import PathSafety.Hooks.Sandbox

/-!
# The hook registry

Hooks by the names of functions, in the order in which the names came, and one hook for all other calls.
A name is a symbol, a printed name or a canonical one. A frozen registry takes no more hooks.

Contents:

* `Registry`, `Registry.register`, `Registry.setDefault`, `Registry.freeze` — building a registry;
* `Registry.hook?`, `Registry.lookup?` — looking up names, with what `register` does to them;
* `Registry.registerAll`, `Registry.builtin` — the sandbox hooks.
-/

namespace PathSafety

/-- Why a registry does not take a hook. -/
inductive RegistryError where
  | frozen
  deriving DecidableEq, Repr

/-- What is wrong. -/
def RegistryError.message : RegistryError → String
  | frozen => "hook registry is frozen"

/-- Hooks by name. -/
structure Registry (α : Type) where
  entries : List (String × α) := []
  default : Option α := none
  frozen : Bool := false

namespace Registry

variable {α : Type}

/-- The entries with a hook for a name, in the place of the one that it replaces. -/
def put (name : String) (hook : α) : List (String × α) → List (String × α)
  | [] => [(name, hook)]
  | (n, h) :: rest => if n = name then (name, hook) :: rest else (n, h) :: put name hook rest

/-- A registry with a hook for a name. -/
def register (r : Registry α) (name : String) (hook : α) : Except RegistryError (Registry α) :=
  if r.frozen then .error .frozen else .ok { r with entries := put name hook r.entries }

/-- A registry with a hook for all calls without one. -/
def setDefault (r : Registry α) (hook : α) : Except RegistryError (Registry α) :=
  if r.frozen then .error .frozen else .ok { r with default := some hook }

/-- A registry that takes no more hooks. -/
def freeze (r : Registry α) : Registry α := { r with frozen := true }

/-- The hook of a name. -/
def hook? (r : Registry α) (name : String) : Option α := r.entries.lookup name

/-- Whether a name has a hook. -/
def contains (r : Registry α) (name : String) : Bool := (r.hook? name).isSome

/-- The names in the order in which they came. -/
def names (r : Registry α) : List String := r.entries.map (·.1)

/-- The first of some names that has a hook, with the hook. -/
def lookup? (r : Registry α) (candidates : List String) : Option (String × α) :=
  candidates.findSome? fun n => (r.hook? n).map (n, ·)

/-- Registers hooks one after the other. -/
def registerEach (r : Registry α) (entries : List (String × α)) : Except RegistryError (Registry α) :=
  entries.foldlM (fun r e => r.register e.1 e.2) r

/-- Registers the sandbox hooks; `wrap` makes hooks of the registry from them. -/
def registerAll (wrap : SandboxHook → α) (r : Registry α) : Except RegistryError (Registry α) := do
  let r ← r.registerEach (SandboxHook.table.map fun (n, h) => (n, wrap h))
  r.setDefault (wrap .default)

theorem lookup_put (name : String) (hook : α) (entries : List (String × α)) (n : String) :
    (put name hook entries).lookup n = if n = name then some hook else entries.lookup n := by
  induction entries with
  | nil => by_cases h : n = name <;> simp [put, List.lookup_cons, h, beq_false_of_ne]
  | cons e rest ih =>
    obtain ⟨m, k⟩ := e
    simp only [put]
    split
    · rename_i h
      subst h
      by_cases hn : n = m <;> simp [List.lookup_cons, hn, beq_false_of_ne]
    · rename_i h
      by_cases hn : n = m
      · subst hn
        simp [h]
      · simp [List.lookup_cons, beq_false_of_ne hn, ih]

/-- A registered hook is found by its name, and no other name is touched. -/
theorem hook?_of_register {r t : Registry α} {name : String} {hook : α}
    (h : r.register name hook = .ok t) (n : String) :
    t.hook? n = if n = name then some hook else r.hook? n := by
  simp only [register] at h
  split at h
  · cases h
  · obtain rfl := Except.ok.inj h
    exact lookup_put name hook r.entries n

end Registry

end PathSafety
