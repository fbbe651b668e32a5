import PathSafety.Hooks.Registry
import PathSafety.Name.Resolve
import PathSafety.Path.Step

/-!
# Dispatching calls

Which hook of a registry a call goes to. A function is looked up by its symbol, its printed name, its
qualified name, its canonical name and the tail of its printed name, in this order.

Contents:

* `Name.candidates` — the names that a function is looked up by;
* `Registry.findHook` — the hook of a function;
* `Registry.dispatch` — the hook that looks up the hook of each call;
* `Registry.hooks` — the hooks of a project.
-/

namespace PathSafety

open IR

/-- A list without what it has before. -/
def Name.distinct (names : List String) : List String :=
  names.foldl (fun seen n => if seen.contains n then seen else seen ++ [n]) []

/-- The names that a function is looked up by, the most specific first. -/
def Name.candidates (symbol : String) : Except Fault (List String) := do
  let name ← demangle symbol
  let d ← resolve name
  let tails := match balancedTail? name.toList with
    | some t => [String.ofList t, String.ofList (eraseTemplates t)]
    | none => []
  return distinct
    (symbol :: name :: String.ofList d.qualifiedName :: String.ofList d.canonical :: tails)

namespace Registry

variable {α : Type}

/-- The hook of a function, with the name that it was found by. The symbol alone decides if it has a
hook; only else has it to be a name that can be read. -/
def findHook (r : Registry α) (symbol : String) : Except Fault (Option (String × α)) :=
  match r.hook? symbol with
  | some hook => .ok (some (symbol, hook))
  | none => do return r.lookup? (← Name.candidates symbol)

/-- The hook that sends each call to the hook of the function that it names. -/
def dispatch (r : Registry Hook) : Hook := fun s c => do
  match c.target? with
  | none => Machine.fault (.unresolvableCall c.site.text)
  | some f =>
    match r.findHook f.name with
    | .error fault => Machine.fault fault
    | .ok (some (_, hook)) => hook s c
    | .ok none =>
      match r.default with
      | some hook => hook s c
      | none => Machine.fault (.noHook f.name)

/-- Whether a hook stands in for a function though it has a body. -/
def replaces (r : Registry α) (f : Function) : Bool :=
  !f.isDeclaration &&
    match r.findHook f.name with
    | .ok found => found.isSome
    | .error _ => false

/-- The names of the functions of a project that hooks stand in for though they have bodies. -/
def replaced (r : Registry α) (p : Project) : List String :=
  ((p.routines.map (·.function)).filter r.replaces).map (·.name)

/-- The hooks of a project: those of the registry, for functions without a body and for those that hooks
stand in for. -/
def hooks (r : Registry Hook) (p : Project) : Hooks :=
  let names := r.replaced p
  let dispatch := r.dispatch
  { byName := fun n => if names.contains n then some dispatch else none
    default := some dispatch }

end Registry

end PathSafety
