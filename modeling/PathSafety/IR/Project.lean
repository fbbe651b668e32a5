import PathSafety.IR.Layout
import PathSafety.IR.Numbering
import PathSafety.IR.Typing

/-!
# Projects

Modules that are analyzed together: they share their structs, the width of pointers and one address
space. A `Routine` is a function with what its body is to be seen in.
-/

namespace PathSafety.IR

/-- A function of some module of a project. -/
structure Routine where
  module : Nat
  function : Function
  scope : Scope

/-- Modules under analysis. -/
structure Project where
  modules : List Module
  layout : Layout
  routines : List Routine

namespace Project

/-- The routines of a module. -/
def routinesOf (structs : StructTable) (index : Nat) (m : Module) : List Routine :=
  m.functions.map fun f => ⟨index, f, .ofFunction m structs f⟩

/-- The project of some modules; there must be at least one. -/
def ofModules? (modules : List Module) (layout : Layout) : Option Project :=
  if modules.isEmpty then none
  else
    let numbered := modules.map Module.number
    some {
      modules := numbered
      layout
      routines := (numbered.mapIdx (routinesOf layout.structs)).flatten }

/-- The routine of a name, wherever it is. A definition is preferred to a declaration. -/
def routine? (p : Project) (name : String) : Option Routine :=
  (p.routines.find? fun r => r.function.name == name && !r.function.isDeclaration).or
    (p.routines.find? (·.function.name == name))

theorem mem_of_routine? {p : Project} {name : String} {r : Routine} (h : p.routine? name = some r) :
    r ∈ p.routines := by
  rcases Option.or_eq_some_iff.mp h with h | ⟨_, h⟩ <;> exact List.mem_of_find?_eq_some h

/-- The routine of a name in one module. -/
def routineIn? (p : Project) (module : Nat) (name : String) : Option Routine :=
  p.routines.find? fun r => r.module == module && r.function.name == name

/-- The global value of a name in one module. -/
def globalIn? (p : Project) (module : Nat) (name : String) : Option GlobalValue :=
  p.modules[module]?.bind (·.global? name)

/-- The global variable of a name, in the first module where the name is a variable. -/
def globalVariable? (p : Project) (name : String) : Option Global :=
  p.modules.findSome? fun m => match m.global? name with
    | some (.data g) => some g
    | _ => none

/-- The global value of a name, with its module, in the first module that has the name. -/
def global? (p : Project) (name : String) : Option (Nat × GlobalValue) :=
  p.modules.zipIdx.findSome? fun (m, i) => (m.global? name).map (i, ·)

end Project

end PathSafety.IR
