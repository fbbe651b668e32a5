import PathSafety.IR.Project
import PathSafety.Text.Quoted
import PathSafety.Text.Scan

/-!
# Targets

A target names something in a package that gives the module to analyze, as `package:name`. A `Catalog` says
what packages there are and what their names give.
-/

namespace PathSafety.Command

open IR Text

/-- What a name in a package gives. -/
inductive Product where
  | project (p : Project)
  /-- Something else of a type. -/
  | other (type : String)

/-- The packages that can be named, with what their names give. -/
abbrev Catalog := List (String × List (String × Product))

/-- Why a target gives no module. -/
inductive TargetError where
  | malformed (target : String)
  | noPackage (package : String)
  /-- A package is looked for inside one that holds none. -/
  | notInside (package outer : String)
  | noName (package name : String)
  | notModule (target type : String)
  deriving DecidableEq, Repr

/-- What is wrong. -/
def TargetError.message : TargetError → String
  | malformed t => s!"expected package.module:factory, got {quoted t}"
  | noPackage p => s!"No module named {quoted p}"
  | notInside p outer => s!"No module named {quoted p}; {quoted outer} is not a package"
  | noName p n => s!"module '{p}' has no attribute '{n}'"
  | notModule t type => s!"{t} produced {type}, not an llvmlite.ir.Module"

namespace Catalog

variable (c : Catalog)

/-- The outer packages of a package, outermost first, and the package itself. -/
def chain (package : String) : List String :=
  let parts := package.splitOn "."
  (List.range parts.length).map fun i => ".".intercalate (parts.take (i + 1))

/-- Looks packages up from the outermost inwards, after the package `outer`. -/
def walk (outer : Option String) : List String → Except TargetError Unit
  | [] => .ok ()
  | p :: ps =>
    if (c.lookup p).isSome then walk (some p) ps
    else
      match outer with
      | none => .error (.noPackage p)
      | some o => .error (.notInside p o)

/-- What the names of a package give. -/
def package (name : String) : Except TargetError (List (String × Product)) := do
  c.walk none (chain name)
  return (c.lookup name).getD []

/-- The project that a target gives. -/
def load (target : String) : Except TargetError Project := do
  match splitFirst? [':'] target.toList with
  | some (package, name) =>
    if package.isEmpty || name.isEmpty then throw (.malformed target)
    let package := String.ofList package
    let name := String.ofList name
    match (← c.package package).lookup name with
    | none => throw (.noName package name)
    | some (.other type) => throw (.notModule target type)
    | some (.project p) => return p
  | none => throw (.malformed target)

end Catalog

end PathSafety.Command
