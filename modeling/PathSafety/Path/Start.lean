import PathSafety.Path.Explore

/-!
# The beginning of an exploration

A routine is explored from its entry, with a symbol for every parameter and nothing known of memory.
-/

namespace PathSafety

open IR

/-- Why an exploration cannot begin. -/
inductive StartError where
  | fault (f : Fault)
  | pointerWidth (bits : Nat)

/-- An exploration that can begin: its first arrival and the values of the parameters. -/
structure Start (p : Project) where
  first : Arrival p
  args : List (String × Value)

/-- What is wrong. -/
def StartError.message : StartError → String
  | fault f => f.message
  | pointerWidth n => s!"unsupported pointer size {n}"

namespace Start

/-- A symbol for every parameter. -/
def parameters (layout : Layout) : List (String × Ty) → Action (List (String × Value))
  | [] => pure []
  | (name, t) :: rest => do
    match layout.bits? t with
    | none => Machine.fault (.unsizedParameter name t)
    | some bits =>
      let v ← Machine.fresh ("arg_" ++ name) bits
      let vs ← parameters layout rest
      return (name, v) :: vs

/-- The beginning of the exploration of a function. -/
def of (p : Project) (name : String) : Except StartError (Start p) :=
  match h : p.routine? name with
  | none => .error (.fault (.functionNotFound name))
  | some r =>
    if r.function.isDeclaration then .error (.fault (.noBody name))
    else if !(Setting.mk p true).hasMachine then
      .error (.pointerWidth p.layout.pointerBits)
    else
      match parameters p.layout r.function.params Machine.initial with
      | .error (.fault f) _ => .error (.fault f)
      | .error (.defect _) _ => .error (.fault (.noBody name))
      | .ok args machine =>
        match Frame.call? r (Project.mem_of_routine? h) (args.map (·.2)) with
        | some frame => .ok { first := { state := { machine, frame } }, args }
        | none => .error (.fault (.noBody name))

end Start

/-- The paths of a function, in the order of a depth first search. -/
def Engine.pathsOf {p : Project} (e : Engine p) (start : Start p) : List Path := e.paths [start.first]

end PathSafety
