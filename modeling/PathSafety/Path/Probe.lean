import PathSafety.Path.Start

/-!
# Probing a path

Whether chosen values of the parameters can take a path, and what the path then comes to.
-/

namespace PathSafety

/-- What a path comes to for some values of the parameters. -/
inductive Probe where
  | infeasible
  /-- The values of what is returned or thrown. -/
  | value (s : PathCondition.Summary)
  /-- The path is taken, and ends without a value. -/
  | reached

namespace Path

/-- The value that a path ended with. -/
def value? (path : Path) : Option Value :=
  match path.ending with
  | .outcome (.returned v) | .outcome (.threw v) => some v
  | _ => none

/-- The path condition with parameters set to numbers, which are reduced to their widths. -/
def assign (condition : PathCondition) (args : List (String × Value)) :
    List (String × Int) → PathCondition
  | [] => condition
  | (name, n) :: rest =>
    let condition := match args.lookup name with
      | some v => condition.assume (Term.mkCmp .eq v.term (.const (BitVec.ofInt _ n)))
      | none => condition
    assign condition args rest

/-- Takes a path with parameters set to numbers. -/
def probe (path : Path) (args : List (String × Value)) (numbers : List (String × Int)) : Probe :=
  let (possible, condition) := (assign path.machine.condition args numbers).sat []
  if !possible then .infeasible
  else
    match path.value? with
    | some v => .value (condition.summarize v)
    | none => .reached

end Path

end PathSafety
