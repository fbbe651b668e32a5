import PathSafety.Machine.Instruction

/-!
# Sessions

Working on machines by hand: several named machines that came from one another by copying, and named
values that all of them share. Symbols are numbered across the machines, so that a value keeps its meaning
when it is used on another one.
-/

namespace PathSafety

open IR

/-- Machines and values by name. -/
structure Session where
  setting : Setting
  current : String
  machines : List (String × Machine)
  values : List (String × Value) := []

/-- Why an operation of a session has no answer. -/
inductive SessionError where
  | failure (f : Failure)
  /-- A name that was never given. -/
  | unknownName (name : String)

/-- An operation of a session. -/
abbrev Session.Op (α : Type) := Session → Except SessionError α × Session

namespace Session

/-- A session with one machine that has done nothing. -/
def initial? (s : Setting) (name : String) : Option Session :=
  if s.hasMachine then some ⟨s, name, [(name, .initial)], []⟩ else none

/-- The machine at work. -/
def machine (x : Session) : Machine := (x.machines.lookup x.current).getD .initial

/-- Replaces the entry of a name, or adds one. -/
def put {α : Type} (name : String) (a : α) (xs : List (String × α)) : List (String × α) :=
  (name, a) :: xs.filter (·.1 != name)

/-- The first number that no symbol has on any machine. -/
def nextSymbol (x : Session) : Nat := x.machines.foldl (fun n m => max n m.2.nextSymbol) 0

/-- Runs an action on the current machine. -/
def act {α : Type} (action : Setting → Action α) : Op α := fun x =>
  match action x.setting { x.machine with nextSymbol := x.nextSymbol } with
  | .ok a m => (.ok a, { x with machines := put x.current m x.machines })
  | .error f m => (.error (.failure f), { x with machines := put x.current m x.machines })

/-- The value of a name. -/
def value (x : Session) (name : String) : Except SessionError Value :=
  match x.values.lookup name with
  | some v => .ok v
  | none => .error (.unknownName name)

/-- Names a value. -/
def define (x : Session) (name : String) (v : Value) : Session :=
  { x with values := put name v x.values }

/-- Copies the current machine under a name. -/
def fork (x : Session) (name : String) : Session :=
  { x with machines := put name x.machine x.machines }

/-- Goes over to another machine. -/
def switch (x : Session) (name : String) : Except SessionError Session :=
  if (x.machines.lookup name).isSome then .ok { x with current := name }
  else .error (.unknownName name)

/-- What values a value can have. -/
def summarize (x : Session) (v : Value) : PathCondition.Summary := x.machine.condition.summarize v

/-- The conditions that comparisons of named values stand for. -/
def conditions (x : Session) : List (IntPredicate × String × String) → Except SessionError (List Cond)
  | [] => .ok []
  | (p, a, b) :: rest => do
    let a ← x.value a
    let b ← x.value b
    match p.condition a b with
    | .ok c => return c :: (← x.conditions rest)
    | .error .widthMismatch => .error (.failure (.defect .widthMismatch))
    | .error .divisionByZero => .error (.failure (.defect .divisionByZero))

end Session

end PathSafety
