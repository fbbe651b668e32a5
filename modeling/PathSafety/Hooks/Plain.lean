import PathSafety.Machine.Site

/-!
# Plain hooks

Hooks that do one thing, whatever is called: end the path, return nothing, throw or return the first
argument. They do not look at the number of arguments.
-/

namespace PathSafety

/-- The plain hooks. -/
inductive PlainHook where
  | abort
  | void
  | throwFirst
  | first
  deriving DecidableEq, Repr

namespace PlainHook

/-- The name of a hook. -/
def name : PlainHook → String
  | abort => "abort"
  | void => "void"
  | throwFirst => "throw"
  | first => "first"

/-- The hook of a name. -/
def ofName? (n : String) : Option PlainHook :=
  [abort, void, throwFirst, first].find? (·.name == n)

/-- The hook. -/
def run : PlainHook → Hook
  | abort, _, _ => return .aborted
  | void, _, _ => return .returnedVoid
  | throwFirst, s, c => do return .threw (← c.eval s (← c.arg 0))
  | first, s, c => do return .returned (← c.eval s (← c.arg 0))

end PlainHook

end PathSafety
