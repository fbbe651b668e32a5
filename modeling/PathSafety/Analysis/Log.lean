/-!
# Log records

What a program says while it works, with how urgent it is.
-/

namespace PathSafety

/-- How urgent a record is. -/
inductive Level where
  | debug | info | warning | error
  deriving DecidableEq, Repr

namespace Level

/-- The name of a level. -/
def name : Level → String
  | debug => "DEBUG"
  | info => "INFO"
  | warning => "WARNING"
  | error => "ERROR"

/-- The place of a level among the levels. -/
def rank : Level → Nat
  | debug => 0
  | info => 1
  | warning => 2
  | error => 3

end Level

/-- Something that is said. -/
structure Record where
  level : Level
  text : String
  deriving DecidableEq, Repr

namespace Record

/-- How a record is written. -/
def line (r : Record) : String := s!"[{r.level.name}] {r.text}"

/-- The records of a level and above. -/
def from_ (level : Level) (rs : List Record) : List Record :=
  rs.filter fun r => level.rank ≤ r.level.rank

end Record

end PathSafety
