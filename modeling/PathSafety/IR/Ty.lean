/-!
# Types of the intermediate representation

`Ty` and how a type is written. Identified structs are kept by name; a `StructTable` says what they hold.
-/

namespace PathSafety.IR

/-- A type. `ptr` does not say what it points to, `ptrTo` does; both carry their address space. A pointer
to a pointer that does not say it is written like one that does not say it either. -/
inductive Ty where
  | int (bits : Nat)
  | void
  | half
  | float
  | double
  | label
  | metadata
  | ptr (space : Nat)
  | ptrTo (pointee : Ty) (space : Nat)
  | array (count : Nat) (element : Ty)
  | vector (count : Nat) (element : Ty)
  | struct (elements : List Ty) (packed : Bool)
  | named (name : String)
  | fn (ret : Ty) (params : List Ty) (vararg : Bool)
  deriving Inhabited

/-- What the identified structs hold; an opaque struct holds nothing that is known. -/
abbrev StructTable := List (String × Option (List Ty))

/-- A name between quotes, with quotes and backslashes as hexadecimal escapes. -/
def quoteName (name : String) : String :=
  let escape (c : Char) : List Char :=
    if c == '\\' then ['\\', '5', 'c'] else if c == '"' then ['\\', '2', '2'] else [c]
  "\"" ++ String.ofList (name.toList.flatMap escape) ++ "\""

/-- The mark of an address space other than the first. -/
def spaceSuffix (space : Nat) : String :=
  if space = 0 then "" else s!" addrspace({space})"

namespace Ty

mutual

/-- How a type is written. -/
def text : Ty → String
  | int n => s!"i{n}"
  | void => "void"
  | half => "half"
  | float => "float"
  | double => "double"
  | label => "label"
  | metadata => "metadata"
  | ptr space => "ptr" ++ spaceSuffix space
  | ptrTo (ptr _) space => "ptr" ++ spaceSuffix space
  | ptrTo t space => text t ++ spaceSuffix space ++ "*"
  | array n t => s!"[{n} x " ++ text t ++ "]"
  | vector n t => s!"<{n} x " ++ text t ++ ">"
  | struct ts packed =>
    let body := "\x7b" ++ ", ".intercalate (texts ts) ++ "\x7d"
    if packed then "<" ++ body ++ ">" else body
  | named n => "%" ++ quoteName n
  | fn ret params vararg =>
    let dots := if vararg then ["..."] else []
    text ret ++ " (" ++ ", ".intercalate (texts params ++ dots) ++ ")"

/-- How the types of a list are written. -/
def texts : List Ty → List String
  | [] => []
  | t :: ts => text t :: texts ts

end

/-- Whether values of the type are pointers. -/
def isPointer : Ty → Bool
  | ptr _ | ptrTo _ _ => true
  | _ => false

/-- Whether a pointer does not say what it points to. -/
def isOpaque : Ty → Bool
  | ptr _ | ptrTo (ptr _) _ => true
  | _ => false

/-- What a typed pointer points to. -/
def pointee? : Ty → Option Ty
  | ptrTo t _ => some t
  | _ => none

/-- The elements of a struct; none for other types and for opaque structs. -/
def fields? (structs : StructTable) : Ty → Option (List Ty)
  | struct ts _ => some ts
  | named n => (structs.lookup n).join
  | _ => none

/-- Whether the type is a struct, opaque or not. -/
def isStruct : Ty → Bool
  | struct _ _ | named _ => true
  | _ => false

end Ty

end PathSafety.IR
