import PathSafety.Fault
import PathSafety.Name.Descriptor
import PathSafety.Name.Mangled.Expressions
import PathSafety.Name.Mangled.Printer

/-!
# Resolving symbols

Symbols of compiled functions are mangled: they encode the scopes and types of the printed name. A symbol
that is not mangled is its own printed name.

Contents:

* `demangleBytes?` — the printed name of a mangled one;
* `demangle` — the printed name of a symbol;
* `resolve` — the descriptor of a symbol.
-/

namespace PathSafety.Name

open Text

/-- How mangled names begin. -/
def mangledOpening : List Char := ['_', 'Z']

/-- The greatest length of a mangled name in bytes. -/
def mangledBound : Nat := 1024

/-- The bytes of a text, each as a character. -/
def bytesOf (s : String) : List Char := s.toUTF8.toList.map fun b => Char.ofNat b.toNat

/-- The text of bytes that are characters, if they encode one. -/
def ofBytes? (bytes : List Char) : Option String :=
  String.fromUTF8? ⟨(bytes.map fun c => c.toNat.toUInt8).toArray⟩

/-- The printed name of a mangled one. A character of code zero ends the name. -/
def demangleBytes? (bytes : List Char) : Option (List Char) := do
  let bytes := bytes.takeWhile (· != '\x00')
  if bytes.length > mangledBound then none
  (← Mangled.Component.ofMangled? bytes).text?

/-- The printed name of a symbol. -/
def demangle (symbol : String) : Except Fault String :=
  if symbol.isEmpty then .error .emptyName
  else if startsWith mangledOpening symbol.toList then
    match (demangleBytes? (bytesOf symbol)).bind ofBytes? with
    | some name => .ok name
    | none => .error (.notDemangled symbol)
  else .ok symbol

/-- The descriptor of a symbol. -/
def resolve (symbol : String) : Except Fault Descriptor := do
  let name ← demangle symbol
  match Descriptor.ofText? name.toList with
  | some d => return d
  | none => throw (.nothingToParse symbol)

end PathSafety.Name
