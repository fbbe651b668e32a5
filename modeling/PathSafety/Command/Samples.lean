import PathSafety.Command.Target

/-!
# Sample packages

Packages to try the command on. `samples:arithmetic` divides, with and without looking at the divisor;
`samples:memory` reads through a pointer and from an array; `samples:loops` goes round in circles.
-/

namespace PathSafety.Command.Samples

open IR

private def word : Ty := .int 32

private def wordPtr : Ty := .ptrTo word 0

private def arg (name : String) : Operand := .register name

private def const (n : Int) : Operand := .constant word (.int n)

/-- A function that returns a word, of words. -/
private def function (name : String) (params : List (String × Ty)) (blocks : List Block) : Function :=
  ⟨name, word, params, false, blocks⟩

/-- Divisions: `divide` takes any divisor, `divideChecked` only those other than zero. -/
def arithmetic : Module := {
  globals := []
  functions := [
    function "divide" [("a", word), ("b", word)] [
      ⟨"entry", [
        ⟨"q", .arith .udiv [] (arg "a") (arg "b")⟩,
        ⟨"", .ret (some (arg "q"))⟩]⟩],
    function "divideChecked" [("a", word), ("b", word)] [
      ⟨"entry", [
        ⟨"z", .icmp .eq (arg "b") (const 0)⟩,
        ⟨"", .condBr (arg "z") "zero" "other"⟩]⟩,
      ⟨"zero", [⟨"", .ret (some (const 0))⟩]⟩,
      ⟨"other", [
        ⟨"q", .arith .udiv [] (arg "a") (arg "b")⟩,
        ⟨"", .ret (some (arg "q"))⟩]⟩]] }

/-- Reads from memory: `read` through any pointer, `readOwn` from storage of its own. -/
def memory : Module := {
  globals := []
  functions := [
    function "read" [("p", wordPtr)] [
      ⟨"entry", [
        ⟨"v", .load (arg "p") none⟩,
        ⟨"", .ret (some (arg "v"))⟩]⟩],
    function "readOwn" [("v", word)] [
      ⟨"entry", [
        ⟨"p", .alloca word none⟩,
        ⟨"", .store (arg "v") (arg "p")⟩,
        ⟨"r", .load (arg "p") none⟩,
        ⟨"", .ret (some (arg "r"))⟩]⟩]] }

/-- Loops: `forever` never ends, `down` counts down from at most three. -/
def loops : Module := {
  globals := []
  functions := [
    function "forever" [] [
      ⟨"entry", [⟨"", .br "again"⟩]⟩,
      ⟨"again", [⟨"", .br "again"⟩]⟩],
    function "down" [("n", word)] [
      ⟨"entry", [
        ⟨"k", .arith .and [] (arg "n") (const 3)⟩,
        ⟨"", .br "test"⟩]⟩,
      ⟨"test", [
        ⟨"i", .phi word [(arg "k", "entry"), (arg "j", "next")]⟩,
        ⟨"z", .icmp .eq (arg "i") (const 0)⟩,
        ⟨"", .condBr (arg "z") "done" "next"⟩]⟩,
      ⟨"next", [
        ⟨"j", .arith .sub [] (arg "i") (const 1)⟩,
        ⟨"", .br "test"⟩]⟩,
      ⟨"done", [⟨"", .ret (some (arg "i"))⟩]⟩]] }

/-- What a module gives when it is named, with pointers of 64 bits. -/
private def product (m : Module) : Product :=
  match Project.ofModules? [m] ⟨[], 64⟩ with
  | some p => .project p
  | none => .other "nothing"

/-- The packages. -/
def catalog : Catalog :=
  [("samples",
    [("arithmetic", product arithmetic), ("memory", product memory), ("loops", product loops)])]

end PathSafety.Command.Samples
