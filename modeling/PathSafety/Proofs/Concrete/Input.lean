import PathSafety.Path.Start
import PathSafety.Proofs.Concrete.Run
import PathSafety.Proofs.Term.Meaning
import PathSafety.Text.Scan

/-!
# Inputs

An input chooses the arguments of the explored function and the initial contents of memory. The symbols of
a path stand for parts of it, which their names tell: the value of a parameter, or the bytes from some
address on.

Contents:

* `Origin`, `Origin.ofName?` — what a symbol stands for, and how its name tells;
* `Input`, `Input.reading` — inputs, and what they make of symbols;
* `Input.Satisfies`, `Input.start?`, `Path.placement` — an input on a path, and the run that belongs to it.
-/

namespace PathSafety

open IR Text

/-- What a symbol stands for. -/
inductive Origin where
  /-- A parameter of the explored function, at its width. -/
  | argument (name : String) (width : Nat)
  /-- A number of bytes that were in memory from an address on. -/
  | memory (address bytes : Nat)

namespace Origin

/-- The width of the symbol. -/
def width : Origin → Nat
  | argument _ w => w
  | memory _ n => 8 * n

/-- The name of the symbol. -/
def name : Origin → String
  | argument n _ => "arg_" ++ n
  | memory a _ => "mem_" ++ String.ofList (Nat.toDigits 16 a)

/-- The number that hexadecimal digits write. -/
def ofHex (digits : List Char) : Nat := digits.foldl (fun n c => 16 * n + (hexValue? c).getD 0) 0

/-- What a symbol of some name and width stands for. -/
def ofName? (name : String) (width : Nat) : Option Origin :=
  match dropPrefix? "arg_".toList name.toList with
  | some n => some (argument (String.ofList n) width)
  | none => (dropPrefix? "mem_".toList name.toList).map fun digits => memory (ofHex digits) (width / 8)

theorem dropPrefix?_append (b s : List Char) : dropPrefix? b (b ++ s) = some s := by
  induction b with
  | nil => cases s <;> rfl
  | cons c b ih => simp [dropPrefix?, ih]

theorem hexValue?_digitChar : ∀ d < 16, hexValue? (Nat.digitChar d) = some d := by decide

theorem ofHex_append_digit (digits : List Char) {d : Nat} (hd : d < 16) :
    ofHex (digits ++ [Nat.digitChar d]) = 16 * ofHex digits + d := by
  unfold ofHex
  rw [List.foldl_append, List.foldl_cons, List.foldl_nil, hexValue?_digitChar d hd]
  rfl

/-- Reading the hexadecimal digits of a number gives the number. -/
theorem ofHex_toDigits (n : Nat) : ofHex (Nat.toDigits 16 n) = n := by
  induction n using Nat.strongRecOn with
  | ind n ih =>
    by_cases hn : n < 16
    · rw [Nat.toDigits_of_lt_base hn]
      exact (ofHex_append_digit [] hn).trans (Nat.zero_add n)
    · rw [Nat.toDigits_of_base_le (by omega) (by omega), ofHex_append_digit _ (Nat.mod_lt _ (by omega)),
        ih (n / 16) (by omega)]
      omega

/-- A name tells what the symbol stands for. -/
theorem ofName?_name (o : Origin) : ofName? o.name o.width = some o := by
  cases o with
  | argument n w =>
    simp only [ofName?, name, String.toList_append, dropPrefix?_append]
    simp [width]
  | memory a n =>
    have hno : ∀ s, dropPrefix? "arg_".toList ("mem_".toList ++ s) = none := fun _ => rfl
    simp only [ofName?, name, String.toList_append, hno, dropPrefix?_append]
    simp [width, ofHex_toDigits]

end Origin

/-- Arguments for the explored function, each reduced to its width, and what is in memory at first. -/
structure Input where
  arg : String → Nat
  byte : Bytes

namespace Input

/-- The number that an input has for what a symbol stands for. -/
def valueOf (i : Input) : Origin → Nat
  | .argument n _ => i.arg n
  | .memory a n => number i.byte a n

/-- What an input makes of symbols. -/
def reading (i : Input) : Reading := fun s w =>
  BitVec.ofNat w (((Origin.ofName? s.name w).map i.valueOf).getD 0)

theorem reading_of_origin (i : Input) (id : Nat) (o : Origin) :
    i.reading ⟨id, o.name⟩ o.width = BitVec.ofNat o.width (i.valueOf o) := by
  unfold reading
  rw [Origin.ofName?_name]
  rfl

/-- Whether an input satisfies the condition of a path. -/
def Satisfies (i : Input) (path : Path) : Prop :=
  ∀ c ∈ path.machine.condition.conds, c.meaning i.reading = 1#1

instance (i : Input) (path : Path) : Decidable (i.Satisfies path) :=
  inferInstanceAs (Decidable (∀ c ∈ path.machine.condition.conds, c.meaning i.reading = 1#1))

/-- The arguments of a call with some parameters. -/
def args (i : Input) (l : Layout) : List (String × Ty) → Option (List Word)
  | [] => some []
  | (n, t) :: params => do return .ofNat (← l.bits? t) (i.arg n) :: (← args i l params)

/-- The beginning of the run of a routine on an input, with allocations at some addresses. -/
def start? (i : Input) (l : Layout) (r : Routine) (stack : List Nat) : Option Concrete.Config := do
  let current ← Concrete.Activation.start? r (← i.args l r.function.params)
  return { current, memory := i.byte, stack }

end Input

/-- Where a path put the global values that it met. -/
def Path.placement (path : Path) : Concrete.Placement :=
  fun n => (path.machine.addresses.get? n).bind Value.const?

/-- Whether what is in memory at first are the initial values of the global variables that are placed. -/
def Input.Loads (i : Input) (p : Project) (place : Concrete.Placement) : Prop :=
  ∀ module n g a init v, p.globalIn? module n = some (.data g) → place n = some a → g.init = some init →
    Concrete.operand p place (fun _ => none) init = some v →
    ∀ k < Machine.byteCount v.width, i.byte (a + k) = v.byte k

/-- The word that a value stands for. -/
def Value.word (i : Input) (v : Value) : Word := ⟨v.term.meaning i.reading⟩

/-- How a run on an input ends that follows a path with an outcome. -/
def Outcome.halt (i : Input) : Outcome → Concrete.Halt
  | .returned v => .returned (v.word i)
  | .returnedVoid => .returnedVoid
  | .threw v => .threw (v.word i)
  | .aborted => .aborted

end PathSafety
