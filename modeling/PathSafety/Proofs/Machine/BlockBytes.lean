import PathSafety.Proofs.Hooks.BuiltIn
import PathSafety.Proofs.Machine.Contents
import PathSafety.Proofs.Path.Layout
import PathSafety.Proofs.Text.Scan

/-!
# Bytes of blocks

A copy reads its source as one number and writes that number; a fill writes one number that is made of copies of a byte.
The lowest byte of a number is written first and read first, so for every length both act byte by byte, and since all of the
source is read before anything is written, source and destination may overlap in any way.

That the bytes of the source are read one by one is where this ends: a read can leave bytes out, and nothing is copied in
their place. What is said of copies is said of sources that are read as a whole.

Contents:

* `Intrinsic.ofName?_of_copies`, `Intrinsic.ofName?_of_fills` — the names of block operations;
* `Bytes.copied`, `Bytes.filled` — what they do to bytes;
* `Machine.executes_block` — block operations at known addresses.
-/

namespace PathSafety

open IR Text

/-! ## Names -/

namespace Intrinsic

theorem exists_of_beginsWith {beginnings : List String} {name : String} (h : beginsWith beginnings name = true) :
    ∃ b ∈ beginnings, ∃ rest, name.toList = b.toList ++ rest := by
  obtain ⟨b, hb, hstarts⟩ := List.any_eq_true.mp h
  obtain ⟨rest, hrest⟩ := startsWith_iff.mp hstarts
  exact ⟨b, hb, rest, hrest.symm⟩

/-- A text does not begin with two words that differ before one of them ends. -/
theorem not_startsWith_append {p q : List Char} (h : ¬ p <+: q) (h' : ¬ q <+: p) (rest : List Char) :
    startsWith p (q ++ rest) = false := by
  rw [Bool.eq_false_iff, Ne, startsWith_iff]
  intro hp
  rcases List.prefix_or_prefix_of_prefix hp (List.prefix_append q rest) with hpq | hqp
  · exact h hpq
  · exact h' hqp

/-- No name of a block operation is that of another intrinsic. -/
theorem ofName?_of_beginsWith {b name : String} {rest : List Char} (hname : name.toList = b.toList ++ rest)
    (hexact : ∀ n ∈ "__cxa_throw" :: aborting, ¬ b.toList <+: n.toList)
    (hmarkers : ∀ q ∈ markers, ¬ q.toList <+: b.toList ∧ ¬ b.toList <+: q.toList) :
    ofName? name =
      if beginsWith copies name then some .copy else if beginsWith ["llvm.memset."] name then some .fill else none := by
  have hne : ∀ n ∈ "__cxa_throw" :: aborting, name ≠ n := by
    rintro n hn rfl
    exact hexact name hn (hname ▸ List.prefix_append _ _)
  have haborting : aborting.contains name = false := by
    rw [Bool.eq_false_iff, Ne, List.contains_iff_mem]
    exact fun hmem => hne name (List.mem_cons_of_mem _ hmem) rfl
  have hmarked : beginsWith markers name = false := by
    rw [beginsWith, List.any_eq_false]
    intro q hq
    rw [Bool.not_eq_true, hname]
    exact not_startsWith_append (hmarkers q hq).1 (hmarkers q hq).2 rest
  unfold ofName?
  rw [haborting, hmarked, if_neg Bool.false_ne_true, if_neg (hne _ List.mem_cons_self), if_neg Bool.false_ne_true]

theorem ofName?_of_copies {name : String} (h : beginsWith copies name = true) : ofName? name = some .copy := by
  obtain ⟨b, hb, rest, hrest⟩ := exists_of_beginsWith h
  have hbegins : ∀ b ∈ copies, (∀ n ∈ "__cxa_throw" :: aborting, ¬ b.toList <+: n.toList) ∧
      ∀ q ∈ markers, ¬ q.toList <+: b.toList ∧ ¬ b.toList <+: q.toList := by decide
  rw [ofName?_of_beginsWith hrest (hbegins b hb).1 (hbegins b hb).2, if_pos h]

theorem ofName?_of_fills {name : String} (h : beginsWith ["llvm.memset."] name = true) : ofName? name = some .fill := by
  obtain ⟨b, hb, rest, hrest⟩ := exists_of_beginsWith h
  have hbegins : ∀ b ∈ ["llvm.memset."], (∀ n ∈ "__cxa_throw" :: aborting, ¬ b.toList <+: n.toList) ∧
      ∀ q ∈ markers ++ copies, ¬ q.toList <+: b.toList ∧ ¬ b.toList <+: q.toList := by decide
  obtain ⟨hexact, hother⟩ := hbegins b hb
  have hcopies : beginsWith copies name = false := by
    rw [beginsWith, List.any_eq_false]
    intro q hq
    obtain ⟨hqb, hbq⟩ := hother q (List.mem_append_right _ hq)
    rw [Bool.not_eq_true, hrest]
    exact not_startsWith_append hqb hbq rest
  rw [ofName?_of_beginsWith hrest hexact fun q hq => hother q (List.mem_append_left _ hq), hcopies,
    if_neg Bool.false_ne_true, if_pos h]

end Intrinsic

/-! ## What block operations do to bytes -/

namespace Bytes

/-- The `n` bytes from `b` on also from `a` on. -/
def copied (a b n : Nat) (bytes : Bytes) : Bytes := fun x =>
  if a ≤ x ∧ x < a + n then bytes (b + (x - a)) else bytes x

/-- One byte at the `n` addresses from `a` on. -/
def filled (a n : Nat) (byte : BitVec 8) (bytes : Bytes) : Bytes := fun x =>
  if a ≤ x ∧ x < a + n then byte else bytes x

end Bytes

namespace Machine

variable {s : Setting} {c : Call} {name : String} {o₀ o₁ o₂ : Operand} {dest length source v : Value} {a b n k : Nat}
  {m m₀ m₁ m₂ : Machine}

/-- That a call by a name is modeled by itself, and returns. -/
def Executes (s : Setting) (c : Call) (name : String) (m m' : Machine) : Prop :=
  ∃ i, Intrinsic.ofName? name = some i ∧ intrinsic s c name i m = .ok .returnedVoid m'

/-! ## Copies of one byte -/

theorem width_concat_replicate (hv : v.width = 8) (n : Nat) : (Value.concat (List.replicate n v)).width = 8 * n := by
  rw [Value.width_concat, List.map_replicate, List.sum_replicate_nat, hv, Nat.mul_comm]

/-- Every byte of some copies of a byte is that byte. -/
theorem byte_concat_replicate (byte : Byte) (ν : Valuation) (hk : k < n) :
    ((Value.concat (List.replicate n ⟨byte⟩)).term.denote ν).extractLsb' (8 * k) 8 = byte.denote ν := by
  have hnumber : (Word.concat ((List.replicate n (byte.denote ν)).map fun b => ⟨b⟩)).toNat =
      number (fun _ => byte.denote ν) 0 (List.replicate n (byte.denote ν)).length :=
    Memory.toNat_concat_bytes fun j b hj => (List.eq_of_mem_replicate (List.mem_of_getElem? hj)).symm
  have hconcat : (Value.concat (List.replicate n ⟨byte⟩)).wordUnder ν.reading =
      Word.concat ((List.replicate n (byte.denote ν)).map fun b => ⟨b⟩) := by
    rw [Value.wordUnder_concat, List.map_replicate, List.map_replicate, Term.denote_eq_meaning]
    rfl
  rw [List.length_replicate, ← hconcat] at hnumber
  rw [extract_byte, Term.denote_eq_meaning]
  show BitVec.ofNat 8 (((Value.concat (List.replicate n ⟨byte⟩)).wordUnder ν.reading).toNat / 2 ^ (8 * k)) = _
  rw [hnumber, byte_number hk]

/-! ## Block operations -/

/-- The destination and the length, where the length is a number. -/
theorem blockOperands_of_const? (h₀ : c.args[0]? = some o₀) (h₂ : c.args[2]? = some o₂)
    (hdest : c.eval s o₀ m₀ = .ok dest m₁) (hlength : c.eval s o₂ m₁ = .ok length m₂) (hn : length.const? = some n) :
    blockOperands s c name m₀ = .ok (dest, n) m₂ := by
  obtain ⟨w, u, rfl, rfl⟩ := exists_of_const? hn
  unfold blockOperands
  rw [bind_of_ok (arg_of_getElem? h₀), bind_of_ok hdest, bind_of_ok (arg_of_getElem? h₂), bind_of_ok hlength]
  show (do
    let n ← evalNat ⟨.const u⟩
    pure (dest, n) : Action (Value × Nat)) m₂ = _
  rw [bind_of_ok (evalNat_of_const? hn)]
  rfl

section Blocks

variable (h₀ : c.args[0]? = some o₀) (h₁ : c.args[1]? = some o₁) (h₂ : c.args[2]? = some o₂)
  (hdest : c.eval s o₀ m₀ = .ok dest m₁) (hlength : c.eval s o₂ m₁ = .ok length m₂) (hn : length.const? = some n)
include h₀ h₂ hdest hlength hn

/-- Nothing is done where there are no bytes. -/
theorem copyBlock_of_zero (hzero : n = 0) : copyBlock s c name m₀ = .ok () m₂ := by
  unfold copyBlock
  rw [bind_of_ok (blockOperands_of_const? h₀ h₂ hdest hlength hn)]
  dsimp only
  rw [if_neg (not_not.mpr hzero)]
  rfl

theorem fillBlock_of_zero (hzero : n = 0) : fillBlock s c name m₀ = .ok () m₂ := by
  unfold fillBlock
  rw [bind_of_ok (blockOperands_of_const? h₀ h₂ hdest hlength hn)]
  dsimp only
  rw [if_neg (not_not.mpr hzero)]
  rfl

include h₁

/-- **Copying** a block that is read as a whole. -/
theorem exists_copyBlock (hpos : n ≠ 0) (ha : dest.const? = some a) (hnull : s.nullChecking = true → a ≠ 0)
    (hsource : c.eval s o₁ m₂ = .ok source m) (hb : source.const? = some b)
    (hnull' : s.nullChecking = true → b ≠ 0) (hwhole : m.memory.Whole b n) :
    ∃ named memory nextSymbol, copyBlock s c name m₀ = .ok () { m with memory, nextSymbol } ∧
      m.memory.Named m.nextSymbol named nextSymbol ∧
      ∀ ν β, memory.holds ν β = Bytes.copied a b n (named.holds ν β) := by
  cases hload : m.memory.load m.nextSymbol b n with
  | mk v rest =>
    obtain ⟨named, nextSymbol⟩ := rest
    have hwidth : v.width = 8 * n := by
      have h := hwhole m.nextSymbol
      rwa [hload] at h
    -- What is written has the width read, so the block written is as long as the block read.
    have hcount : byteCount v.width = n := by rw [hwidth, byteCount_whole]
    have hread : read s source (8 * n) m = .ok v { m with memory := named, nextSymbol } := by
      unfold read
      rw [bind_of_ok (checkNull_of_const? hb hnull'), byteCount_whole, bind_of_ok (readBytesAt_of_load hb hload), if_pos rfl]
      rfl
    have hwrite := @write_of_const? s { m with memory := named, nextSymbol } dest a ha hnull v
    refine ⟨named, named.store a (v.resize (8 * byteCount v.width)) (byteCount v.width), nextSymbol, ?_,
      Memory.named_of_load hload, fun ν β => ?_⟩
    · unfold copyBlock
      rw [bind_of_ok (blockOperands_of_const? h₀ h₂ hdest hlength hn)]
      dsimp only
      rw [if_pos hpos, bind_of_ok (arg_of_getElem? h₁), bind_of_ok hsource, bind_of_ok hread]
      exact hwrite
    · funext x
      rw [@holds_of_write { m with memory := named, nextSymbol }, hcount]
      unfold Bytes.copied
      split
      · exact Memory.byte_of_load hload hwidth (by omega) ν β
      · rfl

/-- **Filling** a block. -/
theorem exists_fillBlock (hpos : n ≠ 0) (ha : dest.const? = some a) (hnull : s.nullChecking = true → a ≠ 0)
    (hv : c.eval s o₁ m₂ = .ok v m) :
    ∃ memory, fillBlock s c name m₀ = .ok () { m with memory } ∧ ∀ ν β,
      memory.holds ν β = Bytes.filled a n ((v.term.denote ν).setWidth 8) (m.memory.holds ν β) := by
  have hwidth := @width_concat_replicate (v.resize 8) rfl n
  generalize hvalue : Value.concat (List.replicate n (v.resize 8)) = value at hwidth
  have hcount : byteCount value.width = n := by rw [hwidth, byteCount_whole]
  refine ⟨m.memory.store a (value.resize (8 * byteCount value.width)) (byteCount value.width), ?_, fun ν β => ?_⟩
  · unfold fillBlock
    rw [bind_of_ok (blockOperands_of_const? h₀ h₂ hdest hlength hn)]
    dsimp only
    rw [if_pos hpos, bind_of_ok (arg_of_getElem? h₁), bind_of_ok hv, hvalue]
    exact write_of_const? ha hnull value
  · funext x
    rw [holds_of_write, hcount]
    unfold Bytes.filled
    split
    · have hbyte := @byte_concat_replicate n (x - a) (v.term.mkResize 8) ν (by omega)
      rw [Term.denote_eq_meaning ν (v.term.mkResize 8), Term.meaning_mkResize, ← Term.denote_eq_meaning] at hbyte
      rw [← hvalue]
      exact hbyte
    · rfl

end Blocks

/-- **Block operations act byte by byte.** Let the length of a block operation be a number. If it is zero, nothing is done
once the destination and the length have been evaluated, whatever the addresses are. Else let the destination be a number,
not zero where null pointers are looked for. A fill leaves the low eight bits of its value at every address of the
destination. A copy, if its source is such a number too and is read as a whole, leaves there what was at the source, and the
two may overlap. All other bytes stay, and so does all of the machine that is not memory, but for names of unknown bytes. -/
theorem executes_block (h₀ : c.args[0]? = some o₀) (h₁ : c.args[1]? = some o₁) (h₂ : c.args[2]? = some o₂)
    (hdest : c.eval s o₀ m₀ = .ok dest m₁) (hlength : c.eval s o₂ m₁ = .ok length m₂) (hn : length.const? = some n) :
    (n = 0 → Intrinsic.beginsWith ("llvm.memset." :: Intrinsic.copies) name = true → Executes s c name m₀ m₂) ∧
      (n ≠ 0 → ∀ a v m, dest.const? = some a → (s.nullChecking = true → a ≠ 0) → c.eval s o₁ m₂ = .ok v m →
        (Intrinsic.beginsWith Intrinsic.copies name = true → ∀ b, v.const? = some b → (s.nullChecking = true → b ≠ 0) →
          m.memory.Whole b n →
            ∃ named memory nextSymbol, Executes s c name m₀ { m with memory, nextSymbol } ∧
              m.memory.Named m.nextSymbol named nextSymbol ∧
              ∀ ν β, memory.holds ν β = Bytes.copied a b n (named.holds ν β)) ∧
        (Intrinsic.beginsWith ["llvm.memset."] name = true →
          ∃ memory, Executes s c name m₀ { m with memory } ∧ ∀ ν β,
            memory.holds ν β = Bytes.filled a n ((v.term.denote ν).setWidth 8) (m.memory.holds ν β))) := by
  have copy : ∀ {m'}, Intrinsic.beginsWith Intrinsic.copies name = true → copyBlock s c name m₀ = .ok () m' →
      Executes s c name m₀ m' := by
    intro m' hname h
    refine ⟨.copy, Intrinsic.ofName?_of_copies hname, ?_⟩
    show (do
      copyBlock s c name
      return .returnedVoid : Action Outcome) m₀ = _
    rw [bind_of_ok h]
    rfl
  have fill : ∀ {m'}, Intrinsic.beginsWith ["llvm.memset."] name = true → fillBlock s c name m₀ = .ok () m' →
      Executes s c name m₀ m' := by
    intro m' hname h
    refine ⟨.fill, Intrinsic.ofName?_of_fills hname, ?_⟩
    show (do
      fillBlock s c name
      return .returnedVoid : Action Outcome) m₀ = _
    rw [bind_of_ok h]
    rfl
  refine ⟨fun hzero hname => ?_, fun hpos a v m ha hnull hv => ⟨fun hname b hb hnull' hwhole => ?_, fun hname => ?_⟩⟩
  -- A block of no bytes: neither handler reads its source.
  · rw [show Intrinsic.beginsWith ("llvm.memset." :: Intrinsic.copies) name =
        (Intrinsic.beginsWith ["llvm.memset."] name || Intrinsic.beginsWith Intrinsic.copies name) by
      simp [Intrinsic.beginsWith], Bool.or_eq_true] at hname
    rcases hname with hname | hname
    · exact fill hname (fillBlock_of_zero h₀ h₂ hdest hlength hn hzero)
    · exact copy hname (copyBlock_of_zero h₀ h₂ hdest hlength hn hzero)
  · obtain ⟨named, memory, nextSymbol, hrun, hbytes⟩ :=
      exists_copyBlock h₀ h₁ h₂ hdest hlength hn hpos ha hnull hv hb hnull' hwhole
    exact ⟨named, memory, nextSymbol, copy hname hrun, hbytes⟩
  · obtain ⟨memory, hrun, hbytes⟩ := exists_fillBlock h₀ h₁ h₂ hdest hlength hn hpos ha hnull hv
    exact ⟨memory, fill hname hrun, hbytes⟩

end Machine

/-! ### A block moved by two bytes -/

namespace Overlapping

/-- A function that has two addresses. -/
def described : Module := ⟨[], [⟨"main", .void, [], false, [⟨"entry", [⟨"", .ret none⟩]⟩]⟩]⟩

def setting : Setting := ⟨(Project.ofModules? [described] ⟨[], 64⟩).get rfl, true⟩

/-- The arguments of a block operation of some length on the addresses `to` and `from`. -/
def call (length : Nat) : Call where
  site := {
    routine := setting.project.routines.head (by decide)
    registers := ((∅ : Registers).insert "to" (.ofNat 64 0x1003)).insert "from" (.ofNat 64 0x1001)
    block := "entry"
    index := 0
    previous := none
    instr := ⟨"", .ret none⟩ }
  callee := .global "main"
  args := [.register "to", .register "from", .constant (.int 64) (.int length)]

/-- Three bytes are known, and the fourth is not. -/
def machine : Machine := { Machine.initial with memory := (∅ : Memory).store 0x1001 (.ofNat 24 0x30201) 3 }

theorem evals_to (n : Nat) : (call n).eval setting (.register "to") machine = .ok (.ofNat 64 0x1003) machine := by
  have hget : (call n).site.registers.get? "to" = some (.ofNat 64 0x1003) := rfl
  unfold Call.eval Site.eval Machine.eval Machine.evalWith
  rw [hget]
  rfl

theorem evals_from (n : Nat) : (call n).eval setting (.register "from") machine = .ok (.ofNat 64 0x1001) machine := by
  have hget : (call n).site.registers.get? "from" = some (.ofNat 64 0x1001) := rfl
  unfold Call.eval Site.eval Machine.eval Machine.evalWith
  rw [hget]
  rfl

theorem whole_machine : machine.memory.Whole 0x1001 4 := fun _ => rfl

end Overlapping

namespace Machine

open Overlapping in
/-- Four bytes are moved by two, the unknown one among them; the same addresses are filled; and nothing is moved at all. -/
theorem executes_block_overlapping :
    (∃ named memory nextSymbol,
        Executes setting (call 4) "llvm.memmove.p0.p0.i64" machine { machine with memory, nextSymbol } ∧
        machine.memory.Named 0 named nextSymbol ∧
        ∀ ν β, memory.holds ν β = Bytes.copied 0x1003 0x1001 4 (named.holds ν β)) ∧
      (∃ memory, Executes setting (call 4) "llvm.memset.p0.i64" machine { machine with memory } ∧ ∀ ν β,
        memory.holds ν β = Bytes.filled 0x1003 4 1 (machine.memory.holds ν β)) ∧
      Executes setting (call 0) "llvm.memcpy.p0.p0.i64" machine machine := by
  have hlength : ∀ n, (call n).eval setting (.constant (.int 64) (.int n)) machine = .ok (.ofInt 64 n) machine :=
    fun _ => rfl
  obtain ⟨_, hblock⟩ := @executes_block setting (call 4) "llvm.memmove.p0.p0.i64" _ _ _ _ _ 4 _ _ _ rfl rfl rfl
    (evals_to 4) (hlength 4) rfl
  obtain ⟨hcopy, _⟩ := hblock (by decide) 0x1003 _ _ rfl (by decide) (evals_from 4)
  obtain ⟨_, hblock⟩ := @executes_block setting (call 4) "llvm.memset.p0.i64" _ _ _ _ _ 4 _ _ _ rfl rfl rfl
    (evals_to 4) (hlength 4) rfl
  obtain ⟨_, hfill⟩ := hblock (by decide) 0x1003 _ _ rfl (by decide) (evals_from 4)
  obtain ⟨hzero, _⟩ := @executes_block setting (call 0) "llvm.memcpy.p0.p0.i64" _ _ _ _ _ 0 _ _ _ rfl rfl rfl
    (evals_to 0) (hlength 0) rfl
  obtain ⟨memory, hrun, hbytes⟩ := hfill (by decide)
  have hlow : (BitVec.ofNat 64 0x1001).setWidth 8 = 1 := by decide
  exact ⟨hcopy (by decide) 0x1001 rfl (by decide) whole_machine,
    ⟨memory, hrun, fun ν β => hlow ▸ hbytes ν β⟩, hzero rfl (by decide)⟩

end Machine

end PathSafety
