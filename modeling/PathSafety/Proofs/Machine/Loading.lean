import PathSafety.Proofs.Machine.Effect
import PathSafety.Proofs.Machine.Inputs

/-!
# Inputs with the initial values in memory

As long as addresses have not run out, the variables that a machine has met stand one beside another. So their
initial values can be in memory at the beginning, all of them, and whatever values the symbols have.

Contents:

* `Concrete.width_operand` — the widths of operands in a run;
* `exists_loads` — inputs of valuations that load the variables that a machine has met.
-/

namespace PathSafety

open IR

/-! ## Widths -/

namespace Concrete

variable {p : Project} {place : Placement} {scope : Scope}

theorem width_address {n : String} {v : Word} (h : address p place n = some v) :
    v.width = p.layout.pointerBits := by
  obtain ⟨a, _, rfl⟩ := Option.map_eq_some_iff.mp h
  rfl

/-- Address computations have the width of pointers, other expressions the one that they are asked for. -/
theorem width_expression {fuel bits : Nat} {text : List Char} {v : Word}
    (h : expression p place (fuel + 1) text bits = some v) :
    v.width = match ExpressionShape.of? p text with
      | some (.element ..) => p.layout.pointerBits
      | _ => bits := by
  unfold expression at h
  obtain ⟨shape, hshape, h⟩ := Option.bind_eq_some_iff.mp h
  rw [hshape]
  cases shape with
  | element module g name indices =>
    dsimp only at h
    split at h
    · obtain ⟨base, hbase, h⟩ := Option.bind_eq_some_iff.mp h
      obtain ⟨o, _, h⟩ := Option.bind_eq_some_iff.mp h
      obtain rfl := Option.some.inj h
      show base.width = _
      exact width_address hbase
    · cases h
  | nested inner width =>
    obtain ⟨_, _, h⟩ := Option.bind_eq_some_iff.mp h
    obtain ⟨_, _, h⟩ := Option.bind_eq_some_iff.mp h
    exact Option.some.inj h ▸ rfl
  | reference module name =>
    obtain ⟨_, _, h⟩ := Option.bind_eq_some_iff.mp h
    exact Option.some.inj h ▸ rfl
  | integer n => exact Option.some.inj h ▸ rfl
  | null => exact Option.some.inj h ▸ rfl

theorem width_concat (vs : List Word) : (Word.concat vs).width = (vs.map (·.width)).sum := by
  induction vs with
  | nil => rfl
  | cons v vs ih => rw [Word.width_concat_cons, ih, List.map_cons, List.sum_cons, Nat.add_comm]

mutual

/-- An operand that names no register has in a run the width that it has by its type. -/
theorem width_operand (o : Operand) {v : Word} {w : Nat} (h : operand p place (fun _ => none) o = some v)
    (hw : Fits.operandWidth? p scope o = some w) : v.width = w := by
  cases o with
  | register n => cases h
  | global n => exact (width_address h).trans (Option.some.inj hw)
  | assembly => cases h
  | constant t c =>
    unfold operand at h
    unfold Fits.operandWidth? at hw
    obtain ⟨bits, hbits, h⟩ := Option.bind_eq_some_iff.mp h
    rw [hbits, Option.bind_some] at hw
    exact width_constant t bits c h hw

theorem width_constant (t : Ty) (bits : Nat) (c : ConstantValue) {v : Word} {w : Nat}
    (h : constant p place (fun _ => none) t bits c = some v)
    (hw : Fits.constantWidth? p scope t bits c = some w) : v.width = w := by
  cases c with
  | null => exact Option.some.inj h ▸ Option.some.inj hw
  | undef => cases h
  | real => cases h
  | int n =>
    unfold constant at h
    unfold Fits.constantWidth? at hw
    split at h
    · exact Option.some.inj h ▸ Option.some.inj hw
    · cases h
  | bytes bs =>
    unfold constant at h
    unfold Fits.constantWidth? at hw
    cases t with
    | array k e | vector k e =>
      obtain ⟨n, hn, h⟩ := Option.bind_eq_some_iff.mp h
      obtain rfl := Option.some.inj h
      obtain ⟨n', hn', rfl⟩ := Option.map_eq_some_iff.mp hw
      obtain rfl := Option.some.inj (hn.symm.trans hn')
      rw [width_concat, List.map_map]
      rfl
    | _ => cases h
  | elements es =>
    -- The loader and the width check both stop at the number of fields of the type.
    unfold constant at h
    unfold Fits.constantWidth? at hw
    obtain ⟨vs, hvs, h⟩ := Option.bind_eq_some_iff.mp h
    obtain rfl := Option.some.inj h
    exact width_operands (elementLimit p t es) es hvs hw
  | expression text =>
    unfold constant at h
    unfold Fits.constantWidth? at hw
    rw [width_expression h]
    dsimp only at hw
    split at hw
    · cases hw
    · cases hshape : ExpressionShape.of? p (Text.trim text.toList) with
      | none =>
        rw [hshape] at hw
        exact Option.some.inj hw
      | some shape =>
        rw [hshape] at hw
        cases shape <;> exact Option.some.inj hw

theorem width_operands (k : Nat) (os : List Operand) {vs : List Word} {w : Nat}
    (h : operands p place (fun _ => none) k os = some vs)
    (hw : Fits.operandsWidth? p scope k os = some w) : (Word.concat vs).width = w := by
  cases os with
  | nil => cases k <;> exact Option.some.inj h ▸ Option.some.inj hw
  | cons o os =>
    cases k with
    | zero => exact Option.some.inj h ▸ Option.some.inj hw
    | succ k =>
      unfold operands at h
      unfold Fits.operandsWidth? at hw
      obtain ⟨v, hv, h⟩ := Option.bind_eq_some_iff.mp h
      obtain ⟨us, hus, h⟩ := Option.bind_eq_some_iff.mp h
      obtain rfl := Option.some.inj h
      obtain ⟨u, hu, hw⟩ := Option.bind_eq_some_iff.mp hw
      obtain ⟨rest, hrest, rfl⟩ := Option.map_eq_some_iff.mp hw
      rw [Word.width_concat_cons, width_operand o hv hu, width_operands k os hus hrest, Nat.add_comm]

end

end Concrete

/-! ## Initial values -/

namespace Machine

variable {s : Setting} {T : Table} {m : Machine}

/-- Where a machine has put the global values that it met. -/
def placement (m : Machine) : Concrete.Placement := fun n => (m.addresses.get? n).bind Value.const?

/-- That a byte of an initial value belongs at an address. -/
def Belongs (p : Project) (place : Concrete.Placement) (x : Nat) (b : BitVec 8) : Prop :=
  ∃ module n g a init v k, p.globalIn? module n = some (.data g) ∧ place n = some a ∧ g.init = some init ∧
    Concrete.operand p place (fun _ => none) init = some v ∧ k < byteCount v.width ∧ x = a + k ∧ b = v.byte k

/-- A global value that was met stands where the machine put it, as long as addresses have not run out. -/
theorem eq_of_placement {at_ : String → Nat} (h : Laid s m at_) (hnext : m.nextAddress ≤ 2 ^ s.pointerBits)
    {n : String} {a : Nat} (hn : placement m n = some a) : m.addresses.get? n ≠ none ∧ a = at_ n := by
  obtain ⟨v, hv, ha⟩ := Option.bind_eq_some_iff.mp hn
  have hne : m.addresses.get? n ≠ none := by
    rw [hv]
    exact Option.some_ne_none v
  refine ⟨hne, ?_⟩
  obtain rfl := h.eq n v hv
  have hlt := (h.le n hne).2
  obtain rfl := Option.some.inj ha
  show (BitVec.ofNat s.pointerBits (at_ n)).toNat = at_ n
  rw [BitVec.toNat_ofNat, Nat.mod_eq_of_lt (by omega)]

/-- Initial values fit into their variables. -/
theorem byteCount_le_extent (hfit : Fit s) {place : Concrete.Placement} {module : Nat} {n : String} {g : Global}
    {init : Operand} {v : Word} (hg : s.project.globalIn? module n = some (.data g)) (hinit : g.init = some init)
    (hv : Concrete.operand s.project place (fun _ => none) init = some v) :
    s.project.globalVariable? n = some g ∧ byteCount v.width ≤ extent s.project n := by
  have hvariable := Project.globalVariable?_of_data hfit.linked hg
  obtain ⟨w, scope, hw, hbits⟩ := exists_width_of_global hfit.globals hg hinit
  refine ⟨hvariable, ?_⟩
  unfold extent
  rw [hvariable, Concrete.width_operand init hv hw]
  dsimp only
  rw [hbits]
  exact Nat.le_refl _

/-- No two bytes belong at one address. -/
theorem eq_of_belongs (hfit : Fit s) (hm : Sound s T m) (hnext : m.nextAddress ≤ 2 ^ s.pointerBits) {x : Nat}
    {b b' : BitVec 8} (h : Belongs s.project (placement m) x b) (h' : Belongs s.project (placement m) x b') :
    b = b' := by
  obtain ⟨at_, hlaid⟩ := hm.laid
  obtain ⟨module, n, g, a, init, v, k, hg, ha, hinit, hv, hk, rfl, rfl⟩ := h
  obtain ⟨module', n', g', a', init', v', k', hg', ha', hinit', hv', hk', hx, rfl⟩ := h'
  obtain ⟨hmet, rfl⟩ := eq_of_placement hlaid hnext ha
  obtain ⟨hmet', rfl⟩ := eq_of_placement hlaid hnext ha'
  obtain ⟨hvariable, hle⟩ := byteCount_le_extent hfit hg hinit hv
  obtain ⟨hvariable', hle'⟩ := byteCount_le_extent hfit hg' hinit' hv'
  -- Two variables lie apart, so a byte both claim shows them to be one.
  have hn : n = n' := by
    refine Decidable.byContradiction fun hne => ?_
    have := hlaid.apart n n' hmet hmet' hne
    omega
  subst hn
  obtain rfl := Option.some.inj (hvariable.symm.trans hvariable')
  obtain rfl := Option.some.inj (hinit.symm.trans hinit')
  obtain rfl := Option.some.inj (hv.symm.trans hv')
  obtain rfl : k = k' := by omega
  rfl

/-- **Inputs that load.** Whatever values the symbols have, there are inputs with the initial values of the
variables that were met in memory. -/
theorem exists_loads (hfit : Fit s) (hm : Sound s T m) (hfiled : Filed s (placement m) T m)
    (hnext : m.nextAddress ≤ 2 ^ s.pointerBits) :
    ∃ byte : Bytes, ∀ ν, (Input.ofValuation T ν byte).Loads s.project (placement m) := by
  have hbyte : ∀ x, ∃ b, ∀ b', Belongs s.project (placement m) x b' → b = b' := by
    intro x
    by_cases h : ∃ b, Belongs s.project (placement m) x b
    · obtain ⟨b, hb⟩ := h
      exact ⟨b, fun b' hb' => eq_of_belongs hfit hm hnext hb hb'⟩
    · exact ⟨0, fun b' hb' => absurd ⟨b', hb'⟩ h⟩
  refine ⟨fun x => (hbyte x).choose, fun ν module n g a init v hg ha hinit hv k hk => ?_⟩
  obtain ⟨hvariable, hle⟩ := byteCount_le_extent hfit hg hinit hv
  rw [byte_ofValuation_of_free]
  · exact (hbyte (a + k)).choose_spec _ ⟨module, n, g, a, init, v, k, hg, ha, hinit, hv, hk, rfl, rfl⟩
  · intro b j hmem hin
    exact hfiled.separate b j hmem n a g ha hvariable (by rw [hinit]; rfl) k (by omega) hin

end Machine

end PathSafety
