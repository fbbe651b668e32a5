import PathSafety.Proofs.Analysis.Offsets
import PathSafety.Proofs.IR.Subobjects

/-!
# Addresses of subobjects

Indices that are in range for an input lead to the bytes that the layout of the type has for what they select. So
subobjects lie in their object and beside one another, and the offset monitor has nothing to say of them. All this is
of offsets as words; they do not wrap around, since an object has fewer bytes than there are addresses.

Contents:

* `Layout.Positions` — indices that are in range for an input;
* `Layout.Positions.selects` — their exact distance is the place of what they select;
* `Machine.Leads` — an offset that is computed for such indices;
* `Machine.subobjects_apart` — subobjects and what the monitor says of them.
-/

namespace PathSafety

open IR Machine

namespace IR.Layout

/-- That indices lead to positions under a valuation: numbers of fields as they are picked, and signed numbers of
elements, all of them in range. -/
inductive Positions (l : Layout) (field? : Value → Option Nat) (ν : Valuation) : Ty → List Value → List Nat → Ty → Prop
  | nil {t : Ty} : Positions l field? ν t [] [] t
  | field {t u x : Ty} {v : Value} {vs : List Value} {i : Nat} {is : List Nat} (struct : t.isStruct = true)
      (number : field? v = some i) (part : (t.parts l.structs)[i]? = some u) (rest : Positions l field? ν u vs is x) :
      Positions l field? ν t (v :: vs) (i :: is) x
  | element {t u x : Ty} {v : Value} {vs : List Value} {i : Nat} {is : List Nat} (other : t.isStruct = false)
      (number : v.signed ν = i) (part : (t.parts l.structs)[i]? = some u) (rest : Positions l field? ν u vs is x) :
      Positions l field? ν t (v :: vs) (i :: is) x

variable {l : Layout} {field? : Value → Option Nat} {ν : Valuation} {t u : Ty} {v : Value} {vs : List Value}
  {is : List Nat} {i : Nat} {n d : Int}

/-- Only arrays, vectors and structs have parts. -/
theorem exists_elements (hstruct : t.isStruct = false) (hu : (t.parts l.structs)[i]? = some u) :
    Elements t u ∧ ∃ k, i < k ∧ t.parts l.structs = List.replicate k u := by
  cases t with
  | array k e =>
    obtain ⟨hi, heq⟩ := List.getElem?_eq_some_iff.mp (show (List.replicate k e)[i]? = some u from hu)
    rw [List.getElem_replicate] at heq
    rw [List.length_replicate] at hi
    exact ⟨Or.inl ⟨k, heq ▸ rfl⟩, k, hi, heq ▸ rfl⟩
  | vector k e =>
    obtain ⟨hi, heq⟩ := List.getElem?_eq_some_iff.mp (show (List.replicate k e)[i]? = some u from hu)
    rw [List.getElem_replicate] at heq
    rw [List.length_replicate] at hi
    exact ⟨Or.inr ⟨k, heq ▸ rfl⟩, k, hi, heq ▸ rfl⟩
  | struct | named => cases hstruct
  | _ => cases hu

/-- One index in range leads over what lies before the part. -/
theorem step_of_position (hu : (t.parts l.structs)[i]? = some u) (hn : l.step? ν field? t v = some n)
    (hi : t.isStruct = true ∧ field? v = some i ∨ t.isStruct = false ∧ v.signed ν = i) :
    l.part? field? t v = some u ∧ ∃ k : Nat, Concrete.sizes? l ((t.parts l.structs).take i) = some k ∧ n = k := by
  rcases hi with ⟨hstruct, hi⟩ | ⟨hstruct, hi⟩
  · rw [Ty.parts_of_isStruct hstruct] at hu ⊢
    refine ⟨(part?_field hstruct hi).trans hu, ?_⟩
    simp only [step?, if_pos hstruct, hi, Option.bind_eq_bind, Option.bind_some] at hn
    obtain ⟨k, hk, hn⟩ := Option.bind_eq_some_iff.mp hn
    exact ⟨k, hk, (Option.some.inj hn).symm⟩
  · obtain ⟨helements, count, hlt, hparts⟩ := exists_elements hstruct hu
    refine ⟨part?_element helements, ?_⟩
    cases hsize : Concrete.size? l u with
    | none =>
      rcases helements with ⟨k, rfl⟩ | ⟨k, rfl⟩
      all_goals
        replace hn : (Concrete.size? l u >>= fun size => pure (v.signed ν * size)) = some n := hn
        rw [hsize] at hn
        cases hn
    | some size =>
      obtain rfl := Option.some.inj ((step?_element helements hsize).symm.trans hn)
      refine ⟨i * size, ?_, by rw [hi, Int.natCast_mul]⟩
      rw [hparts, List.take_replicate, Nat.min_eq_left (Nat.le_of_lt hlt)]
      exact sizes?_replicate hsize i

/-- **Indices in range lead to the place** of what they select. -/
theorem Positions.selects (h : l.Positions field? ν t vs is u) (hd : l.innerDistance? ν field? t vs = some d) :
    ∃ k : Nat, l.Selects t is u k ∧ d = k := by
  induction h generalizing d with
  | nil =>
    obtain rfl := Option.some.inj hd
    exact ⟨0, .nil, rfl⟩
  | field hstruct hnumber hpart _ ih =>
    obtain ⟨n, u', e, hn, hu', he, rfl⟩ := exists_of_innerDistance?_cons hd
    obtain ⟨hu, k, hk, rfl⟩ := step_of_position hpart hn (Or.inl ⟨hstruct, hnumber⟩)
    obtain rfl := Option.some.inj (hu.symm.trans hu')
    obtain ⟨j, hselects, rfl⟩ := ih he
    exact ⟨k + j, .cons hpart hk hselects, (Int.natCast_add k j).symm⟩
  | element hother hnumber hpart _ ih =>
    obtain ⟨n, u', e, hn, hu', he, rfl⟩ := exists_of_innerDistance?_cons hd
    obtain ⟨hu, k, hk, rfl⟩ := step_of_position hpart hn (Or.inr ⟨hother, hnumber⟩)
    obtain rfl := Option.some.inj (hu.symm.trans hu')
    obtain ⟨j, hselects, rfl⟩ := ih he
    exact ⟨k + j, .cons hpart hk hselects, (Int.natCast_add k j).symm⟩

end IR.Layout

namespace Machine

variable {s : Setting} {site : Site} {m : Machine} {ν : Valuation} {t u : Ty} {os : List Operand} {o : Value}
  {is : List Nat} {b : Nat}

/-- That the offset of indices into objects of type `t` is computed, and that they lead under a valuation from the start
of an object to positions in it, where a part of type `u` lies. -/
structure Leads (s : Setting) (site : Site) (m : Machine) (ν : Valuation) (t : Ty) (os : List Operand) (o : Value)
    (is : List Nat) (u : Ty) : Prop where
  computed : ∃ m', offset s (site.eval s) s.pointerBits t os m = .ok o m'
  positions : ∃ v vs m', site.evalAll s os m = .ok (v :: vs) m' ∧ v.signed ν = 0 ∧
    s.project.layout.Positions (fun v => m.condition.anyValue? v.term) ν t vs is u

/-- The offset is the place of the part. -/
theorem Leads.selects (h : Leads s site m ν t os o is u) (hb : s.project.layout.bits? t = some b)
    (hfits : b < 8 * 2 ^ s.pointerBits) : s.project.layout.Selects t is u (o.number ν) := by
  obtain ⟨m', hoffset⟩ := h.computed
  obtain ⟨v, vs, m'', hvs, hzero, hpositions⟩ := h.positions
  obtain ⟨vs', hvs', o, rfl, hdistance⟩ := exists_of_offset hoffset
  obtain ⟨rfl, rfl⟩ := EStateM.Result.ok.inj (hvs.symm.trans hvs')
  obtain ⟨d, hd, hword⟩ := hdistance ν
  obtain ⟨size, e, _, he, rfl⟩ := Layout.exists_of_distance?_cons hd
  obtain ⟨k, hselects, rfl⟩ := hpositions.selects he
  obtain ⟨c, _, hle⟩ := hselects.le hb
  have hnumber : (Value.mk o).number ν = k := by
    show (o.denote ν).toNat = k
    rw [hword, hzero, Int.zero_mul, Int.zero_add, BitVec.ofInt_natCast, BitVec.toNat_ofNat, Nat.mod_eq_of_lt (by omega)]
  rwa [hnumber]

/-- **Subobjects.** Let a type have less than as many bytes as there are addresses. Whatever indices in range lead to
lies in the object, and the bytes of two parts are others if neither part is one of the other. A part of some bits passes
the offset monitor, if the indices are in range for every input on the path. -/
theorem subobjects_apart (hb : s.project.layout.bits? t = some b) (hfits : b < 8 * 2 ^ s.pointerBits) :
    (∀ site m ν os o is u, Leads s site m ν t os o is u →
      ∃ c, s.project.layout.bits? u = some c ∧ 8 * o.number ν + c ≤ b) ∧
    (∀ site₁ m₁ os₁ o₁ is u site₂ m₂ os₂ o₂ js v ν, Leads s site₁ m₁ ν t os₁ o₁ is u →
      Leads s site₂ m₂ ν t os₂ o₂ js v → ¬ is <+: js → ¬ js <+: is →
        ∀ c d, s.project.layout.bits? u = some c → s.project.layout.bits? v = some d →
          ∀ x, ¬ ((o₁.number ν ≤ x ∧ x < o₁.number ν + byteCount c) ∧
            (o₂.number ν ≤ x ∧ x < o₂.number ν + byteCount d))) ∧
    ∀ site m m' pointer written zero indices o, site.instr.op = .gep true pointer written (zero :: indices) →
      site.routine.scope.accessType pointer written = t →
      offset s (site.eval s) s.pointerBits t (zero :: indices) m = .ok o m' →
      (∀ ν, Term.AllHold ν m.condition.conds →
        ∃ is u, Leads s site m ν t (zero :: indices) o is u ∧ s.project.layout.bits? u ≠ some 0) →
      Checker.watchOffset s site m = .ok () m' := by
  refine ⟨fun site m ν os o is u h => (h.selects hb hfits).le hb, ?_, ?_⟩
  · intro site₁ m₁ os₁ o₁ is u site₂ m₂ os₂ o₂ js v ν h₁ h₂ hij hji c d hc hd x
    have := (h₁.selects hb hfits).apart (h₂.selects hb hfits) hb hij hji hc hd
    unfold byteCount
    omega
  · intro site m m' pointer written zero indices o hop htype hoffset hall
    subst htype
    -- the size in bytes is known, since the first index was scaled by it
    obtain ⟨vs, hvs, o, rfl, hdistance⟩ := exists_of_offset hoffset
    obtain ⟨v, m₁, hv, hrest⟩ := exists_of_bind hvs
    obtain ⟨vs', m₂, hvs', hrest⟩ := exists_of_bind hrest
    obtain ⟨rfl, rfl⟩ := of_pure hrest
    obtain ⟨_, hd, _⟩ := hdistance fun _ => 0
    obtain ⟨size, _, hsize, _⟩ := Layout.exists_of_distance?_cons hd
    obtain rfl := Option.some.inj (hb.symm.trans (Layout.size?_eq_some_iff.mp hsize))
    refine (Checker.watchOffset_iff hop hsize hoffset).mpr ⟨rfl, fun ν hν => ?_⟩
    rw [condition_of_evalAll hvs] at hν
    obtain ⟨is, u, hleads, hpos⟩ := hall ν hν
    obtain ⟨c, hc, hle⟩ := (hleads.selects hb hfits).le hb
    have hne : c ≠ 0 := fun h => hpos (h ▸ hc)
    have hnumber : (Value.mk o).number ν = (o.denote ν).toNat := rfl
    rw [Nat.mod_eq_of_lt (by omega)]
    omega

open Rounds (index) in
open Packed (setting record) in
/-- The number in the second pair of a record, and the last of the bytes before the pairs. -/
theorem subobjects_apart_packed :
    Checker.watchOffset setting (Rounds.site record [index 64 0, index 32 2, index 8 1, index 32 0]) initial =
      .ok () initial ∧
    ∀ ν, 8 * (Value.ofNat 64 17).number ν + 32 ≤ 232 ∧
      ∀ x, ¬ (((Value.ofNat 64 17).number ν ≤ x ∧ x < (Value.ofNat 64 17).number ν + byteCount 32) ∧
        ((Value.ofNat 64 4).number ν ≤ x ∧ x < (Value.ofNat 64 4).number ν + byteCount 8)) := by
  have hpair : ∀ ν, Leads setting (Rounds.site record [index 64 0, index 32 2, index 8 1, index 32 0]) initial ν record
      [index 64 0, index 32 2, index 8 1, index 32 0] (.ofNat 64 17) [2, 1, 0] (.int 32) := fun ν =>
    ⟨⟨initial, rfl⟩, _, _, initial, rfl, rfl,
      .field rfl rfl rfl (.element rfl rfl rfl (.field rfl rfl rfl .nil))⟩
  have hbyte : ∀ ν, Leads setting (Rounds.site record []) initial ν record [index 64 0, index 32 1, index 16 2]
      (.ofNat 64 4) [1, 2] (.int 8) := fun ν =>
    ⟨⟨initial, rfl⟩, _, _, initial, rfl, rfl, .field rfl rfl rfl (.element rfl rfl rfl .nil)⟩
  obtain ⟨hle, hapart, hwatch⟩ := subobjects_apart (s := setting) (t := record) (b := 232) rfl (by decide)
  refine ⟨?_, fun ν => ⟨?_, ?_⟩⟩
  · exact hwatch _ initial initial (.constant (.ptr 0) .null) (some record) (index 64 0) _ (.ofNat 64 17) rfl rfl rfl
      fun ν _ => ⟨_, _, hpair ν, (by decide : some 32 ≠ some 0)⟩
  · obtain ⟨c, hc, hinside⟩ := hle _ _ ν _ _ _ _ (hpair ν)
    obtain rfl : 32 = c := Option.some.inj hc
    exact hinside
  · exact hapart _ _ _ _ _ _ _ _ _ _ _ _ ν (hpair ν) (hbyte ν) (by decide) (by decide) 32 8 rfl rfl

end Machine

end PathSafety
