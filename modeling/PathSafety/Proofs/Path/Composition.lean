import PathSafety.Proofs.Path.Distance
import PathSafety.Proofs.Path.Layout
import PathSafety.Proofs.Path.Phis

/-!
# Address computations in two steps

The address that indices lead to can be computed at once, or up to some part first and on from there. Both ways evaluate
the same operands in the same order, and exact distances add up where the indices are split; the index that the second
step begins with is zero. Only the words are the same: the two addresses are made of different terms.

Contents:

* `Layout.distance?_append` — distances add up;
* `Machine.exists_of_gep` — what an address computation comes to;
* `Machine.gep_append` — one computation, or two.
-/

namespace PathSafety

open IR Machine

namespace IR.Layout

variable {l : Layout} {ν : Valuation} {field? : Value → Option Nat} {t u : Ty} {vs us : List Value} {d e : Int}

theorem innerDistance?_append (hu : l.selected? field? t vs = some u) (hd : l.innerDistance? ν field? t vs = some d)
    (he : l.innerDistance? ν field? u us = some e) : l.innerDistance? ν field? t (vs ++ us) = some (d + e) := by
  induction vs generalizing t d with
  | nil =>
    obtain rfl := Option.some.inj hu
    obtain rfl := Option.some.inj hd
    rwa [List.nil_append, Int.zero_add]
  | cons v vs ih =>
    obtain ⟨part, hpart, hu⟩ := Option.bind_eq_some_iff.mp hu
    obtain ⟨n, part', d', hn, hpart', hd', rfl⟩ := exists_of_innerDistance?_cons hd
    obtain rfl := Option.some.inj (hpart.symm.trans hpart')
    rw [List.cons_append, innerDistance?_cons hn hpart (ih hu hd'), Int.add_assoc]

/-- **Distances add up.** What indices select is as far from the base pointer as what the first of them select, and as far
on from there as the others lead from the start of that part. -/
theorem distance?_append (hvs : vs ≠ []) (hu : l.selected? field? t (vs.drop 1) = some u)
    (hd : l.distance? ν field? t vs = some d) (he : l.innerDistance? ν field? u us = some e) :
    l.distance? ν field? t (vs ++ us) = some (d + e) := by
  cases vs with
  | nil => exact absurd rfl hvs
  | cons v vs =>
    obtain ⟨size, d', hsize, hd', rfl⟩ := exists_of_distance?_cons hd
    have hinner : l.innerDistance? ν field? t (vs ++ us) = some (d' + e) := innerDistance?_append hu hd' he
    rw [List.cons_append, distance?_cons hsize hinner, Int.add_assoc]

end IR.Layout

/-- A site where a register holds another value. -/
def Site.bind (site : Site) (r : String) (v : Value) : Site := { site with registers := site.registers.insert r v }

namespace Machine

variable {s : Setting} {site : Site} {m m₀ m₁ m₂ m₃ : Machine} {pointer : Operand} {written : Option Ty}
  {os xs ys : List Operand} {a b c base : Value} {vs : List Value} {t u : Ty} {r : String}

/-- The value of a register that was bound. -/
theorem eval_bind (site : Site) (r : String) (v : Value) (m : Machine) :
    (site.bind r v).eval s (.register r) m = .ok v m := by
  unfold Site.eval eval evalWith
  rw [show (site.bind r v).registers.get? r = some v from (get?_insert_name _ _ _ _).trans (if_pos rfl)]
  rfl

/-- Operands without a register do not see what it is bound to. -/
theorem evalAll_bind (hos : ∀ o ∈ os, .register r ∉ o.leaves) (v : Value) :
    (site.bind r v).evalAll s os = site.evalAll s os := by
  have hregisters : ∀ n, n ≠ r → (site.bind r v).registers.get? n = site.registers.get? n := fun n hn =>
    (get?_insert_name _ _ _ _).trans (if_neg (Ne.symm hn))
  induction os with
  | nil => rfl
  | cons o os ih =>
    obtain ⟨ho, hos⟩ := List.forall_mem_cons.mp hos
    have heval : (site.bind r v).eval s o = site.eval s o := eval_congr fun n hn => hregisters n fun h => ho (h ▸ hn)
    unfold Site.evalAll
    rw [heval, ih hos]

/-- **Address computations.** The pointer and the indices are evaluated in order, and for every input the address is the
pointer moved by the word of the exact distance. -/
theorem exists_of_gep (h : gep s site pointer written os m = .ok a m₁) :
    ∃ base m₀ vs, site.eval s pointer m = .ok base m₀ ∧ site.evalAll s os m₀ = .ok vs m₁ ∧
      ∃ x : Term base.width, a = ⟨x⟩ ∧ ∀ ν, ∃ d,
        s.project.layout.distance? ν (fun v => m.condition.anyValue? v.term)
          (site.routine.scope.accessType pointer written) vs = some d ∧
        x.denote ν = base.term.denote ν + BitVec.ofInt base.width d := by
  obtain ⟨base, m₀, hbase, h⟩ := exists_of_bind h
  obtain ⟨v, m₁', hoffset, h⟩ := exists_of_bind h
  obtain ⟨vs, hvs, o, rfl, hdistance⟩ := exists_of_offset hoffset
  obtain ⟨rfl, x, rfl, hsum⟩ := of_arith_add h
  rw [keeps_condition_eval site pointer hbase] at hdistance
  refine ⟨base, m₀, vs, hbase, hvs, x, rfl, fun ν => ?_⟩
  obtain ⟨d, hd, hword⟩ := hdistance ν
  exact ⟨d, hd, by rw [hsum, hword]⟩

/-- **One computation, or two.** Let an address be computed with two lists of indices one after the other, and also with
the first list alone, which selects a part of type `u`, and then in objects of this type from there, with zero and the
second list. Both ways leave the same machine, and give addresses of one width that are the same for every input. -/
theorem gep_append (hxs : xs ≠ []) (hwhole : gep s site pointer written (xs ++ ys) m = .ok a m₁)
    (hfirst : gep s site pointer written xs m = .ok b m₂) (hbase : site.eval s pointer m = .ok base m₀)
    (hvs : site.evalAll s xs m₀ = .ok vs m₂)
    (hselected : s.project.layout.selected? (fun v => m.condition.anyValue? v.term)
      (site.routine.scope.accessType pointer written) (vs.drop 1) = some u)
    (hunused : ∀ o ∈ ys, .register r ∉ o.leaves) {written' : Option Ty}
    (htype : (site.bind r b).routine.scope.accessType (.register r) written' = u) {width : Nat}
    (hsecond : gep s (site.bind r b) (.register r) written' (.constant (.int width) (.int 0) :: ys) m₂ = .ok c m₃) :
    m₃ = m₁ ∧ ∃ (w : Nat) (x y : Term w), a = ⟨x⟩ ∧ c = ⟨y⟩ ∧ ∀ ν, x.denote ν = y.denote ν := by
  obtain ⟨base₁, m₀', vs₁, hbase₁, hvs₁, x, rfl, hx⟩ := exists_of_gep hwhole
  obtain ⟨base₂, m₀'', vs₂, hbase₂, hvs₂, z, rfl, hz⟩ := exists_of_gep hfirst
  obtain ⟨base₃, m₂', vs₃, hbase₃, hvs₃, y, rfl, hy⟩ := exists_of_gep hsecond
  -- all three computations see the same pointer and the same values of indices
  obtain ⟨rfl, rfl⟩ := EStateM.Result.ok.inj (hbase.symm.trans hbase₁)
  obtain ⟨rfl, rfl⟩ := EStateM.Result.ok.inj (hbase.symm.trans hbase₂)
  obtain ⟨rfl, rfl⟩ := EStateM.Result.ok.inj ((eval_bind site r _ m₂).symm.trans hbase₃)
  obtain ⟨rfl, -⟩ := EStateM.Result.ok.inj (hvs.symm.trans hvs₂)
  obtain ⟨us, us', m', hus, hus', rfl⟩ := exists_of_evalAll_append hvs₁
  obtain ⟨rfl, rfl⟩ := EStateM.Result.ok.inj (hvs.symm.trans hus)
  obtain ⟨first, m₂', hzero, hrest⟩ := exists_of_bind hvs₃
  obtain ⟨us'', m₃', hus'', hrest⟩ := exists_of_bind hrest
  obtain ⟨rfl, rfl⟩ := of_pure hrest
  obtain ⟨rfl, rfl⟩ : Value.ofInt width 0 = first ∧ m₂ = m₂' := EStateM.Result.ok.inj hzero
  rw [evalAll_bind hunused] at hus''
  obtain ⟨rfl, rfl⟩ := EStateM.Result.ok.inj (hus'.symm.trans hus'')
  refine ⟨rfl, base.width, x, y, rfl, rfl, fun ν => ?_⟩
  obtain ⟨d, hd, hdword⟩ := hz ν
  obtain ⟨e, he, heword⟩ := hy ν
  obtain ⟨k, hk, hkword⟩ := hx ν
  have hcondition : m₂.condition = m.condition :=
    (condition_of_evalAll hvs).trans (keeps_condition_eval site pointer hbase)
  rw [htype, hcondition] at he
  obtain ⟨size, e', _, he', rfl⟩ := Layout.exists_of_distance?_cons he
  have hne : vs ≠ [] := by
    rintro rfl
    cases xs with
    | nil => exact hxs rfl
    | cons o os =>
      obtain ⟨v, _, _, hrest⟩ := exists_of_bind hvs
      obtain ⟨_, _, _, hrest⟩ := exists_of_bind hrest
      exact List.cons_ne_nil _ _ (of_pure hrest).1
  have hsum := Layout.distance?_append hne hselected hd he'
  obtain rfl := Option.some.inj (hsum.symm.trans hk)
  have hzero : (Value.ofInt width 0).signed ν = 0 := by
    show (BitVec.ofInt width 0).toInt = 0
    rw [BitVec.toInt_ofInt]
    exact Int.zero_bmod
  have hzword : (⟨z⟩ : Value).term.denote ν = base.term.denote ν + BitVec.ofInt base.width d := hdword
  rw [hkword, heword, hzword, hzero, Int.zero_mul, Int.zero_add, BitVec.ofInt_add, BitVec.add_assoc]

open Packed in
/-- The address in the pair before the first one of the next record, at once and from the array of pairs on. -/
theorem gep_append_packed : ∃ a b c,
    gep setting (Packed.site (.ofNat 64 0)) (.constant (.ptr 0) .null) (some record)
      ([.constant (.int 64) (.int 1), .constant (.int 32) (.int 2)] ++
        [.constant (.int 8) (.int (-1)), .constant (.int 32) (.int 1)]) initial = .ok a initial ∧
    gep setting (Packed.site (.ofNat 64 0)) (.constant (.ptr 0) .null) (some record)
      [.constant (.int 64) (.int 1), .constant (.int 32) (.int 2)] initial = .ok b initial ∧
    gep setting ((Packed.site (.ofNat 64 0)).bind "q" b) (.register "q") (some (.array 2 pair))
      [.constant (.int 16) (.int 0), .constant (.int 8) (.int (-1)), .constant (.int 32) (.int 1)] initial =
        .ok c initial ∧
    ∃ (w : Nat) (x y : Term w), a = ⟨x⟩ ∧ c = ⟨y⟩ ∧ ∀ ν, x.denote ν = y.denote ν := by
  have hsecond : gep setting ((Packed.site (.ofNat 64 0)).bind "q" (.ofNat 64 34)) (.register "q") (some (.array 2 pair))
      [.constant (.int 16) (.int 0), .constant (.int 8) (.int (-1)), .constant (.int 32) (.int 1)] initial =
        .ok (.ofNat 64 26) initial := (bind_of_ok (eval_bind _ _ _ _)).trans rfl
  refine ⟨.ofNat 64 26, .ofNat 64 34, .ofNat 64 26, rfl, rfl, hsecond, ?_⟩
  have hwhole : gep setting (Packed.site (.ofNat 64 0)) (.constant (.ptr 0) .null) (some record)
      ([.constant (.int 64) (.int 1), .constant (.int 32) (.int 2)] ++
        [.constant (.int 8) (.int (-1)), .constant (.int 32) (.int 1)]) initial = .ok (.ofNat 64 26) initial := rfl
  have hvs : (Packed.site (.ofNat 64 0)).evalAll setting
      [.constant (.int 64) (.int 1), .constant (.int 32) (.int 2)] initial =
        .ok [.ofInt 64 1, .ofInt 32 2] initial := rfl
  exact (gep_append (List.cons_ne_nil _ _) hwhole rfl rfl hvs rfl (by simp [Operand.leaves, ConstantValue.leaves]) rfl
    hsecond).2

end Machine

end PathSafety
