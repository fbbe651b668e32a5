import PathSafety.IR.Project

/-!
# The routines of a project

`Project.ofModules?` makes one routine of every function of every module. So a routine knows its module, and
what a module calls by a name of its own is found among the routines of that module.

Contents:

* `Scope.module_ofFunction` — the scope of a body lies in the module of the function;
* `Project.mem_routines_iff` — which routines a project has;
* `Project.exists_routineIn?` — a function that a module has a name for is among its routines.
-/

namespace PathSafety.IR

namespace Scope

theorem module_withResults (s : Scope) (instrs : List Instr) : (s.withResults instrs).module = s.module := by
  unfold withResults
  induction instrs generalizing s with
  | nil => rfl
  | cons i instrs ih =>
    rw [List.foldl_cons]
    exact ih _

/-- The scope of a body lies in the module of the function. -/
theorem module_ofFunction (m : Module) (structs : StructTable) (f : Function) :
    (ofFunction m structs f).module = m := by
  unfold ofFunction
  rw [module_withResults, module_withResults]

end Scope

namespace Module

/-- A name that stands for a function is the name of that function. -/
theorem name_of_global? {m : Module} {n : String} {f : Function} (h : m.global? n = some (.code f)) :
    f.name = n ∧ m.functions.find? (·.name == n) = some f := by
  unfold global? at h
  split at h
  · cases h
  · obtain ⟨g, hg, heq⟩ := Option.map_eq_some_iff.mp h
    obtain rfl := GlobalValue.code.inj heq
    have hname := List.find?_some hg
    exact ⟨by simpa using hname, hg⟩

/-- A name that stands for a variable is the name of that variable. -/
theorem mem_of_global? {m : Module} {n : String} {g : Global} (h : m.global? n = some (.data g)) :
    g ∈ m.globals ∧ g.name = n := by
  unfold global? at h
  split at h
  · rename_i g' hg'
    obtain rfl := GlobalValue.data.inj (Option.some.inj h)
    exact ⟨List.mem_of_find?_eq_some hg', by simpa using List.find?_some hg'⟩
  · obtain ⟨f, _, heq⟩ := Option.map_eq_some_iff.mp h
    cases heq

end Module

namespace Project

variable {p : Project} {modules : List Module} {layout : Layout}

theorem modules_of_ofModules? (h : ofModules? modules layout = some p) :
    p.modules = modules.map Module.number := by
  unfold ofModules? at h
  split at h
  · cases h
  · exact (Option.some.inj h) ▸ rfl

theorem routines_of_ofModules? (h : ofModules? modules layout = some p) :
    p.routines = (p.modules.mapIdx (routinesOf p.layout.structs)).flatten := by
  unfold ofModules? at h
  split at h
  · cases h
  · exact (Option.some.inj h) ▸ rfl

/-- The routines of a project are the functions of its modules, each in the scope of its module. -/
theorem mem_routines_iff (h : ofModules? modules layout = some p) {r : Routine} :
    r ∈ p.routines ↔ ∃ m f, p.modules[r.module]? = some m ∧ f ∈ m.functions ∧
      r = ⟨r.module, f, .ofFunction m p.layout.structs f⟩ := by
  rw [routines_of_ofModules? h, List.mem_flatten]
  constructor
  · rintro ⟨rs, hrs, hr⟩
    obtain ⟨k, hk, rfl⟩ := List.mem_mapIdx.mp hrs
    obtain ⟨f, hf, rfl⟩ := List.mem_map.mp hr
    exact ⟨p.modules[k], f, List.getElem?_eq_getElem hk, hf, rfl⟩
  · rintro ⟨m, f, hm, hf, hr⟩
    obtain ⟨hk, rfl⟩ := List.getElem?_eq_some_iff.mp hm
    exact ⟨_, List.mem_mapIdx.mpr ⟨r.module, hk, rfl⟩, List.mem_map.mpr ⟨f, hf, hr.symm⟩⟩

/-- A routine is seen in the module that it belongs to. -/
theorem module_of_mem (h : ofModules? modules layout = some p) {r : Routine} (hr : r ∈ p.routines) :
    p.modules[r.module]? = some r.scope.module := by
  obtain ⟨m, f, hm, _, heq⟩ := (mem_routines_iff h).mp hr
  rw [heq, Scope.module_ofFunction]
  exact hm

theorem find?_routinesOf (structs : StructTable) (i k : Nat) (m : Module) (name : String) :
    (routinesOf structs i m).find? (fun r => r.module == k && r.function.name == name) =
      if i = k then (m.functions.find? (·.name == name)).map fun f => ⟨k, f, .ofFunction m structs f⟩
      else none := by
  unfold routinesOf
  rw [List.find?_map]
  by_cases hik : i = k
  · subst hik
    simp only [Function.comp_def, BEq.rfl, Bool.true_and, if_true]
  · rw [if_neg hik, Option.map_eq_none_iff, List.find?_eq_none]
    intro f _
    simp [hik]

/-- Where all parts but one give nothing, the first result is that of this part. -/
theorem findSome?_mapIdx {α β γ : Type} {xs : List α} {g : Nat → α → β} {f : β → Option γ} {k : Nat}
    {x : α} (hx : xs[k]? = some x) (hother : ∀ i, i ≠ k → ∀ y, f (g i y) = none) :
    (xs.mapIdx g).findSome? f = f (g k x) := by
  induction xs generalizing k g with
  | nil => cases hx
  | cons y ys ih =>
    rw [List.mapIdx_cons, List.findSome?_cons]
    cases k with
    | zero =>
      obtain rfl := Option.some.inj hx
      cases hg : f (g 0 y) with
      | some b => rfl
      | none =>
        refine List.findSome?_eq_none_iff.mpr fun o ho => ?_
        obtain ⟨i, hi, rfl⟩ := List.mem_mapIdx.mp ho
        exact hother (i + 1) (by omega) _
    | succ k =>
      rw [hother 0 (by omega) y]
      exact ih hx fun i hi z => hother (i + 1) (by omega) z

/-- A name is looked up among the routines of a module as it is among the functions of the module. -/
theorem routineIn?_eq (h : ofModules? modules layout = some p) {k : Nat} {m : Module}
    (hm : p.modules[k]? = some m) (name : String) :
    p.routineIn? k name = (m.functions.find? (·.name == name)).map fun f =>
      ⟨k, f, .ofFunction m p.layout.structs f⟩ := by
  unfold routineIn?
  rw [routines_of_ofModules? h, List.find?_flatten, findSome?_mapIdx hm]
  · rw [find?_routinesOf, if_pos rfl]
  · intro i hi y
    rw [find?_routinesOf, if_neg hi]

/-- A function that a module has a name for is found among the routines of the module. -/
theorem exists_routineIn? (h : ofModules? modules layout = some p) {k : Nat} {m : Module}
    (hm : p.modules[k]? = some m) {n : String} {f : Function} (hf : m.global? n = some (.code f)) :
    ∃ r, p.routineIn? k f.name = some r ∧ r ∈ p.routines ∧ r.module = k ∧ r.function = f := by
  obtain ⟨rfl, hfind⟩ := Module.name_of_global? hf
  refine ⟨⟨k, f, .ofFunction m p.layout.structs f⟩, ?_, ?_, rfl, rfl⟩
  · rw [routineIn?_eq h hm, hfind, Option.map_some]
  · exact (mem_routines_iff h).mpr ⟨m, f, hm, List.mem_of_find?_eq_some hfind, rfl⟩

end Project

end PathSafety.IR
