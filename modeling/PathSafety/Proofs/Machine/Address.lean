import PathSafety.Proofs.Machine.Access
import PathSafety.Proofs.Machine.Evaluate

/-!
# Global values get addresses

At the first time that a global value is met, storage is set apart for it and its initial value is written
there. A run, in which all of that was done before it began, does not see this.

Contents:

* `Machine.entered` — a machine after storage was set apart;
* `does_initialize` — initial values are written there;
* `addresses_addressWithin` — global names get the addresses that a run has for them;
* `quietly_eval` — operands of instructions.
-/

namespace PathSafety

open IR

theorem get?_insert_name {β : Type} (t : Std.TreeMap String β) (k n : String) (v : β) :
    (t.insert k v).get? n = if k = n then some v else t.get? n := by
  simp [Std.TreeMap.get?_eq_getElem?, Std.TreeMap.getElem?_insert]

namespace Machine

variable {s : Setting} {T : Table} {rs : Registers} {m m₁ m₂ : Machine} {D : Prop} {depth : Nat}
  {name : String}

/-! ## Setting storage apart -/

/-- The bits that are set apart for a variable. -/
def storage (s : Setting) (g : Global) : Nat :=
  let bits := (s.project.layout.bits? g.ty).getD 0
  if bits = 0 then 8 else bits

/-- A machine after storage for a number of bits was set apart for a global name. -/
def entered (s : Setting) (m : Machine) (name : String) (bits : Nat) : Machine :=
  { m with
    nextAddress := m.nextAddress + stride bits
    addresses := m.addresses.insert name (.ofNat s.pointerBits m.nextAddress) }

theorem lt_stride (bits : Nat) : max 1 (byteCount bits) < stride bits := by
  unfold stride alignment
  omega

/-- The storage that is set apart stands behind all that was there before. -/
theorem exists_laid_entered (bits : Nat) (hm : ∃ at_, Laid s m at_)
    (hextent : extent s.project name ≤ max 1 (byteCount bits)) : ∃ at_, Laid s (entered s m name bits) at_ := by
  obtain ⟨at_, hlaid⟩ := hm
  have hstride := lt_stride bits
  have hold : ∀ n, name ≠ n → (entered s m name bits).addresses.get? n = m.addresses.get? n :=
    fun n hn => (get?_insert_name _ _ _ _).trans (if_neg hn)
  have hnew : (entered s m name bits).addresses.get? name = some (.ofNat s.pointerBits m.nextAddress) :=
    (get?_insert_name _ _ _ _).trans (if_pos rfl)
  refine ⟨fun n => if name = n then m.nextAddress else at_ n, ?_, ?_, ?_⟩
  · intro n v hv
    by_cases hn : name = n
    · subst hn
      rw [if_pos rfl]
      exact (Option.some.inj (hnew.symm.trans hv)).symm
    · rw [if_neg hn]
      rw [hold n hn] at hv
      exact hlaid.eq n v hv
  · intro n hmet
    show _ ≤ m.nextAddress + stride bits ∧ _ < m.nextAddress + stride bits
    by_cases hn : name = n
    · subst hn
      rw [if_pos rfl]
      omega
    · rw [if_neg hn]
      rw [hold n hn] at hmet
      have := hlaid.le n hmet
      omega
  -- The new variable starts where the old ones end, so only a pair of old ones needs their own
  -- layout.
  · intro n n' hmet hmet' hne
    by_cases hn : name = n
    · have hn' : name ≠ n' := fun h => hne (hn.symm.trans h)
      rw [if_pos hn, if_neg hn']
      rw [hold n' hn'] at hmet'
      exact Or.inr (hlaid.le n' hmet').1
    · rw [if_neg hn]
      rw [hold n hn] at hmet
      by_cases hn' : name = n'
      · rw [if_pos hn']
        exact Or.inl (hlaid.le n hmet).1
      · rw [if_neg hn']
        rw [hold n' hn'] at hmet'
        exact hlaid.apart n n' hmet hmet' hne

theorem sound_entered (bits : Nat) (hm : Sound s T m)
    (hextent : extent s.project name ≤ max 1 (byteCount bits)) : Sound s T (entered s m name bits) where
  symbols := hm.symbols
  conds := hm.conds
  feasible := hm.feasible
  known := hm.known
  apart := hm.apart
  positive := Nat.lt_of_lt_of_le hm.positive (Nat.le_add_right _ _)
  laid := exists_laid_entered bits hm.laid hextent

theorem addresses_entered {bits : Nat} (hname : m.addresses.get? name = none) (n : String) (v : Value)
    (hn : m.addresses.get? n = some v) : (entered s m name bits).addresses.get? n = some v := by
  by_cases heq : name = n
  · subst heq
    rw [hname] at hn
    cases hn
  · exact (get?_insert_name _ _ _ _).trans ((if_neg heq).trans hn)

theorem get?_entered_self {bits : Nat} :
    (entered s m name bits).addresses.get? name = some (.ofNat s.pointerBits m.nextAddress) :=
  (get?_insert_name _ _ _ _).trans (if_pos rfl)

/-- Setting storage apart for what has no initial value is quiet. -/
theorem quiet_entered {bits : Nat} (hm : Sound s T m) (hname : m.addresses.get? name = none)
    (hextent : extent s.project name ≤ max 1 (byteCount bits))
    (hinit : ∀ g, s.project.globalVariable? name = some g → g.init = none) :
    Quiet s T m (entered s m name bits) where
  sound := sound_entered bits hm hextent
  conds := rfl
  addresses := addresses_entered hname
  next := Nat.le_add_right _ _
  stored _ hx := hx
  initialized := by
    intro n v g hnone hsome hg hsomeInit
    by_cases hn : name = n
    · subst hn
      rw [hinit g hg] at hsomeInit
      cases hsomeInit
    · have hsame : (entered s m name bits).addresses.get? n = m.addresses.get? n :=
        (get?_insert_name _ _ _ _).trans (if_neg hn)
      rw [hsame, hnone] at hsome
      cases hsome
  bytes _ _ _ _ _ := rfl

/-- Meeting a name leaves one name less. -/
theorem ready_entered (bits : Nat) (hready : Ready s (depth + 1) m) (hname : m.addresses.get? name = none)
    (hmem : name ∈ globalNames s.project) : Ready s depth (entered s m name bits) := by
  have hle : ∀ ns : List String,
      ns.countP (fun n => ((entered s m name bits).addresses.get? n).isNone) ≤
        ns.countP (fun n => (m.addresses.get? n).isNone) := fun ns => by
    refine List.countP_mono_left fun n _ h => ?_
    rw [Option.isNone_iff_eq_none] at h ⊢
    exact unmet_of_addresses (addresses_entered hname) h
  obtain ⟨before, after, hsplit⟩ := List.append_of_mem hmem
  unfold Ready unmet at hready ⊢
  rw [hsplit, List.countP_append, List.countP_cons, hname] at hready
  rw [hsplit, List.countP_append, List.countP_cons, get?_entered_self]
  have h1 := hle before
  have h2 := hle after
  simp only [Option.isNone_none, if_true, Option.isNone_some, Bool.false_eq_true, if_false] at hready ⊢
  omega

/-! ## Meeting a name -/

theorem mem_globalNames {module : Nat} {v : GlobalValue} (h : s.project.globalIn? module name = some v) :
    name ∈ globalNames s.project := by
  obtain ⟨md, hmd, hv⟩ := Option.bind_eq_some_iff.mp h
  refine List.mem_flatMap.mpr ⟨md, List.mem_of_getElem? hmd, List.mem_append.mpr ?_⟩
  cases v with
  | data g =>
    obtain ⟨hg, hname⟩ := Module.mem_of_global? hv
    exact Or.inl (List.mem_map.mpr ⟨g, hg, hname⟩)
  | code f =>
    obtain ⟨hname, hfind⟩ := Module.name_of_global? hv
    exact Or.inr (List.mem_map.mpr ⟨f, List.mem_of_find?_eq_some hfind, hname⟩)

/-- The address of a name that was met is the one that a run has. -/
theorem evaluates_address {x : Nat} (h : m.addresses.get? name = some (.ofNat s.pointerBits x)) :
    Evaluates s T rs (fun place _ => Concrete.address s.project place name) (.ofNat s.pointerBits x) m where
  known := Value.known_ofNat _ _
  word i place cs hcovers _ := by
    have hplace := (hcovers.met name _ h).1
    show (place name).map _ = _
    rw [hplace]
    show some (Word.ofNat s.pointerBits (BitVec.ofNat s.pointerBits x).toNat) =
      some (Word.ofNat s.pointerBits x)
    unfold Word.ofNat
    rw [BitVec.ofNat_toNat, BitVec.setWidth_eq]

/-- A machine after the initial value of a variable was written. -/
def initialized (m : Machine) (q : PathCondition) (b : Nat) (v : Value) : Machine :=
  { m with
    condition := q
    memory := m.memory.store b (v.resize (8 * byteCount v.width)) (byteCount v.width) }

theorem sound_initialized (hm : Sound s T m) {q : PathCondition} (hq : q.conds = m.condition.conds)
    {v : Value} (hv : v.Known T) (b : Nat) : Sound s T (initialized m q b v) where
  symbols := hm.symbols
  conds := by
    show ∀ c ∈ q.conds, c.Known T
    rw [hq]
    exact hm.conds
  feasible := by
    show ∃ ν, Term.AllHold ν q.conds
    rw [hq]
    exact hm.feasible
  known := Memory.known_store hm.known (Value.known_resize hv _) _ _
  apart := hm.apart.store _ _ _
  positive := hm.positive
  laid := hm.laid.imp fun _ h => ⟨h.eq, h.le, h.apart⟩

/-- Setting storage apart and writing the initial value there is quiet: a run finds the value there from the
beginning. -/
theorem quiet_initialized (hlinked : Fits.linked s.project = true) {module bits b : Nat} {g : Global}
    {init : Operand} (hg : s.project.globalIn? module name = some (.data g)) (hinit : g.init = some init)
    (hname : m.addresses.get? name = none) (h₁ : Quiet s T (entered s m name bits) m₁) {v : Value}
    (hextent : extent s.project name = byteCount v.width)
    (hv : Evaluates s T ∅ (fun place cs => Concrete.operand s.project place cs init) v m₁)
    (hb : (Value.ofNat s.pointerBits m.nextAddress).const? = some b) {q : PathCondition}
    (hq : q.conds = m₁.condition.conds) : Quiet s T m (initialized m₁ q b v) := by
  have haddress : m₁.addresses.get? name = some (.ofNat s.pointerBits m.nextAddress) :=
    h₁.addresses name _ get?_entered_self
  have hvariable := Project.globalVariable?_of_data hlinked hg
  exact {
    sound := sound_initialized h₁.sound hq hv.known b
    conds := hq.trans h₁.conds
    addresses := fun n u hn => h₁.addresses n u (addresses_entered hname n u hn)
    next := Nat.le_trans (Nat.le_add_right _ _) h₁.next
    stored := fun x hx => Memory.get?_store_ne_none (h₁.stored x hx)
    initialized := by
      intro n u g' hnone hsome hg' hsomeInit c hc k hk
      by_cases hn : name = n
      -- The cells of this very variable: the store of its initializer has just filled them.
      · subst hn
        obtain rfl := Option.some.inj (haddress.symm.trans hsome)
        obtain rfl := Option.some.inj (hb.symm.trans hc)
        obtain ⟨d, hd, _⟩ := Memory.get?_store_of_mem (m := m₁.memory)
          (v := v.resize (8 * byteCount v.width)) (a := b) (n := byteCount v.width) (x := b + k)
          ⟨by omega, by omega⟩
        exact fun hget => Option.some_ne_none d (hd.symm.trans hget)
      · have hsame : (entered s m name bits).addresses.get? n = m.addresses.get? n :=
          (get?_insert_name _ _ _ _).trans (if_neg hn)
        exact Memory.get?_store_ne_none
          (h₁.initialized n u g' (hsame.trans hnone) hsome hg' hsomeInit c hc k hk)
    -- Only here do the input's own bytes matter: the store writes the value the loader has put
    -- there, so overwriting what stood at that address changes nothing.
    bytes := by
      intro i place hcovers hloads hpristine
      have hcovers₁ : Covers s place m₁ := hcovers.of_eq rfl
      have hpristine₁ : Pristine s i place (entered s m name bits) :=
        fun n a g' hn => hpristine n a g' (unmet_of_addresses (addresses_entered hname) hn)
      have hplace : place name = some b := ((hcovers₁.met name _ haddress).1).trans hb
      have hword := hv.word i place (fun _ => none) hcovers₁ fun n u hn => by
        simp [Std.TreeMap.get?_eq_getElem?] at hn
      have hsame := h₁.bytes i place hcovers₁ hloads hpristine₁
      funext x
      show (m₁.memory.store b _ _).byteAt i x = _
      rw [byteAt_store_resize, Word.store, Value.width_word]
      split
      · rename_i hx
        have hloaded := hloads module name g b init (v.word i) hg hplace hinit hword (x - b)
          (by rw [Value.width_word]; omega)
        have hbyte := hpristine name b g hname hplace hvariable (by rw [hinit]; rfl) (x - b) (by omega)
        rw [Nat.add_sub_cancel' hx.1] at hloaded hbyte
        rw [hbyte, hloaded]
      · rw [hsame]
        rfl }

/-- A null pointer is found at the address of a variable only where addresses have run out. -/
theorem harmless_of_nullFault {x : Nat} (hx : 0 < x) (hlt : x < m.nextAddress) {f : Fault}
    (h : NullFault s (.ofNat s.pointerBits x) m f m₁) : Harmless s m f m₁ := by
  obtain ⟨ν, _, hν⟩ := h.holds
  have hzero : x % 2 ^ s.pointerBits = 0 := by
    have := (PathCondition.holds_equals (t := (Value.ofNat s.pointerBits x).term)
      (Nat.two_pow_pos _)).mp hν
    rwa [show ((Value.ofNat s.pointerBits x).term.denote ν).toNat = x % 2 ^ s.pointerBits from
      BitVec.toNat_ofNat _ _] at this
  have hle : 2 ^ s.pointerBits ≤ x := Nat.le_of_dvd hx (Nat.dvd_of_mod_eq_zero hzero)
  obtain ⟨q, hq, rfl⟩ := h.asked
  exact ⟨hq, fun _ _ hn => hn, Nat.le_refl _, Or.inr (Nat.lt_of_le_of_lt hle hlt)⟩

theorem harmless_entered {bits : Nat} (hname : m.addresses.get? name = none) {f : Fault}
    (h : Harmless s (entered s m name bits) f m₁) : Harmless s m f m₁ where
  conds := h.conds
  addresses n v hn := h.addresses n v (addresses_entered hname n v hn)
  next := Nat.le_trans (Nat.le_add_right _ _) h.next
  violation := h.violation

theorem typed_empty (scope : Scope) : Typed s T scope ∅ := fun n v hn => by
  simp [Std.TreeMap.get?_eq_getElem?] at hn

/-- The initial value of a variable has the size of the variable. -/
theorem exists_width_of_global
    (hglobals : ∀ md ∈ s.project.modules, md.globals.all (Fits.global s.project md) = true) {module : Nat}
    {g : Global} {init : Operand} (hg : s.project.globalIn? module name = some (.data g))
    (hinit : g.init = some init) :
    ∃ w scope, Fits.operandWidth? s.project scope init = some w ∧ s.project.layout.bits? g.ty = some w := by
  obtain ⟨md, hmd, hv⟩ := Option.bind_eq_some_iff.mp hg
  have hfits := List.all_eq_true.mp (hglobals md (List.mem_of_getElem? hmd)) g (Module.mem_of_global? hv).1
  unfold Fits.global at hfits
  rw [hinit] at hfits
  dsimp only at hfits
  split at hfits
  · rename_i w w' hw hw'
    obtain rfl := eq_of_beq hfits
    exact ⟨w, _, hw, hw'⟩
  · cases hfits

/-- The size of the storage that is set apart for a variable: something also for one without contents. -/
def room (s : Setting) (g : Global) : Nat :=
  if (s.project.layout.bits? g.ty).getD 0 = 0 then 8 else (s.project.layout.bits? g.ty).getD 0

theorem extent_of_variable {g : Global} (hg : s.project.globalVariable? name = some g) :
    extent s.project name = byteCount ((s.project.layout.bits? g.ty).getD 0) := by
  unfold extent
  rw [hg]

theorem extent_le_room {g : Global} (hg : s.project.globalVariable? name = some g) :
    extent s.project name ≤ max 1 (byteCount (room s g)) := by
  rw [extent_of_variable hg, room]
  split
  · rename_i hzero
    rw [hzero]
    exact Nat.zero_le _
  · exact Nat.le_max_right _ _

/-- **Initial values** are written to the storage that was set apart for them. -/
theorem does_initialize (hlinked : Fits.linked s.project = true)
    (hglobals : ∀ md ∈ s.project.modules, md.globals.all (Fits.global s.project md) = true)
    (hptr : s.pointerBits ≠ 0) {depth : Nat} (haddress : Addresses D s T ∅ depth (addressWithin s depth))
    {module : Nat} {g : Global} {init : Operand} (hg : s.project.globalIn? module name = some (.data g))
    (hinit : g.init = some init) (hm : Sound s T m) (hready : Ready s (depth + 1) m)
    (hname : m.addresses.get? name = none) :
    Does D (do
        let v ← evalWith s (addressWithin s depth) module ∅ init
        write s (.ofNat s.pointerBits m.nextAddress) v
        return .ofNat s.pointerBits m.nextAddress) (entered s m name (room s g))
      (fun a m' => Quiet s T m m' ∧ (∃ x, a = .ofNat s.pointerBits x) ∧
        Evaluates s T rs (fun place _ => Concrete.address s.project place name) a m')
      (Harmless s m) := by
  have hvariable := Project.globalVariable?_of_data hlinked hg
  obtain ⟨w, scope, hw, hsize⟩ := exists_width_of_global hglobals hg hinit
  have hsound := sound_entered (room s g) hm (extent_le_room hvariable)
  have hready' := ready_entered (room s g) hready hname (mem_globalNames hg)
  refine does_bind (Does.mono (quietly_evalWith haddress hptr (typed_empty scope) init hw
    (fun h => Project.agrees_init h hg hinit) hsound hready') ?_ fun f m₁ hf => harmless_entered hname hf)
  rintro v m₁ ⟨h₁, hwidth, hv⟩
  -- The address written is a positive constant: it is null only where addresses have run out.
  refine does_bind ((does_write_of_const? h₁.sound (Value.known_ofNat _ _) rfl).mono ?_ ?_)
  · rintro _ _ ⟨q, hq, rfl⟩
    have hextent : extent s.project name = byteCount v.width := by
      rw [extent_of_variable hvariable, hsize, hwidth]
      rfl
    exact ⟨quiet_initialized hlinked hg hinit hname h₁ hextent hv rfl hq, ⟨m.nextAddress, rfl⟩,
      evaluates_address (h₁.addresses name _ get?_entered_self)⟩
  · intro f m₂ hf
    have hlt : m.nextAddress < m₁.nextAddress :=
      Nat.lt_of_lt_of_le (Nat.lt_add_of_pos_right (Nat.lt_of_le_of_lt (Nat.zero_le _) (lt_stride (room s g)))) h₁.next
    exact harmless_entered hname (h₁.harmless (harmless_of_nullFault hm.positive hlt hf))

/-- **Global names** get the addresses that a run has for them. -/
theorem addresses_addressWithin (hlinked : Fits.linked s.project = true)
    (hglobals : ∀ md ∈ s.project.modules, md.globals.all (Fits.global s.project md) = true)
    (hptr : s.pointerBits ≠ 0) (depth : Nat) (rs : Registers) :
    Addresses D s T rs depth (addressWithin s depth) := by
  -- The induction is on the depth left; `Ready` rules out its end, since each variable entered uses
  -- up one name of the project.
  induction depth generalizing rs with
  | zero => exact fun _ _ m _ hready => absurd hready (Nat.not_lt_zero _)
  | succ depth ih =>
    intro module name m hm hready
    unfold addressWithin
    refine does_bind (does_get ?_)
    cases hname : m.addresses.get? name with
    | some a =>
      obtain ⟨at_, hlaid⟩ := hm.laid
      obtain rfl := hlaid.eq name a hname
      exact quietly_pure hm ⟨⟨_, rfl⟩, evaluates_address hname⟩
    | none =>
      -- First met: a routine takes an address and nothing else, a variable is laid out and then
      -- initialized one depth further down.
      dsimp only
      cases hg : s.project.globalIn? module name with
      | none => exact quietly_fault rfl
      | some v =>
        cases v with
        | code f =>
          have hvariable := Project.globalVariable?_of_code hlinked hg
          refine ⟨quiet_entered hm hname ?_ ?_, ⟨m.nextAddress, rfl⟩, evaluates_address get?_entered_self⟩
          · unfold extent
            rw [hvariable]
            exact Nat.le_refl 1
          · intro g hg'
            rw [hvariable] at hg'
            cases hg'
        | data g =>
          have hvariable := Project.globalVariable?_of_data hlinked hg
          have henter : (do
              let a ← allocate s (room s g)
              modify fun m => { m with addresses := m.addresses.insert name a }
              return a : Action Value) m =
                .ok (.ofNat s.pointerBits m.nextAddress) (entered s m name (room s g)) := rfl
          refine does_bind_of_ok henter ?_
          cases hinit : g.init with
          | none =>
            refine ⟨quiet_entered hm hname (extent_le_room hvariable) ?_, ⟨m.nextAddress, rfl⟩,
              evaluates_address get?_entered_self⟩
            intro g' hg'
            obtain rfl := Option.some.inj (hvariable.symm.trans hg')
            exact hinit
          | some init => exact does_initialize hlinked hglobals hptr (ih ∅) hg hinit hm hready hname

/-! ## Operands of instructions -/

/-- That the project of a setting is well typed and has pointers of some width. -/
structure Fit (s : Setting) : Prop where
  fits : s.project.fits = true
  pointerBits : s.pointerBits ≠ 0

variable {scope : Scope} {module : Nat}

theorem Fit.linked (h : Fit s) : Fits.linked s.project = true := by
  have := h.fits
  simp only [Project.fits, Bool.and_eq_true] at this
  exact this.1.1

theorem Fit.routine (h : Fit s) {r : Routine} (hr : r ∈ s.project.routines) :
    Fits.routine s.project r = true := by
  have := h.fits
  simp only [Project.fits, Bool.and_eq_true] at this
  exact List.all_eq_true.mp this.1.2 r hr

theorem Fit.globals (h : Fit s) :
    ∀ md ∈ s.project.modules, md.globals.all (Fits.global s.project md) = true := by
  have := h.fits
  simp only [Project.fits, Bool.and_eq_true] at this
  exact List.all_eq_true.mp this.2

theorem operandNumber?_eq_some {o : Operand} {k : Nat} (h : Fits.operandNumber? o = some k) :
    ∃ w n, o = .constant (.int w) (.int n) ∧ k = (BitVec.ofInt w n).toNat := by
  unfold Fits.operandNumber? at h
  split at h
  · exact ⟨_, _, rfl, (Option.some.inj h).symm⟩
  · cases h

/-- **Operands of instructions** have the values that a run has for them. -/
theorem quietly_eval (hfit : Fit s) (hrs : Typed s T scope rs) (o : Operand) {w : Nat}
    (hw : Fits.operandWidth? s.project scope o = some w)
    (hagrees : s.project.agrees = true → o.agrees s.project = true) (hm : Sound s T m) :
    Quietly D s T (eval s module rs o) m fun v m' =>
      v.width = w ∧ Evaluates s T rs (fun place cs => Concrete.operand s.project place cs o) v m' ∧
        ∀ k, Fits.operandNumber? o = some k → v.const? = some k := by
  cases hk : Fits.operandNumber? o with
  | none =>
    refine (quietly_evalWith (addresses_addressWithin hfit.linked hfit.globals hfit.pointerBits _ rs)
      hfit.pointerBits hrs o hw hagrees hm (ready_globalCount s m)).mono ?_
    rintro v m' _ ⟨hwidth, hv⟩
    exact ⟨hwidth, hv, fun k hk => by cases hk⟩
  | some k =>
    obtain ⟨b, n, rfl, rfl⟩ := operandNumber?_eq_some hk
    have hrun : eval s module rs (.constant (.int b) (.int n)) = pure (.ofInt b n) := rfl
    rw [hrun]
    exact quietly_pure hm ⟨Option.some.inj hw, evaluates_pure (Value.known_ofInt _ _) fun _ _ _ => rfl,
      fun j hj => hj⟩

/-- Operands at the indices of an address computation. -/
theorem evaluatesAll_operands (hfit : Fit s) (hrs : Typed s T scope rs) {os : List Operand}
    (hos : ∀ o ∈ os, (Fits.operandWidth? s.project scope o).isSome)
    (hagrees : s.project.agrees = true → ∀ o ∈ os, o.agrees s.project = true) :
    EvaluatesAll D s T rs depth (eval s module rs)
      (fun o place cs => Concrete.operand s.project place cs o) Fits.operandNumber? os := by
  intro o ho m hm _
  obtain ⟨w, hw⟩ := Option.isSome_iff_exists.mp (hos o ho)
  exact (quietly_eval hfit hrs o hw (fun h => hagrees h o ho) hm).mono fun v m' _ hv => hv.2

end Machine

end PathSafety
