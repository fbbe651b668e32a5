import PathSafety.Proofs.Path.Constants

/-!
# Initial values in memory

Three things have to agree for a path to find the parts of an initial value: the sizes of types, the offsets of address
computations, and the order in which a constant is written. They do: the address that indices lead to from a variable
that was just met holds the part of the initial value that they select.

Contents:

* `Machine.scaled_of_const?`, `Machine.Indexes`, `Machine.innerOffset_of_indexes` — indices lead to the place of a part;
* `Machine.exists_bytes_of_meets` — the bytes of a variable that was just met;
* `Machine.load_initial_part` — loads from the addresses of parts.
-/

namespace PathSafety

open IR Machine

namespace Machine

variable {s : Setting} {m m₁ : Machine} {site : Site} {module i width : Nat} {name : String} {t u : Ty} {ts : List Ty}
  {a v w : Value} {os : List Operand} {is : List Nat} {g : Global} {init : Operand}

/-! ## Indices

The indices of an address computation are resized to the width of addresses before they are scaled. One that is not
negative stays what it is, so that the sums are those of the layout. -/

theorem arith_add_ofNat (width a b : Nat) :
    Value.arith .add (.ofNat width a) (.ofNat width b) = .ok (.ofNat width (a + b)) := by
  unfold Value.ofNat
  rw [arith_mk rfl, BitVec.ofNat_add]
  rfl

theorem arith_mul_ofNat (width a b : Nat) :
    Value.arith .mul (.ofNat width a) (.ofNat width b) = .ok (.ofNat width (a * b)) := by
  unfold Value.ofNat
  rw [arith_mk rfl, BitVec.ofNat_mul]
  rfl

theorem exists_of_const? (hi : v.const? = some i) : ∃ (w : Nat) (b : BitVec w), v = ⟨.const b⟩ ∧ b.toNat = i := by
  obtain ⟨t⟩ := v
  cases t with
  | const b => exact ⟨_, b, rfl, Option.some.inj hi⟩
  | _ => cases hi

/-- A number that is not negative is the same at every width that it fits into. -/
theorem signedResize_of_const? (hi : v.const? = some i) (hsign : 2 * i < 2 ^ v.width) (hwidth : width ≠ 0) :
    v.signedResize width = .ofNat width i := by
  obtain ⟨w, b, rfl, rfl⟩ := exists_of_const? hi
  have hmsb : b.msb = false := BitVec.msb_eq_false_iff_two_mul_lt.mpr hsign
  refine Value.eq_of_word ?_ rfl fun input => ?_
  · unfold Value.signedResize
    rw [if_neg hwidth]
    exact Value.isSymbolic_eq_false.mpr (Term.isConst_mkSignedResize width rfl)
  · rw [Value.word_signedResize input hwidth]
    show Word.mk (b.signExtend width) = Word.mk (BitVec.ofNat width b.toNat)
    rw [BitVec.signExtend_eq_setWidth_of_msb_false hmsb, BitVec.ofNat_toNat]

theorem scaled_of_const? (hi : v.const? = some i) (hsign : 2 * i < 2 ^ v.width) (hwidth : width ≠ 0) (o size : Nat) :
    scaled width (.ofNat width o) v size m = .ok (.ofNat width (o + i * size)) m := by
  unfold scaled
  rw [signedResize_of_const? hi hsign hwidth, arith_mul_ofNat]
  show valueOr (Value.arith .add (.ofNat width o) (.ofNat width (i * size))) m = _
  rw [arith_add_ofNat]
  rfl

theorem sizeInBytes_of_whole (h : s.project.layout.Whole t) :
    sizeInBytes s t m = .ok (s.project.layout.size t) m := by
  unfold sizeInBytes
  rw [h.bytes]
  rfl

theorem sumOfBytes_of_whole (h : ∀ t ∈ ts, s.project.layout.Whole t) :
    sumOfBytes s ts m = .ok (ts.map s.project.layout.size).sum m := by
  induction ts with
  | nil => rfl
  | cons t ts ih =>
    obtain ⟨ht, hts⟩ := List.forall_mem_cons.mp h
    unfold sumOfBytes
    rw [bind_of_ok (sizeInBytes_of_whole ht), bind_of_ok (ih hts)]
    rfl

theorem sized_of_whole (h : s.project.layout.Whole t) : sized s t m = .ok (8 * s.project.layout.size t) m := by
  have hpos := h.pos
  unfold sized
  rw [h.bits]
  cases hsize : 8 * s.project.layout.size t with
  | zero => omega
  | succ n => rfl

/-- That operands at a site are indices into a type, of constant values that are in range. Those into arrays and vectors
are not negative as integers of their widths. -/
inductive Indexes (s : Setting) (site : Site) (m : Machine) : Ty → List Operand → List Nat → Prop
  | nil {t : Ty} : Indexes s site m t [] []
  | cons {t u : Ty} {o : Operand} {os : List Operand} {i : Nat} {is : List Nat} {v : Value}
      (value : site.eval s o m = .ok v m) (const : v.const? = some i)
      (sign : t.isStruct = false → 2 * i < 2 ^ v.width) (inRange : (t.parts s.project.layout.structs)[i]? = some u)
      (rest : Indexes s site m u os is) : Indexes s site m t (o :: os) (i :: is)

/-- **Indices lead to the place** of what they select. -/
theorem innerOffset_of_indexes (h : Indexes s site m t os is) (ht : s.project.layout.Whole t) (hwidth : width ≠ 0)
    (k : Nat) : innerOffset s (site.eval s) width t os (.ofNat width k) m =
      .ok (.ofNat width (k + s.project.layout.place t is)) m := by
  induction h generalizing k with
  | nil => rfl
  | @cons t u o os i is v hv hi hsign hu _ ih =>
    have hwhole := ht.parts u (List.mem_of_getElem? hu)
    have hplace : k + s.project.layout.place t (i :: is) =
        k + s.project.layout.start (t.parts s.project.layout.structs) i + s.project.layout.place u is := by
      rw [Layout.place_cons hu, Nat.add_assoc]
    have hrest := ih hwhole (k + s.project.layout.start (t.parts s.project.layout.structs) i)
    rw [hplace]
    unfold innerOffset
    cases hstruct : t.isStruct with
    | true =>
      -- the sizes of the fields before are summed up
      have hparts : (t.fields? s.project.layout.structs).getD [] = t.parts s.project.layout.structs :=
        (Ty.parts_of_isStruct hstruct).symm
      have hsum : sumOfBytes s ((t.parts s.project.layout.structs).take i) m =
          .ok (s.project.layout.start (t.parts s.project.layout.structs) i) m :=
        sumOfBytes_of_whole fun t' ht' => ht.parts t' (List.mem_of_mem_take ht')
      rw [if_pos rfl, bind_of_ok hv, bind_of_ok (evalNat_of_const? hi), hparts, bind_of_ok hsum, arith_add_ofNat, hu]
      exact hrest
    | false =>
      -- the index is scaled by the size of an element
      rw [if_neg Bool.false_ne_true]
      cases t with
      | array n e | vector n e =>
        have hu : (List.replicate n e)[i]? = some u := hu
        obtain ⟨hlt, heq⟩ := List.getElem?_eq_some_iff.mp hu
        obtain rfl : e = u := by rw [← heq, List.getElem_replicate]
        rw [List.length_replicate] at hlt
        have hstart : s.project.layout.start (List.replicate n e) i = i * s.project.layout.size e := by
          unfold Layout.start
          rw [List.take_replicate, List.map_replicate, List.sum_replicate_nat, Nat.min_eq_left (Nat.le_of_lt hlt)]
        have hsize : sizeInBytes s e m = .ok (s.project.layout.size e) m := sizeInBytes_of_whole hwhole
        dsimp only
        rw [bind_of_ok hv, bind_of_ok hsize, bind_of_ok (scaled_of_const? hi (hsign rfl) hwidth k _), ← hstart]
        exact hrest
      | struct | named => cases hstruct
      | _ => cases hu

/-! ## Bytes of initial values

The value of a constant of whole bytes is stored as it is, from its lowest byte on. What is read from some of these bytes
is put together from the same ones. -/

/-- A variable that was just met has the bytes of its initial value behind its address. -/
theorem exists_bytes_of_meets (hm : Placed s m) (hmeets : Meets s module name m a m₁)
    (hroom : m₁.nextAddress ≤ 2 ^ s.pointerBits) (hg : s.project.globalIn? module name = some (.data g))
    (hinit : g.init = some init) (ht : s.project.layout.Whole g.ty) (hfills : init.Fills s.project g.ty) :
    a = .ofNat s.pointerBits m.nextAddress ∧ m.nextAddress + s.project.layout.size g.ty < m₁.nextAddress ∧
      ∃ v, Settled (eval s module ∅ init) (8 * s.project.layout.size g.ty) v m₁ ∧
        ∀ k < s.project.layout.size g.ty,
          ∃ c, m₁.memory.get? (m.nextAddress + k) = some c ∧ c.byte = v.byte k := by
  obtain ⟨depth, h⟩ := hmeets.exists_depth
  obtain ⟨rfl, ⟨f, hf, _⟩ | ⟨g', hg', hcases⟩⟩ := cases_of_meet hmeets.1 h
  · rw [hf] at hg
    cases hg
  · obtain rfl := GlobalValue.data.inj (Option.some.inj (hg.symm.trans hg'))
    rcases hcases with ⟨hnone, _⟩ | ⟨init', v, m₂, hinit', hv, hwrite⟩
    · rw [hinit] at hnone
      cases hnone
    · obtain rfl := Option.some.inj (hinit.symm.trans hinit')
      have hsettled := settled_evalWith ht hfills (placed_entered hm) hv
      have hgrows := grows_evalWith hv
      obtain ⟨b, htarget, hmemory, _, hnext⟩ := exists_of_write hwrite
      have hcount : byteCount v.width = s.project.layout.size g.ty := by
        rw [hsettled.width]
        unfold byteCount
        omega
      have hstorage : byteCount (storage s g) = s.project.layout.size g.ty := by
        unfold storage
        rw [ht.bits, Option.getD_some, if_neg (by have := ht.pos; omega)]
        unfold byteCount
        omega
      have hstride := lt_stride (storage s g)
      have hentered : m.nextAddress + stride (storage s g) ≤ m₂.nextAddress := hgrows.next
      -- addresses have not run out, so the first one has not wrapped around
      have hb : b = m.nextAddress := by
        have hb : m.nextAddress % 2 ^ s.pointerBits = b := Option.some.inj htarget
        rw [← hb, Nat.mod_eq_of_lt (by omega)]
      refine ⟨rfl, by omega, v, hsettled.later (grows_of_write hwrite).addresses, fun k hk => ?_⟩
      obtain ⟨c, hc, hbyte⟩ := Memory.get?_store_of_mem (m := m₂.memory) (v := v.resize (8 * byteCount v.width))
        (a := b) (n := byteCount v.width) (x := m.nextAddress + k) ⟨by omega, by omega⟩
      refine ⟨c, hmemory ▸ hc, ?_⟩
      rw [hbyte, hb, Nat.add_sub_cancel_left]
      rfl

/-- What is put together from the bytes of a constant is the constant. -/
theorem concat_bytes_eq {size n k : Nat} (hv : v.isSymbolic = false) (hwidth : v.width = 8 * size)
    (hw : w.isSymbolic = false) (hwidth' : w.width = 8 * n) (hle : k + n ≤ size)
    (hbytes : ∀ (input : Input), ∀ j < n, (v.word input).byte (k + j) = (w.word input).byte j) :
    Value.concat ((List.range n).map fun j => ⟨v.byte (k + j)⟩) = w := by
  have hcount : byteCount v.width = size := by
    rw [hwidth]
    unfold byteCount
    omega
  -- both are constants, so it is enough that they are the same number
  refine Value.eq_of_word (Value.isSymbolic_concat fun u hu => ?_) hw fun input => ?_
  · obtain ⟨j, _, rfl⟩ := List.mem_map.mp hu
    have hresize := Value.isSymbolic_eq_false.mp (Value.isSymbolic_resize (8 * byteCount v.width) hv)
    exact Value.isSymbolic_eq_false.mpr (Term.isConst_mkSlice _ 8 hresize)
  · apply Word.ext_toNat
    · rw [Value.width_word, Value.width_word, Value.width_concat, List.map_map, hwidth']
      show ((List.range n).map fun _ => 8).sum = 8 * n
      rw [List.map_const', List.sum_replicate_nat, List.length_range, Nat.mul_comm]
    · rw [Value.word_concat, List.map_map]
      have hbyte : ∀ j < n, (v.byte (k + j)).meaning input.reading = (w.word input).byte j := by
        intro j hj
        rw [← hbytes input j hj, ← byte_resize input (by omega)]
        exact Memory.byte_meaning (k + j)
      have hnumber := @Memory.toNat_concat_bytes (fun x => (w.word input).byte x) 0
        ((List.range n).map fun j => (v.byte (k + j)).meaning input.reading) fun j b hb => by
          rw [List.getElem?_map] at hb
          obtain ⟨j', hj', rfl⟩ := Option.map_eq_some_iff.mp hb
          obtain ⟨hlt, rfl⟩ := List.getElem?_eq_some_iff.mp hj'
          rw [List.length_range] at hlt
          rw [List.getElem_range, hbyte j hlt, Nat.zero_add]
      rw [List.map_map, List.length_map, List.length_range] at hnumber
      refine Eq.trans hnumber ?_
      refine number_bytes (w.word input).bits (Nat.le_of_eq hwidth') fun j hj => ?_
      rw [Nat.zero_add]
      rfl

/-! ## Loads of parts -/

/-- Indices into a variable that has been met lead from it to the place that they select: the first one adds nothing. -/
theorem gep_of_indexes {site : Site} {written : Option Ty} {first : Operand} {z : Value} {indices : List Operand}
    {base : Nat} (hmet : m.addresses.get? name = some (.ofNat s.pointerBits base)) (ht : s.project.layout.Whole t)
    (hwidth : s.pointerBits ≠ 0) (hty : site.routine.scope.accessType (.global name) written = t)
    (hz : site.eval s first m = .ok z m) (hzero : z.const? = some 0) (hindices : Indexes s site m t indices is) :
    gep s site (.global name) written (first :: indices) m =
      .ok (.ofNat s.pointerBits (base + s.project.layout.place t is)) m := by
  have hbase : site.eval s (.global name) m = .ok (.ofNat s.pointerBits base) m := by
    unfold Site.eval eval evalWith
    exact address_of_met hmet
  have hsign : 2 * 0 < 2 ^ z.width := Nat.two_pow_pos _
  have hoffset : offset s (site.eval s) s.pointerBits t (first :: indices) m =
      .ok (.ofNat s.pointerBits (s.project.layout.place t is)) m := by
    unfold offset
    dsimp only
    rw [bind_of_ok hz, bind_of_ok (sizeInBytes_of_whole ht), bind_of_ok (scaled_of_const? hzero hsign hwidth 0 _),
      innerOffset_of_indexes hindices ht hwidth, Nat.zero_mul, Nat.zero_add]
  unfold gep
  rw [bind_of_ok hbase, hty]
  show (do
    let offset ← offset s (site.eval s) s.pointerBits t (first :: indices)
    valueOr (Value.arith .add (.ofNat s.pointerBits base) offset) : Action Value) m = _
  rw [bind_of_ok hoffset, arith_add_ofNat]
  rfl

/-- **The layout of initial values.** Let a path meet a variable for the first time, whose initial value is made of
arrays, vectors and structs over integers and pointers, all of whole bytes, and let addresses not have run out. Then
indices into the type of the variable select a part of the initial value, which is zero where it lies in something
that is all zero. The address that they lead to from the variable can be computed, and a load of the selected type from
there gives what the part evaluates to.

The machines of paths are as they have to be here: `Engine.placed_of_reaches`. -/
theorem load_initial_part (hm : Placed s m) (hmeets : Meets s module name m a m₁)
    (hroom : m₁.nextAddress ≤ 2 ^ s.pointerBits) (hg : s.project.globalIn? module name = some (.data g))
    (hinit : g.init = some init) (ht : s.project.layout.Whole g.ty) (hfills : init.Fills s.project g.ty)
    (hu : g.ty.select? s.project.layout.structs is = some u) :
    ∃ part v, init.select? s.project.layout.structs g.ty is = some part ∧ eval s module ∅ part m₁ = .ok v m₁ ∧
      (∀ before after t, is = before ++ after →
        init.select? s.project.layout.structs g.ty before = some (.constant t .null) →
          v = .ofNat (8 * s.project.layout.size u) 0) ∧
      ∀ (site : Site) (written : Option Ty) (first : Operand) (z : Value) (indices : List Operand),
        site.routine.scope.accessType (.global name) written = g.ty →
        site.eval s first m₁ = .ok z m₁ → z.const? = some 0 → Indexes s site m₁ g.ty indices is →
          ∃ address, gep s site (.global name) written (first :: indices) m₁ = .ok address m₁ ∧
            ∀ (site' : Site) (pointer : Operand) (written' : Option Ty),
              site'.routine.scope.accessType pointer written' = u → site'.eval s pointer m₁ = .ok address m₁ →
                load s site' pointer written' m₁ = .ok v m₁ := by
  obtain ⟨rfl, hnext, whole, hwhole, hbytes⟩ := exists_bytes_of_meets hm hmeets hroom hg hinit ht hfills
  obtain ⟨_, depth, hdepth⟩ := hmeets
  have hm₁ : Placed s m₁ := ((admits_grows s).anyAddress _ _ _ hdepth).placed hm
  have hmet := get?_of_addressWithin hdepth
  obtain ⟨part, v, hpart, hfills', hsettled, hparts⟩ :=
    exists_select ht hfills hm₁ (hwhole.again m₁ (extends_refl m₁)) hu
  have hle := Layout.place_add_size_le ht hu
  have hpos := hm.positive
  have hwidth : s.pointerBits ≠ 0 := by
    intro hzero
    rw [hzero] at hroom
    omega
  have hu' := ht.select hu
  have hv := hsettled.again m₁ (extends_refl m₁)
  refine ⟨part, v, hpart, hv, fun before after t his hnull => ?_,
    fun site written first z indices hty hz hzero hindices => ?_⟩
  · -- below what is all zero only zeros are selected
    rw [his] at hpart
    obtain ⟨u', rfl⟩ := Operand.eq_null_of_select? hnull hpart
    obtain ⟨rfl, _⟩ := hfills'
    rw [eval_constant hu'] at hv
    exact (of_pure hv).1.symm
  refine ⟨_, gep_of_indexes hmet ht hwidth hty hz hzero hindices, fun site' pointer written' hty' hp => ?_⟩
  -- the bytes there are those of the initial value, and so those of the part
  have hread := @read_of_forall s m₁ (m.nextAddress + s.project.layout.place g.ty is) (s.project.layout.size u)
    (fun j => whole.byte (s.project.layout.place g.ty is + j)) (by omega) (by omega) fun j hj => by
      rw [Nat.add_assoc]
      exact hbytes _ (by omega)
  rw [concat_bytes_eq hwhole.const hwhole.width hsettled.const hsettled.width hle hparts] at hread
  unfold load
  rw [hty', bind_of_ok (sized_of_whole hu'), bind_of_ok hp]
  exact hread

end Machine

/-! ### A struct of bytes, addresses and zeros -/

namespace Packed

/-- A number and an address. -/
def pair : Ty := .struct [.int 32, .ptr 0] false

/-- Bytes and pairs behind a number. -/
def record : Ty := .struct [.int 16, .array 3 (.int 8), .array 2 pair] false

/-- A record whose second pair is all zero. -/
def value : Operand :=
  .constant record (.elements [.constant (.int 16) (.int 7), .constant (.array 3 (.int 8)) (.bytes [1, 2, 3]),
    .constant (.array 2 pair) (.elements
      [.constant pair (.elements [.constant (.int 32) (.int 5), .global "h"]), .constant pair .null])])

/-- A variable of such a value, and one that it refers to. -/
def described : Module :=
  ⟨[⟨"g", record, some value⟩, ⟨"h", .int 32, some (.constant (.int 32) (.int 9))⟩],
    [⟨"main", .void, [], false, [⟨"entry", [⟨"", .ret none⟩]⟩]⟩]⟩

def setting : Setting := ⟨(Project.ofModules? [described] ⟨[], 64⟩).get rfl, true⟩

/-- A site with an address in a register. -/
def site (address : Value) : Site where
  routine := setting.project.routines.head (by decide)
  registers := (∅ : Registers).insert "p" address
  block := "entry"
  index := 0
  previous := none
  instr := ⟨"", .ret none⟩

theorem whole_int {l : Layout} {n : Nat} (hn : 0 < n) : l.Whole (.int (8 * n)) :=
  .intro rfl hn fun _ hu => absurd hu List.not_mem_nil

theorem whole_record : setting.project.layout.Whole record := by
  have hpointer : setting.project.layout.Whole (.ptr 0) :=
    .intro (n := 8) rfl (by decide) fun _ hu => absurd hu List.not_mem_nil
  have hpair : setting.project.layout.Whole pair := by
    refine .intro (n := 12) rfl (by decide) fun u hu => ?_
    rcases List.mem_pair.mp hu with rfl | rfl
    · exact whole_int (n := 4) (by decide)
    · exact hpointer
  refine .intro (n := 29) rfl (by decide) fun u hu => ?_
  rcases List.mem_cons.mp hu with rfl | hu
  · exact whole_int (n := 2) (by decide)
  · rcases List.mem_pair.mp hu with rfl | rfl
    · refine .intro (n := 3) rfl (by decide) fun u hu => ?_
      obtain rfl := (List.mem_replicate.mp hu).2
      exact whole_int (n := 1) (by decide)
    · refine .intro (n := 24) rfl (by decide) fun u hu => ?_
      obtain rfl := (List.mem_replicate.mp hu).2
      exact hpair

theorem fills_value : value.Fills setting.project record := by
  refine ⟨rfl, .int 16, _, rfl, ⟨rfl, 16, rfl⟩, .array 3 (.int 8), _, rfl, ⟨rfl, 8, Or.inl rfl⟩, .array 2 pair, _, rfl,
    ⟨rfl, pair, _, rfl, ⟨rfl, .int 32, _, rfl, ⟨rfl, 32, rfl⟩, .ptr 0, _, rfl, rfl, rfl⟩, pair, _, rfl, ⟨rfl, trivial⟩,
      rfl⟩, rfl⟩

theorem placed_initial : Placed setting initial where
  positive := by decide
  addresses n v hn := by cases hn

theorem exists_meets_initial : ∃ a m, Meets setting 0 "g" initial a m ∧ m.nextAddress ≤ 2 ^ setting.pointerBits := by
  have hrun : ((do
      let _ ← address setting 0 "g"
      return decide ((← get).nextAddress ≤ 2 ^ setting.pointerBits) : Action Bool).run' initial) = some true := by
    decide +kernel
  unfold EStateM.run' EStateM.run at hrun
  split at hrun
  · rename_i b m hb
    obtain rfl := Option.some.inj hrun
    obtain ⟨a, m₁, ha, hb⟩ := exists_of_bind hb
    obtain ⟨m₂, m₃, hget, hb⟩ := exists_of_bind hb
    cases hget
    exact ⟨a, m₁, ⟨rfl, _, ha⟩, of_decide_eq_true (of_pure hb).1⟩
  · cases hrun

end Packed

namespace Machine

open Packed in
/-- The address in the first pair of the record, and the number in the second one, which is all zero. -/
theorem load_initial_part_packed : ∃ a m, Meets setting 0 "g" initial a m ∧
    (∃ address v, eval setting 0 ∅ (.global "h") m = .ok v m ∧
      gep setting (site a) (.global "g") (some record) ([0, 2, 0, 1].map fun i => .constant (.int 64) (.int i)) m =
          .ok address m ∧
        load setting (site address) (.register "p") (some (.ptr 0)) m = .ok v m) ∧
    ∃ address, gep setting (site a) (.global "g") (some record)
          ([0, 2, 1, 0].map fun i => .constant (.int 64) (.int i)) m = .ok address m ∧
        load setting (site address) (.register "p") (some (.int 32)) m = .ok (.ofNat 32 0) m := by
  obtain ⟨a, m, hmeets, hroom⟩ := exists_meets_initial
  have hconst : ∀ i < 3, (Value.ofInt 64 (i : Nat)).const? = some i ∧ 2 * i < 2 ^ 64 := by decide
  -- The load reads its address from the register the element address was bound to.
  have hregister : ∀ address, (site address).eval setting (.register "p") m = .ok address m := by
    intro address
    unfold Site.eval eval evalWith
    rw [show (site address).registers.get? "p" = some address from (get?_insert_name _ _ _ _).trans (if_pos rfl)]
    rfl
  have hcons : ∀ {t u : Ty} {os : List Operand} {is : List Nat} (i : Nat), i < 3 →
      (t.parts setting.project.layout.structs)[i]? = some u → Indexes setting (site a) m u os is →
        Indexes setting (site a) m t (.constant (.int 64) (.int i) :: os) (i :: is) := fun i hi hu hrest =>
    .cons rfl (hconst i hi).1 (fun _ => (hconst i hi).2) hu hrest
  refine ⟨a, m, hmeets, ?_, ?_⟩
  · have hu : record.select? setting.project.layout.structs [2, 0, 1] = some (.ptr 0) := rfl
    obtain ⟨part, v, hpart, hv, _, hloads⟩ :=
      load_initial_part placed_initial hmeets hroom rfl rfl whole_record fills_value hu
    obtain rfl : .global "h" = part := Option.some.inj hpart
    obtain ⟨address, hgep, hload⟩ := hloads (site a) (some record) (.constant (.int 64) (.int 0)) (.ofInt 64 0) _
      rfl rfl rfl (hcons 2 (by decide) rfl (hcons 0 (by decide) rfl (hcons 1 (by decide) rfl .nil)))
    exact ⟨address, v, hv, hgep, hload (site address) (.register "p") (some (.ptr 0)) rfl (hregister address)⟩
  · have hu : record.select? setting.project.layout.structs [2, 1, 0] = some (.int 32) := rfl
    obtain ⟨part, v, _, _, hzero, hloads⟩ :=
      load_initial_part placed_initial hmeets hroom rfl rfl whole_record fills_value hu
    obtain rfl : v = .ofNat 32 0 := hzero [2, 1] [0] pair rfl rfl
    obtain ⟨address, hgep, hload⟩ := hloads (site a) (some record) (.constant (.int 64) (.int 0)) (.ofInt 64 0) _
      rfl rfl rfl (hcons 2 (by decide) rfl (hcons 1 (by decide) rfl (hcons 0 (by decide) rfl .nil)))
    exact ⟨address, hgep, hload (site address) (.register "p") (some (.int 32)) rfl (hregister address)⟩

end Machine

end PathSafety
