import Dumboss.Machine

/-!
# The segment descriptors (`kern/descriptor_tables.c`)

The global descriptor table has eight slots.  `Gdt__add_entry` fills the next one and returns a
selector for it; `Gdt__add_tss` fills the next two, with the address of a task state segment spread over
them, and asserts that its selector is the one that `tss_segment` computes from the number of the core.

* `Gdt`, `addEntry`, `addTss`, `tssSegment`: the code;
* `SystemDescriptor`, `Gdt.system`: a descriptor of two slots, as the processor reads it;
* `Addition`, `install`: a sequence of calls; `Fits` says which sequences have room and add every
  segment where `tss_segment` looks for it;
* `Designates`: what a selector leads to; `build_exact`: what becomes of a sequence of calls.
-/

namespace Dumboss.Descriptors

open Prog

/-- A 16-bit machine word. -/
abbrev U16 := BitVec 16

/-! ### The code -/

/-- `Gdt`. -/
structure Gdt where
  index : ℕ
  table : ℕ → U64

/-- `GDT__DPL_RING_3`. -/
def dplRing3 : U64 := 3#64 <<< 45

/-- `GDT__PRESENT`. -/
def present : U64 := 1#64 <<< 47

/-- `GDT__COMMON`: user segment, accessed, present, writable, the limit, granularity. -/
def common : U64 :=
  1#64 <<< 44 ||| 1#64 <<< 40 ||| present ||| 1#64 <<< 41 ||| 0xffff#64 ||| 0xf#64 <<< 48 |||
    1#64 <<< 55

/-- `GDT__KERNEL_CODE`: executable, long mode. -/
def kernelCode : U64 := common ||| 1#64 <<< 43 ||| 1#64 <<< 53

example : kernelCode = 0x00af9b000000ffff#64 := by decide

/-- `gdt->table[index] = entry`. -/
def Gdt.set (gdt : Gdt) (index : ℕ) (entry : U64) : Gdt :=
  { gdt with table := Function.update gdt.table index entry }

/-- `Gdt__init`. -/
def init : Kern Gdt Unit := do
  modify fun gdt => gdt.set 0 0#64
  modify fun gdt => { gdt with index := 1 }

/-- `Gdt__add_entry`. -/
def addEntry (entry : U64) : Kern Gdt U16 := do
  let index := (← get).index
  assert (index < 8) (.failed "index < 8")
  modify fun gdt => gdt.set index entry
  modify fun gdt => { gdt with index := index + 1 }
  let priviledgeLevel := if entry &&& dplRing3 ≠ 0#64 then 3#16 else 0#16
  return BitVec.ofNat 16 (8 * index) ||| priviledgeLevel

/-- `tss_segment`. -/
def tssSegment (coreIdx : ℤ) : U16 := (BitVec.ofInt 16 coreIdx * 2#16 + 2#16) <<< 3

/-- `sizeof(Tss)`, a packed structure. -/
def tssSize : U64 := 104#64

/-- The first slot that `Gdt__add_tss` fills. -/
def tssLow (addr : U64) : U64 :=
  present ||| (addr &&& 0xffffff#64) <<< 16 ||| (addr &&& 0xff000000#64) <<< 32 |||
    (tssSize - 1#64) ||| 9#64 <<< 40

/-- The second. -/
def tssHigh (addr : U64) : U64 := (addr &&& 0xffffffff00000000#64) >>> 32

/-- `Gdt__add_tss`; `tss` is the address of the structure. -/
def addTss (tss : U64) (coreIdx : ℤ) : Kern Gdt Unit := do
  let index := (← get).index
  assert (index + 1 < 8) (.failed "index + 1 < 8")
  modify fun gdt => (gdt.set index (tssLow tss)).set (index + 1) (tssHigh tss)
  modify fun gdt => { gdt with index := index + 2 }
  let selector := BitVec.ofNat 16 (8 * index)
  assert (selector = tssSegment coreIdx) (.failed "selector == tss_segment(core_idx)")

/-- The size that `load_gdt` gives the processor: the offset of the last byte. -/
def Gdt.size (gdt : Gdt) : ℕ := gdt.index * 8 - 1

/-! ### The processor's view -/

/-- A system descriptor. -/
structure SystemDescriptor where
  base : U64
  limit : U64
  /-- Bits 40 to 47 of the first slot: the type, the privilege level and the present bit. -/
  access : U64
  deriving DecidableEq

/-- The descriptor in two slots. -/
def decode (low high : U64) : SystemDescriptor where
  base := (low >>> 16 &&& 0xffffff#64) ||| (low >>> 56 &&& 0xff#64) <<< 24 |||
    (high &&& 0xffffffff#64) <<< 32
  limit := (low &&& 0xffff#64) ||| (low >>> 48 &&& 0xf#64) <<< 16
  access := low >>> 40 &&& 0xff#64

/-- The slot of a selector. -/
def slot (selector : U16) : ℕ := selector.toNat / 8

/-- The privilege level of a descriptor: its bits 45 and 46. -/
def dpl (entry : U64) : ℕ := (entry >>> 45 &&& 3#64).toNat

/-- The privilege level that a selector asks for. -/
def rpl (selector : U16) : ℕ := (selector &&& 3#16).toNat

/-- The descriptor that `ltr` finds. -/
def Gdt.system (gdt : Gdt) (selector : U16) : SystemDescriptor :=
  decode (gdt.table (slot selector)) (gdt.table (slot selector + 1))

theorem decode_base (addr : U64) : (decode (tssLow addr) (tssHigh addr)).base = addr := by
  apply BitVec.eq_of_getLsbD_eq
  intro i hi
  simp only [decode, tssLow, tssHigh, present, tssSize, BitVec.getLsbD_or, BitVec.getLsbD_and,
    BitVec.getLsbD_shiftLeft, BitVec.getLsbD_ushiftRight]
  interval_cases i <;> simp

theorem decode_limit (addr high : U64) : (decode (tssLow addr) high).limit = tssSize - 1#64 := by
  apply BitVec.eq_of_getLsbD_eq
  intro i hi
  simp only [decode, tssLow, present, tssSize, BitVec.getLsbD_or, BitVec.getLsbD_and,
    BitVec.getLsbD_shiftLeft, BitVec.getLsbD_ushiftRight]
  interval_cases i <;> simp

theorem decode_access (addr high : U64) : (decode (tssLow addr) high).access = 0x89#64 := by
  apply BitVec.eq_of_getLsbD_eq
  intro i hi
  simp only [decode, tssLow, present, tssSize, BitVec.getLsbD_or, BitVec.getLsbD_and,
    BitVec.getLsbD_shiftLeft, BitVec.getLsbD_ushiftRight]
  interval_cases i <;> simp

/-- The processor reads the descriptor that was written. -/
theorem decode_tss (addr : U64) :
    decode (tssLow addr) (tssHigh addr) = ⟨addr, tssSize - 1#64, 0x89#64⟩ := by
  have hbase := decode_base addr
  have hlimit := decode_limit addr (tssHigh addr)
  have haccess := decode_access addr (tssHigh addr)
  cases hd : decode (tssLow addr) (tssHigh addr) with
  | mk base limit access =>
    rw [hd] at hbase hlimit haccess
    rw [← hbase, ← hlimit, ← haccess]

/-- The test of `Gdt__add_entry` is one of the privilege level. -/
theorem dplRing3_iff (entry : U64) : entry &&& dplRing3 ≠ 0#64 ↔ dpl entry ≠ 0 := by
  have hright : entry >>> 45 &&& 3#64 = (entry &&& dplRing3) >>> 45 := by
    apply BitVec.eq_of_getLsbD_eq
    intro i hi
    simp only [dplRing3, BitVec.getLsbD_and, BitVec.getLsbD_ushiftRight]
    interval_cases i <;> simp
  have hleft : entry &&& dplRing3 = (entry >>> 45 &&& 3#64) <<< 45 := by
    apply BitVec.eq_of_getLsbD_eq
    intro i hi
    simp only [dplRing3, BitVec.getLsbD_and, BitVec.getLsbD_shiftLeft, BitVec.getLsbD_ushiftRight]
    interval_cases i <;> simp
  refine not_congr ⟨fun h => ?_, fun h => ?_⟩
  · rw [dpl, hright, h]
    rfl
  · rw [hleft, BitVec.eq_of_toNat_eq (y := 0#64) h]
    rfl

/-! ### Sequences of calls -/

/-- A call of `Gdt__add_entry` or of `Gdt__add_tss`. -/
inductive Addition
  | entry (entry : U64)
  | tss (tss : U64) (coreIdx : ℤ)

namespace Addition

/-- The call, with the selector for what it added. -/
def perform : Addition → Kern Gdt U16
  | entry e => addEntry e
  | tss addr coreIdx => do
    addTss addr coreIdx
    return tssSegment coreIdx

/-- The number of slots that the call fills. -/
def slots : Addition → ℕ
  | entry _ => 1
  | tss _ _ => 2

/-- The call returns if `index` is the next slot. -/
def HasRoom (index : ℕ) : Addition → Prop
  | entry _ => index < 8
  | tss _ coreIdx => index + 1 < 8 ∧ (2 * coreIdx + 2) % 8192 = index

def selector (index : ℕ) : Addition → U16
  | entry e => BitVec.ofNat 16 (8 * index) ||| if e &&& dplRing3 ≠ 0#64 then 3#16 else 0#16
  | tss _ coreIdx => tssSegment coreIdx

/-- The table after the call. -/
def fill (gdt : Gdt) : Addition → Gdt
  | entry e => ⟨gdt.index + 1, Function.update gdt.table gdt.index e⟩
  | tss addr _ => ⟨gdt.index + 2, Function.update (Function.update gdt.table gdt.index (tssLow addr))
      (gdt.index + 1) (tssHigh addr)⟩

end Addition

/-- The calls, in order, with the selectors. -/
def install : List Addition → Kern Gdt (List (Addition × U16))
  | [] => return []
  | a :: as => do
    let selector ← a.perform
    return (a, selector) :: (← install as)

/-- The calls find room from slot `index` on, and the segments of the cores come at their places. -/
def Fits : ℕ → List Addition → Prop
  | _, [] => True
  | index, a :: as => a.HasRoom index ∧ Fits (index + a.slots) as

/-- The selector leads the processor to what the call was to add.  It asks for privilege level 3 for an
entry of any level but 0. -/
def Designates (gdt : Gdt) (selector : U16) : Addition → Prop
  | .entry e => gdt.table (slot selector) = e ∧ rpl selector = if dpl e = 0 then 0 else 3
  | .tss addr coreIdx => selector = tssSegment coreIdx ∧
      gdt.system selector = ⟨addr, tssSize - 1#64, 0x89#64⟩

/-! ### One call -/

theorem tssSegment_eq_iff {index : ℕ} (hi : index < 8) (coreIdx : ℤ) :
    BitVec.ofNat 16 (8 * index) = tssSegment coreIdx ↔ (2 * coreIdx + 2) % 8192 = index := by
  have htwo : (2#16).toNat = 2 := rfl
  rw [← BitVec.toNat_inj, tssSegment, BitVec.toNat_shiftLeft, BitVec.toNat_add, BitVec.toNat_mul,
    BitVec.toNat_ofInt, BitVec.toNat_ofNat, htwo, Nat.shiftLeft_eq]
  omega

theorem wp_perform (a : Addition) (Q : U16 → Gdt → Prop) (gdt : Gdt) :
    wp a.perform Q gdt ↔ a.HasRoom gdt.index ∧ Q (a.selector gdt.index) (a.fill gdt) := by
  cases a with
  | entry e =>
    simp only [Addition.perform, addEntry, wp_bind, wp_get, wp_assert, wp_modify, wp_pure]
    rfl
  | tss addr coreIdx =>
    simp only [Addition.perform, addTss, wp_bind, wp_get, wp_assert, wp_modify, wp_pure,
      Addition.HasRoom, and_assoc]
    refine and_congr_right fun hroom => ?_
    rw [tssSegment_eq_iff (by omega)]
    rfl

theorem slot_selector {a : Addition} {index : ℕ} (h : a.HasRoom index) :
    slot (a.selector index) = index := by
  have hslots : ∀ i < 8, slot (BitVec.ofNat 16 (8 * i) ||| 3#16) = i ∧
      slot (BitVec.ofNat 16 (8 * i) ||| 0#16) = i ∧ slot (BitVec.ofNat 16 (8 * i)) = i := by
    decide
  cases a with
  | entry e =>
    rw [Addition.selector]
    split_ifs
    · exact (hslots index h).1
    · exact (hslots index h).2.1
  | tss addr coreIdx =>
    obtain ⟨hlt, hcore⟩ := h
    rw [Addition.selector, ← (tssSegment_eq_iff (by omega) coreIdx).2 hcore]
    exact (hslots index (by omega)).2.2

theorem fill_tss_table (gdt : Gdt) (addr : U64) (coreIdx : ℤ) :
    ((Addition.tss addr coreIdx).fill gdt).table =
      Function.update (Function.update gdt.table gdt.index (tssLow addr)) (gdt.index + 1)
        (tssHigh addr) := rfl

/-- What a call added is still designated when only later slots have changed. -/
theorem designates_of_fill {a : Addition} {gdt gdt' : Gdt} (h : a.HasRoom gdt.index)
    (hkeep : ∀ j < gdt.index + a.slots, gdt'.table j = (a.fill gdt).table j) :
    Designates gdt' (a.selector gdt.index) a := by
  have hslot := slot_selector h
  cases a with
  | entry e =>
    refine ⟨?_, ?_⟩
    · rw [hslot, hkeep gdt.index (Nat.lt_succ_self _)]
      exact Function.update_self _ _ _
    · have hlevels : ∀ i < 8, rpl (BitVec.ofNat 16 (8 * i) ||| 3#16) = 3 ∧
          rpl (BitVec.ofNat 16 (8 * i) ||| 0#16) = 0 := by
        decide
      rw [Addition.selector]
      by_cases hdpl : dpl e = 0
      · rw [if_pos hdpl, if_neg (mt (dplRing3_iff e).1 (not_not.2 hdpl))]
        exact (hlevels _ h).2
      · rw [if_neg hdpl, if_pos ((dplRing3_iff e).2 hdpl)]
        exact (hlevels _ h).1
  | tss addr coreIdx =>
    have hlow := hkeep gdt.index (show gdt.index < gdt.index + 2 by omega)
    have hhigh := hkeep (gdt.index + 1) (show gdt.index + 1 < gdt.index + 2 by omega)
    refine ⟨rfl, ?_⟩
    rw [Gdt.system, hslot, hlow, hhigh, fill_tss_table, Function.update_self,
      Function.update_of_ne (by omega), Function.update_self, decode_tss]

theorem fill_keeps (a : Addition) (gdt : Gdt) {j : ℕ} (hj : j < gdt.index) :
    (a.fill gdt).table j = gdt.table j := by
  cases a with
  | entry e => exact Function.update_of_ne (by omega) _ _
  | tss addr coreIdx =>
    rw [fill_tss_table, Function.update_of_ne (by omega), Function.update_of_ne (by omega)]

theorem fill_index (a : Addition) (gdt : Gdt) : (a.fill gdt).index = gdt.index + a.slots := by
  cases a <;> rfl

/-! ### All calls -/

/-- The calls `as` led from `gdt` to `gdt'`, and returned the selectors in `out`. -/
structure Installed (gdt : Gdt) (as : List Addition) (out : List (Addition × U16)) (gdt' : Gdt) :
    Prop where
  additions : out.map Prod.fst = as
  designates : ∀ x ∈ out, Designates gdt' x.2 x.1
  keeps : ∀ j < gdt.index, gdt'.table j = gdt.table j
  index_eq : gdt'.index = gdt.index + (as.map Addition.slots).sum

/-- **The calls return exactly if they fit.** -/
theorem wp_install (as : List Addition) (gdt : Gdt) :
    (Fits gdt.index as → wp (install as) (Installed gdt as) gdt) ∧
      ∀ out gdt', install as gdt = Except.ok (out, gdt') → Fits gdt.index as := by
  induction as generalizing gdt with
  | nil =>
    refine ⟨fun _ => ?_, fun _ _ _ => trivial⟩
    rw [install, wp_pure]
    exact ⟨rfl, by simp, fun _ _ => rfl, rfl⟩
  | cons a as ih =>
    obtain ⟨hfits, hconv⟩ := ih (a.fill gdt)
    rw [fill_index] at hfits hconv
    constructor
    · rintro ⟨hroom, hrest⟩
      rw [install, wp_bind, wp_perform]
      refine ⟨hroom, ?_⟩
      simp only [wp_bind, wp_pure]
      refine wp_mono (hfits hrest) ?_
      rintro out gdt' ⟨hadd, hdes, hkeep, hindex⟩
      rw [fill_index] at hkeep hindex
      refine ⟨by rw [List.map_cons, hadd], ?_, fun j hj => ?_, ?_⟩
      · refine List.forall_mem_cons.2 ⟨designates_of_fill hroom hkeep, hdes⟩
      · rw [hkeep j (by omega), fill_keeps a gdt hj]
      · rw [hindex, List.map_cons, List.sum_cons, Nat.add_assoc]
    · intro out gdt' hrun
      have hwp : wp (install (a :: as)) (fun _ _ => True) gdt := wp_of_run hrun trivial
      rw [install, wp_bind, wp_perform] at hwp
      obtain ⟨hroom, hwp⟩ := hwp
      simp only [wp_bind, wp_pure] at hwp
      obtain ⟨out', gdt'', hrun', -⟩ := hwp
      exact ⟨hroom, hconv out' gdt'' hrun'⟩

theorem fits_index {index : ℕ} {as : List Addition} (h : Fits index as) (hi : index ≤ 8) :
    index + (as.map Addition.slots).sum ≤ 8 := by
  induction as generalizing index with
  | nil => simpa using hi
  | cons a as ih =>
    obtain ⟨hroom, hrest⟩ := h
    have hle : index + a.slots ≤ 8 := by
      cases a with
      | entry e => exact hroom
      | tss addr coreIdx => exact hroom.1
    have := ih hrest hle
    rw [List.map_cons, List.sum_cons]
    omega

/-- `Gdt__init` and some calls. -/
def build (as : List Addition) : Kern Gdt (List (Addition × U16)) := do
  init
  install as

/-- **The descriptor table.**  Calls after `Gdt__init`, in any number and order, all return exactly if
they fit into the eight slots and every segment comes where `tss_segment` looks for it.  In the end
every selector leads to what its call added, whatever was added later: to the entry, asking for level 0
or 3, or to the present descriptor of a task state segment, with its address and size.  The null
descriptor is in place, and the size that `load_gdt` passes on covers the slots that were filled and no
others. -/
theorem build_exact (as : List Addition) (gdt : Gdt) :
    ((∃ out gdt', build as gdt = Except.ok (out, gdt')) ↔ Fits 1 as) ∧
      ∀ out gdt', build as gdt = Except.ok (out, gdt') →
        out.map Prod.fst = as ∧ (∀ x ∈ out, Designates gdt' x.2 x.1) ∧ gdt'.table 0 = 0#64 ∧
        gdt'.index = 1 + (as.map Addition.slots).sum ∧ gdt'.index ≤ 8 ∧
        gdt'.size + 1 = 8 * gdt'.index := by
  set gdt₀ : Gdt := ⟨1, Function.update gdt.table 0 0#64⟩ with h₀
  have hbuild : build as gdt = install as gdt₀ := rfl
  obtain ⟨hfits, hconv⟩ := wp_install as gdt₀
  rw [hbuild]
  refine ⟨⟨fun ⟨out, gdt', hrun⟩ => hconv out gdt' hrun, fun h => ?_⟩, fun out gdt' hrun => ?_⟩
  · obtain ⟨out, gdt', hrun, -⟩ := hfits h
    exact ⟨out, gdt', hrun⟩
  · have h := hconv out gdt' hrun
    obtain ⟨hadd, hdes, hkeep, hindex⟩ := wp_run hrun (hfits h)
    have hle := fits_index h (show 1 ≤ 8 by omega)
    have hindex' : gdt'.index = 1 + (as.map Addition.slots).sum := hindex
    refine ⟨hadd, hdes, ?_, hindex', by omega, ?_⟩
    · rw [hkeep 0 Nat.zero_lt_one]
      exact Function.update_self 0 0#64 gdt.table
    · rw [Gdt.size]
      omega

/-- The calls of `descriptor__init`: the segment of core 0 is at selector 16. -/
theorem build_exact_core_0 : ∃ out gdt',
    build [.entry kernelCode, .tss 0xffff800000001048#64 0] ⟨0, fun _ => 7#64⟩ =
      Except.ok (out, gdt') ∧ gdt'.index = 4 ∧ gdt'.table 0 = 0#64 ∧
      gdt'.system 16#16 = ⟨0xffff800000001048#64, 103#64, 0x89#64⟩ := by
  obtain ⟨hiff, hspec⟩ :=
    build_exact [.entry kernelCode, .tss 0xffff800000001048#64 0] ⟨0, fun _ => 7#64⟩
  obtain ⟨out, gdt', hrun⟩ := hiff.2 ⟨show 1 < 8 by decide, ⟨by decide, by decide⟩, trivial⟩
  obtain ⟨hadd, hdes, hnull, hindex, -, -⟩ := hspec out gdt' hrun
  have hmem : Addition.tss 0xffff800000001048#64 0 ∈ out.map Prod.fst := by
    rw [hadd]
    simp
  obtain ⟨⟨a, selector⟩, hx, rfl⟩ := List.mem_map.1 hmem
  obtain ⟨hsel, hsystem⟩ := hdes _ hx
  have hcore : tssSegment 0 = 16#16 := by decide
  rw [hsel, hcore] at hsystem
  exact ⟨out, gdt', hrun, hindex, hnull, hsystem⟩

end Dumboss.Descriptors
