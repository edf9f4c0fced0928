import Dumboss.PageTable.Region
import Dumboss.PageTable.Source
import Dumboss.Lib.Runs

/-!
# Runs of the map functions

A run starts with a zeroed p4 table and makes calls of `map_page`, `map_2MB_page` and `map_region` on
it, with pointers into the kernel window and flags without address bits and without `PTE_HUGE_PAGE`.
Between the calls the rest of the kernel may do anything that leaves the tables alone.

* `Call`, `Event`, `step`, `Start`;
* `wp_call`: what a call does if every `map_page` in it is guarded;
* `built_of_reach`, `reachable_built`: the invariant, over runs of guarded calls, such as calls that do
  not overlap what is mapped;
* `mapRegion_exact`: what `map_region` does in a state of such a run.
-/

namespace Dumboss.PageTable

open Prog Runs

variable {ρ : Type} {src : PageSource ρ} {root : ℕ} {s s' s₀ : Kernel ρ}

/-- A call of one of the map functions. -/
inductive Call
  | page (virt kernel flags : U64)
  | page2MB (virt kernel flags : U64)
  | region (virt kernel : U64) (count : ℤ) (flags : U64)

namespace Call

/-- Make the call. -/
def run (src : PageSource ρ) (p4 : U64) : Call → Kern (Kernel ρ) Bool
  | page virt kernel flags => mapPage src p4 virt kernel flags
  | page2MB virt kernel flags => map2MBPage src p4 virt kernel flags
  | region virt kernel count flags => mapRegion src p4 virt kernel count flags

/-- What the callers respect. -/
def Legal : Call → Prop
  | page _ kernel flags => kernelSpaceBegin ≤ kernel ∧ FlagsOk flags
  | page2MB _ kernel flags => kernelSpaceBegin ≤ kernel ∧ FlagsOk flags
  | region _ kernel _ flags => kernelSpaceBegin ≤ kernel ∧ FlagsOk flags

/-- The first page, and the number of pages, of the range to be mapped. -/
def range : Call → ℕ × ℕ
  | page virt _ _ => (pageNo virt, 1)
  | page2MB virt _ _ => (pageNo virt, 512)
  | region virt _ count _ => (pageNo virt, regionPages count)

/-- No page of the range is mapped. -/
def Apart (m : Memory) (root : ℕ) (c : Call) : Prop := Free m root c.range.1 c.range.2

/-- No page of the range lies in a 2MB page. -/
def Apart2MB (m : Memory) (root : ℕ) (c : Call) : Prop :=
  ∀ i < c.range.2, hugeLeaf m root ((c.range.1 + i) % 2 ^ 36 / 512) = none

theorem Apart.apart2MB {m : Memory} {c : Call} (h : c.Apart m root) : c.Apart2MB m root :=
  fun _ hi => h.hugeLeaf_eq_none hi

end Call

/-- What happens next: a call, or the rest of the kernel changes the state to `s'`. -/
inductive Event (ρ : Type)
  | call (c : Call)
  | other (s' : Kernel ρ)

/-- The rest of the kernel leaves the tables of `root` alone. -/
structure Elsewhere (src : PageSource ρ) (root : ℕ) (s s' : Kernel ρ) : Prop where
  agree : Agree s.memory s'.memory root
  used : ∀ t, IsTable s.memory root t → t ∈ src.used s'.source
  valid : src.Valid s'.memory s'.source

/-- One event. -/
def step (src : PageSource ρ) (p4 : U64) (s : Kernel ρ) : Event ρ → Option (Kernel ρ)
  | .call c => (c.run src p4 s).toOption.map Prod.snd
  | .other s' => some s'

/-- `root` is a zeroed page that is in use. -/
structure Start (src : PageSource ρ) (root : ℕ) (s : Kernel ρ) : Prop where
  lt : root < windowPages
  used : root ∈ src.used s.source
  zero : ∀ i < 512, s.memory.word root i = 0#64
  valid : src.Valid s.memory s.source

theorem Start.built (h : Start src root s) : Built src root s where
  tree := tree_of_zero h.used h.lt h.zero
  lively := by
    intro y hy hsome
    exact absurd (table_of_zero h.zero (by omega)) hsome
  valid := h.valid

/-! ### The invariant -/

theorem Built.other (hB : Built src root s) (h : Elsewhere src root s s') : Built src root s' where
  tree := hB.tree.congr h.agree h.used
  lively := by
    intro y hy hsome
    rw [h.agree.table_eq le_rfl hy] at hsome
    obtain ⟨n, hn, hny, hf⟩ := hB.lively y hy hsome
    refine ⟨n, hn, hny, ?_⟩
    rwa [h.agree.frames_eq hn]
  valid := h.valid

/-- Every `map_page` in the call is guarded. -/
def Call.Guard (src : PageSource ρ) (root : ℕ) (s : Kernel ρ) : Call → Prop
  | page v k _ => Accepted (2 ^ 12) v k → Guarded s.memory root (pageNo v)
  | page2MB _ _ _ => True
  | region v k count flags => ∀ j s' got,
      Visits src (pagePtr root) v k flags (regionPages count) s j s' →
      Added src root s s' got (pageNo v) (pageOf k) j → j < regionPages count →
      pageOf k + j < windowPages →
      ¬ Use2MB (pagesAfter v j) (pagesAfter k j) (4096 * (regionPages count : ℤ) - 4096 * j) →
      Accepted (2 ^ 12) (pagesAfter v j) (pagesAfter k j) →
      Guarded s'.memory root ((pageNo v + j) % 2 ^ 36)

/-- **Step lemma**: a guarded call maps pages, and changes the tables for that only. -/
theorem wp_call (hB : Built src root s) {c : Call} (hl : c.Legal) (hg : c.Guard src root s) :
    wp (c.run src (pagePtr root)) (fun _ s' => ∃ got n f j, Added src root s s' got n f j) s := by
  have hmapping : ∀ {acc n f i r s'}, Mapping src root s acc n f i r s' →
      ∃ got n f j, Added src root s s' got n f j := by
    intro acc n f i r s' h
    cases h with
    | refused => exact ⟨[], n, f, 0, Added.refl hB n f⟩
    | exhausted _ hadd => exact ⟨_, _, _, _, hadd⟩
    | mapped _ hadd => exact ⟨_, _, _, _, hadd⟩
  cases c with
  | page v k flags => exact wp_mono (wp_mapPage hB hl.1 hl.2 hg) fun r s' h => hmapping h
  | page2MB v k flags => exact wp_mono (wp_map2MBPage hB hl.1 hl.2) fun r s' h => hmapping h
  | region v k count flags =>
    refine wp_mono (wp_mapRegion hB hl.1 hl.2 hg) ?_
    rintro r s' ⟨got, j, hadd⟩
    exact ⟨got, _, _, j, hadd⟩

/-- Outside of the 2MB pages there is nothing to guard against. -/
theorem Call.Apart2MB.guard {c : Call} (h : c.Apart2MB s.memory root) : c.Guard src root s := by
  cases c with
  | page v k flags =>
    have h0 : hugeLeaf s.memory root ((pageNo v + 0) % 2 ^ 36 / 512) = none := h 0 Nat.one_pos
    rw [Nat.add_zero, Nat.mod_eq_of_lt (pageNo_lt v)] at h0
    exact fun _ => guarded_of_hugeLeaf_eq_none h0
  | page2MB v k flags => trivial
  | region v k count flags =>
    intro j s' got _ hadd hj hw _ _
    refine guarded_of_hugeLeaf_eq_none (hadd.hugeLeaf_eq_none ?_ (h j hj))
    unfold windowPages at hw
    omega

/-- The state after a call that the step function made. -/
theorem step_call {p4 : U64} {c : Call} (h : step src p4 s (.call c) = some s') :
    ∃ r, c.run src p4 s = Except.ok (r, s') := by
  simp only [step] at h
  cases hrun : c.run src p4 s with
  | error e =>
    rw [hrun] at h
    cases h
  | ok p =>
    rw [hrun] at h
    obtain rfl : p.2 = s' := Option.some.inj h
    exact ⟨p.1, rfl⟩

theorem added_of_step_call (hB : Built src root s) {c : Call} (hl : c.Legal)
    (hg : c.Guard src root s) (hstep : step src (pagePtr root) s (.call c) = some s') :
    ∃ got n f j, Added src root s s' got n f j := by
  obtain ⟨r, hrun⟩ := step_call hstep
  exact wp_run hrun (wp_call hB hl hg)

/-- **Run lemma**: the invariant holds in every state of a run whose calls are guarded. -/
theorem built_of_reach {E : Kernel ρ → Event ρ → Prop}
    (hcall : ∀ {s c}, E s (.call c) → c.Legal ∧ c.Guard src root s)
    (hother : ∀ {s s'}, E s (.other s') → Elsewhere src root s s') (h0 : Built src root s₀)
    (hr : Reach (step src (pagePtr root)) E s₀ s) : Built src root s := by
  refine hr.invariant h0 ?_
  intro s e s' hB hgood hstep
  cases e with
  | call c =>
    obtain ⟨hl, hg⟩ := hcall hgood
    obtain ⟨got, n, f, j, hadd⟩ := added_of_step_call hB hl hg hstep
    exact hadd.built
  | other s₁ =>
    obtain rfl : s₁ = s' := Option.some.inj hstep
    exact hB.other (hother hgood)

/-- The events of a run without overlaps. -/
def NoOverlap (src : PageSource ρ) (root : ℕ) (s : Kernel ρ) : Event ρ → Prop
  | .call c => c.Legal ∧ c.Apart s.memory root
  | .other s' => Elsewhere src root s s'

/-- The invariant holds in every state of a run without overlaps. -/
theorem reachable_built (h0 : Start src root s₀)
    (hr : Reach (step src (pagePtr root)) (NoOverlap src root) s₀ s) : Built src root s :=
  built_of_reach (fun h => ⟨h.1, h.2.apart2MB.guard⟩) (fun h => h) h0.built hr

/-! ### `map_region` -/

/-- A page-aligned address is not mapped exactly if `translate` returns `NULL`. -/
theorem frames_eq_none_iff (hR : Readable s.memory root) {w : U64} (hw : w.toNat % 4096 = 0) :
    frames s.memory root (pageNo w) = none ↔
      translate (pagePtr root) w s = Except.ok (0#64, s) := by
  rw [translate_eq hR, translation_of_aligned hw]
  cases hf : frames s.memory root (pageNo w) with
  | none => simp [ptrOf]
  | some f =>
    have hne := pagePtr_ne_zero (hR.frames_lt (pageNo_lt_pow w) hf)
    simp [ptrOf, hne]

/-- The byte `i` of a range. -/
theorem pageNo_add {v : U64} (hv : v.toNat % 4096 = 0) (i : ℕ) :
    pageNo (v + BitVec.ofNat 64 i) = (pageNo v + i / 4096) % 2 ^ 36 ∧
      (v + BitVec.ofNat 64 i).toNat % 4096 = i % 4096 := by
  simp only [pageNo, BitVec.toNat_add, BitVec.toNat_ofNat]
  omega

theorem pagePtr_add (f i : ℕ) : pagePtr (f + i / 4096) + BitVec.ofNat 64 (i % 4096) =
    pagePtr f + BitVec.ofNat 64 i := by
  rw [pagePtr, pagePtr, ← BitVec.ofNat_add, ← BitVec.ofNat_add]
  congr 1
  omega

/-- **`map_region` builds exactly the requested mapping**, for a range that is not mapped: it returns
`true` unless `zeroed_pages` failed, the bytes before some `m` are translated as asked for, the pages
from there on are not mapped, and no other page changes. -/
theorem mapRegion_exact (h0 : Start src root s₀)
    (hr : Reach (step src (pagePtr root)) (NoOverlap src root) s₀ s) {v k flags : U64} {count : ℕ}
    (hv : v ≠ 0#64) (hv' : v.toNat % 4096 = 0) (hk : kernelSpaceBegin ≤ k)
    (hk' : k.toNat % 4096 = 0) (hvc : v.toNat + 4096 * count ≤ 2 ^ 64)
    (hkc : k.toNat + 4096 * count ≤ 2 ^ 64) (hf : FlagsOk flags)
    (hfree : ∀ i < count, translate (pagePtr root) (pagesAfter v i) s = Except.ok (0#64, s)) :
    ∃ r s' got, mapRegion src (pagePtr root) v k count flags s = Except.ok (r, s') ∧
      s'.obtained = got ++ s.obtained ∧ (r = true ↔ 0#64 ∉ got) ∧
      ∃ m, m ≤ 4096 * count ∧ 4096 ∣ m ∧ (m = 4096 * count ↔ r = true) ∧
        (∀ i < m, translate (pagePtr root) (v + BitVec.ofNat 64 i) s' =
          Except.ok (k + BitVec.ofNat 64 i, s')) ∧
        (∀ i < count, m ≤ 4096 * i →
          translate (pagePtr root) (pagesAfter v i) s' = Except.ok (0#64, s')) ∧
        ∀ w : U64, w.toNat % 4096 = 0 → (∀ i < count, pageNo w ≠ pageNo (pagesAfter v i)) →
          ∃ a, translate (pagePtr root) w s = Except.ok (a, s) ∧
            translate (pagePtr root) w s' = Except.ok (a, s') := by
  have hB := reachable_built h0 hr
  have hR := hB.tree.readable
  obtain ⟨hlt, hkeq⟩ := eq_pagePtr_pageOf hk hk'
  have hkc' : pageOf k + count ≤ windowPages := by
    rw [BitVec.le_def, kernelSpaceBegin_toNat] at hk
    rw [pageOf, kernelSpaceBegin_toNat, windowPages]
    omega
  have hc36 : count ≤ 2 ^ 36 := by
    unfold windowPages at hkc'
    omega
  have hfree' : Free s.memory root (pageNo v) count := by
    intro i hi
    rw [← pageNo_pagesAfter, frames_eq_none_iff hR (pagesAfter_mod hv' i)]
    exact hfree i hi
  obtain ⟨r, s', hrun, got, m, hadd, hres⟩ :=
    wp_mapRegion_free hB hk ⟨hv, hv', hk'⟩ hf hvc hkc' hfree'
  have hR' := hadd.built.tree.readable
  have hm : m ≤ count := by
    rcases hres with ⟨-, rfl, -⟩ | ⟨-, h, -⟩
    · exact le_rfl
    · exact h.le
  refine ⟨r, s', got, hrun, hadd.grown.obtained, ?_, 4096 * m, by omega, Dvd.intro _ rfl, ?_, ?_, ?_,
    ?_⟩
  · rcases hres with ⟨rfl, -, h⟩ | ⟨rfl, -, h⟩ <;> simp [h]
  · rcases hres with ⟨rfl, h, -⟩ | ⟨rfl, h, -⟩
    · simp [h]
    · simp only [Bool.false_eq_true, iff_false]
      omega
  · intro i hi
    obtain ⟨hno, hoff⟩ := pageNo_add hv' i
    have hframe : frames s'.memory root (pageNo (v + BitVec.ofNat 64 i)) =
        some (pageOf k + i / 4096) := by
      rw [hno, hadd.frames_eq _ (Nat.mod_lt _ (by decide)), placed, offset_add (by omega),
        if_pos (by omega)]
    rw [translate_eq hR', translation_of_frames hframe, hoff, pagePtr_add, ← hkeq]
  · intro i hi hmi
    rw [← frames_eq_none_iff hR' (pagesAfter_mod hv' i), pageNo_pagesAfter,
      hadd.frames_eq _ (Nat.mod_lt _ (by decide)), placed, offset_add (by omega),
      if_neg (by omega)]
    exact hfree' i hi
  · intro w hw hout
    have hframe : frames s'.memory root (pageNo w) = frames s.memory root (pageNo w) := by
      rw [hadd.frames_eq _ (pageNo_lt w), placed, if_neg]
      intro hlt'
      refine hout (offset (pageNo v) (pageNo w)) (by omega) ?_
      rw [pageNo_pagesAfter, add_offset (pageNo_lt w)]
    refine ⟨translation s.memory root w, translate_eq hR w, ?_⟩
    rw [translate_eq hR', translation_of_aligned hw, translation_of_aligned hw, hframe]

/-- Five free pages, and a zeroed p4 table in page 0. -/
theorem exists_start : ∃ (U : BitSet) (s : Kernel MemGlobals),
    Start (allocator 4096 U) 0 s ∧ s.source.freeSet = Set.Ico 3 8 := by
  obtain ⟨h, hr, hF, hst⟩ := exists_reachable_released (p := 3) (c := 5) (N := 4096) (by decide)
    (by decide) (by decide) (by decide) ⟨fun _ => 0#64, []⟩
  refine ⟨h.globals.usablePages, ⟨h.memory, h.globals, [], []⟩, ⟨by decide, ?_, ?_, ?_⟩, hF⟩
  · show 0 ∉ h.globals.freeSet
    rw [hF]
    simp
  · intro i hi
    exact hst.word_eq (by decide) hi (by simp)
  · exact Sound.of_reachable hr

/-- Three zeroed pages in stock, and a zeroed p4 table in page 0. -/
def threePages : Kernel (List ℕ) := ⟨⟨fun _ => 0#64, []⟩, [1, 2, 3], [], []⟩

/-- `threePages` after the page at `0x1000` was mapped to frame 9. -/
def firstPage (flags : U64) : Kernel (List ℕ) :=
  ⟨⟨fun _ => 0#64, [(cell 3 1, pte 9 flags), (cell 2 0, pte 3 flags), (cell 1 0, pte 2 flags),
    (cell 0 0, pte 1 flags)]⟩, [], [pagePtr 3, pagePtr 2, pagePtr 1], []⟩

theorem threePages_start : Start stock 0 threePages where
  lt := by decide
  used := by
    show (0 : ℕ) ∉ [1, 2, 3]
    decide
  zero _ _ := rfl
  valid := by
    refine ⟨by decide, fun q hq => ⟨?_, fun _ _ => rfl⟩⟩
    have hq' : q = 1 ∨ q = 2 ∨ q = 3 := by simpa [threePages] using hq
    rcases hq' with rfl | rfl | rfl <;> decide

theorem firstPage_reach {flags : U64} (hf : FlagsOk flags)
    (hrun : mapPage stock (pagePtr 0) 0x1000#64 (pagePtr 9) flags threePages =
      Except.ok (true, firstPage flags)) :
    Reach (step stock (pagePtr 0)) (NoOverlap stock 0) threePages (firstPage flags) := by
  refine .tail .refl (e := .call (.page 0x1000#64 (pagePtr 9) flags)) ⟨⟨?_, hf⟩, ?_⟩ ?_
  · exact kernelSpaceBegin_le_pagePtr (by decide)
  · exact fun _ _ => frames_of_zero (fun _ _ => rfl) _
  · simp only [step, Call.run, hrun]
    rfl

/-- After the page at `0x1000`, the page at `0x1FF000` and the 2MB page behind it. -/
theorem mapRegion_exact_two_leaves : ∃ s s' : Kernel (List ℕ), Start stock 0 threePages ∧
    Reach (step stock (pagePtr 0)) (NoOverlap stock 0) threePages s ∧
    mapRegion stock (pagePtr 0) 0x1FF000#64 (pagePtr 511) 513 1#64 s = Except.ok (true, s') ∧
    translate (pagePtr 0) 0x1000#64 s' = Except.ok (pagePtr 9, s') ∧
    translate (pagePtr 0) 0x1FF004#64 s' = Except.ok (pagePtr 511 + 4#64, s') ∧
    translate (pagePtr 0) 0x3FFFFF#64 s' = Except.ok (pagePtr 511 + 0x200FFF#64, s') := by
  have hflags : FlagsOk 1#64 := ⟨by decide, by decide, by decide⟩
  have hreach := firstPage_reach hflags rfl
  have hnone : ∀ i < 513, frames (firstPage 1#64).memory 0 (pageNo (pagesAfter 0x1FF000#64 i)) = none := by
    decide +kernel
  have hfree : ∀ i < 513, translate (pagePtr 0) (pagesAfter 0x1FF000#64 i) (firstPage 1#64) =
      Except.ok (0#64, firstPage 1#64) := by
    intro i hi
    rw [← frames_eq_none_iff (reachable_built threePages_start hreach).tree.readable
      (pagesAfter_mod (by decide) i)]
    exact hnone i hi
  obtain ⟨r, s', got, hrun, hgot, hr, m, -, -, hm, htr, -, hkept⟩ := mapRegion_exact threePages_start
    hreach (by decide) (by decide) (kernelSpaceBegin_le_pagePtr (f := 511) (by decide)) (by decide)
    (by decide) (by decide) hflags hfree
  obtain rfl : r = true := by
    -- the page tables are there already
    have hobtained : (mapRegion stock (pagePtr 0) 0x1FF000#64 (pagePtr 511) (513 : ℕ) 1#64
        (firstPage 1#64)).toOption.map (fun r => r.2.obtained) = some (firstPage 1#64).obtained := rfl
    rw [hrun] at hobtained
    have hnil : got = [] := List.append_left_eq_self.1 (hgot.symm.trans (Option.some.inj hobtained))
    rw [hr, hnil]
    simp
  have hpages : m = 4096 * 513 := hm.2 rfl
  obtain ⟨a, hbefore, hafter⟩ := hkept 0x1000#64 (by decide) (by decide +kernel)
  have ha : Except.ok (a, firstPage 1#64) = Except.ok (pagePtr 9, firstPage 1#64) := hbefore.symm.trans rfl
  rw [(Prod.mk.inj (Except.ok.inj ha)).1] at hafter
  exact ⟨firstPage 1#64, s', threePages_start, hreach, hrun, hafter, htr 4 (by omega),
    htr 0x200FFF (by omega)⟩

end Dumboss.PageTable
