import Dumboss.PageTable.BootTable
import Dumboss.PageTable.Demand
import Dumboss.PageTable.Writes

/-!
# The kernel's own page table

When the allocator is ready, `memory__init` builds a page table with `map_region` and `copy_mapping`,
switches to it and gives the table of the boot loader to the allocator.  The memory of the kernel image
is laid out by `link.ld`.  Access rights are left out here: `CR0.WP` is taken to be clear.

* `Image`, `Image.copies`: the layout, and the ranges that are copied from the old table;
* `buildTable`, `switchTables`: the code;
* `Progress`: the invariant while the table is built; one step for each range;
* `switchTables_maps`: with enough memory the code returns, and what is mapped then.
-/

namespace Dumboss.PageTable

open Prog

/-! ### The layout -/

/-- `fb`. -/
def fb : U64 := 0xfffffffffc000000#64

/-- `bb`. -/
def bb : U64 := 0xffffffffffe00000#64

/-- `environment`. -/
def environment : U64 := 0xffffffffffe01000#64

/-- `code_begin`. -/
def codeBegin : U64 := 0xffffffffffe02000#64

/-- The page of the boot loader's stack. -/
def bootStack : U64 := 0xfffffffffffff000#64

@[simp] theorem fb_toNat : fb.toNat = 0xfffffffffc000000 := rfl

@[simp] theorem bb_toNat : bb.toNat = 0xffffffffffe00000 := rfl

@[simp] theorem environment_toNat : environment.toNat = 0xffffffffffe01000 := rfl

@[simp] theorem codeBegin_toNat : codeBegin.toNat = 0xffffffffffe02000 := rfl

@[simp] theorem bootStack_toNat : bootStack.toNat = 0xfffffffffffff000 := rfl

/-- The symbols that `link.ld` computes, and `bb.fb_size`.  The image ends before the stack, and the frame
buffer before `bb`. -/
structure Image where
  codeEnd : U64
  bssEnd : U64
  fbSize : ℕ
  codeEnd_aligned : codeEnd.toNat % 4096 = 0
  bssEnd_aligned : bssEnd.toNat % 4096 = 0
  code_le : codeBegin.toNat ≤ codeEnd.toNat
  bss_le : codeEnd.toNat ≤ bssEnd.toNat
  bss_end : bssEnd.toNat ≤ bootStack.toNat
  fb_end : fb.toNat + fbSize ≤ bb.toNat

/-- The arguments of a call of `copy_mapping`. -/
structure Copy where
  virt : U64
  count : ℕ
  flags : U64

/-- The pages of the range. -/
def Copy.range (c : Copy) : Set ℕ := Set.Ico (pageNo c.virt) (pageNo c.virt + c.count)

namespace Image

variable (im : Image)

theorem bounds : 0xffffffffffe02000 ≤ im.codeEnd.toNat ∧ im.codeEnd.toNat ≤ im.bssEnd.toNat ∧
    im.bssEnd.toNat ≤ 0xfffffffffffff000 ∧ im.fbSize ≤ 0x3e00000 := by
  have hcode := im.code_le
  have hbss := im.bss_end
  have hfb := im.fb_end
  rw [codeBegin_toNat] at hcode
  rw [bootStack_toNat] at hbss
  rw [fb_toNat, bb_toNat] at hfb
  exact ⟨hcode, im.bss_le, hbss, by omega⟩

/-- What is copied, in the order of the calls. -/
def copies : List Copy :=
  [⟨codeBegin, (im.codeEnd.toNat - codeBegin.toNat) / 4096, pteKernelExe⟩,
    ⟨im.codeEnd, (im.bssEnd.toNat - im.codeEnd.toNat) / 4096, pteKernel⟩,
    ⟨bb, 1, pteKernel⟩, ⟨environment, 1, pteKernel⟩, ⟨bootStack, 1, pteKernel⟩,
    ⟨fb, (im.fbSize + 4095) / 4096, pteKernel⟩]

/-- A bound for the pages that the new table takes. -/
def demand (endPage : ℕ) : ℕ :=
  1 + regionDemand kernelSpaceBegin kernelSpaceBegin endPage +
    (im.copies.map fun c => 3 * c.count).sum

end Image

/-! ### The code -/

section Code

variable {ρ : Type}

/-- A call of `copy_mapping`, and the assertion after it. -/
def copyOrFail (src : PageSource ρ) (new old virt : U64) (count : ℤ) (flags : U64) :
    Kern (Kernel ρ) Unit := do
  let res ← copyMapping src new old virt count flags
  assert (res = true) (.failed "res")

/-- The part of `memory__init` that builds the new table. -/
def buildTable (src : PageSource ρ) (endPage : ℕ) (im : Image) (old : U64) : Kern (Kernel ρ) U64 := do
  let new ← zeroedPage src
  assert (new ≠ 0#64) (.failed "new")
  let target ← kernelPtr 0#64
  let res ← mapRegion src new target target endPage pteKernel
  assert (res = true) (.failed "res")
  let codeSize := (im.codeEnd - codeBegin).toInt
  let bssSize := (im.bssEnd - im.codeEnd).toInt
  copyOrFail src new old codeBegin (codeSize.tdiv 4096) pteKernelExe
  copyOrFail src new old im.codeEnd (bssSize.tdiv 4096) pteKernel
  copyOrFail src new old bb 1 pteKernel
  copyOrFail src new old environment 1 pteKernel
  copyOrFail src new old bootStack 1 pteKernel
  let fbSize ← alignUp im.fbSize 4096
  copyOrFail src new old fb ((fbSize % 2 ^ 32 / 4096 : ℕ) : ℤ) pteKernel
  return new

/-- `validate_heap`. -/
def validate (fuel : ℕ) : Kern (Kernel MemGlobals) Unit := fun s =>
  match onHeap (validateHeap fuel) (s.memory, s.source) with
  | .ok (_, m, g) => .ok ((), { s with memory := m, source := g })
  | .error e => .error e

/-- The part of `memory__init` from `get_page_table` to the last `validate_heap`; `cr3` is the register,
before and after.  Memory is read and written after `set_page_table` as it was before, whatever the access
rights in the new table: that is so in ring 0 while `CR0.WP` is clear.  (With `CR0.WP` set the next store
to `MemGlobals` would fault; see `Protected.data`.) -/
def switchTables (N : ℕ) (U : BitSet) (fuel endPage : ℕ) (im : Image) (cr3 : U64) :
    Kern (Kernel MemGlobals) U64 := do
  let old ← kernelPtr cr3
  let new ← buildTable (allocator N U) endPage im old
  let cr3 ← physicalAddress new
  validate fuel
  destroyBootbootTable old
  validate fuel
  return cr3

theorem tdiv_sub {a b : U64} (hab : a.toNat ≤ b.toNat) (hlt : b.toNat - a.toNat < 2 ^ 63) :
    (b - a).toInt.tdiv 4096 = ((b.toNat - a.toNat) / 4096 : ℕ) := by
  have hnat : (b - a).toNat = b.toNat - a.toNat := BitVec.toNat_sub_of_le hab
  rw [BitVec.toInt_eq_toNat_of_lt (by omega), hnat]
  rfl

/-- The calls of `copy_mapping` are those of `Image.copies`. -/
theorem buildTable_eq (src : PageSource ρ) (endPage : ℕ) (im : Image) (old : U64) :
    buildTable src endPage im old = (do
      let new ← zeroedPage src
      assert (new ≠ 0#64) (.failed "new")
      let res ← mapRegion src new kernelSpaceBegin kernelSpaceBegin endPage pteKernel
      assert (res = true) (.failed "res")
      im.copies.forM fun c => copyOrFail src new old c.virt c.count c.flags
      return new) := by
  obtain ⟨h1, h2, h3, h4⟩ := im.bounds
  have hcode : (im.codeEnd - codeBegin).toInt.tdiv 4096 =
      ((im.codeEnd.toNat - codeBegin.toNat) / 4096 : ℕ) :=
    tdiv_sub im.code_le (by rw [codeBegin_toNat]; omega)
  have hbss : (im.bssEnd - im.codeEnd).toInt.tdiv 4096 =
      ((im.bssEnd.toNat - im.codeEnd.toNat) / 4096 : ℕ) := tdiv_sub im.bss_le (by omega)
  have hfb : (alignUp im.fbSize 4096 : Kern (Kernel ρ) ℕ) = pure ((im.fbSize + 4095) / 4096 * 4096) := rfl
  have hfb' : (im.fbSize + 4095) / 4096 * 4096 % 2 ^ 32 / 4096 = (im.fbSize + 4095) / 4096 := by
    omega
  have htarget : (kernelPtr 0#64 : Kern (Kernel ρ) U64) = pure kernelSpaceBegin := rfl
  simp only [buildTable, hcode, hbss, hfb, hfb', htarget, pure_bind, Image.copies, List.forM,
    bind_assoc, Nat.cast_one]

end Code

/-! ### The ranges -/

/-- Pages at the end of the address space. -/
theorem pageNo_high {v : U64} (hv : 0xfffffffffc000000 ≤ v.toNat) :
    pageNo v + (2 ^ 52 - 2 ^ 36) = v.toNat / 4096 := by
  have := v.isLt
  rw [pageNo]
  omega

theorem Copy.disjoint {c c' : Copy} (hlow : 0xfffffffffc000000 ≤ c.virt.toNat)
    (hal : c.virt.toNat % 4096 = 0) (hle : c.virt.toNat + 4096 * c.count ≤ c'.virt.toNat) :
    Disjoint c.range c'.range := by
  have h := pageNo_high hlow
  have h' := pageNo_high (hlow.trans (by omega : c.virt.toNat ≤ c'.virt.toNat))
  rw [Set.disjoint_left]
  rintro n ⟨-, hn⟩ ⟨hn', -⟩
  omega

namespace Image

variable (im : Image) {c : Copy}

theorem aligned (hc : c ∈ im.copies) : c.virt.toNat % 4096 = 0 := by
  have hcode : codeBegin.toNat % 4096 = 0 := by decide
  have hfb : fb.toNat % 4096 = 0 := by decide
  simp only [copies, List.mem_cons, List.not_mem_nil, or_false] at hc
  rcases hc with rfl | rfl | rfl | rfl | rfl | rfl
  exacts [hcode, im.codeEnd_aligned, by decide, by decide, by decide, hfb]

theorem flagsOk (hc : c ∈ im.copies) : FlagsOk c.flags := by
  have hk : FlagsOk pteKernel := ⟨by decide, by decide, by decide⟩
  have hx : FlagsOk pteKernelExe := ⟨by decide, by decide, by decide⟩
  simp only [copies, List.mem_cons, List.not_mem_nil, or_false] at hc
  rcases hc with rfl | rfl | rfl | rfl | rfl | rfl
  exacts [hx, hk, hk, hk, hk, hk]

/-- All ranges lie in the last 64MB of the address space. -/
theorem virt_bounds (hc : c ∈ im.copies) : 0xfffffffffc000000 ≤ c.virt.toNat ∧
    c.virt.toNat + 4096 * c.count ≤ 2 ^ 64 := by
  obtain ⟨h1, h2, h3, h4⟩ := im.bounds
  simp only [copies, List.mem_cons, List.not_mem_nil, or_false] at hc
  rcases hc with rfl | rfl | rfl | rfl | rfl | rfl <;> simp only [codeBegin_toNat, bb_toNat, fb_toNat,
    environment_toNat, bootStack_toNat] <;> omega

/-- Behind `bb` there are `environment`, the code, the data and the stack, in this order. -/
theorem pairwise_disjoint : im.copies.Pairwise fun c c' => Disjoint c.range c'.range := by
  have hsep : ∀ c ∈ im.copies, ∀ c' ∈ im.copies,
      (c.virt.toNat + 4096 * c.count ≤ c'.virt.toNat ∨
        c'.virt.toNat + 4096 * c'.count ≤ c.virt.toNat) → Disjoint c.range c'.range := by
    rintro c hc c' hc' (h | h)
    · exact Copy.disjoint (im.virt_bounds hc).1 (im.aligned hc) h
    · exact (Copy.disjoint (im.virt_bounds hc').1 (im.aligned hc') h).symm
  refine List.Pairwise.imp_of_mem (fun hc hc' h => hsep _ hc _ hc' h) ?_
  obtain ⟨h1, h2, h3, h4⟩ := im.bounds
  simp only [copies, List.pairwise_cons, List.forall_mem_cons, List.not_mem_nil, false_imp_iff,
    implies_true, and_true, List.Pairwise.nil, codeBegin_toNat, bb_toNat, fb_toNat, environment_toNat,
    bootStack_toNat]
  omega

end Image

/-! ### Building the table -/

section Build

variable {N old new endPage k : ℕ} {U : BitSet} {s s₁ s₂ : Kernel MemGlobals} {D : Set ℕ}

/-- Where page `n` is to be mapped. -/
def goal (m : Memory) (old endPage n : ℕ) : Option ℕ :=
  if 2 ^ 35 ≤ n ∧ n < 2 ^ 35 + endPage then some (n - 2 ^ 35) else frames m old n

/-- **The invariant** while the table is built: from `s` to `s₁` at most `k` pages were taken, all for
tables; the pages `D` are mapped, and no others. -/
structure Progress (N : ℕ) (U : BitSet) (old new endPage k : ℕ) (s s₁ : Kernel MemGlobals) (D : Set ℕ) :
    Prop where
  built : Built (allocator N U) new s₁
  free_iff : ∀ p, p ∈ s₁.source.freeSet ↔ p ∈ s.source.freeSet ∧ ¬ IsTable s₁.memory new p
  was_free : ∀ {t}, IsTable s₁.memory new t → t ∈ s.source.freeSet
  word : ∀ p ∉ s.source.freeSet, p < windowPages → ∀ i < 512, s₁.memory.word p i = s.memory.word p i
  left : s.source.freeSet.ncard ≤ s₁.source.freeSet.ncard + k
  mapped : ∀ n < 2 ^ 36, n ∈ D → frames s₁.memory new n = goal s.memory old endPage n
  empty : ∀ n < 2 ^ 36, n ∉ D → frames s₁.memory new n = none

theorem offset_lt_iff {n c p : ℕ} (hn : n + c ≤ 2 ^ 36) (hp : p < 2 ^ 36) :
    offset n p < c ↔ p ∈ Set.Ico n (n + c) := by
  rw [offset, Set.mem_Ico]
  omega

theorem n_add_offset {n c p : ℕ} (hn : n + c ≤ 2 ^ 36) (hp : p ∈ Set.Ico n (n + c)) :
    n + offset n p = p := by
  rw [Set.mem_Ico] at hp
  rw [offset]
  omega

namespace Progress

/-- **Step lemma**: one more range. -/
theorem add (hP : Progress N U old new endPage k s s₁ D) {got : List U64} {n f c j : ℕ}
    (hadd : Added (allocator N U) new s₁ s₂ got n f c) (hle : got.length ≤ j) (hn : n + c ≤ 2 ^ 36)
    (hgoal : ∀ i < c, goal s.memory old endPage (n + i) = some (f + i)) :
    Progress N U old new endPage (k + j) s s₂ (D ∪ Set.Ico n (n + c)) where
  built := hadd.built
  free_iff := by
    intro p
    have hused : p ∉ s₂.source.freeSet ↔ p ∉ s₁.source.freeSet ∨ p ∈ pagesOf got := hadd.grown.used p
    have hfree := hP.free_iff p
    rw [hadd.grown.isTable]
    tauto
  was_free := by
    intro t ht
    rcases (hadd.grown.isTable t).1 ht with h | h
    · exact hP.was_free h
    · exact ((hP.free_iff t).1 (not_not.1 (hadd.grown.fresh t h))).1
  word := by
    intro p hp hlt i hi
    have hused : p ∈ (allocator N U).used s₁.source := fun h => hp ((hP.free_iff p).1 h).1
    rw [hadd.grown.word p hused hlt (fun h => hp (hP.was_free h)) i hi, hP.word p hp hlt i hi]
  left := by
    have h₁ := hP.left
    have h₂ := hadd.grown.ncard_le hle
    omega
  mapped := by
    intro p hp hD
    rw [hadd.frames_eq p hp, placed]
    by_cases hmem : p ∈ Set.Ico n (n + c)
    · have hlt := (offset_lt_iff hn hp).2 hmem
      rw [if_pos hlt, ← hgoal _ hlt, n_add_offset hn hmem]
    · rw [if_neg fun h => hmem ((offset_lt_iff hn hp).1 h)]
      exact hP.mapped p hp (hD.resolve_right hmem)
  empty := by
    intro p hp hD
    rw [Set.mem_union, not_or] at hD
    rw [hadd.frames_eq p hp, placed, if_neg fun h => hD.2 ((offset_lt_iff hn hp).1 h)]
    exact hP.empty p hp hD.1

/-- A range that is not mapped yet. -/
theorem free (hP : Progress N U old new endPage k s s₁ D) {n c : ℕ} (hn : n + c ≤ 2 ^ 36)
    (hdis : Disjoint (Set.Ico n (n + c)) D) : Free s₁.memory new n c := by
  intro i hi
  rw [Nat.mod_eq_of_lt (by omega)]
  exact hP.empty _ (by omega) (Set.disjoint_left.1 hdis ⟨by omega, by omega⟩)

/-- The tables of the boot loader are as they were. -/
theorem agree (hP : Progress N U old new endPage k s s₁ D)
    (hT : Tree s.memory old {p | p ∉ s.source.freeSet}) : Agree s.memory s₁.memory old :=
  fun t ht i hi => hP.word t (hT.mem_used ht) (hT.table_lt ht) i hi

end Progress

/-- `map_region` on the kernel window. -/
theorem wp_mapWindow (hP : Progress N U old new endPage k s s₁ ∅) (hend : endPage ≤ windowPages)
    (hmem : regionDemand kernelSpaceBegin kernelSpaceBegin endPage ≤ s₁.source.freeSet.ncard) :
    wp (mapRegion (allocator N U) (pagePtr new) kernelSpaceBegin kernelSpaceBegin endPage pteKernel)
      (fun r s₂ => r = true ∧ Progress N U old new endPage
        (k + regionDemand kernelSpaceBegin kernelSpaceBegin endPage) s s₂
        (Set.Ico (2 ^ 35) (2 ^ 35 + endPage)) ∧
        StampedOn pteKernel (Set.Ico (2 ^ 35) (2 ^ 35 + endPage)) new s₁.memory s₂.memory) s₁ := by
  have hno : pageNo kernelSpaceBegin = 2 ^ 35 := rfl
  have hpage : pageOf kernelSpaceBegin = 0 := rfl
  unfold windowPages at hend
  have hflags : FlagsOk pteKernel := ⟨by decide, by decide, by decide⟩
  have hfree : Free s₁.memory new (pageNo kernelSpaceBegin) endPage := by
    rw [hno]
    exact hP.free (by omega) (Set.disjoint_empty _)
  have hmap := wp_mapRegion_free (c := endPage) hP.built (v := kernelSpaceBegin) (k := kernelSpaceBegin)
    (BitVec.le_refl _) ⟨by decide, by decide, by decide⟩ hflags
    (by rw [kernelSpaceBegin_toNat]; omega) (by rw [hpage]; unfold windowPages; omega) hfree
  have hwrites : wp (mapRegion (allocator N U) (pagePtr new) kernelSpaceBegin kernelSpaceBegin endPage
      pteKernel) (fun _ s₂ => StampedOn pteKernel (Set.Ico (2 ^ 35) (2 ^ 35 + endPage)) new s₁.memory
        s₂.memory) s₁ := by
    refine wp_mapRegion_closed (closed_stampedOn hflags) hflags hP.built (BitVec.le_refl _) ?_ ?_
    · intro j hj
      rw [regionPages_eq (by omega)] at hj
      rw [hno, Nat.mod_eq_of_lt (by omega)]
      exact ⟨by omega, by omega⟩
    · rwa [regionPages_eq (by omega)]
  have hask := within_mapRegion (dries_allocator (N := N) (U := U)) (pagePtr new) kernelSpaceBegin
    kernelSpaceBegin endPage pteKernel
  rw [regionPages_eq (by omega)] at hask
  refine wp_mono (wp_and (wp_enough hmap hask hmem) hwrites) ?_
  rintro r s₂ ⟨⟨rfl, got, hadd, -, hle⟩, hst⟩
  rw [hno, hpage] at hadd
  have h := hP.add hadd hle (by omega) (fun i hi => ?_)
  · rw [Set.empty_union] at h
    exact ⟨rfl, h, hst⟩
  · rw [goal, if_pos (by omega), Nat.add_sub_cancel_left, Nat.zero_add]

/-- What `copy_mapping` needs for a range: it is one run in the old table. -/
def Copyable (m : Memory) (old : ℕ) (c : Copy) : Prop := ∃ f, Run m old (pageNo c.virt) f c.count

/-- The ranges `cs`, none of which was mapped, are mapped one after the other. -/
inductive Stamps (new : ℕ) : List Copy → Memory → Memory → Prop
  | nil (m : Memory) : Stamps new [] m m
  | cons {m m' m'' : Memory} {c : Copy} {cs : List Copy} (h : Stamped c.flags new m m')
      (hfree : ∀ n ∈ c.range, frames m new n = none) (hmapped : ∀ n ∈ c.range, frames m' new n ≠ none)
      (hrest : Stamps new cs m' m'') : Stamps new (c :: cs) m m''

/-- A call of `copy_mapping`. -/
theorem wp_copyOrFail (hP : Progress N U old new endPage k s s₁ D)
    (hT : Tree s.memory old {p | p ∉ s.source.freeSet}) {im : Image} {c : Copy} (hc : c ∈ im.copies)
    (hend : endPage + 2 ^ 14 ≤ windowPages) (hrun : Copyable s.memory old c)
    (hdis : Disjoint c.range D) (hmem : 3 * c.count ≤ s₁.source.freeSet.ncard) :
    wp (copyOrFail (allocator N U) (pagePtr new) (pagePtr old) c.virt c.count c.flags)
      (fun _ s₂ => Progress N U old new endPage (k + 3 * c.count) s s₂ (D ∪ c.range) ∧
        Stamps new [c] s₁.memory s₂.memory) s₁ := by
  have hal := im.aligned hc
  obtain ⟨hlow, hhigh⟩ := im.virt_bounds hc
  have hno := pageNo_high hlow
  unfold windowPages at hend
  have hn : pageNo c.virt + c.count ≤ 2 ^ 36 := by omega
  have hbase : pageBase c.virt = c.virt := by
    refine BitVec.eq_of_toNat_eq ?_
    rw [pageBase, BitVec.toNat_ofNat]
    omega
  rw [copyOrFail, wp_bind]
  rcases Nat.eq_zero_or_pos c.count with h0 | hpos
  · rw [copyMapping_eq, h0, copyMappingLoop, if_neg (by simp), wp_pure, wp_assert]
    have hrange : c.range = ∅ := by rw [Copy.range, h0, Nat.add_zero, Set.Ico_self]
    rw [hrange, Set.union_empty]
    refine ⟨rfl, hP, .cons (.refl _ _ _) ?_ ?_ (.nil _)⟩
    · exact fun n hn => absurd (hrange ▸ hn) (Set.notMem_empty n)
    · exact fun n hn => absurd (hrange ▸ hn) (Set.notMem_empty n)
  · obtain ⟨f, hf⟩ := hrun
    have hagree := hP.agree hT
    have hR : Readable s₁.memory old := hagree.readable hT.readable
    have hf' : Run s₁.memory old (pageNo c.virt) f c.count := by
      intro i hi
      have hlt : (pageNo c.virt + i) % 2 ^ 36 < 512 ^ 4 := Nat.mod_lt _ (by decide)
      rw [hagree.frames_eq hlt]
      exact hf i hi
    have hne : c.virt ≠ 0#64 := by
      intro h
      rw [h, BitVec.toNat_zero] at hlow
      omega
    have hcopy : copyMapping (allocator N U) (pagePtr new) (pagePtr old) c.virt c.count c.flags = _ :=
      copyMapping_eq _ _ c.virt c.count c.flags
    rw [hbase, show c.count + 1 = c.count - 1 + 2 by omega] at hcopy
    have hfree := hP.free hn hdis
    have hmap : wp (copyMappingLoop (allocator N U) (pagePtr new) (pagePtr old) c.virt c.flags
        (c.count - 1 + 2) c.count) _ s₁ :=
      wp_copyMappingLoop_run hP.built hR hne hal (im.flagsOk hc) hpos hhigh hf' hfree
    have hwrites : wp (copyMappingLoop (allocator N U) (pagePtr new) (pagePtr old) c.virt c.flags
        (c.count - 1 + 2) c.count) (fun _ s₂ => StampedOn c.flags Set.univ new s₁.memory s₂.memory) s₁ :=
      wp_copyMappingLoop_closed (closed_stampedOn (im.flagsOk hc)) (im.flagsOk hc) hP.built hR hal hpos
        hhigh hf' hfree fun _ _ => Set.mem_univ _
    rw [← hcopy] at hmap hwrites
    have hask := within_copyMapping (dries_allocator (N := N) (U := U)) (pagePtr new) (pagePtr old)
      c.virt c.count c.flags
    rw [Int.toNat_natCast] at hask
    refine wp_mono (wp_and (wp_enough hmap hask hmem) hwrites) ?_
    rintro r s₂ ⟨⟨rfl, got, hadd, -, hle⟩, hst⟩
    have hgoal : ∀ i < c.count, goal s.memory old endPage (pageNo c.virt + i) = some (f + i) := by
      intro i hi
      rw [goal, if_neg (by omega), ← hf i hi, Nat.mod_eq_of_lt (by omega)]
    have hP' := hP.add hadd hle hn hgoal
    rw [wp_assert]
    refine ⟨rfl, hP', .cons hst.stamped ?_ ?_ (.nil _)⟩
    · rintro n ⟨hle, hlt⟩
      exact hP.empty n (by omega) (Set.disjoint_left.1 hdis ⟨hle, hlt⟩)
    · rintro n ⟨hle, hlt⟩
      obtain ⟨i, rfl⟩ := Nat.exists_eq_add_of_le hle
      rw [hP'.mapped _ (by omega) (Or.inr ⟨hle, hlt⟩), hgoal i (by omega)]
      exact Option.some_ne_none _

/-- All calls of `copy_mapping`. -/
theorem wp_copies (hP : Progress N U old new endPage k s s₁ D)
    (hT : Tree s.memory old {p | p ∉ s.source.freeSet}) {im : Image}
    (hend : endPage + 2 ^ 14 ≤ windowPages) (cs : List Copy) (hcs : ∀ c ∈ cs, c ∈ im.copies)
    (hrun : ∀ c ∈ cs, Copyable s.memory old c) (hdis : ∀ c ∈ cs, Disjoint c.range D)
    (hpair : cs.Pairwise fun c c' => Disjoint c.range c'.range)
    (hmem : k + (cs.map fun c => 3 * c.count).sum ≤ s.source.freeSet.ncard) :
    wp (cs.forM fun c => copyOrFail (allocator N U) (pagePtr new) (pagePtr old) c.virt c.count c.flags)
      (fun _ s₂ => Progress N U old new endPage (k + (cs.map fun c => 3 * c.count).sum) s s₂
        (D ∪ ⋃ c ∈ cs, c.range) ∧ Stamps new cs s₁.memory s₂.memory) s₁ := by
  induction cs generalizing k s₁ D with
  | nil =>
    simp only [List.forM, wp_pure]
    exact ⟨by simpa using hP, .nil _⟩
  | cons c cs ih =>
    rw [List.map_cons, List.sum_cons] at hmem ⊢
    have hleft := hP.left
    obtain ⟨hc, hpair'⟩ := List.pairwise_cons.1 hpair
    simp only [List.forM, wp_bind]
    refine wp_mono (wp_copyOrFail hP hT (hcs c (by simp)) hend (hrun c (by simp)) (hdis c (by simp))
      (by omega)) ?_
    rintro _ s₂ ⟨hP', hst⟩
    cases hst with | cons hst hfree hmapped hnil =>
    cases hnil
    have hdis' : ∀ c' ∈ cs, Disjoint c'.range (D ∪ c.range) := fun c' hc' =>
      Set.disjoint_union_right.2 ⟨hdis c' (by simp [hc']), (hc c' hc').symm⟩
    have hrest := ih hP' (fun c' hc' => hcs c' (by simp [hc'])) (fun c' hc' => hrun c' (by simp [hc']))
      hdis' hpair' (by omega)
    rw [Nat.add_assoc, Set.union_assoc] at hrest
    refine wp_mono hrest ?_
    rintro _ s₃ ⟨hP₃, hst₃⟩
    refine ⟨?_, .cons hst hfree hmapped hst₃⟩
    simpa only [List.mem_cons, Set.iUnion_iUnion_eq_or_left] using hP₃

/-- The p4 table. -/
theorem wp_zeroedPage_progress (hs : Sound N U s.memory s.source) (hmem : 0 < s.source.freeSet.ncard) :
    wp (zeroedPage (allocator N U)) (fun ptr s₁ => ∃ new, new < windowPages ∧ ptr = pagePtr new ∧
      Progress N U old new endPage 1 s s₁ ∅ ∧ ∀ i < 512, s₁.memory.word new i = 0#64) s := by
  obtain ⟨ptr, ⟨m, g⟩, hrun, ⟨hv, hfresh⟩, hnull⟩ :=
    wp_onHeap (Q := fun ptr t => (Sound N U t.1 t.2 ∧ FreshPage {p | p ∉ s.source.freeSet}
      {p | p ∉ t.2.freeSet} s.memory t.1 ptr) ∧ (ptr = 0#64 → s.source.freeSet = ∅))
      (wp_zeroedPages_one hs)
  have hne : ptr ≠ 0#64 := by
    intro h0
    rw [hnull h0, Set.ncard_empty] at hmem
    omega
  obtain ⟨new, hlt, hfree, rfl, hused, hzero⟩ := hfresh.page.resolve_left fun h => hne h.1
  have hfree' : new ∈ s.source.freeSet := not_not.1 hfree
  have hmem_iff : ∀ p, p ∉ g.freeSet ↔ p = new ∨ p ∉ s.source.freeSet := fun p => Set.ext_iff.1 hused p
  refine ⟨_, _, zeroedPage_eq hrun, new, hlt, rfl, ?_⟩
  have hstart : Start (allocator N U) new
      { s with memory := m, source := g, obtained := pagePtr new :: s.obtained } :=
    ⟨hlt, (hmem_iff new).2 (Or.inl rfl), hzero, hv⟩
  refine ⟨⟨hstart.built, ?_, ?_, fun p hp hlt i hi => hfresh.words p hp hlt i hi, ?_,
    fun n _ h => h.elim, fun n _ _ => frames_of_zero hzero n⟩, hzero⟩
  · intro p
    rw [isTable_of_zero hzero]
    have := hmem_iff p
    change p ∈ g.freeSet ↔ _
    tauto
  · intro t ht
    rw [isTable_of_zero hzero] at ht
    rwa [ht]
  · have hsub : s.source.freeSet ⊆ insert new g.freeSet := by
      intro p hp
      by_contra h
      rw [Set.mem_insert_iff, not_or] at h
      exact ((hmem_iff p).1 h.2).elim h.1 fun hnot => hnot hp
    obtain ⟨-, hfin⟩ := Inv.freeMemory_eq_ncard hv.inv
    exact (Set.ncard_le_ncard hsub (hfin.insert new)).trans (Set.ncard_insert_le new g.freeSet)

/-- The pages that the new table maps. -/
def mappedPages (endPage : ℕ) (im : Image) : Set ℕ :=
  Set.Ico (2 ^ 35) (2 ^ 35 + endPage) ∪ ⋃ c ∈ im.copies, c.range

/-- What is written to the new table: it is empty at first, and then the memory is mapped, and then the
image. -/
def Written (endPage : ℕ) (im : Image) (new : ℕ) (m : Memory) : Prop :=
  ∃ m₁ m₂, (∀ i < 512, m₁.word new i = 0#64) ∧
    StampedOn pteKernel (Set.Ico (2 ^ 35) (2 ^ 35 + endPage)) new m₁ m₂ ∧
    (∀ n ∈ Set.Ico (2 ^ 35) (2 ^ 35 + endPage), frames m₂ new n ≠ none) ∧ Stamps new im.copies m₂ m

/-- The whole construction: no assertion fails. -/
theorem wp_buildTable (hs : Sound N U s.memory s.source)
    (hT : Tree s.memory old {p | p ∉ s.source.freeSet}) {im : Image}
    (hend : endPage + 2 ^ 14 ≤ windowPages) (hrun : ∀ c ∈ im.copies, Copyable s.memory old c)
    (hmem : im.demand endPage ≤ s.source.freeSet.ncard) :
    wp (buildTable (allocator N U) endPage im (pagePtr old)) (fun ptr s₁ => ∃ new, new < windowPages ∧
      ptr = pagePtr new ∧
      Progress N U old new endPage (im.demand endPage) s s₁ (mappedPages endPage im) ∧
      Written endPage im new s₁.memory) s := by
  rw [Image.demand] at hmem
  rw [buildTable_eq]
  simp only [wp_bind, wp_assert, wp_pure]
  have hpage : wp (zeroedPage (allocator N U)) (fun ptr s₁ => ∃ new, new < windowPages ∧
      ptr = pagePtr new ∧ Progress N U old new endPage 1 s s₁ ∅ ∧
      ∀ i < 512, s₁.memory.word new i = 0#64) s := wp_zeroedPage_progress hs (by omega)
  refine wp_mono hpage ?_
  rintro _ s₁ ⟨new, hlt, rfl, hP, hzero⟩
  refine ⟨pagePtr_ne_zero hlt, ?_⟩
  have hleft := hP.left
  refine wp_mono (wp_mapWindow hP (by omega) (by omega)) ?_
  rintro _ s₂ ⟨rfl, hP₂, hwin⟩
  refine ⟨rfl, ?_⟩
  -- the window ends before the ranges that are copied
  have hdis : ∀ c ∈ im.copies, Disjoint c.range (Set.Ico (2 ^ 35) (2 ^ 35 + endPage)) := by
    intro c hc
    have hno := pageNo_high (im.virt_bounds hc).1
    have hlow := (im.virt_bounds hc).1
    rw [Set.disjoint_left]
    rintro n ⟨hn, -⟩ ⟨-, hn'⟩
    unfold windowPages at hend
    omega
  refine wp_mono (wp_copies hP₂ hT hend im.copies (fun c hc => hc) hrun hdis im.pairwise_disjoint hmem) ?_
  rintro _ s₃ ⟨hP₃, hst⟩
  refine ⟨new, hlt, rfl, hP₃, s₁.memory, s₂.memory, hzero, hwin, ?_, hst⟩
  intro n hn
  unfold windowPages at hend
  obtain ⟨hge, hlt'⟩ := hn
  rw [hP₂.mapped n (by omega) ⟨hge, hlt'⟩, goal, if_pos ⟨hge, hlt'⟩]
  exact Option.some_ne_none _

end Build

/-! ### The switch -/

section Switch

variable {N old new endPage fuel : ℕ} {U : BitSet} {im : Image} {s s₁ s' : Kernel MemGlobals}

/-- The state after the switch from the table `old` to `new`. -/
structure Switched (N endPage : ℕ) (im : Image) (old new : ℕ) (s s' : Kernel MemGlobals) : Prop where
  /-- Every byte of memory is mapped at its kernel pointer. -/
  window : ∀ a < 4096 * endPage, translate (pagePtr new) (kernelSpaceBegin + BitVec.ofNat 64 a) s' =
    Except.ok (kernelSpaceBegin + BitVec.ofNat 64 a, s')
  /-- The image is mapped as before. -/
  copied : ∀ c ∈ im.copies, ∀ i < 4096 * c.count, ∃ x,
    translate (pagePtr old) (c.virt + BitVec.ofNat 64 i) s = Except.ok (x, s) ∧
      translate (pagePtr new) (c.virt + BitVec.ofNat 64 i) s' = Except.ok (x, s')
  /-- Nothing else is mapped. -/
  other : ∀ w : U64, w.toNat % 4096 = 0 → pageNo w ∉ Set.Ico (2 ^ 35) (2 ^ 35 + endPage) →
    (∀ c ∈ im.copies, pageNo w ∉ c.range) → translate (pagePtr new) w s' = Except.ok (0#64, s')
  inv : Inv N ⟨s'.memory, s'.source⟩
  /-- The new tables came from the free pages, and the old ones are free now. -/
  free_iff : ∀ p, p ∈ s'.source.freeSet ↔
    (p ∈ s.source.freeSet ∧ ¬ IsTable s'.memory new p) ∨ IsTable s.memory old p
  table_was_free : ∀ t, IsTable s'.memory new t → t ∈ s.source.freeSet
  /-- Pages in use keep their contents. -/
  word : ∀ p ∉ s.source.freeSet, ¬ IsTable s.memory old p → p < windowPages → ∀ i < 512,
    s'.memory.word p i = s.memory.word p i

theorem wp_validate (hI : Inv N ⟨s.memory, s.source⟩) (hfuel : N < fuel) :
    wp (validate fuel) (fun _ s' => s' = s) s := by
  obtain ⟨_, h, hrun, rfl⟩ := wp_validateHeap hI hfuel
  refine ⟨(), s, ?_, rfl⟩
  rw [validate, onHeap, hrun]

/-- A page that the new table maps as it should. -/
theorem translate_of_frames {ρ : Type} {root f : ℕ} {t : Kernel ρ} (hR : Readable t.memory root) {v : U64}
    (hv : v.toNat % 4096 = 0) (i : ℕ)
    (hf : frames t.memory root (pageNo (v + BitVec.ofNat 64 i)) = some (f + i / 4096)) :
    translate (pagePtr root) (v + BitVec.ofNat 64 i) t =
      Except.ok (pagePtr f + BitVec.ofNat 64 i, t) := by
  rw [translate_eq hR, translation_of_frames hf, (pageNo_add hv i).2, pagePtr_add]

variable {pages : List ℕ} {k : ℕ}

/-- Destroying the old table leaves the new one alone. -/
theorem Progress.agree_of_reclaimed {D : Set ℕ} (hP : Progress N U old new endPage k s s₁ D)
    (hT : Tree s.memory old {p | p ∉ s.source.freeSet}) (hR : Reclaimed N s₁ s' pages)
    (hpages : ∀ p, p ∈ pages ↔ IsTable s.memory old p) : Agree s₁.memory s'.memory new := by
  intro t ht i hi
  refine hR.word t (hP.built.tree.mem_used ht) (fun h => ?_) (hP.built.tree.table_lt ht) i hi
  exact hT.mem_used ((hpages t).1 h) (hP.was_free ht)

theorem Progress.switched (hP : Progress N U old new endPage k s s₁ (mappedPages endPage im))
    (hT : Tree s.memory old {p | p ∉ s.source.freeSet}) (hend : endPage + 2 ^ 14 ≤ windowPages)
    (hrun : ∀ c ∈ im.copies, Copyable s.memory old c) (hR : Reclaimed N s₁ s' pages)
    (hpages : ∀ p, p ∈ pages ↔ IsTable s.memory old p) : Switched N endPage im old new s s' := by
  have hagree := hP.agree_of_reclaimed hT hR hpages
  have hread : Readable s'.memory new := hagree.readable hP.built.tree.readable
  have hframes : ∀ n < 2 ^ 36, n ∈ mappedPages endPage im →
      frames s'.memory new n = goal s.memory old endPage n := by
    intro n hn hD
    rw [hagree.frames_eq (n := n) hn, hP.mapped n hn hD]
  unfold windowPages at hend
  refine ⟨?_, ?_, ?_, hR.inv, ?_, ?_, ?_⟩
  · intro a ha
    have hno : pageNo (kernelSpaceBegin + BitVec.ofNat 64 a) = 2 ^ 35 + a / 4096 := by
      rw [(pageNo_add (by decide) a).1, show pageNo kernelSpaceBegin = 2 ^ 35 from rfl]
      omega
    have hf : frames s'.memory new (pageNo (kernelSpaceBegin + BitVec.ofNat 64 a)) =
        some (0 + a / 4096) := by
      rw [hno, hframes _ (by omega) (Or.inl ⟨by omega, by omega⟩), goal, if_pos (by omega),
        Nat.add_sub_cancel_left, Nat.zero_add]
    exact translate_of_frames hread (by decide) a hf
  · intro c hc i hi
    obtain ⟨f, hf⟩ := hrun c hc
    obtain ⟨hlow, hhigh⟩ := im.virt_bounds hc
    have hal := im.aligned hc
    have hhi := pageNo_high hlow
    have hno : pageNo (c.virt + BitVec.ofNat 64 i) = pageNo c.virt + i / 4096 := by
      rw [(pageNo_add hal i).1]
      omega
    have hold : frames s.memory old (pageNo (c.virt + BitVec.ofNat 64 i)) = some (f + i / 4096) := by
      rw [hno, ← hf (i / 4096) (by omega), Nat.mod_eq_of_lt (by omega)]
    have hnew : frames s'.memory new (pageNo (c.virt + BitVec.ofNat 64 i)) = some (f + i / 4096) := by
      rw [hframes _ (pageNo_lt _) (Or.inr ?_), goal, if_neg (by omega), hold]
      rw [Set.mem_iUnion₂]
      exact ⟨c, hc, by rw [hno, Copy.range, Set.mem_Ico]; omega⟩
    exact ⟨_, translate_of_frames hT.readable hal i hold, translate_of_frames hread hal i hnew⟩
  · intro w hw hwin hcop
    rw [← frames_eq_none_iff hread hw, hagree.frames_eq (pageNo_lt_pow w)]
    refine hP.empty _ (pageNo_lt w) ?_
    rw [mappedPages, Set.mem_union, Set.mem_iUnion₂, not_or]
    refine ⟨hwin, ?_⟩
    rintro ⟨c, hc, h⟩
    exact hcop c hc h
  · intro p
    rw [hR.freeSet, hpages, hP.free_iff, hagree.isTable_iff]
  · intro t ht
    exact hP.was_free ((hagree.isTable_iff t).1 ht)
  · intro p hp hnt hlt i hi
    have hp₁ : p ∉ s₁.source.freeSet := fun h => hp ((hP.free_iff p).1 h).1
    rw [hR.word p hp₁ (fun h => hnt ((hpages p).1 h)) hlt i hi, hP.word p hp hlt i hi]

/-- No assertion fails. -/
theorem wp_switchTables (hI : Inv N ⟨s.memory, s.source⟩)
    (hT : Tree s.memory old {p | p ∉ s.source.freeSet}) (hold : ∀ t, IsTable s.memory old t → t < N)
    (hend : endPage + 2 ^ 14 ≤ windowPages) (hrun : ∀ c ∈ im.copies, Copyable s.memory old c)
    (hmem : im.demand endPage ≤ s.source.freeSet.ncard) (hfuel : N < fuel) :
    wp (switchTables N s.source.usablePages fuel endPage im (BitVec.ofNat 64 (4096 * old)))
      (fun cr3 s' => ∃ new, cr3 = BitVec.ofNat 64 (4096 * new) ∧ Switched N endPage im old new s s' ∧
        (∀ n < 2 ^ 36, frames s'.memory new n ≠ none → n ∈ mappedPages endPage im) ∧
        ∃ m, Written endPage im new m ∧ Agree m s'.memory new) s := by
  have hcr3 : BitVec.ofNat 64 (4096 * old) = BitVec.ofNat 64 old * 4096#64 := by
    rw [Nat.mul_comm, BitVec.ofNat_mul]
  simp only [switchTables, hcr3, wp_bind, wp_kernelPtr (hT.table_lt isTable_root)]
  refine wp_mono (wp_buildTable ⟨hI, rfl⟩ hT hend hrun hmem) ?_
  rintro _ s₁ ⟨new, hlt, rfl, hP, hW⟩
  rw [wp_physicalAddress hlt]
  have hI₁ := hP.built.valid.inv
  have hagree := hP.agree hT
  refine wp_mono (wp_validate hI₁ hfuel) ?_
  rintro _ s₁ rfl
  have hT₁ : Tree s₁.memory old {p | p ∉ s₁.source.freeSet} :=
    hT.congr hagree fun t ht h => hT.mem_used ht ((hP.free_iff t).1 h).1
  have hbb : ∀ t, IsBbTable s₁.memory old t ↔ IsTable s.memory old t := fun t =>
    (isBbTable_iff hT₁ t).trans (hagree.isTable_iff t)
  have hU : InUse N old s₁ := fun t ht =>
    ⟨hold t ((hbb t).1 ht), hT₁.mem_used ((isBbTable_iff hT₁ t).1 ht)⟩
  refine wp_mono (wp_destroyBootbootTable hI₁ hT₁.bbTree hU) ?_
  rintro _ s₂ ⟨pages, hR, -, hpages⟩
  refine wp_mono (wp_validate hR.inv hfuel) ?_
  rintro _ s₂ rfl
  rw [wp_pure]
  have hold' : ∀ p, p ∈ pages ↔ IsTable s.memory old p := fun p => (hpages p).trans (hbb p)
  have hagree' := hP.agree_of_reclaimed hT hR hold'
  refine ⟨new, rfl, hP.switched hT hend hrun hR hold', fun n hn hmapped => ?_, _, hW, hagree'⟩
  by_contra hnot
  rw [hagree'.frames_eq (n := n) hn] at hmapped
  exact hmapped (hP.empty n hn hnot)

/-- An image with one page of code and one of data, and a frame buffer of one page. -/
def smallImage : Image :=
  ⟨codeBegin + 4096#64, codeBegin + 8192#64, 4096, by decide, by decide, by decide, by decide, by decide,
    by decide⟩

/-- Table 0 maps 2MB at the end of the address space and 2MB at the frame buffer, and 24 pages are
free; all of these are among the first 32. -/
theorem exists_loaded : ∃ s : Kernel MemGlobals, Inv 4096 ⟨s.memory, s.source⟩ ∧
    Tree s.memory 0 {p | p ∉ s.source.freeSet} ∧ (∀ p ∈ s.source.freeSet, p < 32) ∧
    (∀ t, IsTable s.memory 0 t → t < 32) ∧ 24 ≤ s.source.freeSet.ncard ∧ Run s.memory 0 (2 ^ 36 - 512) 512 512 ∧
    Run s.memory 0 (2 ^ 36 - 2 ^ 14) 1024 512 := by
  obtain ⟨h, hr, hF, hst⟩ := exists_reachable_released (p := 3) (c := 28) (N := 4096) (by decide)
    (by decide) (by decide) (by decide) ⟨fun _ => 0#64, []⟩
  let s₀ : Kernel MemGlobals := ⟨h.memory, h.globals, [], []⟩
  have hcard : s₀.source.freeSet.ncard = 28 := by
    change h.globals.freeSet.ncard = 28
    rw [hF, Set.ncard_eq_toFinset_card']
    decide
  have hlow : ∀ t ∈ s₀.source.freeSet, t < 32 := by
    intro t ht
    change t ∈ h.globals.freeSet at ht
    rw [hF, Set.mem_Ico] at ht
    omega
  have h0 : Start (allocator 4096 h.globals.usablePages) 0 s₀ := by
    refine ⟨by decide, ?_, fun i hi => hst.word_eq (by decide) hi (by simp), Sound.of_reachable hr⟩
    change 0 ∉ h.globals.freeSet
    rw [hF]
    simp
  have hflags : FlagsOk pteKernel := ⟨by decide, by decide, by decide⟩
  -- one call of `map_region` for each range, which takes two tables at most
  have hmap : ∀ {s : Kernel MemGlobals} {v : U64} {n f : ℕ},
      Built (allocator 4096 h.globals.usablePages) 0 s → v.toNat % 2 ^ 21 = 0 →
      v.toNat + 4096 * 512 ≤ 2 ^ 64 → v ≠ 0#64 → pageNo v = n → f % 512 = 0 → f + 512 ≤ windowPages →
      Free s.memory 0 n 512 → 2 ≤ s.source.freeSet.ncard →
      ∃ s' got, Added (allocator 4096 h.globals.usablePages) 0 s s' got n f 512 ∧ got.length ≤ 2 := by
    intro s v n f hB hv hend hv0 hn hf hflt hfree hmem
    have hptr : (pagePtr f).toNat % 2 ^ 21 = 0 := by
      rw [pagePtr_toNat (by omega)]
      omega
    have hdem : regionDemand v (pagePtr f) (regionPages 512) = 2 := by
      rw [show regionPages 512 = 512 from by decide, regionDemand_aligned hv hptr]
    have hask := within_mapRegion (dries_allocator (N := 4096) (U := h.globals.usablePages)) (pagePtr 0)
      v (pagePtr f) 512 pteKernel
    rw [hdem] at hask
    have hpage : pageOf (pagePtr f) = f := pageOf_pagePtr (by omega)
    obtain ⟨-, s', -, -, got, hadd, -, hle⟩ := wp_enough (wp_mapRegion_free (c := 512) hB
      (kernelSpaceBegin_le_pagePtr (by omega)) ⟨hv0, by omega, by omega⟩ hflags hend
      (by rw [hpage]; exact hflt) (by rw [hn]; exact hfree)) hask hmem
    rw [hn, hpage] at hadd
    exact ⟨s', got, hadd, hle⟩
  obtain ⟨s₁, got₁, hadd₁, hle₁⟩ := hmap (v := bb) (n := 2 ^ 36 - 512) (f := 512) h0.built (by decide)
    (by decide) (by decide) (by decide) (by decide) (by decide)
    (fun i _ => frames_of_zero h0.zero _) (by omega)
  have hleft₁ := hadd₁.grown.ncard_le hle₁
  obtain ⟨s, got, hadd, hle⟩ := hmap (v := fb) (n := 2 ^ 36 - 2 ^ 14) (f := 1024) hadd₁.built
    (by decide) (by decide) (by decide) (by decide) (by decide) (by decide) (by
      intro i hi
      rw [hadd₁.frames_eq _ (Nat.mod_lt _ (by decide)), placed, offset, if_neg (by omega)]
      exact frames_of_zero h0.zero _) (by omega)
  have hleft := hadd.grown.ncard_le hle
  have hkept₁ : ∀ p ∈ s₁.source.freeSet, p ∈ s₀.source.freeSet := fun p hp =>
    by_contra fun h => (hadd₁.grown.used p).2 (Or.inl h) hp
  have hkept : ∀ p ∈ s.source.freeSet, p ∈ s₁.source.freeSet := fun p hp =>
    by_contra fun h => (hadd.grown.used p).2 (Or.inl h) hp
  refine ⟨s, hadd.built.valid.inv, hadd.built.tree, fun p hp => hlow p (hkept₁ p (hkept p hp)), ?_,
    by omega, ?_, ?_⟩
  · intro t ht
    rcases (hadd.grown.isTable t).1 ht with h1 | h1
    · rcases (hadd₁.grown.isTable t).1 h1 with h2 | h2
      · rw [isTable_of_zero h0.zero] at h2
        omega
      · exact hlow t (not_not.1 (hadd₁.grown.fresh t h2))
    · exact hlow t (hkept₁ t (not_not.1 (hadd.grown.fresh t h1)))
  · intro i hi
    rw [hadd.frames_eq _ (Nat.mod_lt _ (by decide)), placed, offset, if_neg (by omega),
      hadd₁.frames_eq _ (Nat.mod_lt _ (by decide)), placed, offset_add (by omega), if_pos hi]
  · intro i hi
    rw [hadd.frames_eq _ (Nat.mod_lt _ (by decide)), placed, offset_add (by omega), if_pos hi]

/-- A range inside a run. -/
theorem copyable_of_run {m : Memory} {n f l : ℕ} (hrun : Run m old n f l) {c : Copy}
    (hge : n ≤ pageNo c.virt) (hle : pageNo c.virt + c.count ≤ n + l) : Copyable m old c := by
  refine ⟨f + (pageNo c.virt - n), fun i hi => ?_⟩
  have hpage := hrun (pageNo c.virt - n + i) (by omega)
  rw [← Nat.add_assoc, Nat.add_sub_cancel' hge, ← Nat.add_assoc] at hpage
  exact hpage

/-- What `exists_loaded` maps is enough for `smallImage`. -/
theorem copyable_smallImage {m : Memory} (hend : Run m old (2 ^ 36 - 512) 512 512)
    (hfb : Run m old (2 ^ 36 - 2 ^ 14) 1024 512) : ∀ c ∈ smallImage.copies, Copyable m old c := by
  have hsmall : ∀ c ∈ smallImage.copies,
      (2 ^ 36 - 512 ≤ pageNo c.virt ∧ pageNo c.virt + c.count ≤ 2 ^ 36 - 512 + 512) ∨
        (2 ^ 36 - 2 ^ 14 ≤ pageNo c.virt ∧ pageNo c.virt + c.count ≤ 2 ^ 36 - 2 ^ 14 + 512) := by
    decide
  intro c hc
  rcases hsmall c hc with ⟨hge, hle⟩ | ⟨hge, hle⟩
  · exact copyable_of_run hend hge hle
  · exact copyable_of_run hfb hge hle

theorem demand_smallImage (n : ℕ) : smallImage.demand n = 19 + (2 * (n / 512) + 3 * (n % 512)) := by
  have hsum : (smallImage.copies.map fun c => 3 * c.count).sum = 18 := by decide
  rw [Image.demand, regionDemand_aligned (by decide) (by decide), hsum]
  omega

end Switch

end Dumboss.PageTable
