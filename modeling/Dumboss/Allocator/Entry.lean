import Dumboss.Allocator.Alloc

/-!
# The remaining entry points

Specifications of `zeroed_pages`, `unsafe_mark_memory_usability` and `validate_heap`, and the fact
that the invariant does not depend on the contents of pages that are not free (`Inv.of_stores`).
-/

namespace Dumboss

open Prog Buddy

variable {N : ℕ} {F : Set ℕ} {L : ℕ → List ℕ} {h h' : Heap} {k : ℕ}

/-- Stores to pages that are not free keep the invariant. -/
theorem Inv.of_stores (hI : Inv N h) {m : Memory}
    (hm : Memory.StoresIn (InPages (· ∉ h.globals.freeSet)) h.memory m) :
    Inv N ⟨m, h.globals⟩ := by
  obtain ⟨L, hc⟩ := hI.core
  refine ⟨hI.dvd, hI.le_window, hI.usable_count, hI.free_count, hI.free_usable, hI.free_memory, L,
    hc.of_stores hI.le_window (hm.mono ?_)⟩
  rintro _ ⟨p, i, hp, hi, rfl, hfree⟩
  rwa [inPages_cell hp hi]

/-! ### Zeroed pages -/

/-- The address of the `w`-th word of the window. -/
def wordAddr (w : ℕ) : U64 := cell (w / 512) (w % 512)

theorem wordAddr_eq (w : ℕ) : wordAddr w = BitVec.ofNat 64 (0xffff800000000000 + 8 * w) := by
  rw [wordAddr, cell, pagePtr, ← BitVec.ofNat_add]
  congr 1
  omega

theorem wordAddr_add_8 (w : ℕ) : wordAddr w + 8#64 = wordAddr (w + 1) := by
  rw [wordAddr_eq, wordAddr_eq, ← BitVec.ofNat_add]
  congr 1

theorem wordAddr_page (p i : ℕ) (hi : i < 512) : wordAddr (512 * p + i) = cell p i := by
  rw [wordAddr, show (512 * p + i) / 512 = p by omega, show (512 * p + i) % 512 = i by omega]

theorem wp_zeroWords {n w : ℕ} {P : ℕ → Prop} (hlt : w + n ≤ 512 * windowPages)
    (hP : ∀ v, w ≤ v → v < w + n → P (v / 512)) :
    wp (zeroWords n (wordAddr w)) (fun _ h' => h'.globals = h.globals ∧
      Memory.StoresIn (InPages P) h.memory h'.memory ∧
      (∀ v, w ≤ v → v < w + n → h'.memory.load (wordAddr v) = 0#64) ∧
      ∀ a, h.memory.load a = 0#64 → h'.memory.load a = 0#64) h := by
  induction n generalizing w h with
  | zero =>
    rw [zeroWords, wp_pure]
    exact ⟨rfl, .refl _ _, fun v h1 h2 => by omega, fun a ha => ha⟩
  | succ n ih =>
    rw [zeroWords, wp_bind, wp_storeWord, wordAddr_add_8]
    refine wp_mono (ih (by omega) fun v h1 h2 => hP v (by omega) (by omega)) ?_
    rintro _ h' ⟨hg, hst, hzero, hkeep⟩
    have hin : InPages P (wordAddr w) :=
      ⟨w / 512, w % 512, by omega, Nat.mod_lt _ (by omega), rfl, hP w le_rfl (by omega)⟩
    refine ⟨hg, (Memory.storesIn_store hin).trans hst, fun v h1 h2 => ?_, fun a ha => ?_⟩
    · rcases Nat.eq_or_lt_of_le h1 with rfl | h1
      · exact hkeep _ (Memory.load_store_self _ _ _)
      · exact hzero v h1 (by omega)
    · refine hkeep a ?_
      rw [Memory.load_store]
      split_ifs
      · rfl
      · exact ha

/-- The state after the `c` pages from `b` on were handed out zeroed. -/
structure Zeroed (N b c : ℕ) (h h' : Heap) : Prop extends Allocated N b c h h' where
  zero : ∀ p ∈ Set.Ico b (b + c), ∀ i < 512, h'.memory.word p i = 0#64

theorem wp_zeroedPages (hI : Inv N h) {count : ℤ} (hcount : count ≤ 4096) :
    wp (zeroedPages count) (fun ptr h' =>
      (ptr = 0#64 ∧ h' = h ∧ (count = 1 → h.globals.freeSet = ∅)) ∨
      ∃ b c : ℕ, ptr = pagePtr b ∧ 0 < c ∧ (c : ℤ) = count ∧ b < N ∧ Zeroed N b c h h') h := by
  simp only [zeroedPages, wp_bind, wp_ite, wp_pure]
  refine wp_mono (wp_allocRaw hI hcount true) ?_
  rintro buf h1 (⟨rfl, rfl, hempty⟩ | ⟨b, c, rfl, hpos, hb, hA, hcc⟩)
  · rw [if_pos rfl]
    exact Or.inl ⟨trivial, rfl, hempty⟩
  · obtain rfl : (c : ℤ) = count := hcc.resolve_right (by simp)
    have hbw : b < windowPages := hb.trans_le hI.le_window
    have hend : b + c ≤ N := by
      have := hI.lt_of_free (hA.subset (show b + c - 1 ∈ Set.Ico b (b + c) by
        simp only [Set.mem_Ico]; omega))
      omega
    have hNw := hI.le_window
    have hstart : pagePtr b = wordAddr (512 * b) := by
      rw [← cell_zero, ← wordAddr_page b 0 (by omega), add_zero]
    rw [if_neg (pagePtr_ne_zero hbw)]
    simp only [Int.toNat_natCast, hstart]
    refine wp_mono (wp_zeroWords (P := fun p => p ∈ Set.Ico b (b + c)) (by omega) fun v h1 h2 => by
      simp only [Set.mem_Ico]; omega) ?_
    rintro _ h2 ⟨hg, hst, hzero, -⟩
    refine Or.inr ⟨b, c, hstart.symm, hpos, rfl, hb, ⟨?_, hA.subset, ?_, ?_, ?_, ?_⟩, ?_⟩
    · have hI2 := hA.inv.of_stores (hst.mono fun a ha => ha.mono fun p hp => by
        rw [hA.freeSet]
        exact fun hpF => hpF.2 hp)
      rwa [← hg] at hI2
    · rw [hg, hA.freeSet]
    · rw [hg, hA.usablePages]
    · rw [hg, hA.freeMemory]
    · exact hA.stores.trans (hst.mono fun a ha => ha.mono fun p hp => hA.subset hp)
    · intro p hp i hi
      have hp' := Set.mem_Ico.1 hp
      rw [Memory.word, ← wordAddr_page p i hi]
      exact hzero _ (by omega) (by omega)

/-! ### Usability -/

/-- The state after the usability of the `c` pages from `p` on was set to `usable`. -/
structure Marked (N p c : ℕ) (usable : Bool) (h h' : Heap) : Prop where
  inv : Inv N h'
  freeSet : h'.globals.freeSet = h.globals.freeSet
  usable : h.globals.usablePages.Filled p (p + c) usable h'.globals.usablePages
  memory : h'.memory = h.memory

/-- Past its checks, `unsafe_mark_memory_usability` sets the range in `usable_pages`. -/
theorem wp_unsafeMarkMemoryUsability_iff (hI : Inv N h) {p c : ℕ} (hpc : p + c ≤ N)
    (hp : p < windowPages) (hfree : ∀ q ∈ Set.Ico p (p + c), q ∉ h.globals.freeSet) (usable : Bool)
    (Q : Unit → Heap → Prop) : wp (unsafeMarkMemoryUsability (pagePtr p) c usable) Q h ↔
      wp (setUsablePages p ((p + c : ℕ) : ℤ) usable) Q h := by
  have hend : (p : ℤ) + c = ((p + c : ℕ) : ℤ) := by push_cast; rfl
  have hle : p ≤ p + c := by omega
  have hucnt : ((p + c : ℕ) : ℤ) ≤ h.globals.usablePages.count := by
    rw [hI.usable_count]
    exact_mod_cast hpc
  have hfcnt : ((p + c : ℕ) : ℤ) ≤ h.globals.freePages.count := by
    rw [hI.free_count]
    exact_mod_cast hpc
  have hany : (List.range' p (p + c - p)).any h.globals.freePages.test = false := by
    rw [List.any_eq_false]
    intro q hq
    rw [List.mem_range'_1] at hq
    exact hfree q ⟨hq.1, by omega⟩
  simp only [unsafeMarkMemoryUsability, wp_bind, wp_pageOfPtr hp, wp_get, wp_assert, hend,
    BitSet.wp_getAny hle hfcnt, BitSet.wp_getCount hle hucnt, hany, true_and]

theorem wp_unsafeMarkMemoryUsability (hI : Inv N h) {p c : ℕ} (hpc : p + c ≤ N)
    (hp : p < windowPages) (hfree : ∀ q ∈ Set.Ico p (p + c), q ∉ h.globals.freeSet) (usable : Bool) :
    wp (unsafeMarkMemoryUsability (pagePtr p) c usable) (fun _ => Marked N p c usable h) h := by
  obtain ⟨L, hc⟩ := hI.core
  have hucnt : ((p + c : ℕ) : ℤ) ≤ h.globals.usablePages.count := by
    rw [hI.usable_count]
    exact_mod_cast hpc
  rw [wp_unsafeMarkMemoryUsability_iff hI hpc hp hfree]
  simp only [setUsablePages, wp_bind, wp_get, wp_modify]
  refine wp_mono (BitSet.wp_setRange (by omega) hucnt usable h) ?_
  rintro r h1 ⟨hr, rfl⟩
  refine ⟨⟨hI.dvd, hI.le_window, hr.1.trans hI.usable_count, hI.free_count, fun q hq => ?_,
    hI.free_memory, L, hc.blocks, ⟨hc.lists.linked, hc.lists.class_eq⟩,
    hc.bits.congr (fun _ _ => rfl) fun _ _ => rfl⟩, rfl, hr, rfl⟩
  show r.test q = true
  have hnot : ¬ (p ≤ q ∧ q < p + c) := fun hq' => hfree q hq' hq
  rw [hr.test_eq, if_neg hnot]
  exact hI.free_usable q hq

/-! ### Heap validation -/

/-- Walking a list whose blocks all carry its class. -/
theorem wp_validateList {fuel : ℕ} {prev head last : U64} {l : List ℕ} {sum : ℤ}
    (hl : Links.Seg pagePtr h.memory.next h.memory.prev prev head l last 0#64)
    (hcls : ∀ b ∈ l, b < windowPages ∧ h.memory.blockClass b = BitVec.ofNat 64 k)
    (hfuel : l.length < fuel) :
    wp (validateList k fuel head true sum)
      (fun r h' => r = (true, sum + l.length * (2 ^ k * 4096)) ∧ h' = h) h := by
  induction l generalizing prev head sum fuel with
  | nil =>
    obtain ⟨fuel, rfl⟩ := Nat.exists_eq_succ_of_ne_zero (show fuel ≠ 0 by simp at hfuel; omega)
    obtain rfl : head = 0#64 := hl.1
    simp [validateList]
  | cons b l ih =>
    obtain ⟨fuel, rfl⟩ := Nat.exists_eq_succ_of_ne_zero (show fuel ≠ 0 by omega)
    obtain ⟨rfl, -, hl⟩ := hl
    obtain ⟨hbw, hbc⟩ := hcls b (by simp)
    have hbc' : h.memory.word b 2 = BitVec.ofNat 64 k := hbc
    simp only [validateList, wp_ite, wp_bind, wp_loadWord, pagePtr_add_16, Memory.load_cell,
      Memory.load_pagePtr, hbc', decide_true, Bool.and_true]
    rw [if_neg (pagePtr_ne_zero hbw)]
    refine wp_mono (ih hl (fun c hc => hcls c (by simp [hc]))
      (by simp only [List.length_cons] at hfuel; omega)) ?_
    rintro r h' ⟨rfl, rfl⟩
    refine ⟨?_, rfl⟩
    rw [List.length_cons]
    push_cast
    ring_nf

theorem wp_validateClasses (hN : N ≤ windowPages) (hc : Core N F L h) {fuel left k : ℕ} {sum : ℤ}
    (hk : k + left = classCount) (hfuel : ∀ l < classCount, (L l).length < fuel) :
    wp (validateClasses fuel left k true sum) (fun r h' => r = (true, sum +
      ∑ i ∈ Finset.range left, ((L (k + i)).length : ℤ) * (2 ^ (k + i) * 4096)) ∧ h' = h) h := by
  induction left generalizing k sum with
  | zero => simp [validateClasses]
  | succ left ih =>
    have hkc : k < classCount := by omega
    obtain ⟨last, hl⟩ := hc.lists.linked k hkc
    simp only [validateClasses, wp_bind, wp_classInfo hkc]
    refine wp_mono (wp_validateList hl (fun b hb =>
      ⟨(hc.blocks.lt (hc.blocks.mem hb)).trans_le hN, hc.lists.class_eq k hkc b hb⟩)
      (hfuel k hkc)) ?_
    rintro r h1 ⟨rfl, rfl⟩
    refine wp_mono (ih (by omega)) ?_
    rintro r h2 ⟨rfl, rfl⟩
    refine ⟨?_, rfl⟩
    rw [Finset.sum_range_succ']
    simp only [add_zero, Nat.add_assoc, Nat.add_comm 1]
    ring_nf

/-- The lists account for all free pages. -/
theorem Inv.sum_lists (hI : Inv N h) (hc : Core N h.globals.freeSet L h) :
    ∑ k ∈ Finset.range classCount, (L k).length * 2 ^ k = (h.globals.freeFinset N).card := by
  classical
  have hcoe : ((h.globals.freeFinset N : Finset ℕ) : Set ℕ) = h.globals.freeSet := by
    ext p
    rw [Finset.mem_coe, mem_freeFinset]
    exact ⟨fun hp => hp.2, fun hp => ⟨hI.lt_of_free hp, hp⟩⟩
  have hidx : ∀ k, ((((L k).map (· / 2 ^ k)).toFinset : Finset ℕ) : Set ℕ) = indices L k := by
    intro k
    ext j
    simp only [List.coe_toFinset, List.mem_map, Set.mem_ofPred_eq, indices]
    constructor
    · rintro ⟨b, hb, rfl⟩
      rwa [Nat.div_mul_cancel (hc.blocks.aligned hb)]
    · exact fun hj => ⟨_, hj, Nat.mul_div_cancel _ (Nat.two_pow_pos k)⟩
  have hlen : ∀ k, (((L k).map (· / 2 ^ k)).toFinset).card = (L k).length := by
    intro k
    rw [List.toFinset_card_of_nodup, List.length_map]
    refine (hc.blocks.nodup k).map_on fun a ha b hb hab => ?_
    rw [← Nat.div_mul_cancel (hc.blocks.aligned ha), hab, Nat.div_mul_cancel (hc.blocks.aligned hb)]
  have hdec := hc.blocks.decomp
  rw [← hcoe, show indices L = fun k => ((((L k).map (· / 2 ^ k)).toFinset : Finset ℕ) : Set ℕ) from
    funext fun k => (hidx k).symm] at hdec
  rw [hdec.card_eq]
  exact Finset.sum_congr rfl fun k _ => by rw [hlen]

theorem Inv.length_le (hI : Inv N h) (hc : Core N h.globals.freeSet L h) {k : ℕ}
    (hk : k < classCount) : (L k).length ≤ N := by
  have hsum := hI.sum_lists hc
  have hle : (L k).length * 2 ^ k ≤ ∑ k ∈ Finset.range classCount, (L k).length * 2 ^ k :=
    Finset.single_le_sum (f := fun k => (L k).length * 2 ^ k) (fun _ _ => Nat.zero_le _)
      (Finset.mem_range.2 hk)
  have hcard : (h.globals.freeFinset N).card ≤ N := by
    calc (h.globals.freeFinset N).card ≤ (Finset.range N).card := Finset.card_filter_le _ _
      _ = N := Finset.card_range N
  have := Nat.le_mul_of_pos_right (L k).length (Nat.two_pow_pos k)
  omega

/-- `validate_heap` succeeds. -/
theorem wp_validateHeap (hI : Inv N h) {fuel : ℕ} (hfuel : N < fuel) :
    wp (validateHeap fuel) (fun _ h' => h' = h) h := by
  obtain ⟨L, hc⟩ := hI.core
  simp only [validateHeap, wp_bind]
  refine wp_mono (wp_validateClasses hI.le_window hc (by omega)
    fun l hl => (hI.length_le hc hl).trans_lt hfuel) ?_
  rintro r h1 ⟨rfl, rfl⟩
  simp only [wp_get, wp_assert, zero_add]
  refine ⟨⟨trivial, ?_⟩, trivial⟩
  rw [hI.free_memory, ← hI.sum_lists hc]
  push_cast
  rw [Finset.mul_sum]
  exact Finset.sum_congr rfl fun k _ => by ring

end Dumboss
