import Dumboss.Allocator.Release

/-!
# Allocating pages

`wp_splitBlock` is the loop invariant of the split loop of `alloc_raw`: of a block that is in no
list, all pages but the first `remaining` ones go to the lists.  `wp_allocFrom` adds the removal of
the block from its list and the accounting, `wp_findAbove` and `wp_findBelow` say which class the
two searches return, and `wp_allocRaw` is the specification of the whole call.
-/

namespace Dumboss

open Prog Buddy

variable {N : ℕ} {F : Set ℕ} {L : ℕ → List ℕ} {h h' : Heap} {k : ℕ}

theorem MemGlobals.setBuddies_buddies (g : MemGlobals) (k l : ℕ) (bits : BitSet) :
    ((g.setBuddies k bits).classes l).buddies = if l = k then bits else (g.classes l).buddies := by
  by_cases hl : l = k
  · subst hl
    simp
  · rw [MemGlobals.setBuddies_classes_of_ne g bits hl, if_neg hl]

/-! ### The split loop -/

/-- The pages of a block from page `r` of it on. -/
theorem block_bounds_union {i j r : ℕ} (hr : r ≤ 2 ^ i) :
    Set.Ico (j * 2 ^ i) (j * 2 ^ i + r) ∪ Set.Ico (j * 2 ^ i + r) (j * 2 ^ i + 2 ^ i) =
      block i j := by
  ext p
  simp only [Set.mem_union, Set.mem_Ico, mem_block_iff_bounds]
  omega

theorem sibling_two_mul (j : ℕ) : sibling (2 * j) = 2 * j + 1 := by
  rcases sibling_cases (2 * j) with ⟨-, e⟩ | ⟨hm, -⟩
  · exact e
  · omega

/-- The right child of a block that is in no list is put into the list of its class, and the bit of the
pair is set. -/
theorem Core.of_right_child {j : ℕ} (hc : Core N F L h) (hk : k < classCount - 1)
    (hdisl : Disjoint (block k (2 * j)) F) (hdisr : Disjoint (block k (2 * j + 1)) F)
    (hltr : ∀ p ∈ block k (2 * j + 1), p < N)
    (hstep : ListStep h L ((2 * j + 1) * 2 ^ k) k ((2 * j + 1) * 2 ^ k :: L k) h') :
    Core N (F ∪ block k (2 * j + 1)) (Function.update L k ((2 * j + 1) * 2 ^ k :: L k))
        ⟨h'.memory, h'.globals.setBuddies k ((h'.globals.classes k).buddies.put (2 * j / 2) true)⟩ ∧
      LoopFrame (F ∪ block k (2 * j + 1)) h
        ⟨h'.memory, h'.globals.setBuddies k ((h'.globals.classes k).buddies.put (2 * j / 2) true)⟩ := by
  constructor
  · refine hc.of_push hk hdisr hltr ?_ (hstep.lists.setBuddies k _) fun l => ?_
    · rw [← sibling_two_mul j, sibling_sibling]
      exact hc.blocks.not_mem_indices hdisl
    · rw [MemGlobals.setBuddies_buddies, MemGlobals.setBuddies_buddies, hstep.buddies,
        hstep.buddies, show (2 * j + 1) / 2 = 2 * j / 2 by omega]
  · exact (hstep.frame (Or.inr (start_mem_block k (2 * j + 1)))
      fun b hb => Or.inl (hc.blocks.mem hb)).trans (.setBuddies _ h' k _)

/-- **Loop invariant of the split loop.** -/
theorem wp_splitBlock (hd : 4096 ∣ N) (hN : N ≤ windowPages) {i j remaining : ℕ}
    (hi : i < classCount) (hc : Core N F L h) (hdis : Disjoint (block i j) F)
    (hlt : ∀ p ∈ block i j, p < N) (hpos : 0 < remaining) (hle : remaining ≤ 2 ^ i) :
    wp (splitBlock i remaining (j * 2 ^ i))
      (fun _ h' => ∃ L',
        Core N (F ∪ Set.Ico (j * 2 ^ i + remaining) (j * 2 ^ i + 2 ^ i)) L' h' ∧
        LoopFrame (F ∪ Set.Ico (j * 2 ^ i + remaining) (j * 2 ^ i + 2 ^ i)) h h') h := by
  induction i generalizing j remaining F L h with
  | zero =>
    obtain rfl : remaining = 1 := by simpa using le_antisymm hle hpos
    rw [splitBlock, wp_pure]
    simp only [pow_zero, Set.Ico_self, Set.union_empty]
    exact ⟨L, hc, .refl _ _⟩
  | succ child ih =>
    have hk : child < classCount - 1 := by omega
    have hstart : j * 2 ^ (child + 1) = 2 * j * 2 ^ child := by ring
    have hright : 2 * j * 2 ^ child + 2 ^ child = (2 * j + 1) * 2 ^ child := by ring
    have hsize : 2 ^ (child + 1) = 2 ^ child + 2 ^ child := by ring
    rw [block_succ] at hdis hlt
    obtain ⟨hdisl, hdisr⟩ := Set.disjoint_union_left.1 hdis
    have hltl : ∀ p ∈ block child (2 * j), p < N := fun p hp => hlt p (Or.inl hp)
    have hltr : ∀ p ∈ block child (2 * j + 1), p < N := fun p hp => hlt p (Or.inr hp)
    have hidx : 2 * j / 2 < bitsetSize N child :=
      index_lt_bitsetSize hd hk (hltl _ (start_mem_block child (2 * j)))
    have hsib := sibling_two_mul j
    have hbit : (h.globals.classes child).buddies.test (2 * j / 2) = false := by
      have hiff := hc.test_iff hk hdisl
      rw [hsib] at hiff
      rw [Bool.eq_false_iff]
      exact fun ht => hc.blocks.not_mem_indices hdisr (hiff.1 ht)
    have hmemr := start_mem_block child (2 * j + 1)
    rw [hstart]
    simp only [splitBlock, wp_bind, wp_assert, wp_ite, wp_pure,
      wp_buddyInfo (show child < classCount by omega), wp_getBuddyBit hc.bits hk hidx, hbit]
    rw [if_neg (by omega)]
    refine ⟨trivial, ?_⟩
    by_cases hcase : 2 ^ child < remaining
    · -- the left child is wanted whole
      rw [if_pos hcase, hright]
      refine wp_mono (ih (by omega) hc hdisr hltr (by omega) (by omega)) fun _ h' hfin => ?_
      have hend : (2 * j + 1) * 2 ^ child + (remaining - 2 ^ child) = 2 * j * 2 ^ child + remaining := by
        omega
      rw [hend, ← hright] at hfin
      rwa [hsize, ← add_assoc]
    · -- the right child is not wanted
      rw [if_neg hcase, hright]
      refine wp_mono (wp_addToFreelist hc.blocks hN hc.lists (by omega) (Dvd.intro_left _ rfl)
        (Set.disjoint_left.1 hdisr hmemr) (hltr _ hmemr)) fun _ h1 hstep => ?_
      have hbits1 : Bits N h1.globals L := hc.bits.congr (fun l _ => hstep.buddies l) fun _ _ => rfl
      rw [wp_setBuddyBit hbits1 hk hidx]
      obtain ⟨hc2, hf2⟩ := hc.of_right_child hk hdisl hdisr hltr hstep
      have hblock : block child (2 * j + 1) =
          Set.Ico (2 * j * 2 ^ child + 2 ^ child) (2 * j * 2 ^ child + 2 ^ (child + 1)) := by
        ext p
        rw [mem_block_iff_bounds, Set.mem_Ico, ← hright, hsize]
        omega
      by_cases hall : remaining = 2 ^ child
      · rw [if_pos hall, hall, ← hblock]
        exact ⟨_, hc2, hf2⟩
      · rw [if_neg hall]
        have hdis2 : Disjoint (block child (2 * j)) (F ∪ block child (2 * j + 1)) := by
          refine Disjoint.union_right hdisl (Set.disjoint_left.2 fun p hp hq => ?_)
          rw [mem_block] at hp hq
          omega
        have hunion : F ∪ Set.Ico (2 * j * 2 ^ child + remaining)
            (2 * j * 2 ^ child + 2 ^ (child + 1)) = F ∪ block child (2 * j + 1) ∪
              Set.Ico (2 * j * 2 ^ child + remaining) (2 * j * 2 ^ child + 2 ^ child) := by
          rw [hblock, Set.union_assoc]
          congr 1
          ext p
          simp only [Set.mem_Ico, Set.mem_union]
          omega
        rw [hunion]
        refine wp_mono (ih (by omega) hc2 hdis2 hltl hpos (by omega)) ?_
        rintro _ h3 ⟨L3, hc3, hf3⟩
        exact ⟨L3, hc3, (hf2.mono Set.subset_union_left).trans hf3⟩

/-! ### Taking a block of a given class -/

/-- The state after the `c` pages from `b` on were handed out. -/
structure Allocated (N b c : ℕ) (h h' : Heap) : Prop where
  inv : Inv N h'
  subset : Set.Ico b (b + c) ⊆ h.globals.freeSet
  freeSet : h'.globals.freeSet = h.globals.freeSet \ Set.Ico b (b + c)
  usablePages : h'.globals.usablePages = h.globals.usablePages
  freeMemory : h'.globals.freeMemory = h.globals.freeMemory - c * 4096
  stores : Memory.StoresIn (InPages (· ∈ h.globals.freeSet)) h.memory h'.memory

/-- What holds once the free bits of the `c` pages are cleared and the block is out of its list: the
split loop puts the rest of the block back, and the call is done. -/
theorem wp_splitBlock_allocated (hI : Inv N h) {j c : ℕ} (hk : k < classCount)
    (hsub : block k j ⊆ h.globals.freeSet) (hpos : 0 < c) (hle : c ≤ 2 ^ k) {r : BitSet}
    (hr : h.globals.freePages.Filled (j * 2 ^ k) (j * 2 ^ k + c) false r)
    (hc : Core N (h.globals.freeSet \ block k j) L h') (hfree : h'.globals.freePages = r)
    (husable : h'.globals.usablePages = h.globals.usablePages)
    (hmem : h'.globals.freeMemory = h.globals.freeMemory - c * 4096)
    (hst : Memory.StoresIn (InPages (· ∈ h.globals.freeSet)) h.memory h'.memory) :
    wp (splitBlock k c (j * 2 ^ k)) (fun _ => Allocated N (j * 2 ^ k) c h) h' := by
  have hIco : Set.Ico (j * 2 ^ k) (j * 2 ^ k + c) ⊆ h.globals.freeSet := by
    rw [← block_bounds_union hle] at hsub
    exact (Set.union_subset_iff.1 hsub).1
  have hrest : h.globals.freeSet \ block k j ∪ Set.Ico (j * 2 ^ k + c) (j * 2 ^ k + 2 ^ k) =
      h.globals.freeSet \ Set.Ico (j * 2 ^ k) (j * 2 ^ k + c) := by
    ext p
    have hp := @hsub p
    simp only [mem_block_iff_bounds] at hp
    simp only [Set.mem_union, Set.mem_sdiff, mem_block_iff_bounds, Set.mem_Ico]
    by_cases hF : p ∈ h.globals.freeSet
    · simp only [hF, true_and]
      omega
    · simp only [hF, false_and, false_or, iff_false]
      exact fun hq => hF (hp (by omega))
  refine wp_mono (wp_splitBlock hI.dvd hI.le_window hk hc Set.disjoint_sdiff_right
    (fun p hp => hI.lt_of_free (hsub hp)) hpos hle) fun _ h4 ⟨L4, hc4, hf4⟩ => ?_
  rw [hrest] at hc4 hf4
  have hfree4 : h4.globals.freePages = r := hf4.freePages.trans hfree
  have husable4 : h4.globals.usablePages = h.globals.usablePages := hf4.usablePages.trans husable
  have hset : h4.globals.freeSet = h.globals.freeSet \ Set.Ico (j * 2 ^ k) (j * 2 ^ k + c) := by
    ext p
    simp only [MemGlobals.freeSet, hfree4, Set.mem_ofPred_eq, Set.mem_sdiff, Set.mem_Ico, hr.test_eq]
    split_ifs with hp <;> simp [hp]
  have hcard : ((h.globals.freeFinset N).card : ℤ) = (h4.globals.freeFinset N).card + c := by
    have hlast : j * 2 ^ k + c - 1 < N := hI.lt_of_free (hIco ⟨by omega, by omega⟩)
    refine card_freeFinset_union (p := j * 2 ^ k) ?_ ?_ (by omega)
    · rw [hset, Set.sdiff_union_of_subset hIco]
    · rw [hset]
      exact disjoint_sdiff_self_right
  refine ⟨⟨hI.dvd, hI.le_window, ?_, ?_, ?_, ?_, L4, ?_⟩, hIco, hset, husable4, ?_, ?_⟩
  · rw [husable4, hI.usable_count]
  · rw [hfree4, hr.1, hI.free_count]
  · intro p hp
    have hp' : p ∈ h4.globals.freeSet := hp
    rw [hset] at hp'
    rw [husable4]
    exact hI.free_usable p hp'.1
  · have := hI.free_memory
    rw [hf4.freeMemory, hmem]
    linarith
  · rwa [hset]
  · rw [hf4.freeMemory, hmem]
  · exact hst.trans (hf4.stores.mono fun a ha => ha.mono fun p hp => hp.1)

theorem wp_allocFrom (hI : Inv N h) (hc : Core N h.globals.freeSet L h) (hk : k < classCount)
    (hL : L k ≠ []) {c : ℕ} (hpos : 0 < c) (hle : c ≤ 2 ^ k) :
    wp (allocFrom c k)
      (fun buf h' => ∃ b, buf = ⟨pagePtr b, c * 4096⟩ ∧ b < N ∧ Allocated N b c h h') h := by
  obtain ⟨b, bs, hLk⟩ := List.exists_cons_of_ne_nil hL
  have hb : b ∈ L k := by simp [hLk]
  obtain ⟨j, rfl⟩ : ∃ j, b = j * 2 ^ k := by
    obtain ⟨j, hj⟩ := hc.blocks.aligned hb
    exact ⟨j, by rw [hj, mul_comm]⟩
  have hj : j ∈ indices L k := hb
  have hsub := hc.blocks.decomp.block_subset hj
  have hbN : j * 2 ^ k < N := hc.blocks.lt (hc.blocks.mem hb)
  have hbw : j * 2 ^ k < windowPages := hbN.trans_le hI.le_window
  have hend : j * 2 ^ k + c ≤ N := by
    have hlast : j * 2 ^ k + c - 1 ∈ block k j := mem_block_iff_bounds.2 (by omega)
    have := hI.lt_of_free (hsub hlast)
    omega
  have herase : (L k).erase (j * 2 ^ k) = bs := by rw [hLk, List.erase_cons_head]
  have hpage : (BitVec.ofNat 64 (4096 * (j * 2 ^ k))).toNat / 4096 = j * 2 ^ k := by
    unfold windowPages at hbw
    rw [BitVec.toNat_ofNat]
    omega
  have hfreeAll : ∀ p ∈ List.range' (j * 2 ^ k) (j * 2 ^ k + c - j * 2 ^ k),
      p ∈ h.globals.freeSet := by
    intro p hp
    rw [List.mem_range'_1] at hp
    exact hsub (mem_block_iff_bounds.2 (by omega))
  simp only [allocFrom, wp_bind, wp_modify]
  have hl0 : Lists ⟨h.memory, { h.globals with freeMemory := h.globals.freeMemory - c * 4096 }⟩ L :=
    ⟨hc.lists.linked, hc.lists.class_eq⟩
  refine wp_mono (wp_popFreelist hc.blocks hI.le_window hl0 hk hLk) ?_
  rintro data h1 ⟨rfl, hstep⟩
  have hf1 := hstep.frame (P := h.globals.freeSet) (hc.blocks.mem hb) fun b hb => hc.blocks.mem hb
  have hbud1 := hstep.buddies
  have hlists1 := hstep.lists
  obtain ⟨⟨hfp1, hup1, hfm1⟩, hst1⟩ := hf1
  simp only at hfp1 hup1 hfm1 hst1 hbud1
  have hucnt : ((j * 2 ^ k + c : ℕ) : ℤ) ≤ h.globals.usablePages.count := by
    rw [hI.usable_count]
    exact_mod_cast hend
  have hfcnt : ((j * 2 ^ k + c : ℕ) : ℤ) ≤ h.globals.freePages.count := by
    rw [hI.free_count]
    exact_mod_cast hend
  have hall : (List.range' (j * 2 ^ k) (j * 2 ^ k + c - j * 2 ^ k)).all
      h.globals.usablePages.test = true :=
    List.all_eq_true.2 fun p hp => hI.free_usable p (hfreeAll p hp)
  have hallf : (List.range' (j * 2 ^ k) (j * 2 ^ k + c - j * 2 ^ k)).all
      h.globals.freePages.test = true := List.all_eq_true.2 hfreeAll
  rw [wp_physicalAddress hbw]
  simp only [hpage, wp_get, wp_assert, setFreePages, wp_bind, wp_modify, hfp1, hup1,
    BitSet.wp_getAll (show j * 2 ^ k ≤ j * 2 ^ k + c by omega) hucnt,
    BitSet.wp_getAll (show j * 2 ^ k ≤ j * 2 ^ k + c by omega) hfcnt, hall, hallf]
  refine ⟨trivial, trivial, ?_⟩
  refine wp_mono (BitSet.wp_setRange (show j * 2 ^ k ≤ j * 2 ^ k + c by omega) hfcnt false _) ?_
  rintro r s' ⟨hr, rfl⟩
  -- both branches below end in the split loop
  have hdone : ∀ h3 : Heap, Core N (h.globals.freeSet \ block k j) (Function.update L k bs) h3 →
      h3.globals.freePages = r → h3.globals.usablePages = s'.globals.usablePages →
      h3.globals.freeMemory = s'.globals.freeMemory → h3.memory = s'.memory →
      wp (splitBlock k c (j * 2 ^ k)) (fun _ h' => ∃ b, (⟨pagePtr (j * 2 ^ k), c * 4096⟩ : Buffer) =
        ⟨pagePtr b, c * 4096⟩ ∧ b < N ∧ Allocated N b c h h') h3 := by
    intro h3 hc3 hfree3 husable3 hmem3 hst3
    refine wp_mono (wp_splitBlock_allocated hI hk hsub hpos hle hr hc3 hfree3 (husable3.trans hup1)
      (hmem3.trans hfm1) (by rw [hst3]; exact hst1)) fun _ h4 hA => ?_
    exact ⟨j * 2 ^ k, rfl, hbN, hA⟩
  simp only [wp_ite, wp_bind, wp_pure]
  have hlists2 : Lists ⟨s'.memory, { s'.globals with freePages := r }⟩
      (Function.update L k ((L k).erase (j * 2 ^ k))) := by
    rw [herase]
    exact ⟨hlists1.linked, hlists1.class_eq⟩
  rw [← herase] at hdone
  by_cases hk11 : k = classCount - 1
  · rw [if_neg (by simp [hk11])]
    have hB := hc.blocks.erase hb
    rw [Nat.mul_div_cancel _ (Nat.two_pow_pos k)] at hB
    refine hdone _ ⟨hB, hlists2, hc.bits.congr (fun l _ => hbud1 l) fun l hl => ?_⟩ rfl rfl rfl rfl
    rw [Function.update_of_ne (by omega)]
  · have hk' : k < classCount - 1 := by omega
    have hlone := hc.blocks.decomp.lone hk' hj
    have hidx : j / 2 < bitsetSize N k := index_lt_bitsetSize hI.dvd hk' hbN
    have hbits2 : Bits N (Heap.mk s'.memory { s'.globals with freePages := r }).globals L :=
      hc.bits.congr (fun l _ => hbud1 l) fun _ _ => rfl
    have hbit : (s'.globals.classes k).buddies.test (j / 2) = true := by
      rw [hbud1]
      exact hc.test_of_mem hk' hj
    rw [if_pos hk11, wp_buddyInfo hk]
    simp only [wp_getBuddyBit hbits2 hk' hidx, wp_assert, wp_setBuddyBit hbits2 hk' hidx, hbit]
    refine ⟨trivial, hdone _ (hc.of_erase hj hlone (hlists2.setBuddies k _) fun l => ?_)
      rfl rfl rfl rfl⟩
    rw [MemGlobals.setBuddies_buddies, MemGlobals.setBuddies_buddies, hbud1, hbud1]

/-! ### Choosing the class -/

theorem Core.freelist_eq_zero_iff (hc : Core N F L h) (hN : N ≤ windowPages) (hk : k < classCount) :
    (h.globals.classes k).freelist = 0#64 ↔ L k = [] :=
  (hc.lists.linked k hk).head_eq_null_iff fun _ hb =>
    pagePtr_ne_zero ((hc.blocks.lt (hc.blocks.mem hb)).trans_le hN)

/-- The upward search returns the least class from `current` on with a block. -/
theorem wp_findAbove (hc : Core N F L h) (hN : N ≤ windowPages) {left current : ℕ}
    (hcur : current + left = classCount) :
    wp (findAbove left current) (fun r h' => h' = h ∧
      ((∃ k, r = some k ∧ current ≤ k ∧ k < classCount ∧ L k ≠ [] ∧
          ∀ l, current ≤ l → l < k → L l = []) ∨
        (r = none ∧ ∀ l, current ≤ l → l < classCount → L l = []))) h := by
  induction left generalizing current with
  | zero =>
    simp only [findAbove, wp_bind, wp_ite, wp_pure]
    rw [if_neg (by simpa using hcur)]
    exact ⟨trivial, Or.inr ⟨trivial, fun l h1 h2 => by omega⟩⟩
  | succ left ih =>
    have hk : current < classCount := by omega
    have hiff := hc.freelist_eq_zero_iff hN hk
    simp only [findAbove, wp_bind, wp_ite, wp_pure, wp_classInfo hk]
    by_cases hnil : L current = []
    · rw [if_neg (by simpa using hiff.2 hnil)]
      refine wp_mono (ih (by omega)) ?_
      rintro r h' ⟨rfl, hr⟩
      refine ⟨rfl, hr.imp ?_ ?_⟩
      · rintro ⟨k, rfl, hle, hlt, hne, hmin⟩
        refine ⟨k, rfl, by omega, hlt, hne, fun l hl hlk => ?_⟩
        rcases Nat.eq_or_lt_of_le hl with rfl | hl
        · exact hnil
        · exact hmin l hl hlk
      · rintro ⟨rfl, hall⟩
        refine ⟨rfl, fun l hl hlc => ?_⟩
        rcases Nat.eq_or_lt_of_le hl with rfl | hl
        · exact hnil
        · exact hall l hl hlc
    · rw [if_pos fun hz => hnil (hiff.1 hz)]
      exact ⟨trivial, Or.inl ⟨current, rfl, le_rfl, hk, hnil, fun l h1 h2 => by omega⟩⟩

/-- The downward search returns the greatest class below `n` with a block. -/
theorem wp_findBelow (hc : Core N F L h) (hN : N ≤ windowPages) {n : ℕ} (hn : n ≤ classCount) :
    wp (findBelow n) (fun r h' => h' = h ∧
      ((∃ k, r = some k ∧ k < n ∧ L k ≠ [] ∧ ∀ l, k < l → l < n → L l = []) ∨
        (r = none ∧ ∀ l < n, L l = []))) h := by
  induction n with
  | zero =>
    simp only [findBelow, wp_pure]
    exact ⟨trivial, Or.inr ⟨trivial, fun l hl => by omega⟩⟩
  | succ n ih =>
    have hk : n < classCount := by omega
    have hiff := hc.freelist_eq_zero_iff hN hk
    simp only [findBelow, wp_bind, wp_ite, wp_pure, wp_classInfo hk]
    by_cases hnil : L n = []
    · rw [if_neg (by simpa using hiff.2 hnil)]
      refine wp_mono (ih (by omega)) ?_
      rintro r h' ⟨rfl, hr⟩
      refine ⟨rfl, hr.imp ?_ ?_⟩
      · rintro ⟨k, rfl, hlt, hne, hmax⟩
        refine ⟨k, rfl, by omega, hne, fun l hl hln => ?_⟩
        rcases Nat.lt_succ_iff_lt_or_eq.1 hln with hln | rfl
        · exact hmax l hl hln
        · exact hnil
      · rintro ⟨rfl, hall⟩
        refine ⟨rfl, fun l hl => ?_⟩
        rcases Nat.lt_succ_iff_lt_or_eq.1 hl with hl | rfl
        · exact hall l hl
        · exact hnil
    · rw [if_pos fun hz => hnil (hiff.1 hz)]
      exact ⟨trivial, Or.inl ⟨n, rfl, by omega, hnil, fun l h1 h2 => by omega⟩⟩

/-- `smallest_greater_power2` returns the least exponent of a power of two that is at least its
argument. -/
theorem wp_smallestGreaterPower2 {σ : Type} {s : σ} {c : ℕ} (hpos : 0 < c) (hlt : c < 2 ^ 63) :
    wp (smallestGreaterPower2 (c : ℤ))
      (fun m s' => s' = s ∧ c ≤ 2 ^ m ∧ ∀ i, c ≤ 2 ^ i → m ≤ i) s := by
  simp only [smallestGreaterPower2, wp_bind, wp_assert, wp_ite, wp_pure, Int.toNat_natCast]
  refine ⟨by omega, ?_⟩
  by_cases h1 : c = 1
  · rw [if_pos (by omega)]
    exact ⟨trivial, by simp [h1], fun i _ => Nat.zero_le i⟩
  · rw [if_neg (by omega)]
    have hne : c - 1 ≠ 0 := by omega
    have hlog : Nat.log2 (c - 1) < 63 := (Nat.log2_lt hne).2 (by omega)
    have hm : 64 - clzl (c - 1) = Nat.log2 (c - 1) + 1 := by
      unfold clzl
      omega
    rw [hm]
    refine ⟨trivial, ?_, fun i hi => ?_⟩
    · have := Nat.lt_log2_self (n := c - 1)
      omega
    · have : Nat.log2 (c - 1) < i := (Nat.log2_lt hne).2 (by omega)
      omega

/-! ### The whole call -/

/-- Without listed blocks nothing is free. -/
theorem Blocks.eq_empty (hB : Blocks N F L) (hnil : ∀ l < classCount, L l = []) : F = ∅ := by
  rw [Set.eq_empty_iff_forall_notMem]
  intro p hp
  obtain ⟨k, hk⟩ := hB.decomp.cover.1 hp
  have hb : p / 2 ^ k * 2 ^ k ∈ L k := hk
  rw [hnil k (hB.class_lt hb)] at hb
  cases hb

/-- The outcomes of `alloc_raw` for `count` pages, where `m` is the class they need. -/
inductive Outcome (N : ℕ) (L : ℕ → List ℕ) (h : Heap) (count m : ℕ) (exact : Bool) :
    Buffer → Heap → Prop
  /-- A block of class `m` or larger was found. -/
  | found {k b : ℕ} {h' : Heap} (hmk : m ≤ k) (hk : k < classCount) (hne : L k ≠ []) (hb : b < N)
      (hA : Allocated N b count h h') : Outcome N L h count m exact ⟨pagePtr b, count * 4096⟩ h'
  /-- The largest block there is was found. -/
  | fallback {k b : ℕ} {h' : Heap} (hexact : exact = false)
      (hnil : ∀ l, m ≤ l → l < classCount → L l = []) (hkm : k < m) (hne : L k ≠ [])
      (hmax : ∀ l, k < l → l < m → L l = []) (hb : b < N) (hA : Allocated N b (2 ^ k) h h') :
      Outcome N L h count m exact ⟨pagePtr b, ((2 ^ k : ℕ) : ℤ) * 4096⟩ h'
  /-- Nothing suitable was found. -/
  | null (hnil : ∀ l, m ≤ l → l < classCount → L l = []) (hno : exact = true ∨ ∀ l < m, L l = []) :
      Outcome N L h count m exact ⟨0#64, 0⟩ h

theorem wp_allocRaw_outcome (hI : Inv N h) (hc : Core N h.globals.freeSet L h) {count m : ℕ}
    (hpos : 0 < count) (hcount : count ≤ 4096) (hle : count ≤ 2 ^ m)
    (hmin : ∀ i, count ≤ 2 ^ i → m ≤ i) (exact : Bool) :
    wp (allocRaw count exact) (fun buf h' => Outcome N L h count m exact buf h') h := by
  have hm : m ≤ classCount := hmin 12 (by omega)
  simp only [allocRaw, wp_ite, wp_bind, wp_pure]
  rw [if_neg (by omega)]
  refine wp_mono (wp_smallestGreaterPower2 hpos (by omega)) ?_
  rintro m' h1 ⟨rfl, hle', hmin'⟩
  obtain rfl : m' = m := le_antisymm (hmin' m hle) (hmin m' hle')
  refine wp_mono (wp_findAbove hc hI.le_window (by omega)) ?_
  rintro r h2 ⟨rfl, ⟨k, rfl, hmk, hk, hne, -⟩ | ⟨rfl, hnil⟩⟩
  · have hck : count ≤ 2 ^ k := hle.trans (Nat.pow_le_pow_right (by omega) hmk)
    refine wp_mono (wp_allocFrom hI hc hk hne hpos hck) ?_
    rintro buf h3 ⟨b, rfl, hb, hA⟩
    exact .found hmk hk hne hb hA
  · cases exact with
    | true =>
      simp only [wp_ite, wp_pure]
      exact .null hnil (Or.inl rfl)
    | false =>
      simp only [wp_ite, wp_bind, wp_pure]
      rw [if_neg (by simp)]
      refine wp_mono (wp_findBelow hc hI.le_window hm) ?_
      rintro r h3 ⟨rfl, ⟨k, rfl, hkm, hne, hmax⟩ | ⟨rfl, hall⟩⟩
      · refine wp_mono (wp_allocFrom hI hc (by omega) hne (Nat.two_pow_pos k) le_rfl) ?_
        rintro buf h4 ⟨b, rfl, hb, hA⟩
        exact .fallback rfl hnil hkm hne hmax hb hA
      · exact (wp_pure _ _ _).2 (.null hnil (Or.inr hall))

/-- `alloc_raw` returns nothing and leaves the state as it is, or it hands out pages, as many as asked
for if that is required.  A single page is refused only if no page is free. -/
theorem wp_allocRaw (hI : Inv N h) {count : ℤ} (hcount : count ≤ 4096) (exact : Bool) :
    wp (allocRaw count exact) (fun buf h' =>
      (buf = ⟨0#64, 0⟩ ∧ h' = h ∧ (count = 1 → h.globals.freeSet = ∅)) ∨
      ∃ b c : ℕ, buf = ⟨pagePtr b, (c : ℤ) * 4096⟩ ∧ 0 < c ∧ b < N ∧ Allocated N b c h h' ∧
        ((c : ℤ) = count ∨ exact = false)) h := by
  obtain ⟨L, hc⟩ := hI.core
  by_cases hpos : count ≤ 0
  · simp only [allocRaw, wp_ite, wp_pure]
    rw [if_pos hpos]
    exact Or.inl ⟨trivial, trivial, fun h1 => by omega⟩
  · obtain ⟨c, rfl⟩ := Int.eq_ofNat_of_zero_le (show 0 ≤ count by omega)
    obtain ⟨m, _, -, -, hle, hmin⟩ :=
      wp_smallestGreaterPower2 (s := ()) (show 0 < c by omega) (by omega)
    refine wp_mono (wp_allocRaw_outcome hI hc (by omega) (by omega) hle hmin exact) ?_
    intro buf h' hout
    cases hout with
    | found hmk hk hne hb hA => exact Or.inr ⟨_, c, rfl, by omega, hb, hA, Or.inl rfl⟩
    | fallback hexact hnil hkm hne hmax hb hA =>
      exact Or.inr ⟨_, _, rfl, Nat.two_pow_pos _, hb, hA, Or.inr hexact⟩
    | null hnil hno =>
      refine Or.inl ⟨rfl, rfl, fun h1 => hc.blocks.eq_empty fun l hl => hnil l ?_ hl⟩
      have hm0 : m ≤ 0 := hmin 0 (by rw [pow_zero]; omega)
      omega

end Dumboss
