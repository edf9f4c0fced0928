import Dumboss.Allocator.Freelist

/-!
# Releasing pages

`wp_coalesceBy` is the loop invariant of the coalescing loop: a block that is in no list and outside
the page set `F` of the lists ends up in the lists, merged with its free siblings as far as
possible.  `wp_releaseRangeBy` adds the pages of a range one by one, and `wp_releasePagesBy` is the
specification of the whole call on a range of usable pages none of which is free.

The three hold for every `sync` that lets the bit sets and the pages `P` of the list nodes pass through
(`Syncs`).  `wp_releasePages` is the case of bit sets apart from memory.
-/

namespace Dumboss

open Prog Buddy

/-- The page bit sets and the byte counter are the same. -/
structure PagesKept (h h' : Heap) : Prop where
  freePages : h'.globals.freePages = h.globals.freePages
  usablePages : h'.globals.usablePages = h.globals.usablePages
  freeMemory : h'.globals.freeMemory = h.globals.freeMemory

theorem PagesKept.refl (h : Heap) : PagesKept h h := ⟨rfl, rfl, rfl⟩

theorem PagesKept.trans {h h' h'' : Heap} (h1 : PagesKept h h') (h2 : PagesKept h' h'') :
    PagesKept h h'' :=
  ⟨h2.freePages.trans h1.freePages, h2.usablePages.trans h1.usablePages,
    h2.freeMemory.trans h1.freeMemory⟩

theorem PagesKept.of_eq {h h' : Heap} (hg : h'.globals = h.globals) : PagesKept h h' :=
  ⟨by rw [hg], by rw [hg], by rw [hg]⟩

theorem PagesKept.setBuddies (h : Heap) (k : ℕ) (bits : BitSet) :
    PagesKept h ⟨h.memory, h.globals.setBuddies k bits⟩ := ⟨rfl, rfl, rfl⟩

/-- What the loops over the lists leave alone: the page bit sets, the byte counter, and memory
outside the pages `P`. -/
structure LoopFrame (P : Set ℕ) (h h' : Heap) : Prop extends PagesKept h h' where
  stores : Memory.StoresIn (InPages (· ∈ P)) h.memory h'.memory

namespace LoopFrame

variable {P Q : Set ℕ} {h h' h'' : Heap}

theorem refl (P : Set ℕ) (h : Heap) : LoopFrame P h h := ⟨.refl h, .refl _ _⟩

theorem trans (h1 : LoopFrame P h h') (h2 : LoopFrame P h' h'') : LoopFrame P h h'' :=
  ⟨h1.toPagesKept.trans h2.toPagesKept, h1.stores.trans h2.stores⟩

theorem mono (h1 : LoopFrame P h h') (hPQ : P ⊆ Q) : LoopFrame Q h h' :=
  ⟨h1.toPagesKept, h1.stores.mono fun _ ha => ha.mono fun _ hp => hPQ hp⟩

end LoopFrame

variable {N : ℕ} {F : Set ℕ} {L : ℕ → List ℕ} {h h' : Heap} {k : ℕ}

theorem ListStep.frame {page : ℕ} {l' : List ℕ} (hs : ListStep h L page k l' h') {P : Set ℕ}
    (hpage : page ∈ P) (hL : ∀ b ∈ L k, b ∈ P) : LoopFrame P h h' := by
  obtain ⟨ptr, hg⟩ := hs.globals
  refine ⟨⟨by rw [hg]; rfl, by rw [hg]; rfl, by rw [hg]; rfl⟩, ?_⟩
  refine hs.stores.mono fun a ha => ha.mono fun p hp => ?_
  rcases hp with rfl | hp
  · exact hpage
  · exact hL p hp

theorem ListStep.buddies {page : ℕ} {l' : List ℕ} (hs : ListStep h L page k l' h') (l : ℕ) :
    (h'.globals.classes l).buddies = (h.globals.classes l).buddies := by
  obtain ⟨ptr, hg⟩ := hs.globals
  rw [hg, MemGlobals.setFreelist_buddies]

/-- The lists do not depend on the buddy bits. -/
theorem Lists.setBuddies (hl : Lists h L) (k : ℕ) (bits : BitSet) :
    Lists ⟨h.memory, h.globals.setBuddies k bits⟩ L := by
  refine ⟨fun l hlc => ?_, hl.class_eq⟩
  rw [MemGlobals.setBuddies_freelist]
  exact hl.linked l hlc

theorem LoopFrame.setBuddies (P : Set ℕ) (h : Heap) (k : ℕ) (bits : BitSet) :
    LoopFrame P h ⟨h.memory, h.globals.setBuddies k bits⟩ := ⟨.setBuddies h k bits, .refl _ _⟩

/-- A block outside `F` is not listed. -/
theorem Blocks.not_mem_indices (hB : Blocks N F L) {j : ℕ} (hdis : Disjoint (block k j) F) :
    j ∉ indices L k := fun hj =>
  Set.disjoint_left.1 hdis (start_mem_block k j) (hB.decomp.block_subset hj (start_mem_block k j))

/-- The bit of a block outside `F` says whether its sibling is listed. -/
theorem Core.test_iff (hc : Core N F L h) {j : ℕ} (hk : k < classCount - 1)
    (hdis : Disjoint (block k j) F) :
    (h.globals.classes k).buddies.test (j / 2) = true ↔ sibling j ∈ indices L k := by
  have hj := hc.blocks.not_mem_indices hdis
  rw [hc.bits.test_iff k hk, xor_pair_iff (· ∈ indices L k)]
  simp [Xor, hj]

/-- The bit of a listed block below the top class is set. -/
theorem Core.test_of_mem (hc : Core N F L h) {j : ℕ} (hk : k < classCount - 1)
    (hj : j ∈ indices L k) : (h.globals.classes k).buddies.test (j / 2) = true := by
  have hlone := hc.blocks.decomp.lone hk hj
  rw [hc.bits.test_iff k hk, xor_pair_iff (· ∈ indices L k)]
  exact Or.inl ⟨hj, hlone⟩

/-- The state after a block outside `F`, whose sibling is not listed, was put into its list and its
bit was set. -/
theorem Core.of_push (hc : Core N F L h) {j : ℕ} (hk : k < classCount - 1)
    (hdis : Disjoint (block k j) F) (hlt : ∀ p ∈ block k j, p < N) (hs : sibling j ∉ indices L k)
    (hl : Lists h' (Function.update L k (j * 2 ^ k :: L k)))
    (hg : ∀ l, (h'.globals.classes l).buddies =
      ((h.globals.setBuddies k ((h.globals.classes k).buddies.put (j / 2) true)).classes l).buddies) :
    Core N (F ∪ block k j) (Function.update L k (j * 2 ^ k :: L k)) h' := by
  have hdiv : j * 2 ^ k / 2 ^ k = j := Nat.mul_div_cancel _ (Nat.two_pow_pos k)
  have hB := hc.blocks.push (b := j * 2 ^ k) (by omega) (Dvd.intro_left j rfl) (hdiv.symm ▸ hdis)
    (hdiv.symm ▸ hlt) (fun _ => hdiv.symm ▸ hs)
  rw [hdiv] at hB
  refine ⟨hB, hl, Bits.congr (hc.bits.update (i := j / 2) (v := true) ?_ ?_) (fun l _ => hg l)
    fun l _ => rfl⟩
  · intro i hi
    have hij : i ≠ j := fun e => hi (by rw [e])
    have hne : i * 2 ^ k ≠ j * 2 ^ k := fun e => hij (Nat.eq_of_mul_eq_mul_right (Nat.two_pow_pos k) e)
    simp [hne]
  · have hmem : ∀ i, i * 2 ^ k ∈ j * 2 ^ k :: L k ↔ i = j ∨ i ∈ indices L k := by
      intro i
      rw [List.mem_cons, mul_pow_eq_iff (Dvd.intro_left j rfl), hdiv]
      rfl
    have hj := hc.blocks.not_mem_indices hdis
    rw [hmem, hmem, xor_pair_iff fun i => i = j ∨ i ∈ indices L k]
    simp [Xor, hs, sibling_ne]

/-- The state after the listed sibling `i` of a block outside `F` was taken out of its list and its
bit was cleared. -/
theorem Core.of_erase (hc : Core N F L h) {j : ℕ} (hj : j ∈ indices L k)
    (hs : sibling j ∉ indices L k)
    (hl : Lists h' (Function.update L k ((L k).erase (j * 2 ^ k))))
    (hg : ∀ l, (h'.globals.classes l).buddies =
      ((h.globals.setBuddies k ((h.globals.classes k).buddies.put (j / 2) false)).classes l).buddies) :
    Core N (F \ block k j) (Function.update L k ((L k).erase (j * 2 ^ k))) h' := by
  have hdiv : j * 2 ^ k / 2 ^ k = j := Nat.mul_div_cancel _ (Nat.two_pow_pos k)
  have hB := hc.blocks.erase hj
  rw [hdiv] at hB
  have hmem : ∀ i, i * 2 ^ k ∈ (L k).erase (j * 2 ^ k) ↔ i ≠ j ∧ i ∈ indices L k := by
    intro i
    rw [(hc.blocks.nodup k).mem_erase_iff, Ne, mul_pow_eq_iff (Dvd.intro_left j rfl), hdiv]
    rfl
  refine ⟨hB, hl, Bits.congr (hc.bits.update (i := j / 2) (v := false) ?_ ?_) (fun l _ => hg l)
    fun l _ => rfl⟩
  · intro i hi
    have hij : i ≠ j := fun e => hi (by rw [e])
    rw [hmem]
    exact ⟨fun h => h.2, fun h => ⟨hij, h⟩⟩
  · rw [hmem, hmem, xor_pair_iff fun i => i ≠ j ∧ i ∈ indices L k]
    simp [Xor, hs]

/-! ### Where the bit sets are kept -/

/-- A step changes bits of the bit sets, and words in the pages `P`. -/
structure Changes (P : Set ℕ) (h h' : Heap) : Prop where
  bits : ∀ i, (h.globals.bitSet i).Changed (h'.globals.bitSet i)
  stores : Memory.StoresIn (InPages (· ∈ P)) h.memory h'.memory

/-- `sync` lets a step through, as long as the step stays in the pages `P`.  It stores to no page of `P`
itself, and afterwards the relation `S` between bit sets and memory holds again. -/
structure Syncs (P : Set ℕ) (S : (ℕ → BitSet) → Memory → Prop)
    (sync : Kern Heap Unit → Kern Heap Unit) : Prop where
  wp_sync : ∀ {x : Kern Heap Unit} {Q : Heap → Prop} {h : Heap}, S h.globals.bitSet h.memory →
    wp x (fun _ => Q) h → (∀ h', Q h' → Changes P h h') →
    wp (sync x) (fun _ h'' => S h''.globals.bitSet h''.memory ∧ ∃ h', Q h' ∧
      h''.globals = h'.globals ∧
      Memory.StoresIn (fun a => ¬ InPages (· ∈ P) a) h'.memory h''.memory) h
  wp_of_sync : ∀ {x : Kern Heap Unit} {Q : Unit → Heap → Prop} {h : Heap}, wp (sync x) Q h →
    wp x (fun _ _ => True) h

/-- Bit sets apart from memory. -/
theorem syncs_id (P : Set ℕ) (m : Memory) :
    Syncs P (fun _ m' => Memory.StoresIn (InPages (· ∈ P)) m m') id where
  wp_sync hS hx hQ := wp_mono hx fun _ h' hq =>
    ⟨hS.trans (hQ h' hq).stores, h', hq, rfl, .refl _ _⟩
  wp_of_sync hx := wp_mono hx fun _ _ _ => trivial

theorem bitSet_setFreelist (g : MemGlobals) (k : ℕ) (ptr : U64) (i : ℕ) :
    (g.setFreelist k ptr).bitSet i = g.bitSet i := by
  match i with
  | 0 => rfl
  | 1 => rfl
  | l + 2 => exact MemGlobals.setFreelist_buddies ..

/-- The bit set of class `k` is changed. -/
theorem changes_setBuddies (P : Set ℕ) {bits : BitSet}
    (hb : (h.globals.classes k).buddies.Changed bits) :
    Changes P h ⟨h.memory, h.globals.setBuddies k bits⟩ := by
  refine ⟨fun i => ?_, .refl _ _⟩
  match i with
  | 0 => exact .refl _
  | 1 => exact .refl _
  | l + 2 =>
    by_cases hl : l = k
    · subst hl
      rwa [MemGlobals.bitSet, MemGlobals.bitSet, MemGlobals.setBuddies_buddies_self]
    · rw [MemGlobals.bitSet, MemGlobals.bitSet, MemGlobals.setBuddies_classes_of_ne _ _ hl]
      exact .refl _

theorem ListStep.changes {page : ℕ} {l' : List ℕ} (hs : ListStep h L page k l' h') {P : Set ℕ}
    (hpage : page ∈ P) (hL : ∀ b ∈ L k, b ∈ P) : Changes P h h' := by
  obtain ⟨ptr, hg⟩ := hs.globals
  refine ⟨fun i => ?_, (hs.frame hpage hL).stores⟩
  rw [hg, bitSet_setFreelist]
  exact .refl _

section Sync

variable {P : Set ℕ} {S : (ℕ → BitSet) → Memory → Prop} {sync : Kern Heap Unit → Kern Heap Unit}

/-- The lists after `sync` are those before. -/
theorem Core.of_sync (hc : Core N F L h) (hN : N ≤ windowPages) (hF : F ⊆ P)
    (hg : h'.globals = h.globals)
    (hst : Memory.StoresIn (fun a => ¬ InPages (· ∈ P) a) h.memory h'.memory) : Core N F L h' := by
  obtain ⟨m, g⟩ := h'
  obtain rfl : g = h.globals := hg
  exact hc.of_stores hN (hst.mono fun a ha hin => ha (hin.mono fun _ hp => hF hp))

/-! ### The coalescing loop -/

/-- **Loop invariant of the coalescing loop.** -/
theorem wp_coalesceBy (hsync : Syncs P S sync) (hd : 4096 ∣ N) (hN : N ≤ windowPages) {left j : ℕ}
    (hk : k + left = classCount - 1) (hc : Core N F L h) (hdis : Disjoint (block k j) F)
    (hlt : ∀ p ∈ block k j, p < N) (hP : F ∪ block k j ⊆ P) (hS : S h.globals.bitSet h.memory) :
    wp (coalesceBy sync left (j * 2 ^ k)) (fun _ h' => S h'.globals.bitSet h'.memory ∧
      PagesKept h h' ∧ ∃ L', Core N (F ∪ block k j) L' h') h := by
  have hFP : F ⊆ P := fun p hp => hP (Or.inl hp)
  have hmem := start_mem_block k j
  have hpage : j * 2 ^ k ∈ P := hP (Or.inr hmem)
  have hdvd : 2 ^ k ∣ j * 2 ^ k := Dvd.intro_left j rfl
  have hstart : j * 2 ^ k ∉ F := Set.disjoint_left.1 hdis hmem
  induction left generalizing k j F L h with
  | zero =>
    obtain rfl : k = classCount - 1 := by omega
    have hdiv := Nat.mul_div_cancel j (Nat.two_pow_pos (classCount - 1))
    simp only [coalesceBy, wp_bind, wp_assert, wp_isAligned_of_dvd (show _ < classCount by decide) hdvd]
    refine ⟨trivial, wp_mono (hsync.wp_sync hS (wp_addToFreelist hc.blocks hN hc.lists (by decide) hdvd
      hstart (hlt _ hmem)) fun h1 hs => hs.changes hpage fun b hb => hFP (hc.blocks.mem hb)) ?_⟩
    rintro _ h2 ⟨hS2, h1, hs, hg, hst⟩
    have hkept := (hs.frame (P := P) hpage fun b hb => hFP (hc.blocks.mem hb)).toPagesKept
    refine ⟨hS2, hkept.trans (.of_eq hg), _, Core.of_sync ⟨?_, hs.lists, ?_⟩ hN hP hg hst⟩
    · have hB := hc.blocks.push (b := j * 2 ^ (classCount - 1)) (by decide) hdvd (hdiv.symm ▸ hdis)
        (hdiv.symm ▸ hlt) (fun hcon => absurd hcon (lt_irrefl _))
      rwa [hdiv] at hB
    · refine hc.bits.congr (fun l _ => hs.buddies l) fun l hl => ?_
      rw [Function.update_of_ne (by omega)]
  | succ left ih =>
    have hk' : k < classCount - 1 := by omega
    have hkc : k < classCount := by omega
    have hke : classCount - 1 - (left + 1) = k := by omega
    have hi : j / 2 < bitsetSize N k := index_lt_bitsetSize hd hk' (hlt _ hmem)
    have hcount : ((j / 2 : ℕ) : ℤ) < (h.globals.classes k).buddies.count := by
      rw [hc.bits.count_eq k hk']
      exact_mod_cast hi
    simp only [coalesceBy, hke, wp_bind, wp_assert, wp_isAligned_of_dvd hkc hdvd, wp_buddyInfo hkc,
      wp_getBuddyBit hc.bits hk' hi, wp_ite]
    have htest := hc.test_iff hk' hdis
    generalize (h.globals.classes k).buddies.test (j / 2) = bit at htest ⊢
    -- the bit is flipped
    have hflip := hsync.wp_sync (Q := fun h1 =>
      h1 = ⟨h.memory, h.globals.setBuddies k ((h.globals.classes k).buddies.put (j / 2) !bit)⟩) hS
      ((wp_setBuddyBit hc.bits hk' hi _).2 rfl) (by
        rintro _ rfl
        exact changes_setBuddies P (BitSet.changed_put hcount _))
    refine ⟨trivial, wp_mono hflip ?_⟩
    rintro _ h1 ⟨hS1, _, rfl, hg1, hst1⟩
    have hbuddies : ∀ l, (h1.globals.classes l).buddies = ((h.globals.setBuddies k
        ((h.globals.classes k).buddies.put (j / 2) !bit)).classes l).buddies := fun l => by rw [hg1]
    have hkept1 : PagesKept h h1 := (PagesKept.setBuddies h k _).trans (.of_eq hg1)
    have hlists : Lists h1 L := by
      refine hc.lists.of_stores hc.blocks hN (fun l => ?_)
        (hst1.mono fun a ha hin => ha (hin.mono fun _ hp => hFP hp))
      rw [hg1, MemGlobals.setBuddies_freelist]
    cases bit with
    | false =>
      have hs : sibling j ∉ indices L k := fun hs => by simpa using htest.2 hs
      rw [if_pos rfl]
      refine wp_mono (hsync.wp_sync hS1 (wp_addToFreelist hc.blocks hN hlists hkc hdvd hstart
        (hlt _ hmem)) fun h2 hs => hs.changes hpage fun b hb => hFP (hc.blocks.mem hb)) ?_
      rintro _ h3 ⟨hS3, h2, hstep, hg, hst⟩
      have hkept := (hstep.frame (P := P) hpage fun b hb => hFP (hc.blocks.mem hb)).toPagesKept
      have hc2 := hc.of_push hk' hdis hlt hs hstep.lists fun l =>
        (hstep.buddies l).trans (hbuddies l)
      exact ⟨hS3, hkept1.trans (hkept.trans (.of_eq hg)), _, hc2.of_sync hN hP hg hst⟩
    | true =>
      have hs : sibling j ∈ indices L k := htest.1 rfl
      have hsub := hc.blocks.decomp.block_subset hs
      have hsib : sibling j * 2 ^ k ∈ P := hFP (hc.blocks.mem hs)
      rw [if_neg (by simp)]
      refine wp_mono (hsync.wp_sync hS1 (wp_removeFromFreelist hc.blocks hN hlists hkc hs)
        fun h2 hs => hs.changes hsib fun b hb => hFP (hc.blocks.mem hb)) ?_
      rintro _ h3 ⟨hS3, h2, hstep, hg, hst⟩
      have hkept := (hstep.frame (P := P) hsib fun b hb => hFP (hc.blocks.mem hb)).toPagesKept
      have hc2 := hc.of_erase hs
        (by rw [sibling_sibling]; exact hc.blocks.not_mem_indices hdis) hstep.lists
        (by rw [sibling_div_two]; exact fun l => (hstep.buddies l).trans (hbuddies l))
      have hc3 := hc2.of_sync hN (Set.sdiff_subset.trans hFP) hg hst
      -- the merged block: the block in hand and its sibling, now both outside the lists
      have hdis' : Disjoint (block (k + 1) (j / 2)) (F \ block k (sibling j)) := by
        rw [block_parent]
        exact Disjoint.union_left (hdis.mono_right Set.sdiff_subset) Set.disjoint_sdiff_right
      have hlt' : ∀ p ∈ block (k + 1) (j / 2), p < N := by
        rw [block_parent]
        rintro p (hp | hp)
        · exact hlt p hp
        · exact hc.blocks.lt (hsub hp)
      have hunion : F \ block k (sibling j) ∪ block (k + 1) (j / 2) = F ∪ block k j := by
        rw [block_parent, Set.union_comm (block k j), ← Set.union_assoc,
          Set.sdiff_union_of_subset hsub]
      have hmem' := start_mem_block (k + 1) (j / 2)
      rw [min_start]
      refine wp_mono (ih (by omega) hc3 hdis' hlt' (hunion ▸ hP) hS3 (Set.sdiff_subset.trans hFP) hmem'
        (hP (hunion ▸ Or.inr hmem')) (Dvd.intro_left _ rfl) (Set.disjoint_left.1 hdis' hmem')) ?_
      rintro _ h4 ⟨hS4, hkept4, L', hcore⟩
      rw [hunion] at hcore
      exact ⟨hS4, hkept1.trans ((hkept.trans (.of_eq hg)).trans hkept4), L', hcore⟩

theorem block_zero (p : ℕ) : block 0 p = {p} := by
  ext q
  simp

/-- The page loop adds the pages of the range one by one. -/
theorem wp_releaseRangeBy (hsync : Syncs P S sync) (hd : 4096 ∣ N) (hN : N ≤ windowPages)
    {n page : ℕ} (hc : Core N F L h) (hdis : Disjoint (Set.Ico page (page + n)) F)
    (hlt : page + n ≤ N) (hP : F ∪ Set.Ico page (page + n) ⊆ P)
    (hS : S h.globals.bitSet h.memory) :
    wp (releaseRangeBy sync n page) (fun _ h' => S h'.globals.bitSet h'.memory ∧ PagesKept h h' ∧
      ∃ L', Core N (F ∪ Set.Ico page (page + n)) L' h') h := by
  induction n generalizing page F L h with
  | zero =>
    rw [releaseRangeBy, wp_pure]
    simp only [add_zero, Set.Ico_self, Set.union_empty]
    exact ⟨hS, .refl h, L, hc⟩
  | succ n ih =>
    have hsplit : F ∪ Set.Ico page (page + (n + 1)) =
        F ∪ block 0 page ∪ Set.Ico (page + 1) (page + 1 + n) := by
      ext q
      simp only [Set.mem_union, Set.mem_Ico, block_zero, Set.mem_singleton_iff, or_assoc]
      exact or_congr_right (by omega)
    rw [hsplit] at hP
    have hpage : page ∉ F := Set.disjoint_left.1 hdis ⟨le_rfl, by omega⟩
    have hone := wp_coalesceBy (j := page) hsync hd hN (show 0 + (classCount - 1) = _ by omega) hc
      (by rwa [block_zero, Set.disjoint_singleton_left])
      (by rw [block_zero]; rintro p rfl; omega) (Set.subset_union_left.trans hP) hS
    rw [pow_zero, mul_one] at hone
    rw [releaseRangeBy, wp_bind, hsplit]
    refine wp_mono hone fun _ h1 ⟨hS1, hk1, L1, hc1⟩ => ?_
    have hdis' : Disjoint (Set.Ico (page + 1) (page + 1 + n)) (F ∪ block 0 page) := by
      rw [Set.disjoint_left] at hdis ⊢
      rintro q hq (hF | hp)
      · exact hdis ⟨by have := hq.1; omega, by have := hq.2; omega⟩ hF
      · rw [block_zero, Set.mem_singleton_iff] at hp
        have := hq.1
        omega
    refine wp_mono (ih hc1 hdis' (by omega) hP hS1) fun _ h2 ⟨hS2, hk2, hcore⟩ => ?_
    exact ⟨hS2, hk1.trans hk2, hcore⟩

end Sync

/-! ### The whole call -/

theorem wp_pageOfPtr {σ : Type} {s : σ} {p : ℕ} (hp : p < windowPages) {Q : ℕ → σ → Prop} :
    wp (pageOfPtr (pagePtr p)) Q s ↔ Q p s := by
  have hn : (BitVec.ofNat 64 (4096 * p)).toNat = 4096 * p := by
    unfold windowPages at hp
    rw [BitVec.toNat_ofNat]
    omega
  have hdown : ∀ Q : ℕ → σ → Prop, wp (alignDown (4096 * p) 4096) Q s ↔ Q (4096 * p) s := by
    intro Q
    rw [show (4096 : ℕ) = 2 ^ 12 by norm_num, wp_alignDown (by omega),
      Nat.mul_div_cancel_left _ (by norm_num), Nat.mul_comm]
  simp only [pageOfPtr, wp_bind, wp_assert, wp_physicalAddress hp, hn, hdown, wp_pure,
    Nat.mul_div_cancel_left _ (show 0 < 4096 by omega)]
  simp [pagePtr_ne_zero hp]

theorem Inv.lt_of_free (hI : Inv N h) {p : ℕ} (hp : p ∈ h.globals.freeSet) : p < N := by
  obtain ⟨L, hc⟩ := hI.core
  exact hc.blocks.lt hp

theorem mem_freeFinset {g : MemGlobals} {p : ℕ} :
    p ∈ g.freeFinset N ↔ p < N ∧ p ∈ g.freeSet := by
  simp [MemGlobals.freeFinset, MemGlobals.freeSet]

/-- The `c` pages from `p` on have become free. -/
structure Added (N p c : ℕ) (h h' : Heap) : Prop where
  inv : Inv N h'
  freeSet : h'.globals.freeSet = h.globals.freeSet ∪ Set.Ico p (p + c)
  usablePages : h'.globals.usablePages = h.globals.usablePages
  freeMemory : h'.globals.freeMemory = h.globals.freeMemory + c * 4096

/-- The state after a release of the `c` pages from `p` on. -/
structure Released (N p c : ℕ) (h h' : Heap) : Prop extends Added N p c h h' where
  stores : Memory.StoresIn (InPages (· ∈ h'.globals.freeSet)) h.memory h'.memory

/-- The number of free pages, after `c` pages were added to them. -/
theorem card_freeFinset_union {g g' : MemGlobals} {p c : ℕ}
    (hset : g'.freeSet = g.freeSet ∪ Set.Ico p (p + c))
    (hdis : Disjoint (Set.Ico p (p + c)) g.freeSet) (hpc : p + c ≤ N) :
    ((g'.freeFinset N).card : ℤ) = (g.freeFinset N).card + c := by
  have hunion : g'.freeFinset N = g.freeFinset N ∪ Finset.Ico p (p + c) := by
    ext q
    rw [mem_freeFinset, hset, Finset.mem_union, mem_freeFinset, Finset.mem_Ico, Set.mem_union,
      Set.mem_Ico]
    constructor
    · rintro ⟨hq, hq' | hq'⟩
      · exact Or.inl ⟨hq, hq'⟩
      · exact Or.inr hq'
    · rintro (⟨hq, hq'⟩ | hq)
      · exact ⟨hq, Or.inl hq'⟩
      · exact ⟨by omega, Or.inr hq⟩
  have hdisj : Disjoint (g.freeFinset N) (Finset.Ico p (p + c)) := by
    rw [Finset.disjoint_right]
    intro q hq hq'
    exact Set.disjoint_left.1 hdis (by simpa using hq) (mem_freeFinset.1 hq').2
  rw [hunion, Finset.card_union_of_disjoint hdisj, Nat.card_Ico]
  push_cast
  omega

/-- `BitSet__set_range` on one of the bit sets, behind `sync`. -/
theorem Syncs.wp_setRange {P : Set ℕ} {S : (ℕ → BitSet) → Memory → Prop}
    {sync : Kern Heap Unit → Kern Heap Unit} (hsync : Syncs P S sync) {x : Kern Heap Unit}
    {bits : BitSet} {g : BitSet → MemGlobals} {b e : ℕ} {value : Bool}
    (hx : wp x (fun _ h1 => ∃ r, BitSet.Filled bits b e value r ∧ h1 = ⟨h.memory, g r⟩) h)
    (hg : ∀ r, BitSet.Filled bits b e value r → ∀ i, (h.globals.bitSet i).Changed ((g r).bitSet i))
    (hS : S h.globals.bitSet h.memory) :
    wp (sync x) (fun _ h' => S h'.globals.bitSet h'.memory ∧
      (∃ r, BitSet.Filled bits b e value r ∧ h'.globals = g r) ∧
      Memory.StoresIn (fun a => ¬ InPages (· ∈ P) a) h.memory h'.memory) h := by
  refine wp_mono (hsync.wp_sync hS hx ?_) ?_
  · rintro _ ⟨r, hr, rfl⟩
    exact ⟨hg r hr, .refl _ _⟩
  · rintro _ h2 ⟨hS2, _, ⟨r, hr, rfl⟩, hg2, hst⟩
    exact ⟨hS2, ⟨r, hr, hg2⟩, hst⟩

theorem wp_setFreePages {b e : ℕ} (hbe : b ≤ e) (he : (e : ℤ) ≤ h.globals.freePages.count)
    (value : Bool) : wp (setFreePages b e value) (fun _ h1 => ∃ r,
      BitSet.Filled h.globals.freePages b e value r ∧
        h1 = ⟨h.memory, { h.globals with freePages := r }⟩) h := by
  simp only [setFreePages, wp_bind, wp_get, wp_modify]
  refine wp_mono (BitSet.wp_setRange hbe he value h) ?_
  rintro r _ ⟨hr, rfl⟩
  exact ⟨r, hr, rfl⟩

theorem wp_setUsablePages {b e : ℕ} (hbe : b ≤ e) (he : (e : ℤ) ≤ h.globals.usablePages.count)
    (value : Bool) : wp (setUsablePages b e value) (fun _ h1 => ∃ r,
      BitSet.Filled h.globals.usablePages b e value r ∧
        h1 = ⟨h.memory, { h.globals with usablePages := r }⟩) h := by
  simp only [setUsablePages, wp_bind, wp_get, wp_modify]
  refine wp_mono (BitSet.wp_setRange hbe he value h) ?_
  rintro r _ ⟨hr, rfl⟩
  exact ⟨r, hr, rfl⟩

theorem changed_setFreePages (g : MemGlobals) {r : BitSet} (hr : g.freePages.Changed r) (i : ℕ) :
    (g.bitSet i).Changed (({ g with freePages := r } : MemGlobals).bitSet i) := by
  match i with
  | 0 => exact .refl _
  | 1 => exact hr
  | l + 2 => exact .refl _

theorem changed_setUsablePages (g : MemGlobals) {r : BitSet} (hr : g.usablePages.Changed r) (i : ℕ) :
    (g.bitSet i).Changed (({ g with usablePages := r } : MemGlobals).bitSet i) := by
  match i with
  | 0 => exact hr
  | 1 => exact .refl _
  | l + 2 => exact .refl _

theorem wp_releasePagesBy {P : Set ℕ} {S : (ℕ → BitSet) → Memory → Prop}
    {sync : Kern Heap Unit → Kern Heap Unit} (hsync : Syncs P S sync) (hI : Inv N h) {p c : ℕ}
    (hpc : p + c ≤ N) (hp : p < windowPages)
    (husable : ∀ q ∈ Set.Ico p (p + c), h.globals.usablePages.test q = true)
    (hfree : ∀ q ∈ Set.Ico p (p + c), q ∉ h.globals.freeSet)
    (hP : h.globals.freeSet ∪ Set.Ico p (p + c) ⊆ P) (hS : S h.globals.bitSet h.memory) :
    wp (releasePagesBy sync (pagePtr p) c)
      (fun _ h' => S h'.globals.bitSet h'.memory ∧ Added N p c h h') h := by
  obtain ⟨L, hc⟩ := hI.core
  have hend : (p : ℤ) + c = ((p + c : ℕ) : ℤ) := by push_cast; rfl
  have hdis : Disjoint (Set.Ico p (p + c)) h.globals.freeSet := Set.disjoint_left.2 hfree
  have hall : (List.range' p (p + c - p)).all h.globals.usablePages.test = true := by
    rw [List.all_eq_true]
    intro q hq
    rw [List.mem_range'_1] at hq
    exact husable q ⟨hq.1, by omega⟩
  have hany : (List.range' p (p + c - p)).any h.globals.freePages.test = false := by
    rw [List.any_eq_false]
    intro q hq
    rw [List.mem_range'_1] at hq
    exact hfree q ⟨hq.1, by omega⟩
  simp only [releasePagesBy, wp_bind, wp_pageOfPtr hp, wp_get, wp_assert, hend,
    BitSet.wp_getAll (show p ≤ p + c by omega)
      (show ((p + c : ℕ) : ℤ) ≤ h.globals.usablePages.count by
        rw [hI.usable_count]; exact_mod_cast hpc),
    BitSet.wp_getAny (show p ≤ p + c by omega)
      (show ((p + c : ℕ) : ℤ) ≤ h.globals.freePages.count by
        rw [hI.free_count]; exact_mod_cast hpc), hall, hany, Int.toNat_natCast]
  refine ⟨trivial, trivial, ?_⟩
  refine wp_mono (wp_releaseRangeBy hsync hI.dvd hI.le_window hc hdis hpc hP hS) ?_
  rintro _ h1 ⟨hS1, hk1, L1, hc1⟩
  simp only [wp_modify]
  set h2 : Heap := ⟨h1.memory, { h1.globals with
    freeMemory := h1.globals.freeMemory + (c : ℤ) * 4096 }⟩ with hh2
  have hcnt : ((p + c : ℕ) : ℤ) ≤ h2.globals.freePages.count := by
    show _ ≤ h1.globals.freePages.count
    rw [hk1.freePages, hI.free_count]
    exact_mod_cast hpc
  refine wp_mono (hsync.wp_setRange (wp_setFreePages (show p ≤ p + c by omega) hcnt true)
    (fun r hr i => changed_setFreePages _ (hr.changed hcnt) i) hS1) ?_
  rintro _ h3 ⟨hS3, ⟨r, hr, hg⟩, hst⟩
  have hr : BitSet.Filled h.globals.freePages p (p + c) true r := hk1.freePages ▸ hr
  -- the new set of free bits
  have hbits : ∀ q, r.test q = true ↔ q ∈ h.globals.freeSet ∪ Set.Ico p (p + c) := by
    intro q
    simp only [MemGlobals.freeSet, Set.mem_ofPred_eq, Set.mem_union, Set.mem_Ico, hr.test_eq]
    split_ifs with hq <;> simp [hq]
  have hset : h3.globals.freeSet = h.globals.freeSet ∪ Set.Ico p (p + c) := by
    rw [hg]
    exact Set.ext hbits
  refine ⟨hS3, ⟨hI.dvd, hI.le_window, ?_, ?_, ?_, ?_, L1, ?_⟩, hset, ?_, ?_⟩
  · rw [hg]
    exact (congrArg BitSet.count hk1.usablePages).trans hI.usable_count
  · rw [hg]
    exact hr.1.trans hI.free_count
  · rw [hg]
    intro q hq
    show h1.globals.usablePages.test q = true
    rw [hk1.usablePages]
    rcases (hbits q).1 hq with hq' | hq'
    · exact hI.free_usable q hq'
    · exact husable q hq'
  · rw [card_freeFinset_union hset hdis hpc, hg]
    show h1.globals.freeMemory + (c : ℤ) * 4096 = _
    rw [hk1.freeMemory, hI.free_memory]
    ring
  · rw [hset]
    have hc3 : Core N (h.globals.freeSet ∪ Set.Ico p (p + c)) L1 ⟨h1.memory, h3.globals⟩ := by
      rw [hg]
      exact ⟨hc1.blocks, ⟨hc1.lists.linked, hc1.lists.class_eq⟩, hc1.bits.congr (fun _ _ => rfl)
        fun _ _ => rfl⟩
    exact hc3.of_sync hI.le_window hP rfl hst
  · rw [hg]
    exact hk1.usablePages
  · rw [hg]
    show h1.globals.freeMemory + (c : ℤ) * 4096 = _
    rw [hk1.freeMemory]

theorem wp_releasePages (hI : Inv N h) {p c : ℕ} (hpc : p + c ≤ N) (hp : p < windowPages)
    (husable : ∀ q ∈ Set.Ico p (p + c), h.globals.usablePages.test q = true)
    (hfree : ∀ q ∈ Set.Ico p (p + c), q ∉ h.globals.freeSet) :
    wp (releasePages (pagePtr p) c) (fun _ => Released N p c h) h := by
  refine wp_mono (wp_releasePagesBy (syncs_id _ h.memory) hI hpc hp husable hfree subset_rfl
    (.refl _ _)) ?_
  rintro _ h' ⟨hst, hadded⟩
  refine ⟨hadded, ?_⟩
  rw [hadded.freeSet]
  exact hst

end Dumboss
