import Dumboss.Allocator.Run

/-!
# Complete coalescing

The free blocks of a reachable state are determined by its free pages: a block is listed exactly
when it is free and no larger block around it is.

* `InFreelist h k b`: walking freelist `k` in memory from its head comes to the block at page `b`;
* `inFreelist_iff`: in a state that satisfies the invariant this is membership in the list of the
  invariant;
* `reachable_canonical`: the canonical form, and what it implies for two runs.
-/

namespace Dumboss

open Prog Buddy

/-- Following the `next` fields from the pointer `ptr` leads to the block at page `b`. -/
inductive OnChain (m : Memory) (b : ℕ) : U64 → Prop
  | here (hb : b < windowPages) : OnChain m b (pagePtr b)
  | next {c : ℕ} (hc : c < windowPages) (h : OnChain m b (m.next c)) : OnChain m b (pagePtr c)

/-- The block at page `b` is in freelist `k`. -/
def InFreelist (h : Heap) (k b : ℕ) : Prop := OnChain h.memory b (h.globals.classes k).freelist

variable {N : ℕ} {h h' : Heap} {L : ℕ → List ℕ}

theorem onChain_iff_of_seg {m : Memory} {b : ℕ} {prev head last : U64} {l : List ℕ}
    (hl : Links.Seg pagePtr m.next m.prev prev head l last 0#64)
    (hlt : ∀ c ∈ l, c < windowPages) : OnChain m b head ↔ b ∈ l := by
  induction l generalizing prev head with
  | nil =>
    obtain rfl : head = 0#64 := hl.1
    constructor
    · intro hc
      generalize hz : 0#64 = z at hc
      cases hc with
      | here hb => exact absurd hz.symm (pagePtr_ne_zero hb)
      | next hc _ => exact absurd hz.symm (pagePtr_ne_zero hc)
    · simp
  | cons c l ih =>
    obtain ⟨rfl, -, hl⟩ := hl
    have hcw := hlt c (by simp)
    have ih := ih hl fun d hd => hlt d (by simp [hd])
    constructor
    · intro hc
      generalize hz : pagePtr c = z at hc
      cases hc with
      | here hb => simp [pagePtr_inj hcw hb hz]
      | next hd hn =>
        obtain rfl := pagePtr_inj hcw hd hz
        exact List.mem_cons_of_mem _ (ih.1 hn)
    · intro hb
      rcases List.mem_cons.1 hb with rfl | hb
      · exact .here hcw
      · exact .next hcw (ih.2 hb)

theorem inFreelist_iff (hI : Inv N h) (hc : Core N h.globals.freeSet L h) {k : ℕ}
    (hk : k < classCount) {b : ℕ} : InFreelist h k b ↔ b ∈ L k := by
  obtain ⟨last, hl⟩ := hc.lists.linked k hk
  exact onChain_iff_of_seg hl fun c hcL => (hc.blocks.lt (hc.blocks.mem hcL)).trans_le hI.le_window

/-- The pages of the aligned block of class `k` that page `b` lies in. -/
theorem block_subset_iff {F : Set ℕ} {k b : ℕ} :
    block k (b / 2 ^ k) ⊆ F ↔ ∀ q ∈ Set.Ico (b / 2 ^ k * 2 ^ k) (b / 2 ^ k * 2 ^ k + 2 ^ k), q ∈ F := by
  constructor
  · intro hF q hq
    exact hF (mem_block_iff_bounds.2 hq)
  · intro hF q hq
    exact hF q (mem_block_iff_bounds.1 hq)

/-- Membership in the lists of the invariant, in terms of the free pages only. -/
theorem Core.mem_iff {F : Set ℕ} (hc : Core N F L h) {k b : ℕ} (hk : k < classCount) :
    b ∈ L k ↔ 2 ^ k ∣ b ∧ (∀ q ∈ Set.Ico b (b + 2 ^ k), q ∈ F) ∧
      (k = classCount - 1 ∨ ¬ ∀ q ∈ Set.Ico (b / 2 ^ (k + 1) * 2 ^ (k + 1))
        (b / 2 ^ (k + 1) * 2 ^ (k + 1) + 2 ^ (k + 1)), q ∈ F) := by
  rw [← block_subset_iff, div_pow_succ]
  constructor
  · intro hb
    have hdvd := hc.blocks.aligned hb
    obtain ⟨-, hF, hpar⟩ := hc.blocks.decomp.mem_iff.1 (hc.blocks.div_mem_indices hb)
    rw [block_subset_iff, Nat.div_mul_cancel hdvd] at hF
    exact ⟨hdvd, hF, hpar⟩
  · rintro ⟨hdvd, hF, hpar⟩
    have hmem : b / 2 ^ k ∈ indices L k := by
      refine hc.blocks.decomp.mem_iff.2 ⟨by unfold classCount at *; omega, ?_, hpar⟩
      rw [block_subset_iff, Nat.div_mul_cancel hdvd]
      exact hF
    have hmem' : b / 2 ^ k * 2 ^ k ∈ L k := hmem
    rwa [Nat.div_mul_cancel hdvd] at hmem'

/-- The buddy bits are determined by the free pages. -/
theorem buddies_eq_of_freeSet {L' : ℕ → List ℕ} {F : Set ℕ} (hc : Core N F L h)
    (hc' : Core N F L' h') {k : ℕ} (hk : k < classCount - 1) :
    (h'.globals.classes k).buddies = (h.globals.classes k).buddies := by
  have hidx : indices L' = indices L := hc'.blocks.decomp.eq_of_same hc.blocks.decomp
  refine BitSet.ext_test ?_ fun i => ?_
  · rw [hc'.bits.count_eq k hk, hc.bits.count_eq k hk]
  · rw [Bool.eq_iff_iff, hc'.bits.test_iff k hk, hc.bits.test_iff k hk, hidx]

/-- **Canonical form.** A block is in its freelist exactly when it is aligned, entirely free, and of
the top class or inside a block of the next class that is not entirely free.  Hence two reachable
states with the same free pages have the same blocks, the same buddy bits and the same amount of
free memory. -/
theorem reachable_canonical (hr : Reachable N h) :
    (∀ k < classCount, ∀ b, InFreelist h k b ↔ 2 ^ k ∣ b ∧
      (∀ q ∈ Set.Ico b (b + 2 ^ k), h.globals.freePages.test q = true) ∧
      (k = classCount - 1 ∨ ¬ ∀ q ∈ Set.Ico (b / 2 ^ (k + 1) * 2 ^ (k + 1))
        (b / 2 ^ (k + 1) * 2 ^ (k + 1) + 2 ^ (k + 1)), h.globals.freePages.test q = true)) ∧
    ∀ h', Reachable N h' → h'.globals.freeSet = h.globals.freeSet →
      (∀ k < classCount, ∀ b, InFreelist h' k b ↔ InFreelist h k b) ∧
      (∀ k < classCount - 1,
        (h'.globals.classes k).buddies = (h.globals.classes k).buddies) ∧
      h'.globals.freeMemory = h.globals.freeMemory := by
  obtain ⟨L, hc⟩ := hr.inv.core
  refine ⟨fun k hk b => ?_, fun h' hr' hF => ?_⟩
  · rw [inFreelist_iff hr.inv hc hk]
    exact hc.mem_iff hk
  · obtain ⟨L', hc'⟩ := hr'.inv.core
    refine ⟨fun k hk b => ?_, fun k hk => ?_, ?_⟩
    · rw [inFreelist_iff hr.inv hc hk, inFreelist_iff hr'.inv hc' hk, hc.mem_iff hk,
        hc'.mem_iff hk, hF]
    · rw [hF] at hc'
      exact buddies_eq_of_freeSet hc hc' hk
    · have hfin : h'.globals.freeFinset N = h.globals.freeFinset N := by
        ext p
        rw [mem_freeFinset, mem_freeFinset]
        exact and_congr_right fun _ => Set.ext_iff.1 hF p
      rw [hr'.inv.free_memory, hr.inv.free_memory, hfin]

theorem reachable_canonical_five_pages : ∃ h, Reachable 4096 h ∧
    h.globals.freeSet = Set.Ico 3 8 ∧ InFreelist h 2 4 ∧ ¬ InFreelist h 1 4 := by
  obtain ⟨h, hr, hF, -⟩ := exists_reachable_released (p := 3) (c := 5) (N := 4096) (by decide)
    (by decide) (by decide) (by decide) ⟨fun _ => 0#64, []⟩
  have hfree : ∀ q, h.globals.freePages.test q = true ↔ q ∈ Set.Ico 3 8 := Set.ext_iff.1 hF
  have hcan := (reachable_canonical hr).1
  refine ⟨h, hr, hF, ?_, ?_⟩
  · rw [hcan 2 (by decide) 4]
    simp only [hfree, Set.mem_Ico]
    refine ⟨by decide, by omega, Or.inr fun hall => ?_⟩
    have := hall 0
    omega
  · rw [hcan 1 (by decide) 4]
    simp only [hfree, Set.mem_Ico]
    rintro ⟨-, -, hcon | hall⟩
    · exact absurd hcon (by decide)
    · exact hall fun q hq => by omega

end Dumboss
