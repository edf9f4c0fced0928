import Dumboss.Allocator.Model
import Dumboss.Lib.Buddy
import Dumboss.Lib.Links

/-!
# The allocator's representation invariant

`Inv N h` describes the states of an allocator over `N` pages between two calls.  It is put
together from parts that also hold inside the loops:

* `Blocks N F L`: the lists `L k` of first pages of the free blocks of class `k` form a buddy
  decomposition of the page set `F` (no heap is involved here);
* `Lists h L`: the freelists in memory are the doubly linked lists `L k`;
* `Bits N g L`: bit `i` of the bit set of class `k` says that exactly one of the sibling blocks `2i`
  and `2i + 1` is in `L k`;
* `Core N F L h`: the three together.

Between calls `F` is the set of set bits of `free_pages`.  Inside the loops it differs from it: a
block that is being split or merged is in no list.
-/

namespace Dumboss

open Prog Buddy

theorem pagePtr_add_8 (p : ℕ) : pagePtr p + 8#64 = cell p 1 := rfl

theorem pagePtr_add_16 (p : ℕ) : pagePtr p + 16#64 = cell p 2 := rfl

/-- The `next` field of the free block at page `p`. -/
def Memory.next (m : Memory) (p : ℕ) : U64 := m.word p 0

/-- The `prev` field of the free block at page `p`. -/
def Memory.prev (m : Memory) (p : ℕ) : U64 := m.word p 1

/-- The `class` field of the free block at page `p`. -/
def Memory.blockClass (m : Memory) (p : ℕ) : U64 := m.word p 2

/-! ### The blocks -/

/-- The indices of the blocks of class `k` that start at the pages of `L k`. -/
def indices (L : ℕ → List ℕ) (k : ℕ) : Set ℕ := {j | j * 2 ^ k ∈ L k}

/-- The lists `L` of first pages form a buddy decomposition of the page set `F` below `N`. -/
structure Blocks (N : ℕ) (F : Set ℕ) (L : ℕ → List ℕ) : Prop where
  nodup : ∀ k, (L k).Nodup
  aligned : ∀ {k b}, b ∈ L k → 2 ^ k ∣ b
  decomp : Decomposition (classCount - 1) F (indices L)
  lt : ∀ {p}, p ∈ F → p < N

namespace Blocks

variable {N : ℕ} {F : Set ℕ} {L : ℕ → List ℕ}

theorem empty (N : ℕ) : Blocks N ∅ (fun _ => []) where
  nodup _ := List.nodup_nil
  aligned h := by simp at h
  decomp := by
    have : indices (fun _ => []) = fun _ => (∅ : Set ℕ) := by
      funext k
      ext j
      simp [indices]
    rw [this]
    exact Decomposition.empty _
  lt h := h.elim

theorem div_mem_indices (hB : Blocks N F L) {k b : ℕ} (hb : b ∈ L k) : b / 2 ^ k ∈ indices L k := by
  show b / 2 ^ k * 2 ^ k ∈ L k
  rwa [Nat.div_mul_cancel (hB.aligned hb)]

theorem class_lt (hB : Blocks N F L) {k b : ℕ} (hb : b ∈ L k) : k < classCount := by
  have := hB.decomp.class_le (hB.div_mem_indices hb)
  unfold classCount at *
  omega

/-- The pages of a listed block are in `F`. -/
theorem block_subset (hB : Blocks N F L) {k b : ℕ} (hb : b ∈ L k) : block k (b / 2 ^ k) ⊆ F :=
  hB.decomp.block_subset (hB.div_mem_indices hb)

theorem mem (hB : Blocks N F L) {k b : ℕ} (hb : b ∈ L k) : b ∈ F :=
  hB.block_subset hb rfl

/-- No page starts blocks of two classes. -/
theorem apart (hB : Blocks N F L) {k l b : ℕ} (hk : b ∈ L k) (hl : b ∈ L l) : k = l :=
  hB.decomp.unique (hB.div_mem_indices hk) (hB.div_mem_indices hl)

theorem indices_update_cons (L : ℕ → List ℕ) {k b : ℕ} (hb : 2 ^ k ∣ b) :
    indices (Function.update L k (b :: L k)) =
      Function.update (indices L) k (insert (b / 2 ^ k) (indices L k)) := by
  funext l
  by_cases hl : l = k
  · subst hl
    ext j
    simp [indices, mul_pow_eq_iff hb]
  · simp [indices, hl]

theorem indices_update_erase (hB : Blocks N F L) {k b : ℕ} (hb : b ∈ L k) :
    indices (Function.update L k ((L k).erase b)) =
      Function.update (indices L) k (indices L k \ {b / 2 ^ k}) := by
  funext l
  by_cases hl : l = k
  · subst hl
    ext j
    simp [indices, (hB.nodup l).mem_erase_iff, mul_pow_eq_iff (hB.aligned hb), and_comm]
  · simp [indices, hl]

/-- Listing a block outside `F` whose sibling is not listed. -/
theorem push (hB : Blocks N F L) {k b : ℕ} (hk : k < classCount) (hb : 2 ^ k ∣ b)
    (hF : Disjoint (block k (b / 2 ^ k)) F) (hlt : ∀ p ∈ block k (b / 2 ^ k), p < N)
    (hs : k < classCount - 1 → sibling (b / 2 ^ k) ∉ indices L k) :
    Blocks N (F ∪ block k (b / 2 ^ k)) (Function.update L k (b :: L k)) := by
  have hnew : b ∉ L k := fun hmem => Set.disjoint_left.1 hF rfl (hB.mem hmem)
  refine ⟨?_, ?_, ?_, ?_⟩
  · intro l
    by_cases hl : l = k
    · subst hl
      rw [Function.update_self]
      exact List.nodup_cons.2 ⟨hnew, hB.nodup l⟩
    · rw [Function.update_of_ne hl]
      exact hB.nodup l
  · intro l c hc
    by_cases hl : l = k
    · subst hl
      rw [Function.update_self] at hc
      rcases List.mem_cons.1 hc with rfl | hc
      · exact hb
      · exact hB.aligned hc
    · rw [Function.update_of_ne hl] at hc
      exact hB.aligned hc
  · rw [indices_update_cons L hb]
    exact hB.decomp.insert (by unfold classCount at *; omega) hF hs
  · rintro p (hp | hp)
    · exact hB.lt hp
    · exact hlt p hp

/-- Taking a block out of its list. -/
theorem erase (hB : Blocks N F L) {k b : ℕ} (hb : b ∈ L k) :
    Blocks N (F \ block k (b / 2 ^ k)) (Function.update L k ((L k).erase b)) := by
  refine ⟨?_, ?_, ?_, fun hp => hB.lt hp.1⟩
  · intro l
    by_cases hl : l = k
    · subst hl
      rw [Function.update_self]
      exact (hB.nodup l).erase b
    · rw [Function.update_of_ne hl]
      exact hB.nodup l
  · intro l c hc
    by_cases hl : l = k
    · subst hl
      rw [Function.update_self] at hc
      exact hB.aligned (List.mem_of_mem_erase hc)
    · rw [Function.update_of_ne hl] at hc
      exact hB.aligned hc
  · rw [hB.indices_update_erase hb]
    exact hB.decomp.erase (hB.div_mem_indices hb)

end Blocks

/-! ### The lists and the bits in the heap -/

/-- The freelists of `h` are the doubly linked lists `L`. -/
structure Lists (h : Heap) (L : ℕ → List ℕ) : Prop where
  linked : ∀ k < classCount, Links.IsList pagePtr 0#64 h.memory.next h.memory.prev
    (h.globals.classes k).freelist (L k)
  class_eq : ∀ k < classCount, ∀ b ∈ L k, h.memory.blockClass b = BitVec.ofNat 64 k

/-- The size of the bit set of class `k` over `N` pages, as `memory__init` computes it. -/
def bitsetSize (N k : ℕ) : ℕ := (N / 2 ^ (k + 1) + 7) / 8 * 8

/-- The bit sets of `g` record which siblings are listed alone. -/
structure Bits (N : ℕ) (g : MemGlobals) (L : ℕ → List ℕ) : Prop where
  count_eq : ∀ k < classCount - 1, (g.classes k).buddies.count = bitsetSize N k
  test_iff : ∀ k < classCount - 1, ∀ i, (g.classes k).buddies.test i = true ↔
    Xor (2 * i ∈ indices L k) (2 * i + 1 ∈ indices L k)

/-- The freelists and the buddy bits of `h` describe the buddy decomposition `L` of `F`. -/
structure Core (N : ℕ) (F : Set ℕ) (L : ℕ → List ℕ) (h : Heap) : Prop where
  blocks : Blocks N F L
  lists : Lists h L
  bits : Bits N h.globals L

/-- The pages whose bit in `free_pages` is set. -/
def MemGlobals.freeSet (g : MemGlobals) : Set ℕ := {p | g.freePages.test p = true}

/-- The free pages below `N`. -/
def MemGlobals.freeFinset (g : MemGlobals) (N : ℕ) : Finset ℕ :=
  (Finset.range N).filter fun p => g.freePages.test p = true

/-- **The invariant** of an allocator over `N` pages. -/
structure Inv (N : ℕ) (h : Heap) : Prop where
  dvd : 4096 ∣ N
  le_window : N ≤ windowPages
  usable_count : h.globals.usablePages.count = N
  free_count : h.globals.freePages.count = N
  free_usable : ∀ p, h.globals.freePages.test p = true → h.globals.usablePages.test p = true
  free_memory : h.globals.freeMemory = 4096 * ((h.globals.freeFinset N).card : ℤ)
  core : ∃ L, Core N h.globals.freeSet L h

end Dumboss
