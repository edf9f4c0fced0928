import Dumboss.Allocator.Entry

/-!
# Runs of the allocator

A run starts from zeroed `MemGlobals` over `N` pages with any usable set, and makes any finite
sequence of calls: releases of usable pages that are not free, allocations of at most 4096 pages,
changes of the usability of pages that are not free.  Between calls the clients may write to every
page that is not free.

`N` is a multiple of 4096, as `buddy_end_page` is, and the pages lie in the kernel window:
`memory__init` asserts that `map_region` could map them from `MEMORY__KERNEL_SPACE_BEGIN` on, and
page `2 ^ 35` would be mapped at address `0`.

* `Op.Allowed`, `Op.exec`, `Reachable`;
* `Reachable.inv`: the invariant holds in every reachable state, by one step lemma (`Op.wp_exec`);
* `reachable_represents` spells the invariant out, `reachable_no_panic` says that no call fails an
  assertion.
-/

namespace Dumboss

open Prog Buddy

/-- A call to the allocator, or a store by a client. -/
inductive Op
  | release (page count : ℕ)
  | alloc (count : ℤ) (exact : Bool)
  | zeroed (count : ℤ)
  | mark (page count : ℕ) (usable : Bool)
  | write (page i : ℕ) (v : U64)

namespace Op

/-- What the callers have to respect. -/
def Allowed (N : ℕ) (h : Heap) : Op → Prop
  | release p c => p < windowPages ∧ p + c ≤ N ∧
      ∀ q ∈ Set.Ico p (p + c), h.globals.usablePages.test q = true ∧ q ∉ h.globals.freeSet
  | alloc count _ => count ≤ 4096
  | zeroed count => count ≤ 4096
  | mark p c _ => p < windowPages ∧ p + c ≤ N ∧ ∀ q ∈ Set.Ico p (p + c), q ∉ h.globals.freeSet
  | write p i _ => p < windowPages ∧ i < 512 ∧ p ∉ h.globals.freeSet

/-- Run the call; the result is the buffer handed out, the null buffer if there is none. -/
def exec : Op → Kern Heap Buffer
  | release p c => do
    releasePages (pagePtr p) c
    return ⟨0#64, 0⟩
  | alloc count exact => allocRaw count exact
  | zeroed count => do
    let ptr ← zeroedPages count
    return ⟨ptr, if ptr = 0#64 then 0 else count * 4096⟩
  | mark p c usable => do
    unsafeMarkMemoryUsability (pagePtr p) c usable
    return ⟨0#64, 0⟩
  | write p i v => do
    storeWord (cell p i) v
    return ⟨0#64, 0⟩

/-- What a call does, one case per kind of call. -/
def Effect (N : ℕ) (h : Heap) (buf : Buffer) (h' : Heap) : Op → Prop
  | release p c => Released N p c h h'
  | alloc count exact => (buf = ⟨0#64, 0⟩ ∧ h' = h) ∨
      ∃ b c : ℕ, buf = ⟨pagePtr b, (c : ℤ) * 4096⟩ ∧ 0 < c ∧ b < N ∧ Allocated N b c h h' ∧
        ((c : ℤ) = count ∨ exact = false)
  | zeroed count => (buf = ⟨0#64, 0⟩ ∧ h' = h) ∨
      ∃ b c : ℕ, buf = ⟨pagePtr b, (c : ℤ) * 4096⟩ ∧ 0 < c ∧ (c : ℤ) = count ∧ b < N ∧
        Zeroed N b c h h'
  | mark p c usable => Marked N p c usable h h'
  | write p i v => h' = ⟨h.memory.store (cell p i) v, h.globals⟩

variable {N : ℕ} {h h' : Heap} {buf : Buffer} {op : Op}

/-- **Step lemma**: from the invariant every allowed call returns, with its effect. -/
theorem wp_exec (hI : Inv N h) (ha : op.Allowed N h) :
    wp op.exec (fun buf h' => op.Effect N h buf h') h := by
  cases op with
  | release p c =>
    obtain ⟨hp, hpc, hq⟩ := ha
    simp only [exec, wp_bind, wp_pure]
    exact wp_releasePages hI hpc hp (fun q hq' => (hq q hq').1) fun q hq' => (hq q hq').2
  | alloc count exact =>
    refine wp_mono (wp_allocRaw hI ha exact) ?_
    rintro buf h1 (⟨rfl, rfl, -⟩ | hA)
    · exact Or.inl ⟨rfl, rfl⟩
    · exact Or.inr hA
  | zeroed count =>
    simp only [exec, wp_bind, wp_pure]
    refine wp_mono (wp_zeroedPages hI ha) ?_
    rintro ptr h1 (⟨rfl, rfl, -⟩ | ⟨b, c, rfl, hc, rfl, hb, hZ⟩)
    · exact Or.inl ⟨rfl, rfl⟩
    · refine Or.inr ⟨b, c, ?_, hc, rfl, hb, hZ⟩
      rw [if_neg (pagePtr_ne_zero (hb.trans_le hI.le_window))]
  | mark p c usable =>
    obtain ⟨hp, hpc, hq⟩ := ha
    simp only [exec, wp_bind, wp_pure]
    exact wp_unsafeMarkMemoryUsability hI hpc hp hq usable
  | write p i v =>
    simp only [exec, wp_bind, wp_pure, wp_storeWord]
    rfl

theorem Effect.inv (hI : Inv N h) (ha : op.Allowed N h) (he : op.Effect N h buf h') : Inv N h' := by
  cases op with
  | release p c => exact Added.inv (Released.toAdded he)
  | alloc count exact =>
    rcases he with ⟨-, rfl⟩ | ⟨b, c, -, -, -, hA, -⟩
    · exact hI
    · exact hA.inv
  | zeroed count =>
    rcases he with ⟨-, rfl⟩ | ⟨b, c, -, -, -, -, hZ⟩
    · exact hI
    · exact hZ.inv
  | mark p c usable => exact Marked.inv he
  | write p i v =>
    obtain ⟨hp, hi, hq⟩ := ha
    obtain rfl : h' = _ := he
    exact hI.of_stores (storesIn_cell hp hi hq)

end Op

/-- Zeroed `MemGlobals` over `N` pages, with the usable pages given by the words `usable`. -/
def zeroedHeap (N : ℕ) (usable : ℕ → U64) (m : Memory) : Heap where
  memory := m
  globals :=
    { freeMemory := 0
      usablePages := ⟨usable, N⟩
      freePages := ⟨fun _ => 0#64, N⟩
      classes := fun k => ⟨0#64, ⟨fun _ => 0#64, bitsetSize N k⟩⟩ }

/-- The states of an allocator over `N` pages. -/
inductive Reachable (N : ℕ) : Heap → Prop
  | init (hd : 4096 ∣ N) (hw : N ≤ windowPages) (usable : ℕ → U64) (m : Memory) :
      Reachable N (zeroedHeap N usable m)
  | step {h h' : Heap} {op : Op} {buf : Buffer} (hr : Reachable N h) (ha : op.Allowed N h)
      (he : op.exec h = Except.ok (buf, h')) : Reachable N h'

variable {N : ℕ} {h h' : Heap}

theorem zeroedHeap_inv (hd : 4096 ∣ N) (hw : N ≤ windowPages) (usable : ℕ → U64) (m : Memory) :
    Inv N (zeroedHeap N usable m) := by
  have htest : ∀ (c : ℤ) i, (BitSet.mk (fun _ => 0#64) c).test i = false := by
    intro c i
    simp [BitSet.test]
  have hset : (zeroedHeap N usable m).globals.freeSet = ∅ := by
    ext p
    simp [MemGlobals.freeSet, zeroedHeap, htest]
  refine ⟨hd, hw, rfl, rfl, fun p hp => ?_, ?_, fun _ => [], ?_⟩
  · simp [zeroedHeap, htest] at hp
  · simp [MemGlobals.freeFinset, zeroedHeap, htest]
  · rw [hset]
    refine ⟨Blocks.empty N, ⟨fun k _ => Links.isList_nil, fun k _ b hb => by simp at hb⟩,
      fun k _ => rfl, fun k _ i => ?_⟩
    simp [zeroedHeap, htest, indices, Xor]

/-- The invariant holds in every reachable state. -/
theorem Reachable.inv (hr : Reachable N h) : Inv N h := by
  induction hr with
  | init hd hw usable m => exact zeroedHeap_inv hd hw usable m
  | step hr ha he ih => exact (wp_run he (Op.wp_exec ih ha)).inv ih ha

theorem Reachable.effect (hr : Reachable N h) {op : Op} {buf : Buffer} (ha : op.Allowed N h)
    (he : op.exec h = Except.ok (buf, h')) : op.Effect N h buf h' :=
  wp_run (Q := fun buf h' => op.Effect N h buf h') he (Op.wp_exec hr.inv ha)

/-- Releasing pages into an empty allocator all of whose pages are usable. -/
theorem exists_reachable_released {p c : ℕ} (hd : 4096 ∣ N) (hw : N ≤ windowPages)
    (hp : p < windowPages) (hpc : p + c ≤ N) (m : Memory) :
    ∃ h, Reachable N h ∧ h.globals.freeSet = Set.Ico p (p + c) ∧
      Memory.StoresIn (InPages (· ∈ Set.Ico p (p + c))) m h.memory := by
  have hr := Reachable.init hd hw (fun _ => BitVec.allOnes 64) m
  have hempty : (zeroedHeap N (fun _ => BitVec.allOnes 64) m).globals.freeSet = ∅ := by
    ext q
    simp [MemGlobals.freeSet, zeroedHeap, BitSet.test]
  have ha : (Op.release p c).Allowed N (zeroedHeap N (fun _ => BitVec.allOnes 64) m) := by
    refine ⟨hp, hpc, fun q _ => ⟨?_, by rw [hempty]; exact Set.notMem_empty q⟩⟩
    show (BitVec.allOnes 64).getLsbD (q % 64) = true
    rw [BitVec.getLsbD_allOnes, decide_eq_true (Nat.mod_lt _ (by decide))]
  obtain ⟨buf, h', he, hE⟩ := Op.wp_exec hr.inv ha
  have hreleased : Released N p c _ h' := hE
  have hF : h'.globals.freeSet = Set.Ico p (p + c) := by
    rw [hreleased.freeSet, hempty, Set.empty_union]
  have hst := hreleased.stores
  rw [hF] at hst
  exact ⟨h', hr.step ha he, hF, hst⟩

/-! ### The representation invariant -/

/-- The lists `L` of first pages describe the state `h`: the freelists, the bit sets and the byte
counter all say that the free blocks are those of `L`. -/
structure Represents (N : ℕ) (h : Heap) (L : ℕ → List ℕ) : Prop where
  /-- Freelist `k` is a doubly linked list: `next` and `prev` agree and end in `NULL`. -/
  linked : ∀ k < classCount, Links.IsList pagePtr 0#64 h.memory.next h.memory.prev
    (h.globals.classes k).freelist (L k)
  nodup : ∀ k < classCount, (L k).Nodup
  class_eq : ∀ k < classCount, ∀ b ∈ L k, h.memory.blockClass b = BitVec.ofNat 64 k
  /-- A block of class `k` starts at a multiple of `2 ^ k`. -/
  aligned : ∀ k < classCount, ∀ b ∈ L k, 2 ^ k ∣ b
  disjoint : ∀ k < classCount, ∀ l < classCount, ∀ b ∈ L k, ∀ c ∈ L l, (k, b) ≠ (l, c) →
    Disjoint (Set.Ico b (b + 2 ^ k)) (Set.Ico c (c + 2 ^ l))
  /-- The blocks make up the free pages. -/
  union : ∀ p, h.globals.freePages.test p = true ↔
    ∃ k < classCount, ∃ b ∈ L k, p ∈ Set.Ico b (b + 2 ^ k)
  lt : ∀ p, h.globals.freePages.test p = true → p < N
  usable : ∀ p, h.globals.freePages.test p = true → h.globals.usablePages.test p = true
  /-- A buddy bit is set when exactly one of the two siblings is listed. -/
  buddies : ∀ k < classCount - 1, ∀ i, (h.globals.classes k).buddies.test i = true ↔
    Xor (2 * i * 2 ^ k ∈ L k) ((2 * i + 1) * 2 ^ k ∈ L k)
  lone : ∀ k < classCount - 1, ∀ i, ¬ (2 * i * 2 ^ k ∈ L k ∧ (2 * i + 1) * 2 ^ k ∈ L k)
  free_memory : h.globals.freeMemory = 4096 * ((h.globals.freeFinset N).card : ℤ)

theorem ico_eq_block {k b : ℕ} (hb : 2 ^ k ∣ b) : Set.Ico b (b + 2 ^ k) = block k (b / 2 ^ k) := by
  ext p
  rw [mem_block_iff_bounds, Nat.div_mul_cancel hb, Set.mem_Ico]

theorem Inv.represents (hI : Inv N h) {L : ℕ → List ℕ} (hc : Core N h.globals.freeSet L h) :
    Represents N h L where
  linked := hc.lists.linked
  nodup k _ := hc.blocks.nodup k
  class_eq := hc.lists.class_eq
  aligned k _ b hb := hc.blocks.aligned hb
  disjoint := by
    intro k _ l _ b hb c hc' hne
    rw [ico_eq_block (hc.blocks.aligned hb), ico_eq_block (hc.blocks.aligned hc')]
    refine hc.blocks.decomp.disjoint (hc.blocks.div_mem_indices hb)
      (hc.blocks.div_mem_indices hc') ?_
    by_cases hkl : k = l
    · subst hkl
      refine Or.inr fun hdiv => hne ?_
      rw [← Nat.div_mul_cancel (hc.blocks.aligned hb), hdiv,
        Nat.div_mul_cancel (hc.blocks.aligned hc')]
    · exact Or.inl hkl
  union := by
    intro p
    constructor
    · intro hp
      obtain ⟨k, hk⟩ := hc.blocks.decomp.cover.1 hp
      have hb : p / 2 ^ k * 2 ^ k ∈ L k := hk
      refine ⟨k, hc.blocks.class_lt hb, _, hb, ?_⟩
      rw [ico_eq_block (hc.blocks.aligned hb), Nat.mul_div_cancel _ (Nat.two_pow_pos k)]
      rfl
    · rintro ⟨k, -, b, hb, hp⟩
      rw [ico_eq_block (hc.blocks.aligned hb)] at hp
      exact hc.blocks.block_subset hb hp
  lt p hp := hI.lt_of_free hp
  usable := hI.free_usable
  buddies := hc.bits.test_iff
  lone := by
    rintro k hk i ⟨h1, h2⟩
    refine hc.blocks.decomp.lone hk (show 2 * i ∈ indices L k from h1) ?_
    rcases sibling_cases (2 * i) with ⟨-, e⟩ | ⟨hm, -⟩
    · rw [e]
      exact h2
    · omega
  free_memory := hI.free_memory

/-- **The representation invariant**: in every reachable state there are lists of free blocks that
all redundant structures agree on. -/
theorem reachable_represents (hr : Reachable N h) : ∃ L, Represents N h L := by
  obtain ⟨L, hc⟩ := hr.inv.core
  exact ⟨L, hr.inv.represents hc⟩

theorem reachable_represents_five_pages : ∃ h, Reachable 4096 h ∧
    h.globals.freeSet = Set.Ico 3 8 ∧ ∃ L, Represents 4096 h L := by
  obtain ⟨h, hr, hF, -⟩ := exists_reachable_released (p := 3) (c := 5) (N := 4096) (by decide)
    (by decide) (by decide) (by decide) ⟨fun _ => 0#64, []⟩
  exact ⟨h, hr, hF, reachable_represents hr⟩

/-! ### No assertion fails -/

/-- **No panic**: in every reachable state the next allowed call returns, and so does
`validate_heap`. -/
theorem reachable_no_panic (hr : Reachable N h) :
    (∀ op : Op, op.Allowed N h → ∃ buf h', op.exec h = Except.ok (buf, h')) ∧
      ∀ fuel, N < fuel → ∃ h', validateHeap fuel h = Except.ok ((), h') := by
  refine ⟨fun op ha => ?_, fun fuel hfuel => ?_⟩
  · obtain ⟨buf, h', he, -⟩ := Op.wp_exec hr.inv ha
    exact ⟨buf, h', he⟩
  · obtain ⟨_, h', he, -⟩ := wp_validateHeap hr.inv hfuel
    exact ⟨h', he⟩

theorem reachable_no_panic_five_pages : ∃ h, Reachable 4096 h ∧
    h.globals.freeSet = Set.Ico 3 8 ∧ (∃ buf h', (Op.alloc 3 true).exec h = Except.ok (buf, h')) ∧
      ∃ h', validateHeap 4097 h = Except.ok ((), h') := by
  obtain ⟨h, hr, hF, -⟩ := exists_reachable_released (p := 3) (c := 5) (N := 4096) (by decide)
    (by decide) (by decide) (by decide) ⟨fun _ => 0#64, []⟩
  have hsafe := reachable_no_panic hr
  refine ⟨h, hr, hF, hsafe.1 _ ?_, hsafe.2 4097 (by decide)⟩
  show (3 : ℤ) ≤ 4096
  decide

end Dumboss
