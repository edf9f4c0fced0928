import Dumboss.Boot.Init

/-!
# Seeding with the bit sets in memory

The words of the bit sets lie in memory, where `alloc_from_entries` put them, and so do the list nodes
that the seeding makes in the pages it releases.  If two bit sets have a word in common, or a released
page has one, then a change of the one is a change of the other.

* `resident`: a step of the allocator on bit sets that lie in memory;
* `Placed`: no word belongs to two bit sets, and none lies in a page of the entries;
* `syncs_resident`: under `Placed` a resident step does what it does on bit sets apart from memory;
* `SeedsExactly`: what the seeding should leave, `seedsExactly_of_end`: it does if the memory ends in the
  last 256KB of a 16MB block or at its end;
* `not_seedsExactly`: with 2MB of memory it does not.
-/

namespace Dumboss

/-- Store the words of a list, in its order. -/
def Memory.storeAll (m : Memory) (words : List (U64 × U64)) : Memory :=
  words.foldl (fun m word => m.store word.1 word.2) m

theorem Memory.storesIn_storeAll {P : U64 → Prop} (m : Memory) {words : List (U64 × U64)}
    (hP : ∀ word ∈ words, P word.1) : StoresIn P m (m.storeAll words) := by
  induction words generalizing m with
  | nil => exact .refl P m
  | cons word words ih =>
    have hfirst : StoresIn P m (m.store word.1 word.2) := storesIn_store (hP word (by simp))
    exact hfirst.trans (ih _ fun w hw => hP w (by simp [hw]))

/-- The word at an address that only the value `v` was stored to. -/
theorem Memory.load_storeAll {m : Memory} {words : List (U64 × U64)} {x v : U64}
    (hv : ∀ word ∈ words, word.1 = x → word.2 = v)
    (hx : (∃ word ∈ words, word.1 = x) ∨ m.load x = v) : (m.storeAll words).load x = v := by
  induction words generalizing m with
  | nil => simpa [storeAll] using hx
  | cons word words ih =>
    refine ih (fun w hw => hv w (by simp [hw])) ?_
    by_cases hword : word.1 = x
    · right
      rw [← hword, load_store_self]
      exact hv word (by simp) hword
    · rcases hx with ⟨w, hw, rfl⟩ | hx
      · rcases List.mem_cons.1 hw with rfl | hw
        · exact absurd rfl hword
        · exact Or.inl ⟨w, hw, rfl⟩
      · right
        rw [load_store, if_neg (Ne.symm hword)]
        exact hx

namespace Boot

open Prog

/-! ### The code -/

/-- The words of the array in which `new` differs from `old`, with their addresses. -/
def MetadataArray.changedWords (a : MetadataArray) (old new : BitSet) : List (U64 × U64) :=
  ((List.range a.words).filter fun w => new.data w ≠ old.data w).map fun w =>
    (a.data + BitVec.ofNat 64 (8 * w), new.data w)

def changedWords (arrays : List MetadataArray) (old new : ℕ → BitSet) : List (U64 × U64) :=
  arrays.zipIdx.flatMap fun a => a.1.changedWords (old a.2) (new a.2)

/-- The globals, with the bit sets as they are in memory. -/
def reread (arrays : List MetadataArray) (m : Memory) (g : MemGlobals) : MemGlobals where
  freeMemory := g.freeMemory
  usablePages := bitSetAt arrays m 0
  freePages := bitSetAt arrays m 1
  classes := fun k => ⟨(g.classes k).freelist,
    if k < classCount - 1 then bitSetAt arrays m (k + 2) else (g.classes k).buddies⟩

/-- A step on bit sets that lie in memory.  The words that it changes in a bit set are stored, and then
all bit sets are read again: the step may have changed words of another one as well, or have made a list
node out of them. -/
def resident (arrays : List MetadataArray) (x : Kern Heap Unit) : Kern Heap Unit := do
  let h ← get
  x
  modify fun h' =>
    let m := h'.memory.storeAll (changedWords arrays h.globals.bitSet h'.globals.bitSet)
    ⟨m, reread arrays m h'.globals⟩

/-! ### Bit sets that keep out of each other's way -/

/-- No word belongs to two bit sets, and none lies in a page of `P`. -/
structure Placed (arrays : List MetadataArray) (P : Set ℕ) : Prop where
  distinct : ∀ {i j w v : ℕ} {a b : MetadataArray}, arrays[i]? = some a → arrays[j]? = some b →
    w < a.words → v < b.words →
    a.data + BitVec.ofNat 64 (8 * w) = b.data + BitVec.ofNat 64 (8 * v) → i = j ∧ w = v
  apart : ∀ a ∈ arrays, ∀ x, a.IsWord x → ¬ InPages (· ∈ P) x

/-- The bit sets are those in memory. -/
def InMemory (arrays : List MetadataArray) (bits : ℕ → BitSet) (m : Memory) : Prop :=
  ∀ i < classCount + 1, ∃ a, arrays[i]? = some a ∧ bits i = a.bitSet m

theorem InMemory.bitSetAt_eq {arrays : List MetadataArray} {bits : ℕ → BitSet} {m : Memory}
    (h : InMemory arrays bits m) {i : ℕ} (hi : i < classCount + 1) : bitSetAt arrays m i = bits i := by
  obtain ⟨a, ha, hbits⟩ := h i hi
  rw [bitSetAt, ha, hbits]

theorem reread_eq {arrays : List MetadataArray} {m : Memory} {g : MemGlobals}
    (h : InMemory arrays g.bitSet m) : reread arrays m g = g := by
  have hclasses : (fun k => (⟨(g.classes k).freelist, if k < classCount - 1 then
      bitSetAt arrays m (k + 2) else (g.classes k).buddies⟩ : ClassInfo)) = g.classes := by
    funext k
    split_ifs with hk
    · rw [h.bitSetAt_eq (by omega)]
      rfl
    · rfl
  rw [reread, hclasses, h.bitSetAt_eq (i := 0) (by decide), h.bitSetAt_eq (i := 1) (by decide)]
  rfl

theorem mem_changedWords {arrays : List MetadataArray} {old new : ℕ → BitSet} {word : U64 × U64} :
    word ∈ changedWords arrays old new ↔ ∃ i a w, arrays[i]? = some a ∧ w < a.words ∧
      (new i).data w ≠ (old i).data w ∧ word = (a.data + BitVec.ofNat 64 (8 * w), (new i).data w) := by
  simp only [changedWords, MetadataArray.changedWords, List.mem_flatMap, List.mem_map,
    List.mem_filter, List.mem_range, decide_eq_true_eq, Prod.exists, List.mem_zipIdx_iff_getElem?]
  constructor
  · rintro ⟨a, i, ha, w, ⟨hw, hne⟩, rfl⟩
    exact ⟨i, a, w, ha, hw, hne, rfl⟩
  · rintro ⟨i, a, w, ha, hw, hne, rfl⟩
    exact ⟨a, i, ha, w, ⟨hw, hne⟩, rfl⟩

/-- The words behind the last bit are zero, and stay so. -/
theorem data_eq_zero {a : MetadataArray} {m : Memory} {bits : BitSet}
    (h : (a.bitSet m).Changed bits) {w : ℕ} (hw : a.words ≤ w) : bits.data w = 0#64 := by
  have hold : (a.bitSet m).data w = 0#64 := if_neg (not_lt.2 hw)
  rw [← hold]
  apply BitVec.eq_of_getLsbD_eq
  intro j hj
  have hbit := h.2 (64 * w + j) (by
    show a.count ≤ _
    unfold MetadataArray.words at hw
    omega)
  rwa [BitSet.test_word _ _ hj, BitSet.test_word _ _ hj] at hbit

section Step

variable {arrays : List MetadataArray} {P : Set ℕ}

/-- After the changed words were stored, the bit sets are in memory. -/
theorem inMemory_storeAll (hplaced : Placed arrays P) {h h' : Heap}
    (hin : InMemory arrays h.globals.bitSet h.memory) (hc : Changes P h h') :
    InMemory arrays h'.globals.bitSet
      (h'.memory.storeAll (changedWords arrays h.globals.bitSet h'.globals.bitSet)) := by
  intro i hi
  obtain ⟨a, ha, hbits⟩ := hin i hi
  have hchanged := hc.bits i
  rw [hbits] at hchanged
  refine ⟨a, ha, ?_⟩
  set m := h'.memory.storeAll (changedWords arrays h.globals.bitSet h'.globals.bitSet) with hm
  have hdata : (h'.globals.bitSet i).data = (a.bitSet m).data := by
    funext w
    show _ = if w < a.words then m.load (a.data + BitVec.ofNat 64 (8 * w)) else 0#64
    split_ifs with hw
    · refine (Memory.load_storeAll ?_ ?_).symm
      · -- no other bit set has this word
        intro word hword haddr
        obtain ⟨j, b, v, hb, hv, -, rfl⟩ := mem_changedWords.1 hword
        obtain ⟨rfl, rfl⟩ := hplaced.distinct hb ha hv hw haddr
        rfl
      · by_cases hne : (h'.globals.bitSet i).data w = (h.globals.bitSet i).data w
        · right
          have hkept := hc.stores.load_eq
            (hplaced.apart a (List.mem_of_getElem? ha) _ ⟨w, hw, rfl⟩)
          rw [hkept, hne, hbits]
          exact (if_pos hw).symm
        · exact Or.inl ⟨_, mem_changedWords.2 ⟨i, a, w, ha, hw, hne, rfl⟩, rfl⟩
    · exact data_eq_zero hchanged (not_lt.1 hw)
  have hcount : (h'.globals.bitSet i).count = (a.bitSet m).count := hchanged.1
  calc h'.globals.bitSet i = ⟨(h'.globals.bitSet i).data, (h'.globals.bitSet i).count⟩ := rfl
    _ = a.bitSet m := by rw [hdata, hcount]

/-- **Resident steps** do what they do on bit sets apart from memory. -/
theorem syncs_resident (hplaced : Placed arrays P) :
    Syncs P (InMemory arrays) (resident arrays) where
  wp_sync := by
    intro x Q h hin hx hQ
    simp only [resident, wp_bind, wp_get, wp_modify]
    refine wp_mono hx fun _ h' hq => ?_
    have hnew := inMemory_storeAll hplaced hin (hQ h' hq)
    rw [reread_eq hnew]
    refine ⟨hnew, h', hq, rfl, Memory.storesIn_storeAll _ fun word hword => ?_⟩
    obtain ⟨i, a, w, ha, hw, -, rfl⟩ := mem_changedWords.1 hword
    exact hplaced.apart a (List.mem_of_getElem? ha) _ ⟨w, hw, rfl⟩
  wp_of_sync := by
    intro x Q h hx
    simp only [resident, wp_bind, wp_get] at hx
    exact wp_mono hx fun _ _ _ => trivial

end Step

/-! ### The arrays of `memory__init` -/

/-- The allocator starts on the bit sets in memory. -/
theorem inMemory_heapOf {arrays : List MetadataArray}
    (hall : ∀ i < classCount + 1, ∃ a, arrays[i]? = some a) (m : Memory) :
    InMemory arrays (heapOf arrays m).globals.bitSet m := by
  intro i hi
  obtain ⟨a, ha⟩ := hall i hi
  have hat : bitSetAt arrays m i = a.bitSet m := by rw [bitSetAt, ha]
  refine ⟨a, ha, ?_⟩
  rw [← hat]
  rcases i with _ | _ | k
  · rfl
  · rfl
  · have hk : k < classCount - 1 := by omega
    exact if_pos hk

section Seeding

variable {mmap entries : List MMapEnt} {arrays : List MetadataArray} {s' : State} {m : Memory}
  {l : MMapEnt}

/-- The arrays lie in the ranges set aside for them, and the entries in what is left. -/
theorem placed_of_ok (hok : MetadataOk mmap m arrays s')
    (hc : CreatedAll ⟨freeEntries mmap, m⟩ arrays s')
    (hleft : ∀ e ∈ entries, e.bytes ⊆ available s'.mmap) : Placed arrays (wholePages entries) := by
  have hword : ∀ a ∈ arrays, ∀ w < a.words, a.address + 8 * w ∈ a.wordRange ∧
      (a.data + BitVec.ofNat 64 (8 * w) - kernelSpaceBegin).toNat = a.address + 8 * w := by
    intro a ha w hw
    have hin : a.address + 8 * w ∈ a.wordRange := ⟨Nat.le_add_right _ _, by omega⟩
    exact ⟨hin, a.word_toNat ((hok.fits a ha hin).2.trans_le (hc.le a ha))⟩
  constructor
  · intro i j w v a b ha hb hw hv heq
    obtain ⟨hina, haddra⟩ := hword a (List.mem_of_getElem? ha) w hw
    obtain ⟨hinb, haddrb⟩ := hword b (List.mem_of_getElem? hb) v hv
    rw [heq, haddrb] at haddra
    obtain ⟨hi, rfl⟩ := List.getElem?_eq_some_iff.1 ha
    obtain ⟨hj, rfl⟩ := List.getElem?_eq_some_iff.1 hb
    obtain rfl : i = j := by
      by_contra hne
      rcases Nat.lt_or_gt_of_ne hne with hlt | hlt
      · have hdis := List.pairwise_iff_getElem.1 hok.disjoint i j hi hj hlt
        exact Set.disjoint_left.1 hdis hina (haddra ▸ hinb)
      · have hdis := List.pairwise_iff_getElem.1 hok.disjoint j i hj hi hlt
        exact Set.disjoint_left.1 hdis hinb (haddra ▸ hina)
    exact ⟨rfl, by omega⟩
  · rintro a ha x ⟨w, hw, rfl⟩ ⟨p, i, hp, hi, hcell, e, he, h1, h2⟩
    obtain ⟨hin, haddr⟩ := hword a ha w hw
    rw [hcell, cell_sub_toNat hp hi] at haddr
    have hbyte : 4096 * p + 8 * i ∈ e.bytes := ⟨by omega, by omega⟩
    exact Set.disjoint_left.1 (hc.apart a ha) (hok.fits a ha hin) (haddr ▸ hleft e he hbyte)

/-- What the seeding loop over the entries should leave, if it runs to its end: the usable and the free
pages are those that lie wholly in an entry, the two counters are 4096 times their number, the checks
after the loop succeed, and the free lists and buddy bits are those of the coalesced blocks. -/
def SeedsExactly (N : ℕ) (arrays : List MetadataArray) (m : Memory) (entries : List MMapEnt) : Prop :=
  ∀ availableMemory h,
    seedEntriesBy (resident arrays) entries 0 (heapOf arrays m) = Except.ok (availableMemory, h) →
    (∀ p, h.globals.usablePages.test p = true ↔ p ∈ wholePages entries) ∧
      (∀ p, h.globals.freePages.test p = true ↔ p ∈ wholePages entries) ∧
      h.globals.freeMemory = availableMemory ∧
      availableMemory = 4096 * ((wholePages entries).ncard : ℤ) ∧
      (∀ fuel, N < fuel → seedBy (resident arrays) entries fuel (heapOf arrays m) =
        Except.ok (availableMemory, h)) ∧
      Canonical (wholePages entries) h

theorem placed_of_end (hwf : WellFormed mmap) (hl : mmap.getLast? = some l)
    (hend : l.ptr.toNat + l.byteSize.toNat < 2 ^ 47)
    (hfit : (l.ptr.toNat + l.byteSize.toNat) % 2 ^ 24 = 0 ∨
      2 ^ 24 - 2 ^ 18 < (l.ptr.toNat + l.byteSize.toNat) % 2 ^ 24)
    (hcreate : createMetadata ⟨mmap, m⟩ = Except.ok (arrays, s'))
    (hleft : ∀ e ∈ entries, e.bytes ⊆ available s'.mmap) : Placed arrays (wholePages entries) := by
  have hsum : (l.ptr + l.byteSize).toNat = l.ptr.toNat + l.byteSize.toNat := by
    rw [BitVec.toNat_add]
    omega
  obtain ⟨hpos, hc, -⟩ := createdAll_of_run hwf hl hcreate
  exact placed_of_ok (metadataOk_of_end hwf hl hpos (hsum ▸ hfit) hcreate) hc hleft

/-- The seeding of entries with a page boundary runs to its end. -/
theorem wp_seedResident (hwf : WellFormed mmap) (hl : mmap.getLast? = some l)
    (hend : l.ptr.toNat + l.byteSize.toNat < 2 ^ 47)
    (hfit : (l.ptr.toNat + l.byteSize.toNat) % 2 ^ 24 = 0 ∨
      2 ^ 24 - 2 ^ 18 < (l.ptr.toNat + l.byteSize.toNat) % 2 ^ 24)
    (hcreate : createMetadata ⟨mmap, m⟩ = Except.ok (arrays, s'))
    (hdis : entries.Pairwise fun e f => Disjoint e.bytes f.bytes)
    (hN : ∀ e ∈ entries, e.ptr.toNat + e.size.toNat ≤ 4096 * buddyEndPage (l.ptr + l.byteSize))
    (hleft : ∀ e ∈ entries, e.bytes ⊆ available s'.mmap) (hbound : ∀ e ∈ entries, e.HasBoundary) :
    wp (seedEntriesBy (resident arrays) entries 0)
      (fun availableMemory h => Stocked (buddyEndPage (l.ptr + l.byteSize)) entries availableMemory h)
      (heapOf arrays s'.memory) := by
  obtain ⟨-, hw, hd⟩ := buddyEndPage_bounds hend
  obtain ⟨-, -, hall, hheap⟩ := createdAll_of_run hwf hl hcreate
  have hin := inMemory_heapOf hall s'.memory
  have hplaced := placed_of_end hwf hl hend hfit hcreate hleft
  rw [← wholePages_reverse] at hplaced
  rw [hheap] at hin ⊢
  exact wp_mono (wp_seedEntriesBy (syncs_resident hplaced) (stocked_nil hd hw s'.memory) hN hdis (by simp)
    hbound subset_rfl hin) fun _ _ hs => hs.2.reverse

/-- **Seeding is exact**, of whatever disjoint entries in what is left of the memory map, if the memory
ends in the last 256KB of a 16MB block or at its end. -/
theorem seedsExactly_of_end (hwf : WellFormed mmap) (hl : mmap.getLast? = some l)
    (hend : l.ptr.toNat + l.byteSize.toNat < 2 ^ 47)
    (hfit : (l.ptr.toNat + l.byteSize.toNat) % 2 ^ 24 = 0 ∨
      2 ^ 24 - 2 ^ 18 < (l.ptr.toNat + l.byteSize.toNat) % 2 ^ 24)
    (hcreate : createMetadata ⟨mmap, m⟩ = Except.ok (arrays, s'))
    (hdis : entries.Pairwise fun e f => Disjoint e.bytes f.bytes)
    (hN : ∀ e ∈ entries, e.ptr.toNat + e.size.toNat ≤ 4096 * buddyEndPage (l.ptr + l.byteSize))
    (hleft : ∀ e ∈ entries, e.bytes ⊆ available s'.mmap) :
    SeedsExactly (buddyEndPage (l.ptr + l.byteSize)) arrays s'.memory entries := by
  intro availableMemory h hrun
  obtain ⟨-, hw, -⟩ := buddyEndPage_bounds hend
  have hbound : ∀ e ∈ entries, e.HasBoundary :=
    hasBoundary_of_seedEntriesBy (syncs_resident (placed_of_end hwf hl hend hfit hcreate hleft))
      (fun e he => (hN e he).trans (Nat.mul_le_mul_left _ hw)) hrun
  have hs := wp_run hrun (wp_seedResident hwf hl hend hfit hcreate hdis hN hleft hbound)
  refine ⟨hs.usable, Set.ext_iff.1 hs.freeSet, hs.freeMemory, hs.available_eq,
    fun fuel hfuel => seedBy_eq_ok hrun hs hfuel, ?_⟩
  rw [← hs.freeSet]
  exact canonical_of_inv hs.inv

end Seeding

/-- A run that returns something with the property `P`. -/
theorem exists_run_of {s : State} {P : List MetadataArray → State → Bool}
    (h : ((createMetadata s).toOption.any fun r => P r.1 r.2) = true) :
    ∃ arrays s', createMetadata s = Except.ok (arrays, s') ∧ P arrays s' = true := by
  cases hrun : createMetadata s with
  | error e =>
    rw [hrun] at h
    cases h
  | ok r =>
    rw [hrun] at h
    exact ⟨r.1, r.2, rfl, h⟩

/-- With 16MB of memory, what is left of the one free entry is seeded exactly. -/
theorem seedsExactly_16MB : ∃ arrays s' availableMemory h,
    createMetadata ⟨[⟨0#64, 0x1000001#64⟩], ⟨fun _ => 0#64, []⟩⟩ = Except.ok (arrays, s') ∧
      seedEntriesBy (resident arrays) s'.mmap 0 (heapOf arrays s'.memory) =
        Except.ok (availableMemory, h) ∧
      (∀ p, h.globals.freePages.test p = true ↔ p ∈ wholePages s'.mmap) ∧
      availableMemory = 4096 * ((wholePages s'.mmap).ncard : ℤ) := by
  obtain ⟨arrays, s', hcreate, hall⟩ := exists_run_of (s := ⟨[⟨0#64, 0x1000001#64⟩],
    ⟨fun _ => 0#64, []⟩⟩) (P := fun _ s' => s'.mmap.all fun e =>
      decide (e.ptr.toNat + e.size.toNat ≤ 4096 * 4096 ∧ firstPage e ≤ lastPage e ∧
        firstPage e < windowPages)) (by decide +kernel)
  have hentry : ∀ e ∈ s'.mmap, e.ptr.toNat + e.size.toNat ≤ 4096 * 4096 ∧
      firstPage e ≤ lastPage e ∧ firstPage e < windowPages := by
    intro e he
    simpa using List.all_eq_true.1 hall e he
  have hwf : WellFormed [⟨0#64, 0x1000001#64⟩] := wellFormed_singleton (by decide) (by decide)
  have hpages : buddyEndPage (0#64 + (MMapEnt.mk 0#64 0x1000001#64).byteSize) = 4096 := by decide
  obtain ⟨-, hc, -⟩ := createdAll_of_run hwf rfl hcreate
  have hN : ∀ e ∈ s'.mmap, e.ptr.toNat + e.size.toNat ≤
      4096 * buddyEndPage (0#64 + (MMapEnt.mk 0#64 0x1000001#64).byteSize) := by
    rw [hpages]
    exact fun e he => (hentry e he).1
  have hleft : ∀ e ∈ s'.mmap, e.bytes ⊆ available s'.mmap := fun _ he => bytes_subset_available he
  have hend : (0#64).toNat + (MMapEnt.mk 0#64 0x1000001#64).byteSize.toNat < 2 ^ 47 := by decide
  have hfit : ((0#64).toNat + (MMapEnt.mk 0#64 0x1000001#64).byteSize.toNat) % 2 ^ 24 = 0 ∨
      2 ^ 24 - 2 ^ 18 < ((0#64).toNat + (MMapEnt.mk 0#64 0x1000001#64).byteSize.toNat) % 2 ^ 24 :=
    Or.inl (by decide)
  obtain ⟨availableMemory, h, hrun, -⟩ := wp_seedResident hwf rfl hend hfit hcreate hc.tidy.disjoint hN
    hleft fun e he => (hasBoundary_iff e).2 (hentry e he).2
  obtain ⟨-, hfree, -, havail, -⟩ :=
    seedsExactly_of_end hwf rfl hend hfit hcreate hc.tidy.disjoint hN hleft availableMemory h hrun
  exact ⟨arrays, s', availableMemory, h, hcreate, hrun, hfree, havail⟩

/-- 12KB of free memory at the second page, and 4KB in use before the end at 2MB. -/
def smallMap : List MMapEnt := [⟨0x1000#64, 0x3001#64⟩, ⟨0x1FF000#64, 0x1000#64⟩]

theorem wellFormed_smallMap : WellFormed smallMap :=
  wellFormed_pair (by decide) (by decide) (by decide)

/-- The page bit sets are given 64 bytes each and take 512.  Page 2 is released, and its bit in
`free_pages` is that of page 514 in `usable_pages`. -/
theorem not_seedsExactly : ∃ arrays s',
    WellFormed smallMap ∧ createMetadata ⟨smallMap, ⟨fun _ => 0#64, []⟩⟩ = Except.ok (arrays, s') ∧
      (s'.mmap.Pairwise fun e f => Disjoint e.bytes f.bytes) ∧
      (∀ e ∈ s'.mmap, e.ptr.toNat + e.size.toNat ≤ 4096 * buddyEndPage 0x200000#64) ∧
      ¬ SeedsExactly (buddyEndPage 0x200000#64) arrays s'.memory s'.mmap := by
  obtain ⟨arrays, s', hcreate, hall⟩ := exists_run_of (s := ⟨smallMap, ⟨fun _ => 0#64, []⟩⟩)
    (P := fun arrays s' =>
      (s'.mmap.all fun e => decide (e.ptr.toNat + e.size.toNat ≤ 0x4000)) &&
        (seedEntriesBy (resident arrays) s'.mmap 0 (heapOf arrays s'.memory)).toOption.any fun r =>
          r.2.globals.usablePages.test 514) (by decide +kernel)
  rw [Bool.and_eq_true, List.all_eq_true] at hall
  obtain ⟨hsmall, hrun⟩ := hall
  have hlow : ∀ e ∈ s'.mmap, e.ptr.toNat + e.size.toNat ≤ 0x4000 := by
    intro e he
    simpa using hsmall e he
  obtain ⟨-, hc, -⟩ := createdAll_of_run wellFormed_smallMap rfl hcreate
  refine ⟨arrays, s', wellFormed_smallMap, hcreate, hc.tidy.disjoint,
    fun e he => (hlow e he).trans (by decide), fun hexact => ?_⟩
  cases hseed : seedEntriesBy (resident arrays) s'.mmap 0 (heapOf arrays s'.memory) with
  | error e =>
    rw [hseed] at hrun
    cases hrun
  | ok r =>
    rw [hseed] at hrun
    obtain ⟨e, he, -, hend⟩ := ((hexact r.1 r.2 hseed).1 514).1 hrun
    have := hlow e he
    omega

end Boot

end Dumboss
