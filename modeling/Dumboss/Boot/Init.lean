import Dumboss.Allocator.Account
import Dumboss.Boot.Entries

/-!
# From the memory map to the allocator

The first half of `memory__init` as a whole: the free entries are picked out, the bit sets are carved
off them, and what is left is handed to the allocator.

* `heapOf`, `initAllocator`: the code.  The allocator starts on the bit sets as they are in memory;
* `Laid`: what the creation of the arrays does to the entries and to memory; `wp_createMetadata`: it
  returns if one free entry has room for all of them;
* `pagesLeft`: the pages of the free entries in which no bit set has a byte;
* `Started`, `exists_started`: the whole run; `initAllocator_exact` spells it out.
-/

namespace Dumboss.Boot

open Prog

variable {σ : Type} {s s' s'' : State} {mmap es es' : List MMapEnt} {as bs : List MetadataArray}
  {n n' : ℕ}

/-! ### The code -/

/-- The bit set that the words of an array are. -/
def MetadataArray.bitSet (a : MetadataArray) (m : Memory) : BitSet :=
  ⟨fun i => if i < a.words then m.load (a.data + BitVec.ofNat 64 (8 * i)) else 0#64, a.count⟩

def bitSetAt (arrays : List MetadataArray) (m : Memory) (i : ℕ) : BitSet :=
  match arrays[i]? with
  | some a => a.bitSet m
  | none => ⟨fun _ => 0#64, 0⟩

/-- `MemGlobals` and memory before the seeding.  Nothing reads the bit set of the last class. -/
def heapOf (arrays : List MetadataArray) (m : Memory) : Heap where
  memory := m
  globals :=
    { freeMemory := 0
      usablePages := bitSetAt arrays m 0
      freePages := bitSetAt arrays m 1
      classes := fun k => ⟨0#64, if k < classCount - 1 then bitSetAt arrays m (k + 2)
        else ⟨fun _ => 0#64, bitsetSize (bitSetAt arrays m 0).count.toNat k⟩⟩ }

/-- `memory__init`, from the memory map to the first `validate_heap`, with `available_memory`. -/
def initAllocator (fuel : ℕ) (s : State) : Except Panic (ℤ × Heap) := do
  let (arrays, s') ← createMetadata s
  seed s'.mmap fuel (heapOf arrays s'.memory)

/-- The map after the sorting and the cut. -/
abbrev freeEntries (mmap : List MMapEnt) : List MMapEnt := takeFree (slowSort (mmap.length - 1) mmap)

/-! ### Carving off the front -/

/-- The entry `f` is `e` without some of its first `n` bytes. -/
def Trimmed (n : ℕ) (f e : MMapEnt) : Prop :=
  e.ptr.toNat ≤ f.ptr.toNat ∧ f.ptr.toNat ≤ e.ptr.toNat + n ∧
    f.ptr.toNat + f.size.toNat = e.ptr.toNat + e.size.toNat

theorem Trimmed.refl (n : ℕ) (e : MMapEnt) : Trimmed n e e := ⟨le_rfl, Nat.le_add_right _ _, rfl⟩

theorem Trimmed.trans {g f e : MMapEnt} (h : Trimmed n' g f) (h' : Trimmed n f e) :
    Trimmed (n + n') g e := by
  unfold Trimmed at *
  omega

theorem Trimmed.bytes_subset {f e : MMapEnt} (h : Trimmed n f e) : f.bytes ⊆ e.bytes :=
  Set.Ico_subset_Ico h.1 h.2.2.le

theorem exists_trimmed (h : List.Forall₂ (Trimmed n) es' es) {f : MMapEnt} (hf : f ∈ es') :
    ∃ e ∈ es, Trimmed n f e := by
  induction h with
  | nil => cases hf
  | cons ht _ ih =>
    rcases List.mem_cons.1 hf with rfl | hf
    · exact ⟨_, List.mem_cons_self, ht⟩
    · obtain ⟨e, he, hfe⟩ := ih hf
      exact ⟨e, List.mem_cons_of_mem _ he, hfe⟩

theorem trimmed_trans {es'' : List MMapEnt} (h : List.Forall₂ (Trimmed n') es'' es')
    (h' : List.Forall₂ (Trimmed n) es' es) : List.Forall₂ (Trimmed (n + n')) es'' es := by
  induction h generalizing es with
  | nil =>
    cases h'
    exact List.Forall₂.nil
  | cons ht _ ih =>
    cases h' with
    | cons ht' htail => exact List.Forall₂.cons (ht.trans ht') (ih htail)

/-- An entry has `n` bytes. -/
def Room (n : ℕ) (es : List MMapEnt) : Prop := ∃ e ∈ es, n ≤ e.size.toNat

/-- The entries end below `2 ^ 47`. -/
def Low (es : List MMapEnt) : Prop := ∀ e ∈ es, e.ptr.toNat + e.size.toNat < 2 ^ 47

theorem Low.trimmed (h : Low es) (ht : List.Forall₂ (Trimmed n) es' es) : Low es' := by
  intro f hf
  obtain ⟨e, he, -, -, hend⟩ := exists_trimmed ht hf
  rw [hend]
  exact h e he

/-- What is left of an entry. -/
theorem exists_rest (h : List.Forall₂ (Trimmed n) es' es) {e : MMapEnt} (he : e ∈ es) :
    ∃ f ∈ es', Trimmed n f e := by
  induction h with
  | nil => cases he
  | cons ht _ ih =>
    rcases List.mem_cons.1 he with rfl | he
    · exact ⟨_, List.mem_cons_self, ht⟩
    · obtain ⟨f, hf, hfe⟩ := ih he
      exact ⟨f, List.mem_cons_of_mem _ hf, hfe⟩

/-- There is room for what comes later. -/
theorem Room.trimmed (h : Room (n + n') es) (ht : List.Forall₂ (Trimmed n) es' es) : Room n' es' := by
  obtain ⟨e, he, hle⟩ := h
  obtain ⟨f, hf, htrim⟩ := exists_rest ht he
  refine ⟨f, hf, ?_⟩
  unfold Trimmed at htrim
  omega

/-- The loop of `alloc_from_entries` finds an entry, if there is one that is large enough. -/
theorem wp_carve_room {size : U64} (ht : Tidy es) (hlow : Low es) (hroom : Room size.toNat es)
    (t : σ) : wp (carve size 8 es) (fun r t' => t' = t ∧ ∃ ptr es', r = some (ptr, es') ∧
      List.Forall₂ (Trimmed size.toNat) es' es) t := by
  induction es with
  | nil =>
    obtain ⟨e, he, -⟩ := hroom
    cases he
  | cons e es ih =>
    have haligned := ht.aligned e (by simp)
    have hfits := hlow e (by simp)
    have hptr : BitVec.ofNat 64 ((e.ptr.toNat + (2 ^ 3 - 1)) % 2 ^ 64 / 2 ^ 3 * 2 ^ 3) = e.ptr := by
      have hlt := e.ptr.isLt
      apply BitVec.eq_of_toNat_eq
      rw [BitVec.toNat_ofNat]
      omega
    have hsize : e.size + e.ptr - e.ptr = e.size := BitVec.add_sub_cancel _ _
    rw [carve, wp_bind, show (8 : ℕ) = 2 ^ 3 from rfl, wp_alignUp64 (by omega), hptr, hsize]
    simp only [wp_bind, wp_ite, wp_pure]
    split_ifs with hsmall
    · rw [BitVec.lt_def] at hsmall
      have hroom' : Room size.toNat es := by
        obtain ⟨f, hf, hle⟩ := hroom
        rcases List.mem_cons.1 hf with rfl | hf
        · omega
        · exact ⟨f, hf, hle⟩
      refine wp_mono (ih ht.tail (fun f hf => hlow f (by simp [hf])) hroom') ?_
      rintro r t' ⟨rfl, ptr, es', rfl, htrim⟩
      exact ⟨rfl, ptr, e :: es', rfl, htrim.cons (.refl _ e)⟩
    · rw [BitVec.lt_def, not_lt] at hsmall
      refine ⟨trivial, _, _, rfl, List.Forall₂.cons ?_ (List.forall₂_same.2 fun f _ => .refl _ f)⟩
      have hadd : (e.ptr + size).toNat = e.ptr.toNat + size.toNat := by
        rw [BitVec.toNat_add]
        omega
      have hsub : (e.size - size).toNat = e.size.toNat - size.toNat := BitVec.toNat_sub_of_le hsmall
      refine ⟨?_, ?_, ?_⟩ <;> show _ <;> simp only [hadd, hsub] <;> omega

/-! ### Room for the arrays -/

/-- `n` bytes are enough for the arrays `as`: what is left of the entries. -/
structure Laid (n : ℕ) (s : State) (as : List MetadataArray) (s' : State) : Prop where
  tidy : Tidy s'.mmap
  trimmed : List.Forall₂ (Trimmed n) s'.mmap s.mmap
  available_eq : available s'.mmap = available s.mmap \ {x | ∃ a ∈ as, x ∈ a.range}

theorem laid_nil (ht : Tidy s.mmap) : Laid 0 s [] s where
  tidy := ht
  trimmed := List.forall₂_same.2 fun e _ => .refl 0 e
  available_eq := by simp

theorem Laid.append (h : Laid n s as s') (h' : Laid n' s' bs s'') :
    Laid (n + n') s (as ++ bs) s'' where
  tidy := h'.tidy
  trimmed := trimmed_trans h'.trimmed h.trimmed
  available_eq := by
    rw [h'.available_eq, h.available_eq, Set.sdiff_sdiff]
    congr 1
    ext x
    simp [or_and_right, exists_or]

theorem taken_singleton (a : MetadataArray) : {x | ∃ b ∈ [a], x ∈ b.range} = a.range := by
  ext x
  simp

/-- The bytes that `alloc_from_entries` sets aside for a request of `bytes`. -/
def setAside (bytes : ℕ) : ℕ := (bytes + 7) / 8 * 8

/-- **One array.** -/
theorem wp_createBitSet {bytes : ℕ} (count : ℤ) (ht : Tidy s.mmap) (hlow : Low s.mmap)
    (hpos : 0 < bytes) (hb : bytes < 2 ^ 63) (hroom : Room (setAside bytes) s.mmap) :
    wp (createBitSet bytes count) (fun a s' => Laid (setAside bytes) s [a] s') s := by
  have hsize : (BitVec.ofNat 64 ((bytes + 7) / 8 * 8)).toNat = setAside bytes := by
    rw [BitVec.toNat_ofNat, setAside]
    omega
  rw [← hsize] at hroom ⊢
  simp only [createBitSet, allocFromEntries, wp_bind, wp_assert]
  rw [show max (8 : ℤ).toNat 1 = 2 ^ 3 from rfl, wp_alignUp64 (by omega), alignUp_eight hb, wp_get]
  refine ⟨by omega, wp_mono (wp_and (wp_carve ht (by rw [hsize, setAside]; omega) s)
    (wp_carve_room ht hlow hroom s)) ?_⟩
  rintro _ _ ⟨⟨rfl, hcarve⟩, -, ptr, es', rfl, htrim⟩
  have hc := hcarve ptr es' rfl
  simp only [wp_bind, wp_modify, wp_pure]
  refine wp_mono (wp_setAllWords _ 0 (P := fun _ => True) fun _ _ _ => trivial) ?_
  rintro _ s' ⟨hmmap, -⟩
  set a : MetadataArray :=
    ⟨ptr + kernelSpaceBegin, BitVec.ofNat 64 ((bytes + 7) / 8 * 8), count⟩ with ha
  have hrange : a.range = Set.Ico ptr.toNat (ptr.toNat + a.size.toNat) := by
    rw [MetadataArray.range, MetadataArray.address, ha, BitVec.add_sub_cancel]
  refine ⟨?_, ?_, ?_⟩
  · rw [hmmap]
    exact hc.tidy
  · rw [hmmap]
    exact htrim
  · rw [hmmap, taken_singleton, hrange]
    exact hc.available_eq

/-- The bytes for the bit sets of the `left` classes from `k` on. -/
def buddyBytes (N : ℕ) : ℕ → ℕ → ℕ
  | 0, _ => 0
  | left + 1, k => setAside (bitsetSize N k / 8) + buddyBytes N left (k + 1)

/-- **The arrays of the buddies.** -/
theorem wp_createBuddies {N : ℕ} (hd : 4096 ∣ N) (hpos : 0 < N) (hN : N < 2 ^ 62) {left k : ℕ}
    (hk : k + left ≤ 11) (ht : Tidy s.mmap) (hlow : Low s.mmap)
    (hroom : Room (buddyBytes N left k) s.mmap) :
    wp (createBuddies N left k) (fun as s' => Laid (buddyBytes N left k) s as s') s := by
  induction left generalizing k s with
  | zero =>
    rw [createBuddies, wp_pure]
    exact laid_nil ht
  | succ left ih =>
    have halign : N % 2 ^ k = 0 := by
      refine Nat.mod_eq_zero_of_dvd (dvd_trans ?_ hd)
      exact Nat.pow_dvd_pow 2 (show k ≤ 12 by omega)
    have hbits : 8 ≤ bitsetSize N k ∧ bitsetSize N k < 2 ^ 63 := by
      have hle : 2 ^ (k + 1) ≤ N :=
        (Nat.pow_le_pow_right (by decide) (show k + 1 ≤ 12 by omega)).trans (Nat.le_of_dvd hpos hd)
      have hone : 0 < N / 2 ^ (k + 1) := Nat.div_pos hle (Nat.two_pow_pos _)
      have hdiv : N / 2 ^ (k + 1) ≤ N := Nat.div_le_self _ _
      unfold bitsetSize
      omega
    have hup : (N / 2 ^ (k + 1) + (2 ^ 3 - 1)) / 2 ^ 3 * 2 ^ 3 = bitsetSize N k := rfl
    simp only [createBuddies, buddyInfo, wp_bind, wp_isAligned (show k < 64 by omega), wp_assert,
      wp_pure, halign, decide_true, true_and]
    rw [show 8 = 2 ^ 3 from rfl, wp_alignUp (by omega), hup]
    have hroom' : Room (setAside (bitsetSize N k / 8)) s.mmap := by
      obtain ⟨e, he, hle⟩ := hroom
      exact ⟨e, he, (Nat.le_add_right _ _).trans hle⟩
    refine wp_mono (wp_createBitSet _ ht hlow (by omega) (by omega) hroom') ?_
    intro a s1 hlaid
    exact wp_mono (ih (by omega) hlaid.tidy (hlow.trimmed hlaid.trimmed)
      (hroom.trimmed hlaid.trimmed)) fun as s2 hrest => hlaid.append hrest

/-- The bytes for all bit sets. -/
def metadataBytes (endAddress : U64) : ℕ :=
  setAside (pageSetBytes endAddress) + (setAside (pageSetBytes endAddress) +
    buddyBytes (buddyEndPage endAddress) (classCount - 1) 0)

/-- What `memory__init` computes before it creates the arrays. -/
theorem wp_createMetadata_iff {l : MMapEnt} (hl : mmap.getLast? = some l) (m : Memory)
    (Q : List MetadataArray → State → Prop) : wp createMetadata Q ⟨mmap, m⟩ ↔
      wp (do
        let usablePages ← createBitSet (pageSetBytes (l.ptr + l.byteSize))
          (buddyEndPage (l.ptr + l.byteSize))
        let freePages ← createBitSet (pageSetBytes (l.ptr + l.byteSize))
          (buddyEndPage (l.ptr + l.byteSize))
        return usablePages :: freePages ::
          (← createBuddies (buddyEndPage (l.ptr + l.byteSize)) (classCount - 1) 0)) Q
        ⟨freeEntries mmap, m⟩ := by
  set e := l.ptr + l.byteSize with he
  have hup : ∀ (R : U64 → State → Prop) (t : State), wp (alignUp64 e 4096) R t ↔
      R (BitVec.ofNat 64 ((e.toNat + 4095) % 2 ^ 64 / 4096 * 4096)) t :=
    wp_alignUp64 (k := 12) (by omega) e
  have hupBuddy : ∀ (R : U64 → State → Prop) (t : State),
      wp (alignUp64 e (4096 * 2 ^ classCount)) R t ↔
        R (BitVec.ofNat 64 ((e.toNat + (2 ^ 24 - 1)) % 2 ^ 64 / 2 ^ 24 * 2 ^ 24)) t :=
    wp_alignUp64 (k := 24) (by omega) e
  have hpage : BitVec.ofNat 64 ((e.toNat + 4095) % 2 ^ 64 / 4096 * 4096) / 4096#64 =
      BitVec.ofNat 64 (endPage e) := by
    have h4096 : (4096#64).toNat = 4096 := rfl
    apply BitVec.eq_of_toNat_eq
    rw [BitVec.toNat_udiv, h4096, BitVec.toNat_ofNat, BitVec.toNat_ofNat, endPage]
    omega
  have hbuddy : (BitVec.ofNat 64 ((e.toNat + (2 ^ 24 - 1)) % 2 ^ 64 / 2 ^ 24 * 2 ^ 24)).toNat / 4096 =
      buddyEndPage e := by
    rw [BitVec.toNat_ofNat, buddyEndPage]
    omega
  have hbytes : ((BitVec.ofNat 64 (endPage e) - 1#64) / 8#64 + 1#64).toInt = (pageSetBytes e : ℤ) := by
    have := pageSetBytes_lt e
    rw [pageSetBytes] at this ⊢
    rw [BitVec.toInt_eq_toNat_of_lt (by omega)]
  simp only [createMetadata, endAddress, hl, wp_bind, wp_get, wp_modify, wp_pure, ← he, hup, hpage,
    hupBuddy, hbuddy, hbytes]

/-- **The creation of the arrays** returns, if one of the entries has room for all of them. -/
theorem wp_createMetadata {l : MMapEnt} (hl : mmap.getLast? = some l) {m : Memory}
    (ht : Tidy (freeEntries mmap))
    (hlow : Low (freeEntries mmap))
    (hpos : 0 < buddyEndPage (l.ptr + l.byteSize))
    (hroom : Room (metadataBytes (l.ptr + l.byteSize)) (freeEntries mmap)) :
    wp createMetadata (fun arrays s' =>
      Laid (metadataBytes (l.ptr + l.byteSize)) ⟨freeEntries mmap, m⟩ arrays s') ⟨mmap, m⟩ := by
  have hbytes : 0 < pageSetBytes (l.ptr + l.byteSize) ∧
      pageSetBytes (l.ptr + l.byteSize) < 2 ^ 63 := by
    have hlt := pageSetBytes_lt (l.ptr + l.byteSize)
    have heq := pageSetBytes_eq hpos
    omega
  have hN : buddyEndPage (l.ptr + l.byteSize) < 2 ^ 62 ∧ 4096 ∣ buddyEndPage (l.ptr + l.byteSize) := by
    unfold buddyEndPage
    exact ⟨by omega, Nat.dvd_mul_left _ _⟩
  rw [wp_createMetadata_iff hl]
  simp only [wp_bind, wp_pure]
  have hroom1 : Room (setAside (pageSetBytes (l.ptr + l.byteSize)))
      (freeEntries mmap) := by
    obtain ⟨e, he, hle⟩ := hroom
    exact ⟨e, he, (Nat.le_add_right _ _).trans hle⟩
  refine wp_mono (wp_createBitSet _ ht hlow hbytes.1 hbytes.2 hroom1) ?_
  intro a s1 h1
  have hlow1 := hlow.trimmed h1.trimmed
  have hrest := hroom.trimmed h1.trimmed
  have hroom2 : Room (setAside (pageSetBytes (l.ptr + l.byteSize))) s1.mmap := by
    obtain ⟨e, he, hle⟩ := hrest
    exact ⟨e, he, (Nat.le_add_right _ _).trans hle⟩
  refine wp_mono (wp_createBitSet _ h1.tidy hlow1 hbytes.1 hbytes.2 hroom2) ?_
  intro b s2 h2
  exact wp_mono (wp_createBuddies hN.2 hpos hN.1 (by decide) h2.tidy (hlow1.trimmed h2.trimmed)
    (hrest.trimmed h2.trimmed)) fun as s3 h3 => h1.append (h2.append h3)

/-! ### The allocator at the start -/

/-- The bit sets are all zero, as they are in memory. -/
theorem CreatedAll.bitSetAt_eq (h : CreatedAll s as s') {a : MetadataArray} {i : ℕ}
    (ha : as[i]? = some a) : bitSetAt as s'.memory i = ⟨fun _ => 0#64, a.count⟩ := by
  have hdata : (fun i => if i < a.words then s'.memory.load (a.data + BitVec.ofNat 64 (8 * i))
      else 0#64) = fun _ => 0#64 := by
    funext i
    split_ifs with hi
    · exact h.zero a (List.mem_of_getElem? ha) _ ⟨i, hi, rfl⟩
    · rfl
  rw [bitSetAt, ha]
  show a.bitSet s'.memory = _
  rw [MetadataArray.bitSet, hdata]

theorem heapOf_eq {N : ℕ} {a b : MetadataArray} (h : CreatedAll s (a :: b :: as) s') (ha : a.count = N)
    (hb : b.count = N) (has : ∀ j < classCount - 1, ∃ c, as[j]? = some c ∧ c.count = bitsetSize N j) :
    heapOf (a :: b :: as) s'.memory = zeroedHeap N (fun _ => 0#64) s'.memory := by
  have husable : bitSetAt (a :: b :: as) s'.memory 0 = ⟨fun _ => 0#64, N⟩ := by
    rw [h.bitSetAt_eq (a := a) rfl, ha]
  have hfree : bitSetAt (a :: b :: as) s'.memory 1 = ⟨fun _ => 0#64, N⟩ := by
    rw [h.bitSetAt_eq (a := b) rfl, hb]
  have hclasses : (fun k => (⟨0#64,
      if k < classCount - 1 then bitSetAt (a :: b :: as) s'.memory (k + 2)
      else ⟨fun _ => 0#64, bitsetSize (bitSetAt (a :: b :: as) s'.memory 0).count.toNat k⟩⟩ :
        ClassInfo)) = fun k => ⟨0#64, ⟨fun _ => 0#64, bitsetSize N k⟩⟩ := by
    funext k
    split_ifs with hk
    · obtain ⟨c, hc, hcount⟩ := has k hk
      have hc' : (a :: b :: as)[k + 2]? = some c := hc
      rw [h.bitSetAt_eq hc', hcount]
    · rw [husable, Int.toNat_natCast]
  rw [heapOf, hclasses, husable, hfree]
  rfl

/-! ### Which pages are left -/

/-- The bytes of a page. -/
def pageBytes (p : ℕ) : Set ℕ := Set.Ico (4096 * p) (4096 * (p + 1))

/-- The pages inside a free entry of the map in which none of the arrays has a byte. -/
def pagesLeft (mmap : List MMapEnt) (arrays : List MetadataArray) : Set ℕ :=
  {p | (∃ e ∈ mmap, e.isFree = true ∧ pageBytes p ⊆ e.region) ∧
    ∀ a ∈ arrays, Disjoint a.range (pageBytes p)}

theorem mem_freeEntries_iff {f : MMapEnt} : f ∈ freeEntries mmap ↔
    ∃ e ∈ mmap, e.isFree = true ∧ ⟨e.ptr, e.byteSize⟩ = f := by
  rw [freeEntries, takeFree_eq (slowSort_freeFirst mmap), slowSort_filter, List.mem_map]
  simp only [List.mem_filter, and_assoc]

theorem pageBytes_subset_iff {p b e : ℕ} :
    pageBytes p ⊆ Set.Ico b e ↔ b ≤ 4096 * p ∧ 4096 * (p + 1) ≤ e := by
  rw [pageBytes, Set.Ico_subset_Ico_iff (by omega)]

/-- Two entries with a byte in common are the same. -/
theorem Tidy.eq_of_mem (ht : Tidy es) {e f : MMapEnt} (he : e ∈ es) (hf : f ∈ es) {x : ℕ}
    (hxe : x ∈ e.bytes) (hxf : x ∈ f.bytes) : e = f := by
  by_contra hne
  have : Std.Symm fun e f : MMapEnt => Disjoint e.bytes f.bytes := ⟨fun _ _ h => h.symm⟩
  exact Set.disjoint_left.1 (ht.disjoint.forall he hf hne) hxe hxf

/-- The whole pages of what is left of the entries. -/
theorem Laid.wholePages_eq {m : Memory}
    (h : Laid n ⟨freeEntries mmap, m⟩ as s')
    (ht : Tidy (freeEntries mmap)) :
    wholePages s'.mmap = pagesLeft mmap as := by
  ext p
  constructor
  · rintro ⟨f, hf, h1, h2⟩
    have hsub : pageBytes p ⊆ f.bytes := pageBytes_subset_iff.2 ⟨h1, h2⟩
    refine ⟨?_, fun a ha => ?_⟩
    · obtain ⟨e, he, htrim⟩ := exists_trimmed h.trimmed hf
      obtain ⟨e', he', hfree, rfl⟩ := mem_freeEntries_iff.1 he
      exact ⟨e', he', hfree, hsub.trans htrim.bytes_subset⟩
    · rw [Set.disjoint_left]
      intro x hx hxp
      have hav : x ∈ available s'.mmap := ⟨f, hf, hsub hxp⟩
      rw [h.available_eq] at hav
      exact hav.2 ⟨a, ha, hx⟩
  · rintro ⟨⟨e, he, hfree, hsub⟩, hapart⟩
    have hmem := mem_freeEntries_iff.2 ⟨e, he, hfree, rfl⟩
    have hfirst : 4096 * p ∈ pageBytes p := ⟨le_rfl, by omega⟩
    have hbyte : 4096 * p ∈ (MMapEnt.mk e.ptr e.byteSize).bytes := hsub hfirst
    -- the first byte of the page is still there, in the entry that the page was in
    have hav : 4096 * p ∈ available s'.mmap := by
      rw [h.available_eq]
      refine ⟨⟨_, hmem, hbyte⟩, ?_⟩
      rintro ⟨a, ha, hx⟩
      exact Set.disjoint_left.1 (hapart a ha) hx hfirst
    obtain ⟨f, hf, hxf⟩ := hav
    obtain ⟨e', he', htrim⟩ := exists_trimmed h.trimmed hf
    obtain rfl := ht.eq_of_mem hmem he' hbyte (htrim.bytes_subset hxf)
    have hend := (pageBytes_subset_iff.1 hsub).2
    refine ⟨f, hf, hxf.1, ?_⟩
    rw [htrim.2.2]
    exact hend

/-- The seeding of an allocator without pages, with the checks after it. -/
theorem wp_seed {N fuel : ℕ} {entries : List MMapEnt} (hd : 4096 ∣ N) (hw : N ≤ windowPages)
    (m : Memory) (hdis : entries.Pairwise fun e f => Disjoint e.bytes f.bytes)
    (hN : ∀ e ∈ entries, e.ptr.toNat + e.size.toNat ≤ 4096 * N)
    (hbound : ∀ e ∈ entries, e.HasBoundary) (hfuel : N < fuel) :
    wp (seed entries fuel) (fun available h => Seeded N entries available h ∧
      Memory.StoresIn (InPages (· ∈ wholePages entries)) m h.memory)
      (zeroedHeap N (fun _ => 0#64) m) := by
  obtain ⟨available, h, hrun, hs, hr, hst⟩ := exists_seedEntries hd hw m hdis hN hbound
  exact wp_of_run (seedBy_eq_ok hrun hs hfuel) ⟨⟨hs, hr⟩, hst⟩

/-- What the allocator starts with; the bit sets are at `arrays`, and `m` is the memory before the
seeding. -/
structure Started (N : ℕ) (mmap : List MMapEnt) (arrays : List MetadataArray) (m : Memory) (h : Heap) :
    Prop where
  reachable : Reachable N h
  freeSet : h.globals.freeSet = pagesLeft mmap arrays
  usable : ∀ p, h.globals.usablePages.test p = true ↔ p ∈ pagesLeft mmap arrays
  stores : Memory.StoresIn (InPages (· ∈ pagesLeft mmap arrays)) m h.memory

section Start

variable {l : MMapEnt} {m : Memory} {fuel : ℕ}

theorem words_of_count {a : MetadataArray} {N : ℕ} (h : a.count = N) : a.words = (N + 63) / 64 := by
  rw [MetadataArray.words, h]
  omega

theorem initAllocator_eq (hrun : createMetadata s = Except.ok (as, s')) :
    initAllocator fuel s = seed s'.mmap fuel (heapOf as s'.memory) := by
  unfold initAllocator
  rw [hrun]
  rfl

/-- The arrays are inside their ranges, if the memory ends where it should. -/
theorem metadataOk_of_end (hwf : WellFormed mmap) (hl : mmap.getLast? = some l)
    (hpos : 0 < buddyEndPage (l.ptr + l.byteSize))
    (hfit : (l.ptr + l.byteSize).toNat % 2 ^ 24 = 0 ∨
      2 ^ 24 - 2 ^ 18 < (l.ptr + l.byteSize).toNat % 2 ^ 24)
    (hrun : createMetadata ⟨mmap, m⟩ = Except.ok (as, s')) : MetadataOk mmap m as s' := by
  have hwp : wp createMetadata (fun arrays t => arrays = as ∧ t = s') ⟨mmap, m⟩ :=
    wp_of_run hrun ⟨rfl, rfl⟩
  obtain ⟨a, b, cs, t, -, hc, hpage, hbuddies, -, rfl, rfl⟩ := of_wp_createMetadata hwf hl hwp
  have hpageFit := (pageSet_fits_iff hpos).2 hfit
  have hfits : ∀ c ∈ [a, b], 8 * c.words ≤ c.size.toNat := by
    intro c hc
    obtain ⟨hsize, hcount⟩ := hpage c hc
    rw [words_of_count hcount, hsize]
    exact hpageFit
  refine metadataOk_of_fits rfl hc ?_
  intro c hc
  rcases List.mem_cons.1 hc with rfl | hc
  · exact hfits c (by simp)
  · rcases List.mem_cons.1 hc with rfl | hc
    · exact hfits c (by simp)
    · exact hbuddies c hc

/-- The allocator starts without pages. -/
theorem createdAll_of_run (hwf : WellFormed mmap) (hl : mmap.getLast? = some l)
    (hrun : createMetadata ⟨mmap, m⟩ = Except.ok (as, s')) :
    0 < buddyEndPage (l.ptr + l.byteSize) ∧ CreatedAll ⟨freeEntries mmap, m⟩ as s' ∧
      (∀ i < classCount + 1, ∃ a, as[i]? = some a) ∧ heapOf as s'.memory =
        zeroedHeap (buddyEndPage (l.ptr + l.byteSize)) (fun _ => 0#64) s'.memory := by
  have hwp : wp createMetadata (fun arrays t => arrays = as ∧ t = s') ⟨mmap, m⟩ :=
    wp_of_run hrun ⟨rfl, rfl⟩
  obtain ⟨a, b, cs, t, hpos, hc, hpage, -, hcounts, rfl, rfl⟩ := of_wp_createMetadata hwf hl hwp
  refine ⟨hpos, hc, fun i hi => ?_, heapOf_eq hc (hpage a (by simp)).2 (hpage b (by simp)).2 hcounts⟩
  match i with
  | 0 => exact ⟨a, rfl⟩
  | 1 => exact ⟨b, rfl⟩
  | j + 2 =>
    obtain ⟨c, hc, -⟩ := hcounts j (by omega)
    exact ⟨c, hc⟩

/-- The end of the memory, in pages. -/
theorem buddyEndPage_bounds (hend : l.ptr.toNat + l.byteSize.toNat < 2 ^ 47) :
    l.ptr.toNat + l.byteSize.toNat ≤ 4096 * buddyEndPage (l.ptr + l.byteSize) ∧
      buddyEndPage (l.ptr + l.byteSize) ≤ windowPages ∧ 4096 ∣ buddyEndPage (l.ptr + l.byteSize) := by
  have hsum : (l.ptr + l.byteSize).toNat = l.ptr.toNat + l.byteSize.toNat := by
    rw [BitVec.toNat_add]
    omega
  unfold buddyEndPage windowPages
  rw [hsum]
  omega

/-- Memory that has room for the bit sets does not end at address `0`. -/
theorem buddyEndPage_pos (hend : (l.ptr + l.byteSize).toNat < 2 ^ 47)
    (hlast : ∀ f ∈ es, f.ptr.toNat + f.size.toNat ≤ (l.ptr + l.byteSize).toNat)
    (hroom : Room (metadataBytes (l.ptr + l.byteSize)) es) :
    0 < buddyEndPage (l.ptr + l.byteSize) := by
  by_contra h0
  have hzero : l.ptr + l.byteSize = 0#64 := by
    apply BitVec.eq_of_toNat_eq
    unfold buddyEndPage at h0
    rw [BitVec.toNat_zero]
    omega
  have hbytes : 0 < metadataBytes 0#64 := Nat.add_pos_left (by decide) _
  obtain ⟨f, hf, hle⟩ := hroom
  have hf := hlast f hf
  rw [hzero] at hle hf
  rw [BitVec.toNat_zero] at hf
  omega

/-- The creation of the arrays takes at most `metadataBytes` bytes off each entry. -/
theorem exists_laid (hwf : WellFormed mmap) (hl : mmap.getLast? = some l)
    (hend : l.ptr.toNat + l.byteSize.toNat < 2 ^ 47)
    (hroom : ∃ e ∈ mmap, e.isFree = true ∧ metadataBytes (l.ptr + l.byteSize) ≤ e.byteSize.toNat) :
    ∃ arrays s', createMetadata ⟨mmap, m⟩ = Except.ok (arrays, s') ∧
      Laid (metadataBytes (l.ptr + l.byteSize)) ⟨freeEntries mmap, m⟩ arrays s' := by
  have hsum : (l.ptr + l.byteSize).toNat = l.ptr.toNat + l.byteSize.toNat := by
    rw [BitVec.toNat_add]
    omega
  have hlast : ∀ f ∈ freeEntries mmap,
      f.ptr.toNat + f.size.toNat ≤ (l.ptr + l.byteSize).toNat := by
    intro f hf
    obtain ⟨e, he, -, rfl⟩ := mem_freeEntries_iff.1 hf
    rw [hsum]
    exact hwf.last e he l hl
  have hlow : Low (freeEntries mmap) := fun f hf => (hlast f hf).trans_lt (hsum ▸ hend)
  have hroom' : Room (metadataBytes (l.ptr + l.byteSize)) (freeEntries mmap) := by
    obtain ⟨e, he, hfree, hle⟩ := hroom
    exact ⟨_, mem_freeEntries_iff.2 ⟨e, he, hfree, rfl⟩, hle⟩
  obtain ⟨arrays, s', hrun, hlaid⟩ := wp_createMetadata (m := m) hl (hwf.tidy (mmap.length - 1)) hlow
    (buddyEndPage_pos (hsum ▸ hend) hlast hroom') hroom'
  exact ⟨arrays, s', hrun, hlaid⟩

/-- **The whole run.** -/
theorem exists_started (hwf : WellFormed mmap) (hl : mmap.getLast? = some l)
    (hend : l.ptr.toNat + l.byteSize.toNat < 2 ^ 47)
    (hfit : (l.ptr.toNat + l.byteSize.toNat) % 2 ^ 24 = 0 ∨
      2 ^ 24 - 2 ^ 18 < (l.ptr.toNat + l.byteSize.toNat) % 2 ^ 24)
    (hroom : ∃ e ∈ mmap, e.isFree = true ∧ metadataBytes (l.ptr + l.byteSize) ≤ e.byteSize.toNat)
    (hfuel : buddyEndPage (l.ptr + l.byteSize) < fuel) :
    ∃ arrays s' h, createMetadata ⟨mmap, m⟩ = Except.ok (arrays, s') ∧
      MetadataOk mmap m arrays s' ∧
      initAllocator fuel ⟨mmap, m⟩ = Except.ok (4096 * ((pagesLeft mmap arrays).ncard : ℤ), h) ∧
      Started (buddyEndPage (l.ptr + l.byteSize)) mmap arrays s'.memory h := by
  have ht := hwf.tidy (mmap.length - 1)
  have hsum : (l.ptr + l.byteSize).toNat = l.ptr.toNat + l.byteSize.toNat := by
    rw [BitVec.toNat_add]
    omega
  have hwindow := buddyEndPage_bounds hend
  obtain ⟨arrays, s', hrun, hlaid⟩ := exists_laid (m := m) hwf hl hend hroom
  obtain ⟨hpos, -, -, hheap⟩ := createdAll_of_run hwf hl hrun
  have hok : MetadataOk mmap m arrays s' := metadataOk_of_end hwf hl hpos (hsum ▸ hfit) hrun
  -- carving keeps the ends of the entries, which are page boundaries
  have hentry : ∀ f ∈ s'.mmap, f.ptr.toNat + f.size.toNat ≤ l.ptr.toNat + l.byteSize.toNat ∧
      4096 ∣ f.ptr.toNat + f.size.toNat := by
    intro f hf
    obtain ⟨e, he, htrim⟩ := exists_trimmed hlaid.trimmed hf
    rw [htrim.2.2]
    obtain ⟨e', he', hfree, rfl⟩ := mem_freeEntries_iff.1 he
    obtain ⟨h1, h2⟩ := hwf.aligned e' he' hfree
    exact ⟨hwf.last e' he' l hl, Nat.dvd_add h1 h2⟩
  have hbound : ∀ f ∈ s'.mmap, f.HasBoundary := by
    intro f hf
    obtain ⟨hle, k, hk⟩ := hentry f hf
    refine ⟨k, ?_, by omega, by omega⟩
    unfold windowPages
    omega
  obtain ⟨available, h, hseed, hs, hst⟩ :=
    wp_seed hwindow.2.2 hwindow.2.1 s'.memory hlaid.tidy.disjoint
      (fun f hf => (hentry f hf).1.trans hwindow.1) hbound hfuel
  have hleft := hlaid.wholePages_eq ht
  have hfree := hs.freeSet
  have husable := hs.usable
  rw [hleft] at hfree husable hst
  have hcount : available = 4096 * ((pagesLeft mmap arrays).ncard : ℤ) := by
    rw [hs.available_eq, hleft]
  refine ⟨arrays, s', h, hrun, hok, ?_, hs.reachable, hfree, husable, hst⟩
  rw [initAllocator_eq hrun, hheap, ← hcount]
  exact hseed

/-- **From the memory map to the allocator.**  If the memory ends in the last 256KB of a 16MB block or
at its end, and a free entry of the map has room for the bit sets, then everything up to the first
`validate_heap` runs without a failing assertion.  The allocator then starts with the pages of the
free entries in which no bit set has a byte, and with no others; they are counted right, and form the
largest blocks possible. -/
theorem initAllocator_exact (hwf : WellFormed mmap) (hl : mmap.getLast? = some l)
    (hend : l.ptr.toNat + l.byteSize.toNat < 2 ^ 47)
    (hfit : (l.ptr.toNat + l.byteSize.toNat) % 2 ^ 24 = 0 ∨
      2 ^ 24 - 2 ^ 18 < (l.ptr.toNat + l.byteSize.toNat) % 2 ^ 24)
    (hroom : ∃ e ∈ mmap, e.isFree = true ∧ metadataBytes (l.ptr + l.byteSize) ≤ e.byteSize.toNat)
    (m : Memory) (hfuel : buddyEndPage (l.ptr + l.byteSize) < fuel) :
    ∃ arrays s' h, createMetadata ⟨mmap, m⟩ = Except.ok (arrays, s') ∧
      MetadataOk mmap m arrays s' ∧
      initAllocator fuel ⟨mmap, m⟩ = Except.ok (4096 * ((pagesLeft mmap arrays).ncard : ℤ), h) ∧
      h.globals.freeSet = pagesLeft mmap arrays ∧
      (∀ p, h.globals.usablePages.test p = true ↔ p ∈ pagesLeft mmap arrays) ∧
      h.globals.freeMemory = 4096 * ((pagesLeft mmap arrays).ncard : ℤ) ∧
      Canonical (pagesLeft mmap arrays) h ∧ Reachable (buddyEndPage (l.ptr + l.byteSize)) h := by
  obtain ⟨arrays, s', h, hrun, hok, hinit, hs⟩ := exists_started hwf hl hend hfit hroom hfuel
  have hcount : h.globals.freeMemory = 4096 * ((pagesLeft mmap arrays).ncard : ℤ) := by
    rw [hs.reachable.inv.freeMemory_eq_ncard.1, hs.freeSet]
  refine ⟨arrays, s', h, hrun, hok, hinit, hs.freeSet, hs.usable, hcount, ?_, hs.reachable⟩
  rw [← hs.freeSet]
  exact canonical_of_inv hs.reachable.inv

end Start

/-- 16MB of free memory. -/
theorem initAllocator_exact_16MB : ∃ arrays h,
    initAllocator 4097 ⟨[⟨0#64, 0x1000001#64⟩], ⟨fun _ => 0#64, []⟩⟩ =
      Except.ok (4096 * ((pagesLeft [⟨0#64, 0x1000001#64⟩] arrays).ncard : ℤ), h) ∧
      h.globals.freeSet = pagesLeft [⟨0#64, 0x1000001#64⟩] arrays := by
  have hwf : WellFormed [⟨0#64, 0x1000001#64⟩] := wellFormed_singleton (by decide) (by decide)
  obtain ⟨arrays, s', h, -, -, hrun, hfree, -⟩ := initAllocator_exact hwf rfl (by decide)
    (Or.inl (by decide)) ⟨_, List.mem_singleton.2 rfl, by decide, by decide⟩ ⟨fun _ => 0#64, []⟩
    (show buddyEndPage (0#64 + (MMapEnt.mk 0#64 0x1000001#64).byteSize) < 4097 by decide)
  exact ⟨arrays, h, hrun, hfree⟩

end Dumboss.Boot
