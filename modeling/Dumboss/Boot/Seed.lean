import Dumboss.Boot.Model
import Dumboss.Allocator.Canonical

/-!
# Seeding the allocator

The seeding loop of `memory__init` goes over disjoint entries with arbitrary, unaligned bounds.  If no
assertion fails, the usable pages and the free pages are in the end the pages that lie wholly in one
entry.

* `wholePages e`: the pages that lie wholly in the entry `e`;
* `Stocked`: the invariant of the loop, `wp_seedEntryBy` the step lemma, `wp_seedEntriesBy` the run
  lemma; like those of `releasePagesBy` they leave open where the bit sets are;
* `wp_seedBy`, `Canonical`: the checks after the loop, and the state it leaves;
* `Seeded`: with bit sets apart from memory, this state is one of the allocator's runs;
* `MMapEnt.HasBoundary`, `seeding_never_panics_iff`: when the loop runs to its end.
-/

namespace Dumboss.Boot

open Prog Buddy

variable {N : ℕ} {h h' : Heap}

/-- The bytes of an entry. -/
def MMapEnt.bytes (e : MMapEnt) : Set ℕ := Set.Ico e.ptr.toNat (e.ptr.toNat + e.size.toNat)

/-- The pages that lie wholly in an entry. -/
def MMapEnt.wholePages (e : MMapEnt) : Set ℕ :=
  {p | e.ptr.toNat ≤ 4096 * p ∧ 4096 * (p + 1) ≤ e.ptr.toNat + e.size.toNat}

/-- The pages that lie wholly in one of the entries. -/
def wholePages (entries : List MMapEnt) : Set ℕ := {p | ∃ e ∈ entries, p ∈ e.wholePages}

theorem wp_alignUp64 {σ : Type} {k : ℕ} (hk : k < 64) (v : U64) (Q : U64 → σ → Prop) (s : σ) :
    wp (alignUp64 v (2 ^ k)) Q s ↔
      Q (BitVec.ofNat 64 ((v.toNat + (2 ^ k - 1)) % 2 ^ 64 / 2 ^ k * 2 ^ k)) s := by
  simp only [alignUp64, wp_bind, wp_assertAlign hk, wp_pure]

/-- Disjoint entries have no page in common. -/
theorem wholePages_disjoint {e f : MMapEnt} (hd : Disjoint e.bytes f.bytes) :
    Disjoint e.wholePages f.wholePages := by
  rw [Set.disjoint_left] at *
  rintro p ⟨h1, h2⟩ ⟨h3, h4⟩
  exact hd (a := 4096 * p) ⟨h1, by omega⟩ ⟨h3, by omega⟩

/-! ### One entry -/

/-- Setting a range that ends before it begins fails an assertion. -/
theorem le_of_wp_setRange {σ : Type} {bits : BitSet} {b e : ℕ} {value : Bool}
    {Q : BitSet → σ → Prop} {s : σ} (hw : wp (bits.setRange b e value) Q s) : b ≤ e := by
  simp only [BitSet.setRange, BitSet.assertRange, wp_bind, wp_assert] at hw
  exact_mod_cast hw.2.1

/-- The page of the first page boundary in an entry, and of the last. -/
def firstPage (e : MMapEnt) : ℕ := (e.ptr.toNat + 4095) / 4096

def lastPage (e : MMapEnt) : ℕ := (e.ptr.toNat + e.size.toNat) / 4096

theorem MMapEnt.wholePages_eq (e : MMapEnt) : e.wholePages = Set.Ico (firstPage e) (lastPage e) := by
  ext p
  simp only [MMapEnt.wholePages, firstPage, lastPage, Set.mem_ofPred_eq, Set.mem_Ico]
  omega

section Sync

variable {P : Set ℕ} {S : (ℕ → BitSet) → Memory → Prop} {sync : Kern Heap Unit → Kern Heap Unit}

/-- The body of the loop, for an entry in the kernel window. -/
theorem wp_seedEntryBy_iff {e : MMapEnt} (hw : e.ptr.toNat + e.size.toNat ≤ 4096 * windowPages)
    {available : ℤ} {Q : ℤ → Heap → Prop} : wp (seedEntryBy sync e available) Q h ↔
      wp (sync (setUsablePages (firstPage e) (lastPage e) true)) (fun _ h1 =>
        wp (releasePagesBy sync (pagePtr (firstPage e)) ((lastPage e - firstPage e : ℕ) : ℤ))
          (fun _ => Q (available + ((lastPage e - firstPage e : ℕ) : ℤ) * 4096)) h1) h := by
  have hw' : e.ptr.toNat + e.size.toNat ≤ 2 ^ 47 := by
    unfold windowPages at hw
    omega
  have hbegin : BitVec.ofNat 64 ((e.ptr.toNat + (2 ^ 12 - 1)) % 2 ^ 64 / 2 ^ 12 * 2 ^ 12) =
      BitVec.ofNat 64 (4096 * firstPage e) := by
    unfold firstPage
    congr 1
    omega
  have hfirst : (BitVec.ofNat 64 (4096 * firstPage e)).toNat = 4096 * firstPage e := by
    unfold firstPage
    rw [BitVec.toNat_ofNat]
    omega
  have hsum : (e.ptr + e.size).toNat = e.ptr.toNat + e.size.toNat := by
    rw [BitVec.toNat_add]
    omega
  have hlast : (e.ptr.toNat + e.size.toNat) / 2 ^ 12 * 2 ^ 12 = 4096 * lastPage e := by
    unfold lastPage
    omega
  have hsize : ((max (4096 * lastPage e) (4096 * firstPage e) - 4096 * firstPage e : ℕ) : ℤ) =
      ((lastPage e - firstPage e : ℕ) : ℤ) * 4096 := by
    omega
  have hptr : BitVec.ofNat 64 (4096 * firstPage e) < kernelSpaceBegin := by
    rw [BitVec.lt_def, hfirst, kernelSpaceBegin_toNat]
    unfold firstPage
    omega
  have hpage : BitVec.ofNat 64 (4096 * firstPage e) + kernelSpaceBegin = pagePtr (firstPage e) := by
    rw [pagePtr, BitVec.ofNat_add, BitVec.add_comm]
    rfl
  simp only [seedEntryBy, wp_bind]
  rw [show (4096 : ℕ) = 2 ^ 12 from rfl, wp_alignUp64 (by omega), wp_alignDown (by omega), hbegin,
    hfirst, hsum, hlast, hsize]
  simp only [wp_bind, kernelPtr, wp_assert, wp_pure, hptr, hpage, true_and]
  rw [show 2 ^ 12 = 4096 from rfl, Nat.mul_div_cancel_left _ (by omega),
    Nat.mul_div_cancel_left _ (by omega), Int.mul_ediv_cancel _ (by omega)]

/-- What the allocator has after the entries `done`. -/
structure Stocked (N : ℕ) (done : List MMapEnt) (available : ℤ) (h : Heap) : Prop where
  inv : Inv N h
  freeSet : h.globals.freeSet = wholePages done
  usable : ∀ p, h.globals.usablePages.test p = true ↔ p ∈ wholePages done
  freeMemory : h.globals.freeMemory = available

theorem wholePages_cons (e : MMapEnt) (es : List MMapEnt) :
    wholePages (e :: es) = e.wholePages ∪ wholePages es := by
  ext p
  simp [wholePages]

theorem wholePages_reverse (es : List MMapEnt) : wholePages (es.reverse ++ []) = wholePages es := by
  ext p
  simp [wholePages]

/-- The pages of a further entry are not free. -/
theorem Stocked.not_free {done : List MMapEnt} {available : ℤ} {e : MMapEnt}
    (hs : Stocked N done available h) (hdis : ∀ f ∈ done, Disjoint e.bytes f.bytes) :
    ∀ q ∈ e.wholePages, q ∉ h.globals.freeSet := by
  intro q hq
  rw [hs.freeSet]
  rintro ⟨f, hf, hqf⟩
  exact Set.disjoint_left.1 (wholePages_disjoint (hdis f hf)) hq hqf

theorem stocked_nil (hd : 4096 ∣ N) (hw : N ≤ windowPages) (m : Memory) :
    Stocked N [] 0 (zeroedHeap N (fun _ => 0#64) m) where
  inv := zeroedHeap_inv hd hw _ m
  freeSet := by
    ext p
    simp [MemGlobals.freeSet, zeroedHeap, BitSet.test, wholePages]
  usable := by
    intro p
    simp [zeroedHeap, BitSet.test, wholePages]
  freeMemory := rfl

/-- More pages become usable. -/
theorem inv_of_usable (hI : Inv N h) {r : BitSet} {b e : ℕ}
    (hr : BitSet.Filled h.globals.usablePages b e true r)
    (hg : h'.globals = { h.globals with usablePages := r }) (hF : h.globals.freeSet ⊆ P)
    (hst : Memory.StoresIn (fun a => ¬ InPages (· ∈ P) a) h.memory h'.memory) : Inv N h' := by
  obtain ⟨L, hc⟩ := hI.core
  obtain ⟨m, g⟩ := h'
  obtain rfl : g = { h.globals with usablePages := r } := hg
  refine ⟨hI.dvd, hI.le_window, hr.1.trans hI.usable_count, hI.free_count, fun q hq => ?_,
    hI.free_memory, L, ?_⟩
  · show r.test q = true
    rw [hr.test_eq]
    split_ifs
    · rfl
    · exact hI.free_usable q hq
  · have hc1 : Core N h.globals.freeSet L ⟨h.memory, { h.globals with usablePages := r }⟩ :=
      ⟨hc.blocks, ⟨hc.lists.linked, hc.lists.class_eq⟩, hc.bits.congr (fun _ _ => rfl) fun _ _ => rfl⟩
    exact hc1.of_sync hI.le_window hF rfl hst

/-- If the body returns, the rounded bounds of the entry are in order, and the first of them is below
the end of the kernel window: behind it the pointer would be `NULL`. -/
theorem seedEntryBy_bounds (hsync : Syncs P S sync) {available : ℤ} {e : MMapEnt}
    {Q : ℤ → Heap → Prop} (hw : e.ptr.toNat + e.size.toNat ≤ 4096 * windowPages)
    (hwp : wp (seedEntryBy sync e available) Q h) :
    firstPage e ≤ lastPage e ∧ firstPage e < windowPages := by
  rw [wp_seedEntryBy_iff hw] at hwp
  have hmark := hsync.wp_of_sync hwp
  simp only [setUsablePages, wp_bind, wp_get] at hmark
  have hle := le_of_wp_setRange hmark
  refine ⟨hle, ?_⟩
  by_contra hge
  have hfirst : firstPage e = windowPages := by
    unfold lastPage at hle
    omega
  obtain ⟨_, h1, -, hrel⟩ := hwp
  rw [hfirst, pagePtr_windowPages, releasePagesBy, pageOfPtr, wp_bind, wp_bind, wp_assert] at hrel
  exact hrel.1 rfl

/-- **Step lemma**: the pages of one more entry are added. -/
theorem wp_seedEntryBy (hsync : Syncs P S sync) {done : List MMapEnt} {available : ℤ} {e : MMapEnt}
    (hs : Stocked N done available h) (hN : e.ptr.toNat + e.size.toNat ≤ 4096 * N)
    (hdis : ∀ f ∈ done, Disjoint e.bytes f.bytes) (hle : firstPage e ≤ lastPage e)
    (hp : firstPage e < windowPages) (hP : wholePages (e :: done) ⊆ P)
    (hS : S h.globals.bitSet h.memory) :
    wp (seedEntryBy sync e available) (fun available' h' => S h'.globals.bitSet h'.memory ∧
      Stocked N (e :: done) available' h') h := by
  have hI := hs.inv
  have hwin := hI.le_window
  have hlast : lastPage e ≤ N := by
    unfold lastPage
    omega
  obtain ⟨c, hc⟩ := Nat.exists_eq_add_of_le hle
  have hpages : e.wholePages = Set.Ico (firstPage e) (firstPage e + c) := by
    rw [e.wholePages_eq, hc]
  have hfree := hs.not_free hdis
  rw [hpages] at hfree
  have hfreeP : h.globals.freeSet ⊆ P := by
    rw [hs.freeSet]
    exact fun p hp => hP (wholePages_cons e done ▸ Or.inr hp)
  rw [wp_seedEntryBy_iff (by omega), hc, Nat.add_sub_cancel_left]
  rw [hc] at hlast
  have hcount : ((firstPage e + c : ℕ) : ℤ) ≤ h.globals.usablePages.count := by
    rw [hI.usable_count]
    exact_mod_cast hlast
  refine wp_mono (hsync.wp_setRange (wp_setUsablePages (Nat.le_add_right _ c) hcount true)
    (fun r hr => changed_setUsablePages _ (hr.changed hcount)) hS) ?_
  rintro _ h1 ⟨hS1, ⟨r, hr, hg1⟩, hst1⟩
  have hfreeSet1 : h1.globals.freeSet = wholePages done := by
    rw [hg1, ← hs.freeSet]
    rfl
  have husable : ∀ q, h1.globals.usablePages.test q = true ↔ q ∈ wholePages (e :: done) := by
    intro q
    rw [hg1, wholePages_cons, Set.mem_union, hpages, Set.mem_Ico, ← hs.usable q]
    show r.test q = true ↔ _
    rw [hr.test_eq]
    split_ifs with hin <;> simp [hin]
  refine wp_mono (wp_releasePagesBy hsync (inv_of_usable hI hr hg1 hfreeP hst1) hlast hp ?_ ?_ ?_ hS1) ?_
  · intro q hq
    exact (husable q).2 (wholePages_cons e done ▸ Or.inl (hpages ▸ hq))
  · rw [hfreeSet1, ← hs.freeSet]
    exact hfree
  · rw [hfreeSet1, ← hpages, Set.union_comm, ← wholePages_cons]
    exact hP
  · rintro _ h2 ⟨hS2, hadded⟩
    refine ⟨hS2, hadded.inv, ?_, fun q => ?_, ?_⟩
    · rw [hadded.freeSet, hfreeSet1, ← hpages, Set.union_comm, wholePages_cons]
    · rw [hadded.usablePages]
      exact husable q
    · rw [hadded.freeMemory, hg1, ← hs.freeMemory]

/-! ### The whole loop -/

/-- There is a page boundary in the entry or at its end, below the end of the kernel window. -/
def MMapEnt.HasBoundary (e : MMapEnt) : Prop :=
  ∃ k < windowPages, e.ptr.toNat ≤ 4096 * k ∧ 4096 * k ≤ e.ptr.toNat + e.size.toNat

theorem hasBoundary_iff (e : MMapEnt) :
    e.HasBoundary ↔ firstPage e ≤ lastPage e ∧ firstPage e < windowPages := by
  unfold MMapEnt.HasBoundary firstPage lastPage
  constructor
  · rintro ⟨k, hk, h1, h2⟩
    omega
  · rintro ⟨hle, hlt⟩
    exact ⟨_, hlt, by omega, by omega⟩

/-- **Run lemma**: the loop over the rest of the entries, each with a page boundary. -/
theorem wp_seedEntriesBy (hsync : Syncs P S sync) {entries done : List MMapEnt} {available : ℤ}
    (hs : Stocked N done available h) (hN : ∀ e ∈ entries, e.ptr.toNat + e.size.toNat ≤ 4096 * N)
    (hdis : entries.Pairwise fun e f => Disjoint e.bytes f.bytes)
    (hdone : ∀ e ∈ entries, ∀ f ∈ done, Disjoint e.bytes f.bytes)
    (hbound : ∀ e ∈ entries, e.HasBoundary) (hP : wholePages (entries.reverse ++ done) ⊆ P)
    (hS : S h.globals.bitSet h.memory) :
    wp (seedEntriesBy sync entries available) (fun available' h' =>
      S h'.globals.bitSet h'.memory ∧ Stocked N (entries.reverse ++ done) available' h') h := by
  induction entries generalizing done available h with
  | nil =>
    rw [seedEntriesBy, wp_pure]
    exact ⟨hS, hs⟩
  | cons e entries ih =>
    rw [List.pairwise_cons] at hdis
    rw [List.reverse_cons, List.append_assoc, List.singleton_append] at hP ⊢
    obtain ⟨hle, hp⟩ := (hasBoundary_iff e).1 (hbound e (by simp))
    have hP1 : wholePages (e :: done) ⊆ P := by
      rintro p ⟨f, hf, hpf⟩
      exact hP ⟨f, List.mem_append_right _ hf, hpf⟩
    rw [seedEntriesBy, wp_bind]
    refine wp_mono (wp_seedEntryBy hsync hs (hN e (by simp)) (hdone e (by simp)) hle hp hP1 hS) ?_
    rintro a h1 ⟨hS1, hs1⟩
    refine ih hs1 (fun f hf => hN f (by simp [hf])) hdis.2 ?_ (fun f hf => hbound f (by simp [hf]))
      hP hS1
    intro f hf g hg
    rcases List.mem_cons.1 hg with rfl | hg
    · exact (hdis.1 f hf).symm
    · exact hdone f (by simp [hf]) g hg

/-- A loop that returns went over entries with a page boundary only. -/
theorem hasBoundary_of_seedEntriesBy (hsync : Syncs P S sync) {entries : List MMapEnt}
    {available available' : ℤ}
    (hw : ∀ e ∈ entries, e.ptr.toNat + e.size.toNat ≤ 4096 * windowPages)
    (hrun : seedEntriesBy sync entries available h = Except.ok (available', h')) :
    ∀ e ∈ entries, e.HasBoundary := by
  induction entries generalizing available h with
  | nil => simp
  | cons e entries ih =>
    obtain ⟨a, h1, hentry, hrest⟩ := of_bind_eq_ok hrun
    intro f hf
    rcases List.mem_cons.1 hf with rfl | hf
    · have hwp : wp (seedEntryBy sync f available) (fun _ _ => True) h := wp_of_run hentry trivial
      exact (hasBoundary_iff f).2 (seedEntryBy_bounds hsync (hw f (by simp)) hwp)
    · exact ih (fun g hg => hw g (by simp [hg])) hrest f hf

/-! ### The state after the loop -/

/-- The free lists and the buddy bits of `h` are those of the coalesced blocks of the page set `P`: a
block is listed exactly when it is aligned, inside `P`, and of the top class or inside a larger block
that is not inside `P`; a buddy bit is set when exactly one of the two blocks is listed. -/
structure Canonical (P : Set ℕ) (h : Heap) : Prop where
  inFreelist : ∀ k < classCount, ∀ b, InFreelist h k b ↔ 2 ^ k ∣ b ∧
    (∀ q ∈ Set.Ico b (b + 2 ^ k), q ∈ P) ∧
    (k = classCount - 1 ∨ ¬ ∀ q ∈ Set.Ico (b / 2 ^ (k + 1) * 2 ^ (k + 1))
      (b / 2 ^ (k + 1) * 2 ^ (k + 1) + 2 ^ (k + 1)), q ∈ P)
  buddies : ∀ k < classCount - 1, ∀ i, (h.globals.classes k).buddies.test i = true ↔
    Xor (InFreelist h k (2 * i * 2 ^ k)) (InFreelist h k ((2 * i + 1) * 2 ^ k))

theorem canonical_of_inv (hI : Inv N h) : Canonical h.globals.freeSet h := by
  obtain ⟨L, hc⟩ := hI.core
  refine ⟨fun k hk b => ?_, fun k hk i => ?_⟩
  · rw [inFreelist_iff hI hc hk]
    exact hc.mem_iff hk
  · have hk' : k < classCount := by omega
    rw [hc.bits.test_iff k hk, inFreelist_iff hI hc hk', inFreelist_iff hI hc hk']
    rfl

theorem Stocked.available_eq {done : List MMapEnt} {available : ℤ}
    (hs : Stocked N done available h) : available = 4096 * ((wholePages done).ncard : ℤ) := by
  have hcoe : ((h.globals.freeFinset N : Finset ℕ) : Set ℕ) = wholePages done := by
    rw [← hs.freeSet]
    ext p
    rw [Finset.mem_coe, mem_freeFinset]
    exact ⟨fun hp => hp.2, fun hp => ⟨hs.inv.lt_of_free hp, hp⟩⟩
  rw [← hs.freeMemory, hs.inv.free_memory, ← hcoe, Set.ncard_coe_finset]

theorem Stocked.reverse {entries : List MMapEnt} {available : ℤ}
    (hs : Stocked N (entries.reverse ++ []) available h) : Stocked N entries available h := by
  obtain ⟨hI, hfree, husable, hmem⟩ := hs
  rw [wholePages_reverse] at hfree husable
  exact ⟨hI, hfree, husable, hmem⟩

/-- The checks after the loop succeed. -/
theorem seedBy_eq_ok {entries : List MMapEnt} {available : ℤ} {fuel : ℕ}
    (hrun : seedEntriesBy sync entries 0 h = Except.ok (available, h'))
    (hs : Stocked N entries available h') (hfuel : N < fuel) :
    seedBy sync entries fuel h = Except.ok (available, h') := by
  apply eq_ok_of_wp
  simp only [seedBy, wp_bind, wp_get, wp_assert, wp_pure]
  refine wp_of_run hrun ⟨hs.freeMemory.symm, wp_mono (wp_validateHeap hs.inv hfuel) ?_⟩
  rintro _ h1 rfl
  exact ⟨rfl, rfl⟩

end Sync

/-! ### Bit sets apart from memory -/

/-- The state after the entries `done` is also one of the allocator's runs. -/
structure Seeded (N : ℕ) (done : List MMapEnt) (available : ℤ) (h : Heap) : Prop
    extends Stocked N done available h where
  reachable : Reachable N h

theorem seeded_nil (hd : 4096 ∣ N) (hw : N ≤ windowPages) (m : Memory) :
    Seeded N [] 0 (zeroedHeap N (fun _ => 0#64) m) := ⟨stocked_nil hd hw m, .init hd hw _ m⟩

/-- The state after the pages of an entry were marked as usable is the one that a call of
`unsafe_mark_memory_usability` leaves. -/
theorem mark_exec (hI : Inv N h) {p c : ℕ} (hpc : p + c ≤ N) (hp : p < windowPages)
    (hfree : ∀ q ∈ Set.Ico p (p + c), q ∉ h.globals.freeSet)
    (hset : setUsablePages p ((p + c : ℕ) : ℤ) true h = Except.ok ((), h')) :
    (Op.mark p c true).exec h = Except.ok (⟨0#64, 0⟩, h') := by
  apply eq_ok_of_wp
  simp only [Op.exec, wp_bind, wp_unsafeMarkMemoryUsability_iff hI hpc hp hfree, wp_pure]
  exact wp_of_run hset ⟨trivial, rfl⟩

/-- **Step lemma**: marking and releasing are two calls of a run of the allocator. -/
theorem seedEntry_seeded {done : List MMapEnt} {available available' : ℤ} {e : MMapEnt}
    (hs : Seeded N done available h) (hN : e.ptr.toNat + e.size.toNat ≤ 4096 * N)
    (hdis : ∀ f ∈ done, Disjoint e.bytes f.bytes)
    (hrun : seedEntryBy id e available h = Except.ok (available', h')) :
    Seeded N (e :: done) available' h' := by
  have hI := hs.inv
  have hwin := hI.le_window
  have hwp : wp (seedEntryBy id e available) (fun _ h1 => h1 = h') h := wp_of_run hrun rfl
  obtain ⟨hle, hp⟩ := seedEntryBy_bounds (syncs_id Set.univ h.memory) (by omega) hwp
  have hstep := wp_run hrun (wp_seedEntryBy (syncs_id _ h.memory) hs.toStocked hN hdis hle hp subset_rfl
    (.refl _ _))
  refine ⟨hstep.2, ?_⟩
  rw [wp_seedEntryBy_iff (by omega)] at hwp
  obtain ⟨c, hc⟩ := Nat.exists_eq_add_of_le hle
  have hcN : firstPage e + c ≤ N := by
    rw [← hc, lastPage]
    omega
  have hfree := hs.not_free hdis
  rw [e.wholePages_eq, hc] at hfree
  rw [hc, Nat.add_sub_cancel_left] at hwp
  obtain ⟨_, h1, hset, _, h2, hrelease, rfl⟩ := hwp
  have hmark := mark_exec hI hcN hp hfree hset
  have ha1 : (Op.mark (firstPage e) c true).Allowed N h := ⟨hp, hcN, hfree⟩
  have hr1 := hs.reachable.step ha1 hmark
  have hmarked : Marked N (firstPage e) c true h h1 := hs.reachable.effect ha1 hmark
  have ha2 : (Op.release (firstPage e) c).Allowed N h1 := by
    refine ⟨hp, hcN, fun q hq => ⟨?_, ?_⟩⟩
    · rw [hmarked.usable.test_eq, if_pos (Set.mem_Ico.1 hq)]
    · rw [hmarked.freeSet]
      exact hfree q hq
  have hexec : (Op.release (firstPage e) c).exec h1 = Except.ok (⟨0#64, 0⟩, h2) := by
    apply eq_ok_of_wp
    simp only [Op.exec, wp_bind, wp_pure]
    exact wp_of_run hrelease ⟨trivial, rfl⟩
  exact hr1.step ha2 hexec

/-- **Run lemma**: the loop over the rest of the entries. -/
theorem seedEntries_seeded {entries done : List MMapEnt} {available available' : ℤ}
    (hs : Seeded N done available h)
    (hN : ∀ e ∈ entries, e.ptr.toNat + e.size.toNat ≤ 4096 * N)
    (hdis : entries.Pairwise fun e f => Disjoint e.bytes f.bytes)
    (hdone : ∀ e ∈ entries, ∀ f ∈ done, Disjoint e.bytes f.bytes)
    (hrun : seedEntries entries available h = Except.ok (available', h')) :
    Seeded N (entries.reverse ++ done) available' h' := by
  induction entries generalizing done available h with
  | nil =>
    cases hrun
    exact hs
  | cons e entries ih =>
    rw [List.pairwise_cons] at hdis
    obtain ⟨a, h1, hentry, hrest⟩ := of_bind_eq_ok hrun
    have hs1 := seedEntry_seeded hs (hN e (by simp)) (hdone e (by simp)) hentry
    have hs2 := ih hs1 (fun f hf => hN f (by simp [hf])) hdis.2 ?_ hrest
    · simpa using hs2
    · intro f hf g hg
      rcases List.mem_cons.1 hg with rfl | hg
      · exact (hdis.1 f hf).symm
      · exact hdone f (by simp [hf]) g hg

/-- **The seeding**, from an allocator without pages: it runs to its end if every entry has a page
boundary, and stores to the pages it releases only. -/
theorem exists_seedEntries (hd : 4096 ∣ N) (hw : N ≤ windowPages) (m : Memory)
    {entries : List MMapEnt} (hdis : entries.Pairwise fun e f => Disjoint e.bytes f.bytes)
    (hN : ∀ e ∈ entries, e.ptr.toNat + e.size.toNat ≤ 4096 * N)
    (hbound : ∀ e ∈ entries, e.HasBoundary) :
    ∃ available h, seedEntries entries 0 (zeroedHeap N (fun _ => 0#64) m) = Except.ok (available, h) ∧
      Stocked N entries available h ∧ Reachable N h ∧
      Memory.StoresIn (InPages (· ∈ wholePages entries)) m h.memory := by
  have hwp := wp_seedEntriesBy (syncs_id (wholePages (entries.reverse ++ [])) m) (stocked_nil hd hw m) hN
    hdis (by simp) hbound subset_rfl (.refl _ _)
  obtain ⟨available, h, hrun, hst, hs⟩ := hwp
  rw [wholePages_reverse] at hst
  have hseeded := seedEntries_seeded (seeded_nil hd hw m) hN hdis (by simp) hrun
  exact ⟨available, h, hrun, hs.reverse, hseeded.reachable, hst⟩

/-! ### When the loop runs to its end -/

/-- The loop returns, and the pages that lie wholly in an entry have become free. -/
def SeedsAll (N : ℕ) (m : Memory) (entries : List MMapEnt) : Prop :=
  ∃ available h, seedEntries entries 0 (zeroedHeap N (fun _ => 0#64) m) = Except.ok (available, h) ∧
    ∀ p, h.globals.freePages.test p = true ↔ p ∈ wholePages entries

theorem hasBoundary_of_seedEntries {entries : List MMapEnt} {available available' : ℤ}
    (hw : ∀ e ∈ entries, e.ptr.toNat + e.size.toNat ≤ 4096 * windowPages)
    (hrun : seedEntries entries available h = Except.ok (available', h')) :
    ∀ e ∈ entries, e.HasBoundary :=
  hasBoundary_of_seedEntriesBy (syncs_id Set.univ h.memory) hw hrun

/-- **The seeding loop runs to its end** exactly if every entry has a page boundary. -/
theorem seeding_never_panics_iff (hd : 4096 ∣ N) (hw : N ≤ windowPages) (m : Memory)
    (entries : List MMapEnt) (hdis : entries.Pairwise fun e f => Disjoint e.bytes f.bytes)
    (hN : ∀ e ∈ entries, e.ptr.toNat + e.size.toNat ≤ 4096 * N) :
    SeedsAll N m entries ↔ ∀ e ∈ entries, e.HasBoundary := by
  constructor
  · rintro ⟨available, h, hrun, -⟩
    exact hasBoundary_of_seedEntries (fun e he => (hN e he).trans (Nat.mul_le_mul_left _ hw)) hrun
  · intro hbound
    obtain ⟨available, h, hrun, hs, -⟩ := exists_seedEntries hd hw m hdis hN hbound
    exact ⟨available, h, hrun, Set.ext_iff.1 hs.freeSet⟩

/-- An entry that ends at a boundary and has no whole page is passed over. -/
theorem seeding_never_panics_boundary :
    SeedsAll 4096 ⟨fun _ => 0#64, []⟩ [⟨0x1800#64, 0x800#64⟩] :=
  (seeding_never_panics_iff (by decide) (by decide) _ _ (List.pairwise_singleton _ _) (by decide)).2
    (by
      intro e he
      rw [List.mem_singleton.1 he]
      exact ⟨2, by decide, by decide, by decide⟩)

/-- The bytes from `0x1100` to `0x1200`: the start is rounded up to page 2 and the end down to page 1. -/
theorem seeding_panics : ¬ SeedsAll 4096 ⟨fun _ => 0#64, []⟩ [⟨0x1100#64, 0x100#64⟩] := by
  rintro ⟨available, h, hrun, -⟩
  obtain ⟨k, -, h1, h2⟩ := hasBoundary_of_seedEntries (by decide) hrun ⟨0x1100#64, 0x100#64⟩ (by simp)
  simp only [BitVec.reduceToNat] at h1 h2
  omega

end Dumboss.Boot
