import Dumboss.PageTable.Demand
import Dumboss.PageTable.Dispose

/-!
# `destroy_table`

`destroy_table` gives the pages of all tables back to the buddy allocator, children first.

* `destroyTableInner`, `destroyTable`;
* `Freed`: some of the pages were given back;
* `destroyTableInner_eq`: the walk is `destroyWith`; `wp_destroyTable`: it gives back all tables;
* `destroyTable_restores`: whatever was mapped before, the allocator is as it was before the p4 table
  was allocated.
-/

namespace Dumboss.PageTable

open Prog Runs

/-- `release_pages(table, 1)`. -/
def releasePage (table : U64) : Kern (Kernel MemGlobals) Unit := fun s =>
  match onHeap (releasePages table 1) (s.memory, s.source) with
  | .ok (_, m, g) =>
    .ok ((), { s with memory := m, source := g, released := table :: s.released })
  | .error e => .error e

/-- `destroy_table_inner`; the first argument is `level`. -/
def destroyTableInner : ℕ → U64 → U64 → Kern (Kernel MemGlobals) Unit
  | 0, _, _ => return ()
  | level + 1, table, entry => do
    if table = 0#64 then return ()
    if entry &&& pteHugePage ≠ 0#64 then return ()
    if 1 < level + 1 then
      (List.range 512).forM fun i => do
        let e ← loadEntry table i
        destroyTableInner level (← pteAddress e) e
    releasePage table

/-- `destroy_table`. -/
def destroyTable (p4 : U64) : Kern (Kernel MemGlobals) Unit := destroyTableInner 4 p4 0#64

/-! ### Giving pages back -/

variable {N : ℕ} {U : BitSet} {root : ℕ} {s₀ s s' : Kernel MemGlobals}

/-- From `s₀` to `s` the pages `pages` were given back, in this order. -/
structure Freed (N : ℕ) (U : BitSet) (s₀ s : Kernel MemGlobals) (pages : List ℕ) : Prop where
  sound : Sound N U s.memory s.source
  freeSet : ∀ p, p ∈ s.source.freeSet ↔ p ∈ s₀.source.freeSet ∨ p ∈ pages
  released : s.released = (pages.map pagePtr).reverse ++ s₀.released
  obtained : s.obtained = s₀.obtained
  word : ∀ p ∉ s₀.source.freeSet, p ∉ pages → p < windowPages → ∀ i < 512,
    s.memory.word p i = s₀.memory.word p i

theorem Freed.refl (hs : Sound N U s.memory s.source) : Freed N U s s [] where
  sound := hs
  freeSet := by simp
  released := rfl
  obtained := rfl
  word _ _ _ _ _ _ := rfl

theorem wp_releasePage {pages : List ℕ} {t : ℕ} (hf : Freed N U s₀ s pages) (hN : t < N)
    (husable : U.test t = true) (hfree : t ∉ s₀.source.freeSet) (hnew : t ∉ pages) :
    wp (releasePage (pagePtr t)) (fun _ s' => Freed N U s₀ s' (pages ++ [t])) s := by
  have hlt : t < windowPages := hN.trans_le hf.sound.inv.le_window
  have hIco : ∀ p, p ∈ Set.Ico t (t + 1) ↔ p = t := by
    intro p
    rw [Set.mem_Ico]
    omega
  have hrel : wp (onHeap (releasePages (pagePtr t) 1))
      (fun _ r => Released N t 1 ⟨s.memory, s.source⟩ ⟨r.1, r.2⟩) (s.memory, s.source) := by
    refine wp_onHeap (wp_releasePages (c := 1) hf.sound.inv (by omega) hlt ?_ ?_)
    · intro q hq
      rw [(hIco q).1 hq]
      change s.source.usablePages.test t = true
      rw [hf.sound.usablePages]
      exact husable
    · intro q hq
      rw [(hIco q).1 hq]
      change t ∉ s.source.freeSet
      rw [hf.freeSet]
      tauto
  obtain ⟨_, ⟨m, g⟩, hrun, hR⟩ := hrel
  have hset : ∀ p, p ∈ g.freeSet ↔ p ∈ s.source.freeSet ∨ p = t := by
    intro p
    rw [show g.freeSet = s.source.freeSet ∪ Set.Ico t (t + 1) from hR.freeSet, Set.mem_union, hIco]
  refine ⟨(), { s with memory := m, source := g, released := pagePtr t :: s.released }, ?_, ?_⟩
  · rw [releasePage, hrun]
  · refine ⟨⟨hR.inv, hR.usablePages.trans hf.sound.usablePages⟩, ?_, ?_, hf.obtained, ?_⟩
    · intro p
      change p ∈ g.freeSet ↔ _
      rw [hset, hf.freeSet, List.mem_append, List.mem_singleton, or_assoc]
    · change pagePtr t :: s.released = _
      rw [hf.released, List.map_append, List.reverse_append]
      rfl
    · intro p hp hnp hpw i hi
      rw [List.mem_append, List.mem_singleton, not_or] at hnp
      rw [← hf.word p hp hnp.1 hpw i hi]
      refine hR.stores.word_eq hpw hi ?_
      change p ∉ g.freeSet
      rw [hset, hf.freeSet]
      tauto

/-! ### The walk -/

theorem destroyTableInner_eq (level : ℕ) (table entry : U64) :
    destroyTableInner level table entry = destroyWith releasePage level table entry := by
  induction level generalizing table entry with
  | zero => rfl
  | succ level ih =>
    rw [destroyTableInner, destroyWith]
    simp only [ih]

/-- The tables of `root` can be given back. -/
structure Owned (N : ℕ) (U : BitSet) (root : ℕ) (s : Kernel MemGlobals) : Prop where
  tree : Tree s.memory root {p | p ∉ s.source.freeSet}
  lt : ∀ t, IsTable s.memory root t → t < N
  usable : ∀ t, IsTable s.memory root t → U.test t = true

theorem disposes_release (hO : Owned N U root s₀) : Disposes releasePage s₀.memory root
    (fun pages s => Freed N U s₀ s pages) where
  word hf ht hnew hi := by
    rw [isBbTable_iff hO.tree] at ht
    exact hf.word _ (hO.tree.mem_used ht) hnew (hO.tree.table_lt ht) _ hi
  dispose hf ht hnew := by
    rw [isBbTable_iff hO.tree] at ht
    exact wp_releasePage hf (hO.lt _ ht) (hO.usable _ ht) (hO.tree.mem_used ht) hnew

/-- `destroy_table` gives back exactly the tables. -/
theorem wp_destroyTable (hO : Owned N U root s) (hs : Sound N U s.memory s.source) :
    wp (destroyTable (pagePtr root))
      (fun _ s' => ∃ pages : List ℕ, Freed N U s s' pages ∧ pages.Nodup ∧
        ∀ p, p ∈ pages ↔ IsTable s.memory root p) s := by
  have hT := hO.tree.bbTree
  rw [destroyTable, destroyTableInner_eq]
  refine wp_mono (wp_destroyWith hT (disposes_release hO) (l := 3) (d := 0) (x := 0) rfl (by decide) rfl
    (by decide) (Freed.refl hs) (by simp)) ?_
  intro _ s' hf
  rw [List.nil_append] at hf
  refine ⟨_, hf, ?_, fun p => ?_⟩
  · exact Radix.nodup_postorder (x := 0) (by decide) hT.inj (by omega) (by decide) rfl
  · rw [← isBbTable_iff hO.tree]
    exact Radix.mem_postorder_root (by decide) p

/-! ### The whole life of a page table -/

/-- The events of a run whose calls do not overlap a 2MB page; nothing else happens. -/
def NoOverlap2MB {ρ : Type} (root : ℕ) (s : Kernel ρ) : Event ρ → Prop
  | .call c => c.Legal ∧ c.Apart2MB s.memory root
  | .other _ => False

/-- Since the state `h` of the allocator the pages of `s.obtained` were handed out, and all of them are
tables of `root`. -/
structure Accounted (h : Heap) (root : ℕ) (s : Kernel MemGlobals) : Prop where
  tables : ∀ t, IsTable s.memory root t ↔ t ∈ pagesOf s.obtained
  nodup : (pagesOf s.obtained).Nodup
  was_free : ∀ t ∈ pagesOf s.obtained, t ∈ h.globals.freeSet
  freeSet : ∀ p, p ∈ s.source.freeSet ↔ p ∈ h.globals.freeSet ∧ p ∉ pagesOf s.obtained
  ptr : ∀ x ∈ s.obtained, x ≠ 0#64 → ∃ q, q < windowPages ∧ x = pagePtr q
  released : s.released = []

/-- The p4 table was allocated. -/
theorem accounted_start {h : Heap} (hs : Sound N U h.memory h.globals) {p4 : U64}
    (halloc : zeroedPage (allocator N U) ⟨h.memory, h.globals, [], []⟩ = Except.ok (p4, s))
    (hp4 : p4 ≠ 0#64) : ∃ root, root < windowPages ∧ p4 = pagePtr root ∧
      Start (allocator N U) root s ∧ Accounted h root s := by
  obtain ⟨hv, hfresh, hgot, hrel⟩ := wp_run halloc (wp_zeroedPage hs)
  obtain ⟨root, hroot, hfree, rfl, hused, hzero⟩ := hfresh.page.resolve_left fun hc => hp4 hc.1
  have hpages : ∀ t, t ∈ pagesOf s.obtained ↔ t = root := by
    rw [hgot]
    simp [pagesOf_pagePtr hroot]
  have hfree' : root ∈ h.globals.freeSet := not_not.1 hfree
  refine ⟨root, hroot, rfl, ⟨hroot, ?_, hzero, hv⟩, ⟨?_, ?_, ?_, ?_, ?_, hrel⟩⟩
  · rw [hused]
    exact Set.mem_insert _ _
  · intro t
    rw [isTable_of_zero hzero, hpages]
  · rw [hgot]
    change (pagesOf [pagePtr root]).Nodup
    rw [pagesOf_pagePtr hroot]
    exact List.nodup_singleton root
  · intro t ht
    rw [hpages] at ht
    exact ht ▸ hfree'
  · intro p
    have hiff : p ∉ s.source.freeSet ↔ p = root ∨ p ∉ h.globals.freeSet := Set.ext_iff.1 hused p
    rw [hpages]
    tauto
  · intro x hx _
    rw [hgot] at hx
    exact ⟨root, hroot, List.mem_singleton.1 hx⟩

/-- A call obtains pages for tables only. -/
theorem Accounted.grow {h : Heap} {got : List U64} (hA : Accounted h root s)
    (hg : Grown (allocator N U) root s s' got) : Accounted h root s' := by
  have hfresh : ∀ q ∈ pagesOf got, q ∈ s.source.freeSet := fun q hq => not_not.1 (hg.fresh q hq)
  refine ⟨?_, ?_, ?_, ?_, ?_, hg.released.trans hA.released⟩
  · intro t
    rw [hg.isTable, hA.tables, hg.obtained, pagesOf_append, List.mem_append, or_comm]
  · rw [hg.obtained, pagesOf_append]
    refine hg.nodup.append hA.nodup ?_
    intro q hq hq'
    exact ((hA.freeSet q).1 (hfresh q hq)).2 hq'
  · intro t ht
    rw [hg.obtained, pagesOf_append, List.mem_append] at ht
    rcases ht with ht | ht
    · exact ((hA.freeSet t).1 (hfresh t ht)).1
    · exact hA.was_free t ht
  · intro p
    have hiff : p ∉ s'.source.freeSet ↔ p ∉ s.source.freeSet ∨ p ∈ pagesOf got := hg.used p
    have hfree := hA.freeSet p
    rw [hg.obtained, pagesOf_append, List.mem_append]
    tauto
  · intro x hx
    rw [hg.obtained, List.mem_append] at hx
    rcases hx with hx | hx
    · exact hg.ptr x hx
    · exact hA.ptr x hx

/-- **Run lemma**: after any calls the pages obtained are the tables. -/
theorem reachable_accounted {h : Heap} (h0 : Start (allocator N U) root s₀)
    (hA : Accounted h root s₀)
    (hr : Reach (step (allocator N U) (pagePtr root)) (NoOverlap2MB root) s₀ s) :
    Built (allocator N U) root s ∧ Accounted h root s := by
  refine hr.invariant (P := fun s => Built (allocator N U) root s ∧ Accounted h root s)
    ⟨h0.built, hA⟩ ?_
  rintro s e s' ⟨hB, hA⟩ hgood hstep
  cases e with
  | call c =>
    obtain ⟨got, n, f, j, hadd⟩ := added_of_step_call hB hgood.1 hgood.2.guard hstep
    exact ⟨hadd.built, hA.grow hadd.grown⟩
  | other s₁ => exact hgood.elim

/-- The tables can be given back: their pages were free before. -/
theorem Accounted.owned {h : Heap} (hI : Inv N h) (hB : Built (allocator N U) root s)
    (hA : Accounted h root s) : Owned N h.globals.usablePages root s where
  tree := hB.tree
  lt t ht := hI.lt_of_free (hA.was_free t ((hA.tables t).1 ht))
  usable t ht := hI.free_usable t (hA.was_free t ((hA.tables t).1 ht))

/-- The pointers that were not `NULL` are the pointers to the pages. -/
theorem map_pagesOf {ptrs : List U64}
    (h : ∀ x ∈ ptrs, x ≠ 0#64 → ∃ q, q < windowPages ∧ x = pagePtr q) :
    (pagesOf ptrs).map pagePtr = ptrs.filter (· ≠ 0#64) := by
  rw [pagesOf, List.map_map]
  conv_rhs => rw [← List.map_id (ptrs.filter (· ≠ 0#64))]
  refine List.map_congr_left ?_
  intro x hx
  obtain ⟨hx, h0⟩ := List.mem_filter.1 hx
  obtain ⟨q, hq, rfl⟩ := h x hx (by simpa using h0)
  rw [Function.comp_apply, pageOf_pagePtr hq]
  rfl

/-- The count of free memory depends on the free pages only. -/
theorem freeMemory_eq {h h' : Heap} (hI : Inv N h) (hI' : Inv N h')
    (hF : h'.globals.freeSet = h.globals.freeSet) :
    h'.globals.freeMemory = h.globals.freeMemory := by
  have hset : h'.globals.freeFinset N = h.globals.freeFinset N := by
    ext p
    rw [mem_freeFinset, mem_freeFinset, hF]
  rw [hI.free_memory, hI'.free_memory, hset]

/-- The allocator is as it was before the p4 table was allocated. -/
theorem exists_destroyed {h : Heap} (hI : Inv N h) (hB : Built (allocator N U) root s)
    (hU : h.globals.usablePages = U) (hA : Accounted h root s) :
    ∃ s', destroyTable (pagePtr root) s = Except.ok ((), s') ∧
      s'.released.Perm (s.obtained.filter (· ≠ 0#64)) ∧ s'.released.Nodup ∧
      s'.source.freeSet = h.globals.freeSet ∧ s'.source.freeMemory = h.globals.freeMemory := by
  subst hU
  obtain ⟨_, s', hdestroy, pages, hF, hnodup, hmem⟩ :=
    wp_destroyTable (hA.owned hI hB) hB.valid
  have hperm : pages.Perm (pagesOf s.obtained) := by
    rw [List.perm_ext_iff_of_nodup hnodup hA.nodup]
    intro p
    rw [hmem, hA.tables]
  have hrel : s'.released = (pages.map pagePtr).reverse := by
    rw [hF.released, hA.released, List.append_nil]
  have hrelperm : s'.released.Perm (s.obtained.filter (· ≠ 0#64)) := by
    rw [hrel, ← map_pagesOf hA.ptr]
    exact (List.reverse_perm _).trans (hperm.map pagePtr)
  have hfreeSet : s'.source.freeSet = h.globals.freeSet := by
    ext p
    have hback := hA.was_free p
    rw [hF.freeSet, hA.freeSet, hmem, hA.tables]
    tauto
  refine ⟨s', hdestroy, hrelperm, ?_, hfreeSet, freeMemory_eq hI hF.sound.inv hfreeSet⟩
  rw [hrel, List.nodup_reverse]
  refine hnodup.map_on ?_
  intro a ha b hb hab
  have hlt : ∀ q ∈ pages, q < windowPages := fun q hq => hB.tree.table_lt ((hmem q).1 hq)
  exact pagePtr_inj (hlt a ha) (hlt b hb) hab

/-- **Page tables leak nothing and free nothing twice.**  Take a p4 table from the allocator, make any
calls that do not overlap a 2MB page, and destroy the table: the pages given back are those that were
obtained, each once, a mapped frame is not among them unless it is one of the tables itself, and the
free pages and the count of free memory are as before. -/
theorem destroyTable_restores {h : Heap} (hr : Reachable N h) {p4 : U64}
    {s₁ s : Kernel MemGlobals}
    (halloc : zeroedPage (allocator N h.globals.usablePages) ⟨h.memory, h.globals, [], []⟩ =
      Except.ok (p4, s₁)) (hp4 : p4 ≠ 0#64)
    (hrun : Reach (step (allocator N h.globals.usablePages) p4) (NoOverlap2MB (pageOf p4)) s₁ s) :
    ∃ s', destroyTable p4 s = Except.ok ((), s') ∧
      s'.released.Perm (s.obtained.filter (· ≠ 0#64)) ∧ s'.released.Nodup ∧
      (∀ w a, translate p4 w s = Except.ok (a, s) → a ∉ s.obtained → a ∉ s'.released) ∧
      s'.source.freeSet = h.globals.freeSet ∧ s'.source.freeMemory = h.globals.freeMemory := by
  obtain ⟨root, hroot, rfl, h0, hA₁⟩ := accounted_start (Sound.of_reachable hr) halloc hp4
  rw [pageOf_pagePtr hroot] at hrun
  obtain ⟨hB, hA⟩ := reachable_accounted h0 hA₁ hrun
  obtain ⟨s', hdestroy, hperm, hnodup, hfreeSet, hfreeMemory⟩ := exists_destroyed hr.inv hB rfl hA
  refine ⟨s', hdestroy, hperm, hnodup, ?_, hfreeSet, hfreeMemory⟩
  intro w a _ ha hrela
  exact ha (List.mem_filter.1 (hperm.mem_iff.1 hrela)).1

/-- Of five free pages one is the p4 table. -/
theorem exists_p4 : ∃ (h : Heap) (root : ℕ) (s : Kernel MemGlobals), Reachable 4096 h ∧
    h.globals.freeSet = Set.Ico 3 8 ∧ root < windowPages ∧
    zeroedPage (allocator 4096 h.globals.usablePages) ⟨h.memory, h.globals, [], []⟩ =
      Except.ok (pagePtr root, s) ∧
    Start (allocator 4096 h.globals.usablePages) root s ∧ Accounted h root s ∧
    3 ≤ s.source.freeSet.ncard := by
  obtain ⟨h, hr, hF, -⟩ := exists_reachable_released (p := 3) (c := 5) (N := 4096) (by decide)
    (by decide) (by decide) (by decide) ⟨fun _ => 0#64, []⟩
  have hs := Sound.of_reachable hr
  obtain ⟨p4, ⟨m, g⟩, hz, hnull⟩ := wp_onHeap
    (Q := fun ptr _ => ptr = 0#64 → h.globals.freeSet = ∅)
    (wp_mono (wp_zeroedPages_one hs) fun _ _ h => h.2)
  have hp4 : p4 ≠ 0#64 := by
    intro h0
    have hempty := hnull h0
    rw [hF, Set.Ico_eq_empty_iff] at hempty
    omega
  have halloc : zeroedPage (allocator 4096 h.globals.usablePages) ⟨h.memory, h.globals, [], []⟩ =
      Except.ok (p4, ⟨m, g, [p4], []⟩) := zeroedPage_eq hz
  obtain ⟨root, hroot, rfl, h0, hA⟩ := accounted_start hs halloc hp4
  refine ⟨h, root, _, hr, hF, hroot, halloc, h0, hA, ?_⟩
  have hrest : g.freeSet = Set.Ico 3 8 \ {root} := by
    ext p
    have hp := hA.freeSet p
    rw [hF, pagesOf_pagePtr hroot, List.mem_singleton] at hp
    exact hp
  have hcard := Set.ncard_le_ncard_sdiff_add_ncard (Set.Ico 3 8) {root} (Set.finite_singleton root)
  rw [Set.ncard_singleton, Set.ncard_eq_toFinset_card', Set.toFinset_Ico, Nat.card_Ico] at hcard
  change 3 ≤ g.freeSet.ncard
  rw [hrest]
  omega

/-- A page is mapped, and three more tables are needed for it. -/
theorem destroyTable_restores_five_pages : ∃ (h : Heap) (p4 : U64) (s : Kernel MemGlobals),
    h.globals.freeSet = Set.Ico 3 8 ∧ p4 ≠ 0#64 ∧
      ∃ s', destroyTable p4 s = Except.ok ((), s') ∧ s'.source.freeSet = Set.Ico 3 8 := by
  obtain ⟨h, root, s₁, hr, hF, hroot, halloc, h0, -⟩ := exists_p4
  have hlegal : (Call.page 0x1000#64 (pagePtr 9) 1#64).Legal :=
    ⟨kernelSpaceBegin_le_pagePtr (by decide), by decide, by decide, by decide⟩
  have hapart : (Call.page 0x1000#64 (pagePtr 9) 1#64).Apart2MB s₁.memory root :=
    Call.Apart.apart2MB fun i _ => frames_of_zero h0.zero _
  obtain ⟨r, s, hcall, -⟩ := wp_call h0.built hlegal hapart.guard
  have hstep : step (allocator 4096 h.globals.usablePages) (pagePtr root) s₁
      (.call (.page 0x1000#64 (pagePtr 9) 1#64)) = some s := by
    rw [step, hcall]
    rfl
  obtain ⟨s', hd, -, -, -, hfree, -⟩ := destroyTable_restores hr halloc (pagePtr_ne_zero hroot)
    (.tail .refl (by rw [pageOf_pagePtr hroot]; exact ⟨hlegal, hapart⟩) hstep)
  exact ⟨h, pagePtr root, s, hF, pagePtr_ne_zero hroot, s', hd, hfree.trans hF⟩

/-- The table maps its own p4 page at `0x1000`: a mapped frame is released. -/
theorem destroyTable_releases_mapped : ∃ (h : Heap) (p4 : U64) (s₁ s s' : Kernel MemGlobals),
    Reachable 4096 h ∧ p4 ≠ 0#64 ∧
      zeroedPage (allocator 4096 h.globals.usablePages) ⟨h.memory, h.globals, [], []⟩ =
        Except.ok (p4, s₁) ∧
      mapPage (allocator 4096 h.globals.usablePages) p4 0x1000#64 p4 1#64 s₁ = Except.ok (true, s) ∧
      Reach (step (allocator 4096 h.globals.usablePages) p4) (NoOverlap2MB (pageOf p4)) s₁ s ∧
      destroyTable p4 s = Except.ok ((), s') ∧
      translate p4 0x1000#64 s = Except.ok (p4, s) ∧ p4 ∈ s'.released := by
  obtain ⟨h, root, s₁, hr, hF, hroot, halloc, h0, hA, hcard⟩ := exists_p4
  have hlegal : (Call.page 0x1000#64 (pagePtr root) 1#64).Legal :=
    ⟨kernelSpaceBegin_le_pagePtr hroot, by decide, by decide, by decide⟩
  have hapart : (Call.page 0x1000#64 (pagePtr root) 1#64).Apart2MB s₁.memory root :=
    Call.Apart.apart2MB fun i _ => frames_of_zero h0.zero _
  obtain ⟨r, s, hcall, hmapping⟩ := wp_mapPage h0.built (v := 0x1000#64) hlegal.1 hlegal.2
    fun _ => guarded_of_hugeLeaf_eq_none (hapart 0 Nat.zero_lt_one)
  have hask := within_mapPage (dries_allocator (N := 4096) (U := h.globals.usablePages)) (pagePtr root)
    0x1000#64 (pagePtr root) 1#64 hcall
  rw [pageOf_pagePtr hroot] at hmapping
  have hstep : step (allocator 4096 h.globals.usablePages) (pagePtr root) s₁
      (.call (.page 0x1000#64 (pagePtr root) 1#64)) = some s := by
    rw [step, show (Call.page 0x1000#64 (pagePtr root) 1#64).run _ _ s₁ = _ from hcall]
    rfl
  have hrun : Reach (step (allocator 4096 h.globals.usablePages) (pagePtr root))
      (NoOverlap2MB root) s₁ s := by
    refine .tail (e := .call (.page 0x1000#64 (pagePtr root) 1#64)) .refl ?_ hstep
    exact ⟨hlegal, hapart⟩
  obtain ⟨hB, hA'⟩ := reachable_accounted h0 hA hrun
  obtain ⟨s', hdestroy, hperm, -⟩ := exists_destroyed hr.inv hB rfl hA'
  cases hmapping with
  | refused hno =>
    exact absurd ⟨⟨by decide, by decide, pagePtr_aligned hroot⟩, fun i _ => frames_of_zero h0.zero _⟩ hno
  | exhausted _ hadd hgot => exact absurd hgot (not_mem_null hadd.grown hask hcard).1
  | mapped _ hadd hgot =>
    refine ⟨h, pagePtr root, s₁, s, s', hr, pagePtr_ne_zero hroot, halloc, hcall, ?_, hdestroy, ?_, ?_⟩
    · rw [pageOf_pagePtr hroot]
      exact hrun
    · simpa using hadd.translate_eq (by decide) (by decide) (show 0 < 4096 * 1 by decide)
    · rw [hperm.mem_iff, List.mem_filter]
      refine ⟨?_, by simp [pagePtr_ne_zero hroot]⟩
      have hgot₁ := (wp_run halloc (wp_zeroedPage (Sound.of_reachable hr))).2.2.1
      rw [hadd.grown.obtained, hgot₁]
      simp

end Dumboss.PageTable
