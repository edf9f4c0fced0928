import Dumboss.PageTable.Destroy
import Dumboss.Allocator.Account

/-!
# Many address spaces

Any number of page tables and of other clients live on one buddy allocator.  Page tables are made,
filled by the map functions and destroyed; the clients allocate pages, write to the pages they hold, and
give them back.

* `Party`: who holds a page, a page table or a client; `System.share`: what it holds;
* `Step`: one call of one party; `SystemRun`: any calls of any parties, from any state of the allocator;
* `Effect`: what a step does, for every kind of step; `Effect.inv` the step lemma;
* `spaces_isolated`: no step changes the mapping of another page table or the memory of another client;
* `spaces_conserved`: every page is free or held by one party, and every page table can be destroyed.
-/

namespace Dumboss.PageTable

open Prog Shares

/-- Who holds a page; a page table goes by the page of its p4 table. -/
inductive Party
  | table (root : ℕ)
  | client (c : ℕ)
  deriving DecidableEq

/-- The kernel, the p4 tables there are, and what the clients hold. -/
structure System where
  kernel : Kernel MemGlobals
  roots : Set ℕ
  held : ℕ → Set ℕ

namespace System

def free (s : System) : Set ℕ := s.kernel.source.freeSet

/-- What a party holds: the pages of all its tables, or what a client has been given. -/
def share (s : System) : Party → Set ℕ
  | .table root => {t | root ∈ s.roots ∧ IsTable s.kernel.memory root t}
  | .client c => s.held c

end System

/-- A client gives back and writes to what it holds. -/
def Own (held : Set ℕ) : Op → Prop
  | .release p c => Set.Ico p (p + c) ⊆ held
  | .alloc _ _ => True
  | .zeroed _ => True
  | .mark _ _ _ => False
  | .write p _ _ => p ∈ held

/-- One call, and the party that makes it; nobody is the party of a p4 table that could not be had. -/
inductive Step (N : ℕ) (U : BitSet) (s : System) : Option Party → System → Prop
  | create {p4 : U64} {k : Kernel MemGlobals}
      (hrun : zeroedPage (allocator N U) s.kernel = Except.ok (p4, k)) (hp4 : p4 ≠ 0#64) :
      Step N U s (some (.table (pageOf p4))) ⟨k, insert (pageOf p4) s.roots, s.held⟩
  | createFails {k : Kernel MemGlobals}
      (hrun : zeroedPage (allocator N U) s.kernel = Except.ok (0#64, k)) :
      Step N U s none ⟨k, s.roots, s.held⟩
  | map {root : ℕ} {r : Bool} {k : Kernel MemGlobals} (c : Call) (hroot : root ∈ s.roots)
      (hlegal : c.Legal) (hapart : c.Apart2MB s.kernel.memory root)
      (hrun : c.run (allocator N U) (pagePtr root) s.kernel = Except.ok (r, k)) :
      Step N U s (some (.table root)) ⟨k, s.roots, s.held⟩
  | destroy {root : ℕ} {k : Kernel MemGlobals} (hroot : root ∈ s.roots)
      (hrun : destroyTable (pagePtr root) s.kernel = Except.ok ((), k)) :
      Step N U s (some (.table root)) ⟨k, s.roots \ {root}, s.held⟩
  | call {op : Op} {buf : Buffer} {h : Heap} (c : ℕ)
      (hallowed : op.Allowed N ⟨s.kernel.memory, s.kernel.source⟩) (hown : Own (s.held c) op)
      (hrun : op.exec ⟨s.kernel.memory, s.kernel.source⟩ = Except.ok (buf, h)) :
      Step N U s (some (.client c)) ⟨{ s.kernel with memory := h.memory, source := h.globals },
        s.roots, Function.update s.held c (op.holdings buf (s.held c))⟩

/-- No page tables, and clients that hold nothing. -/
def System.start (h : Heap) : System := ⟨⟨h.memory, h.globals, [], []⟩, ∅, fun _ => ∅⟩

/-- The states that steps lead to from the state `h₀` of the allocator. -/
inductive SystemRun (N : ℕ) (h₀ : Heap) : System → Prop
  | start : SystemRun N h₀ (.start h₀)
  | step {s s' : System} {a : Option Party} (hr : SystemRun N h₀ s)
      (hs : Step N h₀.globals.usablePages s a s') : SystemRun N h₀ s'

variable {N : ℕ} {U : BitSet} {S : Set ℕ} {s s' : System} {a : Option Party} {h₀ : Heap}

/-! ### What a step does -/

/-- How pages change hands. -/
inductive Moves (s s' : System) : Option Party → Prop
  | nothing (hfree : s'.free = s.free) : Moves s s' none
  | took {q : Party} (A : Set ℕ) (hA : A ⊆ s.free) (hfree : s'.free = s.free \ A)
      (hshare : s'.share q = s.share q ∪ A) : Moves s s' (some q)
  | gave {q : Party} (A : Set ℕ) (hA : A ⊆ s.share q) (hfree : s'.free = s.free ∪ A)
      (hshare : s'.share q = s.share q \ A) : Moves s s' (some q)

/-- What party `a` did. -/
structure Effect (N : ℕ) (U : BitSet) (s : System) (a : Option Party) (s' : System) : Prop where
  sound : Sound N U s'.kernel.memory s'.kernel.source
  /-- Pages in use that the party does not hold are not written. -/
  word : ∀ p ∉ s.free, (∀ q, a = some q → p ∉ s.share q) → p < windowPages → ∀ i < 512,
    s'.kernel.memory.word p i = s.kernel.memory.word p i
  built : ∀ root ∈ s'.roots, a = some (.table root) → Built (allocator N U) root s'.kernel
  roots_iff : ∀ root, a ≠ some (.table root) → (root ∈ s'.roots ↔ root ∈ s.roots)
  held_eq : ∀ c, a ≠ some (.client c) → s'.held c = s.held c
  moves : Moves s s' a

/-- **The invariant**: `S` is spread over the free pages and the shares of the parties. -/
structure SpacesInv (N : ℕ) (U : BitSet) (S : Set ℕ) (s : System) : Prop where
  sound : Sound N U s.kernel.memory s.kernel.source
  built : ∀ root ∈ s.roots, Built (allocator N U) root s.kernel
  split : Split S s.free s.share
  stock : ∀ p ∈ S, p < N ∧ U.test p = true

theorem SpacesInv.lt_window (hI : SpacesInv N U S s) {q : Party} {p : ℕ} (hp : p ∈ s.share q) :
    p < windowPages :=
  (hI.stock p (hI.split.share_subset q hp)).1.trans_le hI.sound.inv.le_window

theorem SpacesInv.not_free (hI : SpacesInv N U S s) {q : Party} {p : ℕ} (hp : p ∈ s.share q) :
    p ∉ s.free := Set.disjoint_left.1 (hI.split.pool_apart q) hp

/-- The pages of another party are not written. -/
theorem Effect.word_eq (he : Effect N U s a s') (hI : SpacesInv N U S s) {q : Party}
    (hq : a ≠ some q) {p : ℕ} (hp : p ∈ s.share q) {i : ℕ} (hi : i < 512) :
    s'.kernel.memory.word p i = s.kernel.memory.word p i := by
  refine he.word p (hI.not_free hp) ?_ (hI.lt_window hp) i hi
  rintro q' rfl hp'
  have hne : q' ≠ q := fun h => hq (congrArg some h)
  exact Set.disjoint_left.1 (hI.split.apart q' q hne) hp' hp

/-- Another page table is left alone. -/
theorem Effect.agree (he : Effect N U s a s') (hI : SpacesInv N U S s) {root : ℕ}
    (hroot : root ∈ s.roots) (ha : a ≠ some (.table root)) :
    Agree s.kernel.memory s'.kernel.memory root :=
  fun _ ht _ hi => he.word_eq hI ha (show _ ∈ s.share (.table root) from ⟨hroot, ht⟩) hi

/-- The other parties hold what they held. -/
theorem Effect.share_eq (he : Effect N U s a s') (hI : SpacesInv N U S s) {q : Party}
    (hq : a ≠ some q) : s'.share q = s.share q := by
  cases q with
  | client c => exact he.held_eq c hq
  | table root =>
    ext t
    change (root ∈ s'.roots ∧ _) ↔ (root ∈ s.roots ∧ _)
    rw [he.roots_iff root hq]
    exact and_congr_right fun hroot => (he.agree hI hroot hq).isTable_iff t

theorem Effect.split (he : Effect N U s a s') (hI : SpacesInv N U S s) :
    Split S s'.free s'.share := by
  have hupdate : ∀ q, a = some q → s'.share = Function.update s.share q (s'.share q) := by
    rintro q rfl
    funext q'
    by_cases hq : q' = q
    · subst hq
      rw [Function.update_self]
    · rw [Function.update_of_ne hq]
      exact he.share_eq hI fun h => hq (Option.some.inj h).symm
  have hmoves := he.moves
  cases hmoves with
  | nothing hfree =>
    rw [hfree, show s'.share = s.share from funext fun q => he.share_eq hI (by simp)]
    exact hI.split
  | @took q A hA hfree hshare =>
    rw [hupdate q rfl, hshare, hfree]
    exact hI.split.take q hA
  | @gave q A hA hfree hshare =>
    rw [hupdate q rfl, hshare, hfree]
    exact hI.split.give q hA

/-- **Step lemma.** -/
theorem Effect.inv (he : Effect N U s a s') (hI : SpacesInv N U S s) : SpacesInv N U S s' where
  sound := he.sound
  split := he.split hI
  stock := hI.stock
  built := by
    intro root hroot
    by_cases ha : a = some (.table root)
    · exact he.built root hroot ha
    · have hroot' := (he.roots_iff root ha).1 hroot
      have hsplit := he.split hI
      refine (hI.built root hroot').other ⟨he.agree hI hroot' ha, fun t ht => ?_, he.sound⟩
      have ht' : t ∈ s'.share (.table root) := by
        rw [he.share_eq hI ha]
        exact ⟨hroot', ht⟩
      exact Set.disjoint_left.1 (hsplit.pool_apart _) ht'

/-! ### The steps -/

theorem effect_create (hI : SpacesInv N U S s) {p4 : U64} {k : Kernel MemGlobals}
    (hrun : zeroedPage (allocator N U) s.kernel = Except.ok (p4, k)) (hp4 : p4 ≠ 0#64) :
    Effect N U s (some (.table (pageOf p4))) ⟨k, insert (pageOf p4) s.roots, s.held⟩ := by
  obtain ⟨hv, hfresh, -, -⟩ := wp_run hrun (wp_zeroedPage hI.sound)
  obtain ⟨q, hq, hfree, rfl, hused, hzero⟩ := hfresh.page.resolve_left fun hc => hp4 hc.1
  rw [pageOf_pagePtr hq]
  have hqfree : q ∈ s.free := not_not.1 hfree
  have hnew : q ∉ s.roots := fun hroot => hfree ((hI.built q hroot).tree.mem_used isTable_root)
  have hfree' : ∀ p, p ∈ k.source.freeSet ↔ p ∈ s.free ∧ p ≠ q := by
    intro p
    have hiff : p ∉ k.source.freeSet ↔ p = q ∨ p ∉ s.free := Set.ext_iff.1 hused p
    tauto
  have hstart : Start (allocator N U) q k := by
    refine ⟨hq, ?_, hzero, hv⟩
    rw [hused]
    exact Set.mem_insert _ _
  refine ⟨hv, ?_, ?_, ?_, fun _ _ => rfl, .took {q} ?_ ?_ ?_⟩
  · exact fun p hp _ hlt i hi => hfresh.words p hp hlt i hi
  · rintro root - ha
    cases ha
    exact hstart.built
  · intro root ha
    have hne : root ≠ q := fun h => ha (by rw [h])
    exact Set.mem_insert_iff.trans (or_iff_right hne)
  · rintro p rfl
    exact hqfree
  · ext p
    exact hfree' p
  · ext t
    change (q ∈ insert q s.roots ∧ IsTable k.memory q t) ↔ ((q ∈ s.roots ∧ _) ∨ t = q)
    rw [isTable_of_zero hzero]
    simp [hnew]

theorem effect_createFails (hI : SpacesInv N U S s) {k : Kernel MemGlobals}
    (hrun : zeroedPage (allocator N U) s.kernel = Except.ok (0#64, k)) :
    Effect N U s none ⟨k, s.roots, s.held⟩ := by
  obtain ⟨hv, hfresh, -, -⟩ := wp_run hrun (wp_zeroedPage hI.sound)
  refine ⟨hv, fun p hp _ hlt i hi => hfresh.words p hp hlt i hi, ?_, fun _ _ => Iff.rfl,
    fun _ _ => rfl, .nothing ?_⟩
  · rintro root - ha
    cases ha
  · rcases hfresh.page with ⟨-, hused⟩ | ⟨q, hq, -, h0, -⟩
    · exact compl_injective hused
    · exact absurd h0.symm (pagePtr_ne_zero hq)

theorem effect_map (hI : SpacesInv N U S s) {root : ℕ} {r : Bool} {k : Kernel MemGlobals} {c : Call}
    (hroot : root ∈ s.roots) (hlegal : c.Legal) (hapart : c.Apart2MB s.kernel.memory root)
    (hrun : c.run (allocator N U) (pagePtr root) s.kernel = Except.ok (r, k)) :
    Effect N U s (some (.table root)) ⟨k, s.roots, s.held⟩ := by
  obtain ⟨got, n, f, j, hadd⟩ := wp_run hrun (wp_call (hI.built root hroot) hlegal hapart.guard)
  have hg := hadd.grown
  refine ⟨hg.valid, ?_, ?_, fun _ _ => Iff.rfl, fun _ _ => rfl, .took {p | p ∈ pagesOf got} ?_ ?_ ?_⟩
  · exact fun p hp hout hlt i hi => hg.word p hp hlt (fun ht => hout _ rfl ⟨hroot, ht⟩) i hi
  · rintro _ - ha
    cases ha
    exact hadd.built
  · exact fun p hp => not_not.1 (hg.fresh p hp)
  · ext p
    have hiff : p ∉ k.source.freeSet ↔ p ∉ s.free ∨ p ∈ pagesOf got := hg.used p
    change p ∈ k.source.freeSet ↔ p ∈ s.free ∧ p ∉ pagesOf got
    tauto
  · ext t
    change (root ∈ s.roots ∧ IsTable k.memory root t) ↔ ((root ∈ s.roots ∧ _) ∨ _)
    rw [hg.isTable t, and_or_left]
    simp [hroot]

/-- The tables can be given back. -/
theorem SpacesInv.owned (hI : SpacesInv N U S s) {root : ℕ} (hroot : root ∈ s.roots) :
    Owned N U root s.kernel where
  tree := (hI.built root hroot).tree
  lt t ht := (hI.stock t (hI.split.share_subset (.table root) ⟨hroot, ht⟩)).1
  usable t ht := (hI.stock t (hI.split.share_subset (.table root) ⟨hroot, ht⟩)).2

/-- `destroy_table` returns, and gives back what the page table holds. -/
theorem wp_destroyTable_share (hI : SpacesInv N U S s) {root : ℕ} (hroot : root ∈ s.roots) :
    wp (destroyTable (pagePtr root)) (fun _ k => Sound N U k.memory k.source ∧
      k.source.freeSet = s.free ∪ s.share (.table root) ∧
      ∀ p ∉ s.free, p ∉ s.share (.table root) → p < windowPages → ∀ i < 512,
        k.memory.word p i = s.kernel.memory.word p i) s.kernel := by
  refine wp_mono (wp_destroyTable (hI.owned hroot) hI.sound) ?_
  rintro _ k ⟨pages, hF, -, hmem⟩
  have hshare : ∀ p, p ∈ s.share (.table root) ↔ p ∈ pages := by
    intro p
    rw [hmem]
    exact and_iff_right hroot
  refine ⟨hF.sound, ?_, ?_⟩
  · ext p
    rw [hF.freeSet, Set.mem_union, hshare]
    rfl
  · exact fun p hp hout hlt i hi => hF.word p hp (fun h => hout ((hshare p).2 h)) hlt i hi

theorem effect_destroy (hI : SpacesInv N U S s) {root : ℕ} {k : Kernel MemGlobals}
    (hroot : root ∈ s.roots) (hrun : destroyTable (pagePtr root) s.kernel = Except.ok ((), k)) :
    Effect N U s (some (.table root)) ⟨k, s.roots \ {root}, s.held⟩ := by
  obtain ⟨hsound, hfree, hword⟩ := wp_run hrun (wp_destroyTable_share hI hroot)
  refine ⟨hsound, ?_, ?_, ?_, fun _ _ => rfl, .gave (s.share (.table root)) le_rfl hfree ?_⟩
  · exact fun p hp hout hlt i hi => hword p hp (hout _ rfl) hlt i hi
  · rintro _ hin ha
    cases ha
    exact absurd rfl hin.2
  · intro root' ha
    have hne : root' ≠ root := fun h => ha (by rw [h])
    exact ⟨fun h => h.1, fun h => ⟨h, hne⟩⟩
  · rw [sdiff_self]
    ext t
    simp [System.share]

/-- The clients do not change which pages are usable. -/
theorem usablePages_of_own {held : Set ℕ} {op : Op} {h h' : Heap} {buf : Buffer}
    (hown : Own held op) (he : op.Effect N h buf h') :
    h'.globals.usablePages = h.globals.usablePages := by
  cases op with
  | release p c => exact Added.usablePages (Released.toAdded he)
  | alloc count exact =>
    rcases he with ⟨-, rfl⟩ | ⟨b, c, -, -, -, hA, -⟩
    · rfl
    · exact hA.usablePages
  | zeroed count =>
    rcases he with ⟨-, rfl⟩ | ⟨b, c, -, -, -, -, hZ⟩
    · rfl
    · exact hZ.usablePages
  | mark p c usable => exact hown.elim
  | write p i v =>
    obtain rfl : h' = _ := he
    rfl

theorem effect_call (hI : SpacesInv N U S s) {op : Op} {buf : Buffer} {h : Heap} {c : ℕ}
    (hallowed : op.Allowed N ⟨s.kernel.memory, s.kernel.source⟩) (hown : Own (s.held c) op)
    (hrun : op.exec ⟨s.kernel.memory, s.kernel.source⟩ = Except.ok (buf, h)) :
    Effect N U s (some (.client c)) ⟨{ s.kernel with memory := h.memory, source := h.globals },
      s.roots, Function.update s.held c (op.holdings buf (s.held c))⟩ := by
  have hInv := hI.sound.inv
  have hE : op.Effect N ⟨s.kernel.memory, s.kernel.source⟩ buf h := wp_run
    (Q := fun buf h => op.Effect N ⟨s.kernel.memory, s.kernel.source⟩ buf h) hrun
    (Op.wp_exec hInv hallowed)
  have hF := hE.frame hInv.le_window hallowed
  refine ⟨⟨hE.inv hInv hallowed, (usablePages_of_own hown hE).trans hI.sound.usablePages⟩, ?_, ?_,
    fun _ _ => Iff.rfl, ?_, ?_⟩
  · intro p hp hout hlt i hi
    have hheld : p ∉ s.held c := hout _ rfl
    have hspares : op.Spares p := by
      cases op with
      | release q n => exact fun hin => hheld (hown hin)
      | write q j v => exact fun heq => hheld (heq ▸ hown)
      | _ => trivial
    exact (hF.spares hlt hallowed hspares hp).2 i hi
  · rintro root - ha
    cases ha
  · intro d ha
    exact Function.update_of_ne (fun h => ha (by rw [h])) _ _
  · have hshare : ∀ A, (System.share ⟨{ s.kernel with memory := h.memory, source := h.globals },
        s.roots, Function.update s.held c A⟩ (.client c)) = A := fun A => Function.update_self _ _ _
    cases op with
    | release q n => exact .gave _ hown hF.2.1 (hshare _)
    | alloc count exact => exact .took _ hF.subset hF.freeSet (hshare _)
    | zeroed count => exact .took _ hF.subset hF.freeSet (hshare _)
    | mark q n usable => exact hown.elim
    | write q i v =>
      refine .took ∅ (Set.empty_subset _) ?_ ?_
      · rw [Set.sdiff_empty]
        exact hF.1
      · rw [hshare, Set.union_empty]
        rfl

theorem effect_of_step (hI : SpacesInv N U S s) (hs : Step N U s a s') : Effect N U s a s' := by
  cases hs with
  | create hrun hp4 => exact effect_create hI hrun hp4
  | createFails hrun => exact effect_createFails hI hrun
  | map c hroot hlegal hapart hrun => exact effect_map hI hroot hlegal hapart hrun
  | destroy hroot hrun => exact effect_destroy hI hroot hrun
  | call c hallowed hown hrun => exact effect_call hI hallowed hown hrun

/-! ### Runs -/

theorem spacesInv_start (h0 : Reachable N h₀) :
    SpacesInv N h₀.globals.usablePages h₀.globals.freeSet (.start h₀) where
  sound := Sound.of_reachable h0
  built root hroot := hroot.elim
  stock p hp := ⟨h0.inv.lt_of_free hp, h0.inv.free_usable p hp⟩
  split := by
    have hshare : (System.start h₀).share = fun _ => ∅ := by
      funext q
      cases q with
      | table root =>
        ext t
        exact ⟨fun h => h.1, False.elim⟩
      | client c => rfl
    rw [hshare]
    exact .start _

/-- The invariant holds in every state of a run. -/
theorem SystemRun.inv (h0 : Reachable N h₀) (hr : SystemRun N h₀ s) :
    SpacesInv N h₀.globals.usablePages h₀.globals.freeSet s := by
  induction hr with
  | start => exact spacesInv_start h0
  | step hr hs ih => exact (effect_of_step ih hs).inv ih

/-- **Address spaces are isolated.**  Whatever one party does, in any state of any run: every other page
table is still there and translates every address as before, and every other client holds what it held,
with the same contents. -/
theorem spaces_isolated (h0 : Reachable N h₀) (hr : SystemRun N h₀ s)
    (hs : Step N h₀.globals.usablePages s a s') :
    (∀ root ∈ s.roots, a ≠ some (.table root) → root ∈ s'.roots ∧
      ∀ w, ∃ x, translate (pagePtr root) w s.kernel = Except.ok (x, s.kernel) ∧
        translate (pagePtr root) w s'.kernel = Except.ok (x, s'.kernel)) ∧
    ∀ c, a ≠ some (.client c) → s'.held c = s.held c ∧
      ∀ p ∈ s.held c, ∀ i < 512, s'.kernel.memory.word p i = s.kernel.memory.word p i := by
  have hI := hr.inv h0
  have he := effect_of_step hI hs
  constructor
  · intro root hroot ha
    have hroot' := (he.roots_iff root ha).2 hroot
    have hagree := he.agree hI hroot ha
    refine ⟨hroot', fun w => ⟨translation s.kernel.memory root w,
      translate_eq (hI.built root hroot).tree.readable w, ?_⟩⟩
    rw [translate_eq ((he.inv hI).built root hroot').tree.readable, hagree.translation_eq]
  · exact fun c ha => ⟨he.held_eq c ha,
      fun p hp i hi => he.word_eq hI ha (show p ∈ s.share (.client c) from hp) hi⟩

/-- Five free pages, one of which has become a p4 table. -/
theorem exists_run_one_table : ∃ h₀ s root, Reachable 4096 h₀ ∧ SystemRun 4096 h₀ s ∧ root ∈ s.roots := by
  obtain ⟨h₀, h0, hF, -⟩ := exists_reachable_released (p := 3) (c := 5) (N := 4096) (by decide)
    (by decide) (by decide) (by decide) ⟨fun _ => 0#64, []⟩
  obtain ⟨p4, ⟨m, g⟩, hz, hnull⟩ := wp_onHeap
    (Q := fun ptr _ => ptr = 0#64 → h₀.globals.freeSet = ∅)
    (wp_mono (wp_zeroedPages_one (Sound.of_reachable h0)) fun _ _ h => h.2)
  have hp4 : p4 ≠ 0#64 := by
    intro hzero
    have hempty := hnull hzero
    rw [hF, Set.Ico_eq_empty_iff] at hempty
    omega
  have hrun : zeroedPage (allocator 4096 h₀.globals.usablePages) (System.start h₀).kernel =
      Except.ok (p4, ⟨m, g, [p4], []⟩) := zeroedPage_eq hz
  exact ⟨h₀, _, pageOf p4, h0, .step .start (.create hrun hp4), Set.mem_insert _ _⟩

/-- A client's allocation, and the page table that was there before. -/
theorem spaces_isolated_one_table : ∃ h₀ s s' root, SystemRun 4096 h₀ s ∧ root ∈ s.roots ∧
    Step 4096 h₀.globals.usablePages s (some (.client 0)) s' ∧ root ∈ s'.roots ∧
    ∀ w, ∃ x, translate (pagePtr root) w s.kernel = Except.ok (x, s.kernel) ∧
      translate (pagePtr root) w s'.kernel = Except.ok (x, s'.kernel) := by
  obtain ⟨h₀, s, root, h0, hr, hroot⟩ := exists_run_one_table
  have ha : (Op.alloc 1 true).Allowed 4096 ⟨s.kernel.memory, s.kernel.source⟩ :=
    show (1 : ℤ) ≤ 4096 by decide
  obtain ⟨buf, h, hrun, -⟩ := Op.wp_exec (hr.inv h0).sound.inv ha
  have hs := Step.call (U := h₀.globals.usablePages) 0 ha trivial hrun
  obtain ⟨hroot', hsame⟩ := (spaces_isolated h0 hr hs).1 root hroot (by simp)
  exact ⟨h₀, s, _, root, hr, hroot, hs, hroot', hsame⟩

/-- **Nothing leaks, whatever comes and goes.**  In any state of any run, every page that was free at the
start is free or is held by exactly one party; `destroy_table` returns on every page table and frees
exactly the pages that table holds; and without page tables and held pages the free pages and the count
of free memory are those of the start. -/
theorem spaces_conserved (h0 : Reachable N h₀) (hr : SystemRun N h₀ s) :
    (∀ p, p ∈ h₀.globals.freeSet ↔ p ∈ s.free ∨ ∃ q, p ∈ s.share q) ∧
    (∀ q, Disjoint (s.share q) s.free) ∧
    (∀ q q', q ≠ q' → Disjoint (s.share q) (s.share q')) ∧
    (∀ root ∈ s.roots, ∃ k, destroyTable (pagePtr root) s.kernel = Except.ok ((), k) ∧
      k.source.freeSet = s.free ∪ s.share (.table root)) ∧
    (s.roots = ∅ → (∀ c, s.held c = ∅) → s.free = h₀.globals.freeSet ∧
      s.kernel.source.freeMemory = h₀.globals.freeMemory) := by
  have hI := hr.inv h0
  refine ⟨hI.split.cover, hI.split.pool_apart, hI.split.apart, fun root hroot => ?_,
    fun hroots hheld => ?_⟩
  · obtain ⟨_, k, hrun, -, hfree, -⟩ := wp_destroyTable_share hI hroot
    exact ⟨k, hrun, hfree⟩
  · have hnothing : ∀ q, s.share q = ∅ := by
      intro q
      cases q with
      | table root =>
        ext t
        simp [System.share, hroots]
      | client c => exact hheld c
    have hfree := hI.split.whole hnothing
    exact ⟨hfree, freeMemory_eq h0.inv hI.sound.inv hfree⟩

/-- The page table is destroyed. -/
theorem spaces_conserved_one_table : ∃ h₀ s root k, SystemRun 4096 h₀ s ∧ root ∈ s.roots ∧
    destroyTable (pagePtr root) s.kernel = Except.ok ((), k) ∧ root ∈ k.source.freeSet := by
  obtain ⟨h₀, s, root, h0, hr, hroot⟩ := exists_run_one_table
  obtain ⟨k, hrun, hfree⟩ := (spaces_conserved h0 hr).2.2.2.1 root hroot
  refine ⟨h₀, s, root, k, hr, hroot, hrun, ?_⟩
  rw [hfree]
  exact Or.inr ⟨hroot, isTable_root⟩

end Dumboss.PageTable
