import Dumboss.Allocator.Run

/-!
# Live allocations

What the allocator does to the pages it manages, and what it leaves alone.

* `Op.Frame`: an allocation takes exactly the pages of its buffer out of the free pages, a release
  puts exactly its range in, and every store goes to a page that is free afterwards or is being
  handed out;
* `LiveRun`: a run together with the buffers that were handed out and not released since;
* `liveRun_frame`: live buffers share no page, and calls that spare a page of a live buffer leave
  its contents alone.
-/

namespace Dumboss

open Prog

namespace Buffer

/-- The first page of a buffer. -/
def first (buf : Buffer) : ℕ := (buf.data - kernelSpaceBegin).toNat / 4096

/-- The number of pages of a buffer. -/
def size (buf : Buffer) : ℕ := (buf.count / 4096).toNat

/-- The pages of a buffer; the null buffer has none. -/
def pages (buf : Buffer) : Set ℕ := Set.Ico buf.first (buf.first + buf.size)

theorem first_pagePtr {b : ℕ} (hb : b < windowPages) (n : ℤ) :
    (Buffer.mk (pagePtr b) n).first = b := by
  rw [first, BitVec.toNat_sub, pagePtr_toNat hb, kernelSpaceBegin_toNat]
  unfold windowPages at hb
  omega

theorem pages_pagePtr {b : ℕ} (hb : b < windowPages) (c : ℕ) :
    (Buffer.mk (pagePtr b) (c * 4096)).pages = Set.Ico b (b + c) := by
  rw [pages, first_pagePtr hb, show (Buffer.mk (pagePtr b) (c * 4096)).size = c by
    simp [size]]

theorem pages_null : (Buffer.mk 0#64 0).pages = ∅ := by simp [pages, size]

end Buffer

/-- The pages of `buf` were taken out of the free pages, and all stores went to pages that are still
free or are those of `buf`. -/
structure HandsOut (h : Heap) (buf : Buffer) (h' : Heap) : Prop where
  subset : buf.pages ⊆ h.globals.freeSet
  freeSet : h'.globals.freeSet = h.globals.freeSet \ buf.pages
  stores : Memory.StoresIn (InPages fun q => q ∈ h'.globals.freeSet ∨
    q ∈ h.globals.freeSet ∧ q ∈ buf.pages) h.memory h'.memory

theorem HandsOut.null (h : Heap) : HandsOut h ⟨0#64, 0⟩ h := by
  refine ⟨?_, ?_, .refl _ _⟩
  · rw [Buffer.pages_null]
    exact Set.empty_subset _
  · rw [Buffer.pages_null, Set.sdiff_empty]

theorem Allocated.handsOut {N b c : ℕ} {h h' : Heap} (hb : b < windowPages)
    (hA : Allocated N b c h h') : HandsOut h ⟨pagePtr b, (c : ℤ) * 4096⟩ h' := by
  have hp := Buffer.pages_pagePtr hb c
  refine ⟨by rw [hp]; exact hA.subset, by rw [hp]; exact hA.freeSet, ?_⟩
  rw [hp]
  refine hA.stores.mono fun a ha => ha.mono fun q hq => ?_
  by_cases hqb : q ∈ Set.Ico b (b + c)
  · exact Or.inr ⟨hq, hqb⟩
  · exact Or.inl (by rw [hA.freeSet]; exact ⟨hq, hqb⟩)

namespace Op

/-- What a call does to the free pages, and where it stores. -/
def Frame (h : Heap) (buf : Buffer) (h' : Heap) : Op → Prop
  | release p c => Disjoint (Set.Ico p (p + c)) h.globals.freeSet ∧
      h'.globals.freeSet = h.globals.freeSet ∪ Set.Ico p (p + c) ∧
      Memory.StoresIn (InPages (· ∈ h'.globals.freeSet)) h.memory h'.memory
  | alloc _ _ => HandsOut h buf h'
  | zeroed _ => HandsOut h buf h'
  | mark _ _ _ => h'.globals.freeSet = h.globals.freeSet ∧ h'.memory = h.memory
  | write p i v => h'.globals.freeSet = h.globals.freeSet ∧
      h'.memory = h.memory.store (cell p i) v

/-- The call neither releases page `q` nor writes to it. -/
def Spares (q : ℕ) : Op → Prop
  | release p c => q ∉ Set.Ico p (p + c)
  | write p _ _ => p ≠ q
  | _ => True

/-- The live buffers after the call returned `buf`: a release ends the life of every buffer it
shares a page with. -/
def live (op : Op) (buf : Buffer) (bufs : List Buffer) : List Buffer :=
  match op with
  | release p c => bufs.filter fun a => a.first + a.size ≤ p ∨ p + c ≤ a.first
  | alloc _ _ => if buf.data = 0#64 then bufs else buf :: bufs
  | zeroed _ => if buf.data = 0#64 then bufs else buf :: bufs
  | mark _ _ _ => bufs
  | write _ _ _ => bufs

variable {N : ℕ} {h h' : Heap} {buf : Buffer} {op : Op}

theorem Effect.frame (hN : N ≤ windowPages) (ha : op.Allowed N h) (he : op.Effect N h buf h') :
    op.Frame h buf h' := by
  cases op with
  | release p c =>
    refine ⟨?_, Added.freeSet (Released.toAdded he), Released.stores he⟩
    rw [Set.disjoint_left]
    exact fun q hq => (ha.2.2 q hq).2
  | alloc count exact =>
    rcases he with ⟨rfl, rfl⟩ | ⟨b, c, rfl, -, hb, hA, -⟩
    · exact .null h'
    · exact hA.handsOut (hb.trans_le hN)
  | zeroed count =>
    rcases he with ⟨rfl, rfl⟩ | ⟨b, c, rfl, -, -, hb, hZ⟩
    · exact .null h'
    · exact hZ.toAllocated.handsOut (hb.trans_le hN)
  | mark p c usable => exact ⟨Marked.freeSet he, Marked.memory he⟩
  | write p i v =>
    obtain rfl : h' = _ := he
    exact ⟨rfl, rfl⟩

/-- A page that is not free stays so under calls that spare it, and keeps its contents. -/
theorem Frame.spares {q : ℕ} (hq : q < windowPages) (hf : op.Frame h buf h')
    (ha : op.Allowed N h) (hs : op.Spares q) (hfree : q ∉ h.globals.freeSet) :
    q ∉ h'.globals.freeSet ∧ ∀ i < 512, h'.memory.word q i = h.memory.word q i := by
  -- the two cases in which a buffer is handed out
  have halloc : HandsOut h buf h' →
      q ∉ h'.globals.freeSet ∧ ∀ i < 512, h'.memory.word q i = h.memory.word q i := by
    rintro ⟨-, hset, hst⟩
    have hnot : q ∉ h'.globals.freeSet := by
      rw [hset]
      exact fun hq' => hfree hq'.1
    refine ⟨hnot, fun i hi => hst.word_eq hq hi ?_⟩
    rintro (hq' | hq')
    · exact hnot hq'
    · exact hfree hq'.1
  cases op with
  | release p c =>
    obtain ⟨-, hset, hst⟩ := hf
    have hnot : q ∉ h'.globals.freeSet := by
      rw [hset]
      rintro (hq' | hq')
      · exact hfree hq'
      · exact hs hq'
    exact ⟨hnot, fun i hi => hst.word_eq hq hi hnot⟩
  | alloc count exact => exact halloc hf
  | zeroed count => exact halloc hf
  | mark p c usable =>
    obtain ⟨hset, hmem⟩ := hf
    rw [hset, hmem]
    exact ⟨hfree, fun _ _ => rfl⟩
  | write p i v =>
    obtain ⟨hset, hmem⟩ := hf
    obtain ⟨hp, hi, -⟩ := ha
    rw [hset, hmem]
    refine ⟨hfree, fun j hj => ?_⟩
    rw [Memory.word_store _ _ hp hq hi hj, if_neg fun hc => hs hc.1.symm]

end Op

/-- The heap and the live buffers along a run. -/
inductive LiveRun (N : ℕ) : Heap → List Buffer → Prop
  | init (hd : 4096 ∣ N) (hw : N ≤ windowPages) (usable : ℕ → U64) (m : Memory) :
      LiveRun N (zeroedHeap N usable m) []
  | step {h h' : Heap} {bufs : List Buffer} {op : Op} {buf : Buffer} (hr : LiveRun N h bufs)
      (ha : op.Allowed N h) (he : op.exec h = Except.ok (buf, h')) :
      LiveRun N h' (op.live buf bufs)

/-- One allowed call that spares page `q`. -/
def SparingStep (N q : ℕ) (h h' : Heap) : Prop :=
  ∃ (op : Op) (buf : Buffer), op.Allowed N h ∧ op.Spares q ∧ op.exec h = Except.ok (buf, h')

variable {N : ℕ} {h h' : Heap} {bufs : List Buffer}

theorem LiveRun.reachable (hr : LiveRun N h bufs) : Reachable N h := by
  induction hr with
  | init hd hw usable m => exact .init hd hw usable m
  | step hr ha he ih => exact .step ih ha he

/-- Every run can be watched. -/
theorem Reachable.liveRun (hr : Reachable N h) : ∃ bufs, LiveRun N h bufs := by
  induction hr with
  | init hd hw usable m => exact ⟨[], .init hd hw usable m⟩
  | step hr ha he ih =>
    obtain ⟨bufs, hl⟩ := ih
    exact ⟨_, .step hl ha he⟩

/-- The pages of live buffers are not free, and no two live buffers share one. -/
structure LivePages (h : Heap) (bufs : List Buffer) : Prop where
  notFree : ∀ a ∈ bufs, ∀ q ∈ a.pages, q ∉ h.globals.freeSet
  disjoint : bufs.Pairwise fun a b => Disjoint a.pages b.pages

/-- A buffer made of free pages is handed out, or none is. -/
theorem LivePages.alloc {buf : Buffer} (hl : LivePages h bufs) (ho : HandsOut h buf h') :
    LivePages h' (if buf.data = 0#64 then bufs else buf :: bufs) := by
  have hold : ∀ a ∈ bufs, ∀ q ∈ a.pages, q ∉ h'.globals.freeSet := by
    intro a ha q hq
    rw [ho.freeSet]
    exact fun hq' => hl.notFree a ha q hq hq'.1
  split_ifs
  · exact ⟨hold, hl.disjoint⟩
  · refine ⟨?_, List.pairwise_cons.2 ⟨fun a ha => ?_, hl.disjoint⟩⟩
    · intro a ha q hq
      rcases List.mem_cons.1 ha with rfl | ha
      · rw [ho.freeSet]
        exact fun hq' => hq'.2 hq
      · exact hold a ha q hq
    · rw [Set.disjoint_left]
      exact fun q hq hqa => hl.notFree a ha q hqa (ho.subset hq)

theorem LivePages.step {op : Op} {buf : Buffer} (hl : LivePages h bufs) (hf : op.Frame h buf h') :
    LivePages h' (op.live buf bufs) := by
  cases op with
  | release p c =>
    obtain ⟨-, hset, -⟩ := hf
    refine ⟨fun a ha q hq => ?_, hl.disjoint.filter _⟩
    obtain ⟨ha, hap⟩ := List.mem_filter.1 ha
    have hq' := Set.mem_Ico.1 hq
    rw [decide_eq_true_eq] at hap
    rw [hset]
    rintro (hqF | hqF)
    · exact hl.notFree a ha q hq hqF
    · have := Set.mem_Ico.1 hqF
      omega
  | alloc count exact => exact hl.alloc hf
  | zeroed count => exact hl.alloc hf
  | mark p c usable =>
    refine ⟨?_, hl.disjoint⟩
    rw [hf.1]
    exact hl.notFree
  | write p i v =>
    refine ⟨?_, hl.disjoint⟩
    rw [hf.1]
    exact hl.notFree

theorem LiveRun.livePages (hr : LiveRun N h bufs) : LivePages h bufs := by
  induction hr with
  | init hd hw usable m => exact ⟨by simp, List.Pairwise.nil⟩
  | step hr ha he ih =>
    exact ih.step ((hr.reachable.effect ha he).frame hr.reachable.inv.le_window ha)

/-- The contents of a page that is not free, along calls that spare it. -/
theorem SparingStep.contents {q : ℕ} (hq : q < windowPages) (hr : Reachable N h)
    (hs : Relation.ReflTransGen (SparingStep N q) h h') (hfree : q ∉ h.globals.freeSet) :
    Reachable N h' ∧ q ∉ h'.globals.freeSet ∧
      ∀ i < 512, h'.memory.word q i = h.memory.word q i := by
  induction hs with
  | refl => exact ⟨hr, hfree, fun _ _ => rfl⟩
  | tail _ hstep ih =>
    obtain ⟨hr', hfree', hword⟩ := ih
    obtain ⟨op, buf, ha, hsp, he⟩ := hstep
    have hf := (hr'.effect ha he).frame hr'.inv.le_window ha
    obtain ⟨hfree'', hword'⟩ := hf.spares hq ha hsp hfree'
    exact ⟨hr'.step ha he, hfree'', fun i hi => (hword' i hi).trans (hword i hi)⟩

/-- Live buffers are made of pages the allocator manages. -/
theorem LiveRun.lt (hr : LiveRun N h bufs) : ∀ a ∈ bufs, ∀ q ∈ a.pages, q < N := by
  induction hr with
  | init hd hw usable m => simp
  | @step h h' bufs op buf hr ha he ih =>
    have hI := hr.reachable.inv
    have hf := (hr.reachable.effect ha he).frame hI.le_window ha
    have halloc : HandsOut h buf h' →
        ∀ a ∈ (if buf.data = 0#64 then bufs else buf :: bufs), ∀ q ∈ a.pages, q < N := by
      intro ho a ha' q hq
      split_ifs at ha'
      · exact ih a ha' q hq
      · rcases List.mem_cons.1 ha' with rfl | ha'
        · exact hI.lt_of_free (ho.subset hq)
        · exact ih a ha' q hq
    cases op with
    | release p c => exact fun a ha' => ih a (List.mem_of_mem_filter ha')
    | alloc count exact => exact halloc hf
    | zeroed count => exact halloc hf
    | mark p c usable => exact ih
    | write p i v => exact ih

/-- **Live memory is left alone.** Every next call has its frame; the live buffers share no page
with each other or with the free pages; and the pages of a live buffer keep their contents as long
as they are neither released nor written by their owner. -/
theorem liveRun_frame (hr : LiveRun N h bufs) :
    (∀ (op : Op) (buf : Buffer) (h' : Heap), op.Allowed N h → op.exec h = Except.ok (buf, h') →
      op.Frame h buf h') ∧
    (bufs.Pairwise fun a b => Disjoint a.pages b.pages) ∧
    (∀ a ∈ bufs, Disjoint a.pages h.globals.freeSet) ∧
    ∀ a ∈ bufs, ∀ q ∈ a.pages, ∀ h', Relation.ReflTransGen (SparingStep N q) h h' →
      ∀ i < 512, h'.memory.word q i = h.memory.word q i := by
  have hI := hr.reachable.inv
  have hl := hr.livePages
  refine ⟨fun op buf h' ha he => (hr.reachable.effect ha he).frame hI.le_window ha, hl.disjoint,
    fun a ha => Set.disjoint_left.2 (hl.notFree a ha), fun a ha q hq h' hs => ?_⟩
  have hqw : q < windowPages := (hr.lt a ha q hq).trans_le hI.le_window
  exact (SparingStep.contents hqw hr.reachable hs (hl.notFree a ha q hq)).2.2

theorem liveRun_frame_one_page : ∃ h, LiveRun 4096 h [⟨pagePtr 4, 4096⟩] ∧
    ∀ h', Relation.ReflTransGen (SparingStep 4096 4) h h' →
      ∀ i < 512, h'.memory.word 4 i = h.memory.word 4 i := by
  have h0 := LiveRun.init (N := 4096) (by decide) (by decide) (fun _ => BitVec.allOnes 64)
    ⟨fun _ => 0#64, []⟩
  have ha1 : (Op.release 3 2).Allowed 4096 (zeroedHeap 4096 (fun _ => BitVec.allOnes 64)
      ⟨fun _ => 0#64, []⟩) := by
    refine ⟨by decide, by decide, fun q hq => ?_⟩
    obtain ⟨hlo, hhi⟩ := Set.mem_Ico.1 hq
    interval_cases q
    · exact ⟨by decide, by simp [MemGlobals.freeSet, zeroedHeap, BitSet.test]⟩
    · exact ⟨by decide, by simp [MemGlobals.freeSet, zeroedHeap, BitSet.test]⟩
  obtain ⟨buf1, h1, he1, -⟩ := Op.wp_exec h0.reachable.inv ha1
  have ha2 : (Op.alloc 1 true).Allowed 4096 h1 := show (1 : ℤ) ≤ 4096 by decide
  obtain ⟨buf2, h2, he2, -⟩ := Op.wp_exec (h0.step ha1 he1).reachable.inv ha2
  -- the buffer comes from evaluating the two calls
  have hrun : ((Op.release 3 2).exec (zeroedHeap 4096 (fun _ => BitVec.allOnes 64)
      ⟨fun _ => 0#64, []⟩) >>= fun r => (Op.alloc 1 true).exec r.2).toOption.map Prod.fst =
      some ⟨pagePtr 4, 4096⟩ := by decide +kernel
  have hbuf : buf2 = ⟨pagePtr 4, 4096⟩ := by
    rw [he1] at hrun
    change ((Op.alloc 1 true).exec h1).toOption.map Prod.fst = _ at hrun
    rw [he2] at hrun
    exact Option.some.inj hrun
  have hlive : LiveRun 4096 h2 [⟨pagePtr 4, 4096⟩] := by
    have hstep := (h0.step ha1 he1).step ha2 he2
    rw [hbuf] at hstep
    exact hstep
  refine ⟨h2, hlive, (liveRun_frame hlive).2.2.2 ⟨pagePtr 4, 4096⟩ (by simp) 4 ?_⟩
  rw [show (4096 : ℤ) = ((1 : ℕ) : ℤ) * 4096 by decide, Buffer.pages_pagePtr (by decide)]
  exact ⟨le_rfl, by decide⟩

end Dumboss
