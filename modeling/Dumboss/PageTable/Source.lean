import Dumboss.PageTable.Model
import Dumboss.Allocator.Run

/-!
# The buddy allocator as a source of pages

`allocator N U` is the page source that the kernel uses: `zeroed_pages(1)` of the buddy allocator over
`N` pages with the usable pages `U`.  The pages in use are those that are not free.  `stock` is the
simplest page source; concrete runs use it.
-/

namespace Dumboss.PageTable

open Prog

/-- A function of the allocator, on memory and `MemGlobals`. -/
def onHeap {α : Type} (f : Kern Heap α) : Kern (Memory × MemGlobals) α := fun s =>
  match f ⟨s.1, s.2⟩ with
  | .ok (a, h) => .ok (a, h.memory, h.globals)
  | .error e => .error e

theorem wp_onHeap {α : Type} {f : Kern Heap α} {Q : α → Memory × MemGlobals → Prop}
    {m : Memory} {g : MemGlobals} (h : wp f (fun a h => Q a (h.memory, h.globals)) ⟨m, g⟩) :
    wp (onHeap f) Q (m, g) := by
  obtain ⟨a, h', hrun, hQ⟩ := h
  refine ⟨a, (h'.memory, h'.globals), ?_, hQ⟩
  rw [onHeap, hrun]

/-- The allocator is in order, and its usable pages are `U`. -/
structure Sound (N : ℕ) (U : BitSet) (m : Memory) (g : MemGlobals) : Prop where
  inv : Inv N ⟨m, g⟩
  usablePages : g.usablePages = U

variable {N : ℕ} {U : BitSet}

theorem Sound.of_reachable {h : Heap} (hr : Reachable N h) :
    Sound N h.globals.usablePages h.memory h.globals := ⟨hr.inv, rfl⟩

/-- `zeroed_pages(1)` fails only if no page is free. -/
theorem wp_zeroedPages_one {m : Memory} {g : MemGlobals} (hs : Sound N U m g) :
    wp (zeroedPages 1) (fun ptr h => (Sound N U h.memory h.globals ∧
      FreshPage {p | p ∉ g.freeSet} {p | p ∉ h.globals.freeSet} m h.memory ptr) ∧
      (ptr = 0#64 → g.freeSet = ∅)) ⟨m, g⟩ := by
  refine wp_mono (wp_zeroedPages hs.inv (by decide)) ?_
  rintro ptr h (⟨rfl, rfl, hempty⟩ | ⟨b, c, rfl, hpos, hc, hb, hZ⟩)
  · exact ⟨⟨hs, fun _ _ _ _ _ => rfl, Or.inl ⟨rfl, rfl⟩⟩, fun _ => hempty rfl⟩
  · obtain rfl : c = 1 := by exact_mod_cast hc
    have hbw : b < windowPages := hb.trans_le hs.inv.le_window
    have hbF : b ∈ g.freeSet := hZ.subset ⟨le_rfl, by omega⟩
    refine ⟨⟨⟨hZ.inv, hZ.usablePages.trans hs.usablePages⟩, ?_,
      Or.inr ⟨b, hbw, ?_, rfl, ?_, ?_⟩⟩, fun h0 => absurd h0 (pagePtr_ne_zero hbw)⟩
    · intro p hp hlt i hi
      exact hZ.stores.word_eq hlt hi hp
    · exact fun h => h hbF
    · ext p
      have hIco : p ∈ Set.Ico b (b + 1) ↔ p = b := by
        rw [Set.mem_Ico]
        omega
      rw [Set.mem_insert_iff, Set.mem_ofPred_eq, Set.mem_ofPred_eq, hZ.freeSet, Set.mem_sdiff, hIco]
      tauto
    · intro i hi
      exact hZ.zero b ⟨le_rfl, by omega⟩ i hi

/-- `zeroed_pages(1)` of the allocator. -/
def allocator (N : ℕ) (U : BitSet) : PageSource MemGlobals where
  zeroedPage := onHeap (zeroedPages 1)
  Valid := Sound N U
  used g := {p | p ∉ g.freeSet}
  wp_zeroedPage _ _ hs := wp_onHeap (wp_mono (wp_zeroedPages_one hs) fun _ _ h => h.1)
  valid_store := by
    intro m g p i v hs hp hlt hi
    exact ⟨hs.inv.of_stores (storesIn_cell hlt hi hp), hs.usablePages⟩

/-- A list of zeroed pages, given out from the head. -/
def stock : PageSource (List ℕ) where
  zeroedPage s := match s.2 with
    | [] => .ok (0#64, s)
    | q :: rest => .ok (pagePtr q, s.1, rest)
  Valid m pages := pages.Nodup ∧ ∀ q ∈ pages, q < windowPages ∧ ∀ i < 512, m.word q i = 0#64
  used pages := {p | p ∉ pages}
  wp_zeroedPage := by
    intro m pages hs
    cases pages with
    | nil => exact ⟨0#64, (m, []), rfl, hs, fun _ _ _ _ _ => rfl, Or.inl ⟨rfl, rfl⟩⟩
    | cons q rest =>
      obtain ⟨hnodup, hzero⟩ := hs
      obtain ⟨hq, hrest⟩ := List.nodup_cons.1 hnodup
      obtain ⟨hlt, hz⟩ := hzero q (by simp)
      refine ⟨pagePtr q, (m, rest), rfl, ⟨hrest, fun p hp => hzero p (by simp [hp])⟩,
        fun _ _ _ _ _ => rfl, Or.inr ⟨q, hlt, fun h => h (by simp), rfl, ?_, hz⟩⟩
      ext p
      simp only [Set.mem_insert_iff, Set.mem_ofPred_eq, List.mem_cons]
      by_cases hpq : p = q
      · subst hpq
        simp [hq]
      · simp [hpq]
  valid_store := by
    intro m pages p i v hs hp hlt hi
    refine ⟨hs.1, fun q hq => ⟨(hs.2 q hq).1, fun j hj => ?_⟩⟩
    rw [Memory.word_store _ _ hlt (hs.2 q hq).1 hi hj, if_neg]
    · exact (hs.2 q hq).2 j hj
    · rintro ⟨rfl, -⟩
      exact hp hq

end Dumboss.PageTable
