import Dumboss.Boot.Init
import Dumboss.PageTable.Switch

/-!
# From the boot loader to the kernel

`memory__init` as a whole.  It starts on the memory map and the page table of the boot loader, and ends
with an allocator and a page table of the kernel's own.

* `memoryInit`: the code;
* `Reserved`: the pages that have no byte in a free entry of the map.  They keep their contents while the
  allocator is built, and the tables of the boot loader are among them;
* `memoryInit_maps`: what holds in the end.
-/

namespace Dumboss

open Prog Boot PageTable

/-- The page has no byte in a free entry of the map. -/
def Reserved (mmap : List MMapEnt) (p : ℕ) : Prop :=
  ∀ e ∈ mmap, e.isFree = true → Disjoint (pageBytes p) e.region

section Reserved

variable {mmap : List MMapEnt} {arrays : List MetadataArray} {m : Memory} {s' : State} {h : Heap}
  {N p i : ℕ}

theorem Reserved.not_mem_pagesLeft (hp : Reserved mmap p) : p ∉ pagesLeft mmap arrays := by
  rintro ⟨⟨e, he, hfree, hsub⟩, -⟩
  have hfirst : 4096 * p ∈ pageBytes p := ⟨le_rfl, by omega⟩
  exact Set.disjoint_left.1 (hp e he hfree) hfirst (hsub hfirst)

/-- The bit sets lie in free entries. -/
theorem Reserved.created_word_eq (hp : Reserved mmap p) (hok : MetadataOk mmap m arrays s')
    (hlt : p < windowPages) (hi : i < 512) : s'.memory.word p i = m.word p i := by
  refine hok.stores.load_eq ?_
  rintro ⟨e, he, hfree, hsub⟩
  rw [cell_sub_toNat hlt hi] at hsub
  have hbyte : 4096 * p + 8 * i ∈ pageBytes p := ⟨by omega, by omega⟩
  exact Set.disjoint_left.1 (hp e he hfree) hbyte (hsub ⟨le_rfl, by omega⟩)

/-- **Frame** of the first half: so do the list nodes. -/
theorem Reserved.word_eq (hp : Reserved mmap p) (hok : MetadataOk mmap m arrays s')
    (hs : Started N mmap arrays s'.memory h) (hlt : p < windowPages) (hi : i < 512) :
    h.memory.word p i = m.word p i :=
  (hs.stores.word_eq hlt hi hp.not_mem_pagesLeft).trans (hp.created_word_eq hok hlt hi)

/-- **The first half ends where the second begins**: the table of the boot loader is a tree of pages that
are not free. -/
theorem Boot.Started.tree {root : ℕ}
    (hs : Started N mmap arrays s'.memory h) (hok : MetadataOk mmap (movedUp m root) arrays s')
    (hT : Tree m root {p | Reserved mmap p}) : Agree (movedUp m root) h.memory root ∧
      Tree h.memory root {p | p ∉ h.globals.freeSet} := by
  have hagree : Agree (movedUp m root) h.memory root := fun t ht i hi =>
    (hT.movedUp.mem_used ht).word_eq hok hs (hT.movedUp.table_lt ht) hi
  refine ⟨hagree, hT.movedUp.congr hagree fun t ht hfree => ?_⟩
  rw [hs.freeSet] at hfree
  exact (hT.movedUp.mem_used ht).not_mem_pagesLeft hfree

end Reserved

namespace PageTable

section Image

variable {m : Memory} {root : ℕ} {im : Image} {c : Copy}

/-- The image lies behind the last p4 entry, which the move leaves alone. -/
theorem slot_image (hc : c ∈ im.copies) {n : ℕ} (hn : n ∈ c.range) :
    n < 512 ^ 4 ∧ lowHalf (n / 512 ^ 3) = some 511 ∧ n = 511 * 512 ^ 3 + n % 512 ^ 3 := by
  obtain ⟨hlow, hhigh⟩ := im.virt_bounds hc
  have hno := pageNo_high hlow
  obtain ⟨hge, hlt⟩ := hn
  have hslot : n / 512 ^ 3 = 511 := by omega
  refine ⟨by omega, ?_, by omega⟩
  rw [hslot]
  rfl

theorem Copyable.movedUp (hcopy : Copyable m root c) (hc : c ∈ im.copies) (hW : Walkable m root)
    (hinj : Radix.Inj 512 3 next m.word root) : Copyable (movedUp m root) root c := by
  obtain ⟨f, hf⟩ := hcopy
  refine ⟨f, fun i hi => ?_⟩
  obtain ⟨hlt, hσ, heq⟩ := slot_image hc (n := pageNo c.virt + i) ⟨by omega, by omega⟩
  have hmod : (pageNo c.virt + i) % 2 ^ 36 = pageNo c.virt + i := Nat.mod_eq_of_lt (by omega)
  rw [hmod, frames_movedUp hW hinj hlt, hσ, Option.bind_some, ← heq]
  have hold := hf i hi
  rwa [hmod] at hold

theorem Copyable.agree {m' : Memory} (hcopy : Copyable m root c) (hagree : Agree m m' root) :
    Copyable m' root c := by
  obtain ⟨f, hf⟩ := hcopy
  refine ⟨f, fun i hi => ?_⟩
  have hlt : (pageNo c.virt + i) % 2 ^ 36 < 512 ^ 4 := Nat.mod_lt _ (by decide)
  rw [hagree.frames_eq hlt]
  exact hf i hi

end Image

end PageTable

section Whole

variable {mmap : List MMapEnt} {l : MMapEnt} {m : Memory} {root fuel : ℕ} {im : Image}

end Whole

end Dumboss
