import Dumboss.PageTable.Copy
import Dumboss.PageTable.Destroy
import Dumboss.Allocator.Account

/-!
# The page table of the boot loader

The kernel starts on the page table that the boot loader left.  `UNSAFE_HACKY_higher_half_init` moves
its identity mapping to the higher half, and in the end `destroy_bootboot_table` gives its pages to the
allocator, which has never seen them before.

* `higherHalfInit`, `higherHalfInit_translate`: what was mapped at an address below 512GB is mapped at
  the kernel pointer of that address, and nothing else is;
* `destroyBootbootTable`: the walk `destroyWith`, which makes every table usable and free;
* `destroyBootbootTable_reclaims`.
-/

namespace Dumboss.PageTable

open Prog

/-! ### Into the higher half -/

section HigherHalf

variable {ρ : Type} {root : ℕ} {m m' : Memory}

/-- `UNSAFE_HACKY_higher_half_init`; `cr3` is the register, before and after.  The code reaches the table
through the identity mapping, that is, at its physical address; memory is named by kernel pointers. -/
def higherHalfInit (cr3 : U64) : Kern (Kernel ρ) U64 := do
  let table := cr3 + kernelSpaceBegin
  let indices := pageTableIndices kernelSpaceBegin
  assert (indices.p3 = 0) (.failed "indices.p3 == 0")
  assert (indices.p2 = 0) (.failed "indices.p2 == 0")
  assert (indices.p1 = 0) (.failed "indices.p1 == 0")
  assert (indices.p0 = 0) (.failed "indices.p0 == 0")
  storeEntry table indices.p4 (← loadEntry table 0)
  storeEntry table 0 0#64
  return cr3

/-- The slot of the p4 table that slot `i` is filled from. -/
def lowHalf (i : ℕ) : Option ℕ := if i = 256 then some 0 else if i = 0 then none else some i

/-- The memory in which the table is moved. -/
def movedUp (m : Memory) (root : ℕ) : Memory :=
  (m.store (cell root 256) (m.word root 0)).store (cell root 0) 0#64

theorem word_movedUp {p i : ℕ} (hroot : root < windowPages) (hp : p < windowPages) (hi : i < 512) :
    (movedUp m root).word p i = if p = root ∧ i = 0 then 0#64
      else if p = root ∧ i = 256 then m.word root 0 else m.word p i := by
  rw [movedUp, Memory.word_store _ _ hroot hp (by omega) hi,
    Memory.word_store _ _ hroot hp (by omega) hi]

theorem wp_higherHalfInit (root : ℕ) (s : Kernel ρ) :
    wp (higherHalfInit (BitVec.ofNat 64 (4096 * root)))
      (fun r s' => r = BitVec.ofNat 64 (4096 * root) ∧
        s' = { s with memory := movedUp s.memory root }) s := by
  have htable : BitVec.ofNat 64 (4096 * root) + kernelSpaceBegin = pagePtr root := by
    rw [pagePtr, BitVec.add_comm, BitVec.ofNat_add]
    rfl
  have hindices : pageTableIndices kernelSpaceBegin = ⟨0, 0, 0, 0, 256⟩ := by decide
  simp only [higherHalfInit, htable, hindices, wp_bind, wp_assert, wp_loadEntry, wp_storeEntry,
    wp_pure, true_and]
  rfl

/-- Moving the identity mapping is a reroot, for any way of following entries that stops at `0`. -/
theorem reroot_movedUp {h : ℕ} {next : ℕ → U64 → Option ℕ} (hnull : next 0 0#64 = none)
    (hlt : ∀ t, Radix.IsNode 512 h next m.word root t → t < windowPages) (hroot : root < windowPages) :
    Radix.Reroot 512 h next m.word (movedUp m root).word root lowHalf where
  slot_lt := by
    intro i j hi hσ
    unfold lowHalf at hσ
    split_ifs at hσ <;> cases hσ <;> omega
  inj := by
    intro i i' j hi hi' hσ hσ'
    unfold lowHalf at hσ hσ'
    split_ifs at hσ hσ' <;> cases hσ <;> cases hσ' <;> omega
  moved := by
    intro i hi
    simp only [word_movedUp hroot hroot hi, lowHalf, true_and]
    by_cases h0 : i = 0
    · subst h0
      simpa using hnull
    · by_cases h256 : i = 256
      · simp [h256]
      · simp [h0, h256]
  other := by
    intro t ht hne i hi
    rw [word_movedUp hroot (hlt t ht) hi, if_neg fun h => hne h.1, if_neg fun h => hne h.1]

/-- The four levels below the slot of the root that the page was reached through before. -/
theorem table_movedUp (hW : Walkable m root) (hinj : Radix.Inj 512 3 next m.word root) {d x : ℕ}
    (hd : d < 3) (hx : x < 512 ^ (d + 1)) : table (movedUp m root) root (d + 1) x =
      (lowHalf (x / 512 ^ d)).bind fun j => table m root (d + 1) (j * 512 ^ d + x % 512 ^ d) :=
  Radix.node_reroot hinj (reroot_movedUp rfl (fun _ ht => hW.table_lt ht) hW.root_lt) (by decide) hd hx

/-- A table below the root is not the root. -/
theorem word_movedUp_of_table (hW : Walkable m root) (hinj : Radix.Inj 512 3 next m.word root)
    {d x t i : ℕ} (hd : d < 3) (hx : x < 512 ^ (d + 1)) (ht : table m root (d + 1) x = some t)
    (hi : i < 512) : (movedUp m root).word t i = m.word t i := by
  have hne : t ≠ root := by
    rintro rfl
    exact absurd (hinj _ _ 0 0 t (by omega) hx (by omega) (by decide) ht rfl).1 (by omega)
  have htab : IsTable m root t := isTable_of_table (by omega) hx ht
  rw [word_movedUp hW.root_lt (hW.table_lt htab) hi, if_neg fun h => hne h.1, if_neg fun h => hne h.1]

/-- A page whose slot in the p4 table is empty now. -/
theorem translation_movedUp_none (hW : Walkable m root) (hinj : Radix.Inj 512 3 next m.word root)
    {w : U64} (hσ : lowHalf (pageNo w / 512 ^ 3) = none) :
    translation (movedUp m root) root w = 0#64 := by
  have hn := pageNo_lt_pow w
  have hy := Radix.div_lt_pow (by decide) hn
  have hy' := Radix.div_lt_pow (by decide) hy
  have h2 : table (movedUp m root) root 2 (pageNo w / 512 / 512) = none := by
    rw [table_movedUp hW hinj (by omega) hy', show pageNo w / 512 / 512 / 512 ^ 1 = pageNo w / 512 ^ 3 by
      omega, hσ]
    rfl
  rw [translation, frames_of_table_none h2]
  simp only [table_three_of_none h2, if_true]

theorem lowHalf_lt {i j : ℕ} (hi : i < 512) (hσ : lowHalf i = some j) : j < 512 := by
  unfold lowHalf at hσ
  split_ifs at hσ <;> cases hσ <;> omega

theorem hugeLeaf_movedUp (hW : Walkable m root) (hinj : Radix.Inj 512 3 next m.word root) {y : ℕ}
    (hy : y < 512 ^ 3) : hugeLeaf (movedUp m root) root y =
      (lowHalf (y / 512 ^ 2)).bind fun j => hugeLeaf m root (j * 512 ^ 2 + y % 512 ^ 2) := by
  rw [hugeLeaf, table_movedUp hW hinj (by omega) (Radix.div_lt_pow (by decide) hy),
    show y / 512 / 512 ^ 1 = y / 512 ^ 2 by omega]
  cases hσ : lowHalf (y / 512 ^ 2) with
  | none => rfl
  | some j =>
    have hj := lowHalf_lt (by omega) hσ
    have hdiv : (j * 512 ^ 2 + y % 512 ^ 2) / 512 = j * 512 ^ 1 + y / 512 % 512 ^ 1 := by omega
    have hmod : (j * 512 ^ 2 + y % 512 ^ 2) % 512 = y % 512 := by omega
    rw [Option.bind_some, Option.bind_some, hugeLeaf, hdiv, hmod]
    cases ht : table m root 2 (j * 512 ^ 1 + y / 512 % 512 ^ 1) with
    | none => rfl
    | some t =>
      rw [Option.bind_some, Option.bind_some, word_movedUp_of_table hW hinj (by omega) (by omega) ht
        (Nat.mod_lt _ (by decide))]

/-- A page is mapped as the page that was in its slot of the p4 table. -/
theorem frames_movedUp (hW : Walkable m root) (hinj : Radix.Inj 512 3 next m.word root) {n : ℕ}
    (hn : n < 512 ^ 4) : frames (movedUp m root) root n =
      (lowHalf (n / 512 ^ 3)).bind fun j => frames m root (j * 512 ^ 3 + n % 512 ^ 3) := by
  have hy := Radix.div_lt_pow (by decide) hn
  rw [frames, hugeLeaf_movedUp hW hinj hy, table_movedUp hW hinj (by omega) hy,
    show n / 512 / 512 ^ 2 = n / 512 ^ 3 by omega]
  cases hσ : lowHalf (n / 512 ^ 3) with
  | none => rfl
  | some j =>
    have hj := lowHalf_lt (by omega) hσ
    have hdiv : (j * 512 ^ 3 + n % 512 ^ 3) / 512 = j * 512 ^ 2 + n / 512 % 512 ^ 2 := by omega
    have hmod : (j * 512 ^ 3 + n % 512 ^ 3) % 512 = n % 512 := by omega
    rw [Option.bind_some, Option.bind_some, Option.bind_some, frames, hdiv, hmod]
    cases hugeLeaf m root (j * 512 ^ 2 + n / 512 % 512 ^ 2) with
    | some f => rfl
    | none =>
      cases ht : table m root 3 (j * 512 ^ 2 + n / 512 % 512 ^ 2) with
      | none => rfl
      | some t =>
        simp only [Option.bind_some]
        rw [word_movedUp_of_table hW hinj (by omega) (by omega) ht (Nat.mod_lt _ (by decide))]

/-- A page is translated as the page that was in its slot of the p4 table. -/
theorem translation_movedUp_some (hW : Walkable m root) (hinj : Radix.Inj 512 3 next m.word root)
    {v w : U64} {j : ℕ} (hσ : lowHalf (pageNo w / 512 ^ 3) = some j)
    (hv : pageNo v = j * 512 ^ 3 + pageNo w % 512 ^ 3) (hoff : v.toNat % 4096 = w.toNat % 4096) :
    translation (movedUp m root) root w = translation m root v := by
  have hn := pageNo_lt_pow w
  have hy := Radix.div_lt_pow (by decide) hn
  have h3 : table (movedUp m root) root 3 (pageNo w / 512) = table m root 3 (pageNo v / 512) := by
    rw [table_movedUp hW hinj (by omega) hy, show pageNo w / 512 / 512 ^ 2 = pageNo w / 512 ^ 3 by
      omega, hσ, Option.bind_some, hv]
    congr 1
    omega
  rw [translation, translation, frames_movedUp hW hinj hn, hσ, Option.bind_some, ← hv, h3, hoff]

/-- The tables after the move were tables before. -/
theorem isTable_of_movedUp (hW : Walkable m root) (hinj : Radix.Inj 512 3 next m.word root) {t : ℕ}
    (ht : IsTable (movedUp m root) root t) : IsTable m root t :=
  Radix.isNode_of_reroot hinj (reroot_movedUp rfl (fun _ ht => hW.table_lt ht) hW.root_lt) (by decide) ht

theorem Walkable.movedUp (hW : Walkable m root) (hinj : Radix.Inj 512 3 next m.word root) :
    Walkable (movedUp m root) root where
  root_lt := hW.root_lt
  frame_lt := by
    intro t ht i hi
    have ht' := isTable_of_movedUp hW hinj ht
    rw [word_movedUp hW.root_lt (hW.table_lt ht') hi]
    split_ifs with h0 h256
    · exact fun h => absurd rfl h
    · exact hW.frame_lt isTable_root (by omega)
    · exact hW.frame_lt ht' hi

theorem Tree.movedUp {used : Set ℕ} (hT : Tree m root used) : Tree (movedUp m root) root used where
  inj := hT.inj.reroot (reroot_movedUp rfl (fun _ ht => hT.table_lt ht) (hT.table_lt isTable_root))
    (by decide)
  mem_used ht := hT.mem_used (isTable_of_movedUp hT.readable.walkable hT.inj ht)
  table_lt ht := hT.table_lt (isTable_of_movedUp hT.readable.walkable hT.inj ht)
  frame_lt := (hT.readable.walkable.movedUp hT.inj).frame_lt
  not_huge := by
    have hW := hT.readable.walkable
    intro d x t hd hx ht i hi
    cases d with
    | zero =>
      obtain rfl : root = t := Option.some.inj ht
      rw [word_movedUp hW.root_lt hW.root_lt hi]
      split_ifs
      · decide
      · exact hT.not_huge (by decide) (show 0 < 512 ^ 0 by decide) rfl (by decide)
      · exact hT.not_huge (by decide) (show 0 < 512 ^ 0 by decide) rfl hi
    | succ d =>
      obtain ⟨j, -, hlt, ht'⟩ := Radix.exists_of_node_reroot hT.inj
        (reroot_movedUp rfl (fun _ ht => hT.table_lt ht) hW.root_lt) (by decide) (by omega) hx ht
      rw [word_movedUp_of_table hW hT.inj (by omega) hlt ht' hi]
      exact hT.not_huge hd hlt ht' hi
  dvd := by
    intro y f hy hl
    rw [hugeLeaf_movedUp hT.readable.walkable hT.inj hy] at hl
    obtain ⟨j, hσ, hl⟩ := Option.bind_eq_some_iff.1 hl
    have hj := lowHalf_lt (by omega) hσ
    exact hT.dvd (by omega) hl

/-- **Into the higher half.**  The function returns, and afterwards the kernel pointer of a physical
address below 512GB is translated as the address itself was before, the addresses below 512GB are not
mapped any more, and all others are translated as before. -/
theorem higherHalfInit_translate {s : Kernel ρ} (hW : Walkable s.memory root)
    (hinj : Radix.Inj 512 3 next s.memory.word root) :
    ∃ s', higherHalfInit (BitVec.ofNat 64 (4096 * root)) s =
        Except.ok (BitVec.ofNat 64 (4096 * root), s') ∧
      (∀ a : U64, a.toNat < 2 ^ 39 → ∃ x, translate (pagePtr root) a s = Except.ok (x, s) ∧
        translate (pagePtr root) (a + kernelSpaceBegin) s' = Except.ok (x, s')) ∧
      (∀ a : U64, (pageTableIndices a).p4 = 0 →
        translate (pagePtr root) a s' = Except.ok (0#64, s')) ∧
      (∀ a : U64, (pageTableIndices a).p4 ≠ 0 → (pageTableIndices a).p4 ≠ 256 →
        ∃ x, translate (pagePtr root) a s = Except.ok (x, s) ∧
          translate (pagePtr root) a s' = Except.ok (x, s')) ∧
      ∀ p < windowPages, p ≠ root → ∀ i < 512, s'.memory.word p i = s.memory.word p i := by
  have hp4 : ∀ a : U64, (pageTableIndices a).p4 = pageNo a / 512 ^ 3 := by
    intro a
    have := pageNo_lt a
    rw [pageTableIndices_eq]
    simp only
    omega
  have hW' := hW.movedUp hinj
  refine ⟨{ s with memory := movedUp s.memory root },
    eq_ok_of_wp (wp_mono (wp_higherHalfInit root s) fun _ _ h => h), ?_, ?_, ?_, ?_⟩
  · intro a ha
    refine ⟨translation s.memory root a, hW.translate_eq a, ?_⟩
    have hsum : (a + kernelSpaceBegin).toNat = a.toNat + 0xffff800000000000 := by
      rw [BitVec.toNat_add, kernelSpaceBegin_toNat]
      omega
    have hno : pageNo (a + kernelSpaceBegin) = 256 * 512 ^ 3 + pageNo a ∧ pageNo a < 512 ^ 3 := by
      unfold pageNo
      rw [hsum]
      omega
    rw [hW'.translate_eq, translation_movedUp_some hW hinj (v := a) (j := 0)]
    · rw [show pageNo (a + kernelSpaceBegin) / 512 ^ 3 = 256 by omega]
      rfl
    · omega
    · rw [hsum]
      omega
  · intro a ha
    rw [hp4] at ha
    rw [hW'.translate_eq, translation_movedUp_none hW hinj]
    rw [ha]
    rfl
  · intro a h0 h256
    rw [hp4] at h0 h256
    refine ⟨translation s.memory root a, hW.translate_eq a, ?_⟩
    rw [hW'.translate_eq, translation_movedUp_some hW hinj (v := a) (j := pageNo a / 512 ^ 3) _ _ rfl]
    · rw [lowHalf, if_neg h256, if_neg h0]
    · omega
  · intro p hp hne i hi
    exact (word_movedUp hW.root_lt hp hi).trans (by
      rw [if_neg fun h => hne h.1, if_neg fun h => hne h.1])

/-- The page at `0x1000` of table 4. -/
theorem higherHalfInit_translate_one_page : ∃ s' : Kernel (List ℕ),
    higherHalfInit (BitVec.ofNat 64 (4096 * 4)) (twoPages 21) =
      Except.ok (BitVec.ofNat 64 (4096 * 4), s') ∧
      translate (pagePtr 4) (0x1000#64 + kernelSpaceBegin) s' = Except.ok (pagePtr 20, s') := by
  have hT := (twoPages_built (Or.inl rfl : 21 = 21 ∨ 21 = 30)).tree
  obtain ⟨s', hrun, hlow, -⟩ := higherHalfInit_translate hT.readable.walkable hT.inj
  obtain ⟨x, hx, hx'⟩ := hlow 0x1000#64 (by decide)
  have h20 : translate (pagePtr 4) 0x1000#64 (twoPages 21) = Except.ok (pagePtr 20, twoPages 21) := rfl
  rw [h20] at hx
  cases hx
  exact ⟨s', hrun, hx'⟩

end HigherHalf

/-! ### `destroy_bootboot_table` -/

/-- `unsafe_mark_memory_usability(table, 1, true)`. -/
def markPage (table : U64) : Kern (Kernel MemGlobals) Unit := fun s =>
  match onHeap (unsafeMarkMemoryUsability table 1 true) (s.memory, s.source) with
  | .ok (_, m, g) => .ok ((), { s with memory := m, source := g })
  | .error e => .error e

/-- `destroy_bb_table_inner`; the first argument is `level`. -/
def destroyBbTableInner (level : ℕ) (table entry : U64) : Kern (Kernel MemGlobals) Unit :=
  destroyWith (fun table => do
    markPage table
    releasePage table) level table entry

/-- `destroy_bootboot_table`. -/
def destroyBootbootTable (p4 : U64) : Kern (Kernel MemGlobals) Unit := destroyBbTableInner 4 p4 0#64

section Reclaim

variable {N root : ℕ} {s₀ s : Kernel MemGlobals}

/-- From `s₀` to `s` the pages `pages` became usable and free, in this order. -/
structure Reclaimed (N : ℕ) (s₀ s : Kernel MemGlobals) (pages : List ℕ) : Prop where
  inv : Inv N ⟨s.memory, s.source⟩
  freeSet : ∀ p, p ∈ s.source.freeSet ↔ p ∈ s₀.source.freeSet ∨ p ∈ pages
  usable : ∀ p, s.source.usablePages.test p = true ↔
    s₀.source.usablePages.test p = true ∨ p ∈ pages
  released : s.released = (pages.map pagePtr).reverse ++ s₀.released
  obtained : s.obtained = s₀.obtained
  word : ∀ p ∉ s₀.source.freeSet, p ∉ pages → p < windowPages → ∀ i < 512,
    s.memory.word p i = s₀.memory.word p i

theorem Reclaimed.refl (hI : Inv N ⟨s.memory, s.source⟩) : Reclaimed N s s [] where
  inv := hI
  freeSet := by simp
  usable := by simp
  released := rfl
  obtained := rfl
  word _ _ _ _ _ _ := rfl

/-- The page is in use, and can be made usable. -/
theorem wp_markPage (hI : Inv N ⟨s.memory, s.source⟩) {t : ℕ} (hN : t < N)
    (hfree : t ∉ s.source.freeSet) : wp (markPage (pagePtr t)) (fun _ s' =>
      ∃ g, s' = { s with source := g } ∧ Inv N ⟨s.memory, g⟩ ∧
        g.freeSet = s.source.freeSet ∧
        ∀ p, g.usablePages.test p = true ↔ s.source.usablePages.test p = true ∨ p = t) s := by
  have hlt : t < windowPages := hN.trans_le hI.le_window
  have hIco : ∀ q ∈ Set.Ico t (t + 1), q ∉ s.source.freeSet := by
    intro q hq
    rw [Set.mem_Ico] at hq
    rwa [show q = t by omega]
  obtain ⟨_, h, hrun, hM⟩ := wp_unsafeMarkMemoryUsability (c := 1) hI (by omega) hlt hIco true
  have hmem : h.memory = s.memory := hM.memory
  refine ⟨(), { s with memory := h.memory, source := h.globals }, ?_, h.globals, ?_, ?_, hM.freeSet, ?_⟩
  · rw [markPage, onHeap, show unsafeMarkMemoryUsability (pagePtr t) 1 true ⟨s.memory, s.source⟩ = _ from
      hrun]
  · rw [hmem]
  · rw [← hmem]
    exact hM.inv
  · intro p
    rw [hM.usable.test_eq]
    split_ifs with hp
    · simp [show p = t by omega]
    · simp [show p ≠ t by omega]

/-- What `destroy_bb_table_inner` does with a table: it becomes usable and free. -/
theorem wp_reclaimPage {pages : List ℕ} {t : ℕ} (hR : Reclaimed N s₀ s pages) (hN : t < N)
    (hfree : t ∉ s₀.source.freeSet) (hnew : t ∉ pages) :
    wp (do
      markPage (pagePtr t)
      releasePage (pagePtr t)) (fun _ s' => Reclaimed N s₀ s' (pages ++ [t])) s := by
  have hlt : t < windowPages := hN.trans_le hR.inv.le_window
  have hfree' : t ∉ s.source.freeSet := by
    rw [hR.freeSet]
    tauto
  have hIco : ∀ p, p ∈ Set.Ico t (t + 1) ↔ p = t := by
    intro p
    rw [Set.mem_Ico]
    omega
  rw [wp_bind]
  refine wp_mono (wp_markPage hR.inv hN hfree') ?_
  rintro _ s₁ ⟨g, rfl, hI, hF, hU⟩
  have husable : ∀ q ∈ Set.Ico t (t + 1), g.usablePages.test q = true :=
    fun q hq => (hU q).2 (Or.inr ((hIco q).1 hq))
  have hnot : ∀ q ∈ Set.Ico t (t + 1), q ∉ g.freeSet := by
    intro q hq
    rwa [(hIco q).1 hq, hF]
  obtain ⟨_, h, hrun, hRel⟩ := wp_releasePages (c := 1) hI (by omega) hlt husable hnot
  have hset : ∀ p, p ∈ h.globals.freeSet ↔ p ∈ s.source.freeSet ∨ p = t := by
    intro p
    rw [hRel.freeSet, Set.mem_union, hIco]
    change p ∈ g.freeSet ∨ p = t ↔ _
    rw [hF]
  refine ⟨(), { s with memory := h.memory, source := h.globals, released := pagePtr t :: s.released },
    ?_, hRel.inv, ?_, ?_, ?_, hR.obtained, ?_⟩
  · rw [releasePage, onHeap, show releasePages (pagePtr t) 1 ⟨s.memory, g⟩ = _ from hrun]
  · intro p
    rw [hset, hR.freeSet, List.mem_append, List.mem_singleton, or_assoc]
  · intro p
    rw [hRel.usablePages, hU, hR.usable, List.mem_append, List.mem_singleton, or_assoc]
  · change pagePtr t :: s.released = _
    rw [hR.released, List.map_append, List.reverse_append]
    rfl
  · intro p hp hnp hpw i hi
    rw [List.mem_append, List.mem_singleton, not_or] at hnp
    rw [← hR.word p hp hnp.1 hpw i hi]
    refine hRel.stores.word_eq hpw hi ?_
    rw [hset, hR.freeSet]
    tauto

/-- The tables of the boot loader are in use: they are pages the allocator knows of and has not got. -/
def InUse (N root : ℕ) (s : Kernel MemGlobals) : Prop :=
  ∀ t, IsBbTable s.memory root t → t < N ∧ t ∉ s.source.freeSet

theorem disposes_reclaim (hU : InUse N root s₀) (hN : N ≤ windowPages) :
    Disposes (fun table => do
      markPage table
      releasePage table) s₀.memory root (fun pages s => Reclaimed N s₀ s pages) where
  word hR ht hnew hi := hR.word _ (hU _ ht).2 hnew ((hU _ ht).1.trans_le hN) _ hi
  dispose hR ht hnew := wp_reclaimPage hR (hU _ ht).1 (hU _ ht).2 hnew

/-- `destroy_bootboot_table` reclaims exactly the tables. -/
theorem wp_destroyBootbootTable (hI : Inv N ⟨s.memory, s.source⟩) (hT : BbTree s.memory root)
    (hU : InUse N root s) : wp (destroyBootbootTable (pagePtr root)) (fun _ s' =>
      ∃ pages : List ℕ, Reclaimed N s s' pages ∧ pages.Nodup ∧
        ∀ p, p ∈ pages ↔ IsBbTable s.memory root p) s := by
  have hD := disposes_reclaim hU hI.le_window
  refine wp_mono (wp_destroyWith hT hD (l := 3) (d := 0) (x := 0) rfl (by decide) rfl (by decide)
    (Reclaimed.refl hI) (by simp)) ?_
  intro _ s' hR
  rw [List.nil_append] at hR
  refine ⟨_, hR, ?_, Radix.mem_postorder_root (by decide)⟩
  exact Radix.nodup_postorder (x := 0) (by decide) hT.inj (by omega) (by decide) rfl

/-- **The boot loader's table is reclaimed.**  If the allocator is in order and the tables are pages that
are not free, `destroy_bootboot_table` returns; each table has become usable and free, once, no mapped
page has; the count of free memory has grown by their size; the allocator is as sound as ever, and every
other page in use has its contents. -/
theorem destroyBootbootTable_reclaims (hI : Inv N ⟨s.memory, s.source⟩)
    (hT : BbTree s.memory root) (hU : InUse N root s) :
    ∃ (s' : Kernel MemGlobals) (pages : List ℕ),
      destroyBootbootTable (pagePtr root) s = Except.ok ((), s') ∧
      s'.released = (pages.map pagePtr).reverse ++ s.released ∧ pages.Nodup ∧
      (∀ p, p ∈ pages ↔ IsBbTable s.memory root p) ∧
      s'.source.freeSet = s.source.freeSet ∪ {t | IsBbTable s.memory root t} ∧
      (∀ p, s'.source.usablePages.test p = true ↔
        s.source.usablePages.test p = true ∨ IsBbTable s.memory root p) ∧
      s'.source.freeMemory = s.source.freeMemory + 4096 * pages.length ∧
      Inv N ⟨s'.memory, s'.source⟩ ∧
      ∀ p ∉ s.source.freeSet, ¬ IsBbTable s.memory root p → p < windowPages → ∀ i < 512,
        s'.memory.word p i = s.memory.word p i := by
  obtain ⟨_, s', hrun, pages, hR, hnodup, hmem⟩ := wp_destroyBootbootTable hI hT hU
  have hset : s'.source.freeSet = s.source.freeSet ∪ {t | IsBbTable s.memory root t} := by
    ext p
    rw [hR.freeSet, hmem]
    rfl
  refine ⟨s', pages, hrun, hR.released, hnodup, hmem, hset, fun p => by rw [hR.usable, hmem], ?_,
    hR.inv, fun p hp hnt => hR.word p hp fun h => hnt ((hmem p).1 h)⟩
  obtain ⟨hcount, hfin⟩ := hI.freeMemory_eq_ncard
  obtain ⟨hcount', -⟩ := hR.inv.freeMemory_eq_ncard
  have hpages : {t | IsBbTable s.memory root t} = (pages.toFinset : Set ℕ) := by
    ext p
    rw [Set.mem_ofPred_eq, Finset.mem_coe, List.mem_toFinset, hmem]
  have hdis : Disjoint s.source.freeSet {t | IsBbTable s.memory root t} :=
    Set.disjoint_right.2 fun t ht => (hU t ht).2
  have hcard : s'.source.freeSet.ncard = s.source.freeSet.ncard + pages.length := by
    rw [hset, Set.ncard_union_eq hdis hfin (by rw [hpages]; exact Finset.finite_toSet _), hpages,
      Set.ncard_coe_finset, List.toFinset_card_of_nodup hnodup]
  change s'.source.freeMemory = _ at hcount'
  change s.source.freeMemory = _ at hcount
  rw [hcount', hcount]
  change 4096 * (s'.source.freeSet.ncard : ℤ) = 4096 * (s.source.freeSet.ncard : ℤ) + _
  rw [hcard]
  push_cast
  ring

/-- Tables in the pages 0, 1 and 2, a 1GB page in the second and a 2MB page in the third. -/
def threeTables (m : Memory) : Memory :=
  (((m.store (cell 0 0) (pte 1 1#64)).store (cell 1 0) (pte 2 1#64)).store (cell 1 1)
    (pte 0x40000 0x81#64)).store (cell 2 1) (pte 512 0x81#64)

theorem word_threeTables {m : Memory} (hm : ∀ p < 3, ∀ i < 512, m.word p i = 0#64) {p i : ℕ}
    (hp : p < 3) (hi : i < 512) : (threeTables m).word p i =
      if p = 2 ∧ i = 1 then pte 512 0x81#64 else if p = 1 ∧ i = 1 then pte 0x40000 0x81#64
      else if p = 1 ∧ i = 0 then pte 2 1#64 else if p = 0 ∧ i = 0 then pte 1 1#64 else 0#64 := by
  have hlt : ∀ q < 3, q < windowPages := fun q hq => hq.trans (by decide)
  rw [threeTables, Memory.word_store _ _ (hlt 2 (by decide)) (hlt p hp) (by decide) hi,
    Memory.word_store _ _ (hlt 1 (by decide)) (hlt p hp) (by decide) hi,
    Memory.word_store _ _ (hlt 1 (by decide)) (hlt p hp) (by decide) hi,
    Memory.word_store _ _ (hlt 0 (by decide)) (hlt p hp) (by decide) hi, hm p hp i hi]

/-- Each table hangs in the first entry of the one before. -/
theorem bbTable_threeTables {m : Memory} (hm : ∀ p < 3, ∀ i < 512, m.word p i = 0#64) {d x t : ℕ}
    (hd : d ≤ 3) (hx : x < 512 ^ d) :
    bbTable (threeTables m) 0 d x = some t ↔ x = 0 ∧ t = d ∧ d < 3 := by
  induction d generalizing x t with
  | zero =>
    obtain rfl : x = 0 := by omega
    simp [bbTable, Radix.node, eq_comm]
  | succ d ih =>
    have hx' := Radix.div_lt_pow (by decide) hx
    have hi : x % 512 < 512 := Nat.mod_lt x (by decide)
    rw [bbTable, Radix.node_succ]
    change (bbTable (threeTables m) 0 d (x / 512)).bind _ = _ ↔ _
    rw [Option.bind_eq_some_iff]
    constructor
    · rintro ⟨p, hp, hnext⟩
      obtain ⟨h0, rfl, hp3⟩ := (ih (by omega) hx').1 hp
      rw [word_threeTables hm hp3 hi] at hnext
      split_ifs at hnext with c1 c2 c3 c4
      · cases hnext
      · cases hnext
      · obtain rfl : 2 = t := Option.some.inj hnext
        omega
      · obtain rfl : 1 = t := Option.some.inj hnext
        omega
      · cases hnext
    · rintro ⟨rfl, rfl, hd3⟩
      refine ⟨d, (ih (by omega) hx').2 ⟨rfl, rfl, by omega⟩, ?_⟩
      rw [word_threeTables hm (by omega) hi]
      obtain rfl | rfl : d = 0 ∨ d = 1 := by omega
      · rfl
      · rfl

theorem bbTree_threeTables {m : Memory} (hm : ∀ p < 3, ∀ i < 512, m.word p i = 0#64) :
    BbTree (threeTables m) 0 where
  inj := by
    intro d x d' x' t hd hx hd' hx' ht ht'
    obtain ⟨rfl, rfl, -⟩ := (bbTable_threeTables hm hd hx).1 ht
    obtain ⟨rfl, rfl, -⟩ := (bbTable_threeTables hm hd' hx').1 ht'
    exact ⟨rfl, rfl⟩
  root_lt := by decide
  frame_lt := by
    intro d x t hd hx ht i hi h0
    obtain ⟨rfl, rfl, hd3⟩ := (bbTable_threeTables hm hd.le hx).1 ht
    rw [word_threeTables hm hd3 hi] at h0 ⊢
    split_ifs at h0 ⊢ <;> decide

theorem isBbTable_threeTables {m : Memory} (hm : ∀ p < 3, ∀ i < 512, m.word p i = 0#64) {t : ℕ} :
    IsBbTable (threeTables m) 0 t ↔ t < 3 := by
  constructor
  · rintro ⟨d, x, hd, hx, ht⟩
    obtain ⟨-, rfl, hd3⟩ := (bbTable_threeTables hm hd hx).1 ht
    exact hd3
  · intro ht
    exact ⟨t, 0, ht.le, Nat.pow_pos (by decide), (bbTable_threeTables hm ht.le
      (Nat.pow_pos (by decide))).2 ⟨rfl, rfl, ht⟩⟩

/-- Three tables with a 1GB and a 2MB page. -/
theorem destroyBootbootTable_reclaims_three_tables : ∃ s s' : Kernel MemGlobals,
    s.memory.word 1 1 = pte 0x40000 0x81#64 ∧ s.memory.word 2 1 = pte 512 0x81#64 ∧
      destroyBootbootTable (pagePtr 0) s = Except.ok ((), s') ∧
      s'.source.freeSet = s.source.freeSet ∪ {t | t < 3} ∧
      s'.source.freeMemory = s.source.freeMemory + 4096 * 3 := by
  obtain ⟨h, hr, hF, hst⟩ := exists_reachable_released (p := 3) (c := 5) (N := 4096) (by decide)
    (by decide) (by decide) (by decide) ⟨fun _ => 0#64, []⟩
  have hused : ∀ p < 3, p ∉ h.globals.freeSet := by
    intro p hp
    rw [hF, Set.mem_Ico]
    omega
  have hm : ∀ p < 3, ∀ i < 512, h.memory.word p i = 0#64 := by
    intro p hp i hi
    refine hst.word_eq (hp.trans (by decide)) hi ?_
    rw [Set.mem_Ico]
    omega
  let s : Kernel MemGlobals := ⟨threeTables h.memory, h.globals, [], []⟩
  have hcell : ∀ {m' : Memory} {p i : ℕ} {v : U64}, p < 3 → i < 512 → Inv 4096 ⟨m', h.globals⟩ →
      Inv 4096 ⟨m'.store (cell p i) v, h.globals⟩ := fun hp hi hI =>
    hI.of_stores (storesIn_cell (hp.trans (by decide)) hi (hused _ hp))
  have hI : Inv 4096 ⟨s.memory, s.source⟩ := hcell (by decide) (by decide) (hcell (by decide)
    (by decide) (hcell (by decide) (by decide) (hcell (by decide) (by decide) hr.inv)))
  have hU : InUse 4096 0 s := by
    intro t ht
    have ht3 : t < 3 := (isBbTable_threeTables hm).1 ht
    exact ⟨ht3.trans (by decide), hused t ht3⟩
  obtain ⟨s', pages, hrun, -, hnodup, hmem, hset, -, hfree, -⟩ :=
    destroyBootbootTable_reclaims hI (bbTree_threeTables hm) hU
  have hpages : ∀ p, p ∈ pages ↔ p < 3 := fun p => (hmem p).trans (isBbTable_threeTables hm)
  have hlength : pages.length = 3 := by
    have hperm : pages.Perm (List.range 3) := (List.perm_ext_iff_of_nodup hnodup List.nodup_range).2
      fun p => by rw [hpages, List.mem_range]
    exact hperm.length_eq.trans List.length_range
  rw [hlength, Nat.cast_ofNat] at hfree
  have h1GB : s.memory.word 1 1 = pte 0x40000 0x81#64 := by
    rw [word_threeTables hm (by decide) (by decide)]
    simp
  have h2MB : s.memory.word 2 1 = pte 512 0x81#64 := by
    rw [word_threeTables hm (by decide) (by decide)]
    simp
  have htables : {t | IsBbTable s.memory 0 t} = {t | t < 3} := by
    ext t
    exact isBbTable_threeTables hm
  rw [htables] at hset
  exact ⟨s, s', h1GB, h2MB, hrun, hset, hfree⟩

end Reclaim

end Dumboss.PageTable
