import Dumboss.PageTable.Copy

/-!
# What `translate` and `region_size` answer

`translate` returns `NULL` for an address whose walk ends at a zero entry of the p4, p3 or p2 table.  At
a zero entry of a p1 table it adds the offset inside the page to `NULL`.

* `p4Entry` … `p1Entry`, `MeetsZero`, `leafAddress`: the entries that a walk reads, and where it leads;
* `translation_eq_walk`: the answer of `translate` in terms of them;
* `translate_exact_iff`: the addresses for which `translate` answers `NULL` exactly if they are not
  mapped;
* `regionSize_greatest`: `region_size` returns, and finds the longest run of mapped pages.
-/

namespace Dumboss.PageTable

open Prog

variable {ρ : Type} {m : Memory} {root : ℕ} {s : Kernel ρ} {v : U64}

/-! ### The walk -/

/-- The entry for `v` in the p4 table. -/
def p4Entry (m : Memory) (root : ℕ) (v : U64) : U64 := m.word root (pageTableIndices v).p4

/-- The entry for `v` in the p3 table, if the entry before is not zero. -/
def p3Entry (m : Memory) (root : ℕ) (v : U64) : U64 :=
  m.word (frame (p4Entry m root v)) (pageTableIndices v).p3

/-- The entry for `v` in the p2 table, if the entries before are not zero. -/
def p2Entry (m : Memory) (root : ℕ) (v : U64) : U64 :=
  m.word (frame (p3Entry m root v)) (pageTableIndices v).p2

/-- The entry for `v` in the p1 table, if the entries before are not zero and lead to one. -/
def p1Entry (m : Memory) (root : ℕ) (v : U64) : U64 :=
  m.word (frame (p2Entry m root v)) (pageTableIndices v).p1

/-- The walk for `v` meets a zero entry above the p1 table. -/
def MeetsZeroAbove (m : Memory) (root : ℕ) (v : U64) : Prop :=
  p4Entry m root v = 0#64 ∨ p3Entry m root v = 0#64 ∨ p2Entry m root v = 0#64

/-- The walk for `v` meets a zero entry. -/
def MeetsZero (m : Memory) (root : ℕ) (v : U64) : Prop :=
  MeetsZeroAbove m root v ∨ ¬ huge (p2Entry m root v) ∧ p1Entry m root v = 0#64

/-- Where the walk for `v` leads, if it meets no zero entry. -/
def leafAddress (m : Memory) (root : ℕ) (v : U64) : U64 :=
  if huge (p2Entry m root v) then
    pagePtr (frame (p2Entry m root v)) + BitVec.ofNat 64 (v.toNat % 2 ^ 21)
  else pagePtr (frame (p1Entry m root v)) + BitVec.ofNat 64 (v.toNat % 4096)

instance (m : Memory) (root : ℕ) (v : U64) : Decidable (MeetsZeroAbove m root v) :=
  inferInstanceAs (Decidable (_ ∨ _ ∨ _))

instance (m : Memory) (root : ℕ) (v : U64) : Decidable (MeetsZero m root v) :=
  inferInstanceAs (Decidable (_ ∨ _ ∧ _))

theorem next_of_ne_zero {d : ℕ} (hd : d ≠ 2) {e : U64} (he : e ≠ 0#64) :
    next d e = some (frame e) := by
  rw [next, if_neg]
  rintro (h | h)
  · exact he h
  · exact hd h.1

theorem next_zero (d : ℕ) : next d 0#64 = none := if_pos (Or.inl rfl)

theorem table_one : table m root 1 (pageNo v / 512 / 512 / 512) = next 0 (p4Entry m root v) := by
  rw [p4Entry, pageTableIndices_eq, table_succ, table_zero]
  rfl

theorem table_two (h4 : p4Entry m root v ≠ 0#64) :
    table m root 2 (pageNo v / 512 / 512) = next 1 (p3Entry m root v) := by
  rw [table_succ, table_one, next_of_ne_zero (by decide) h4, p3Entry, pageTableIndices_eq]
  rfl

theorem table_two_eq (h4 : p4Entry m root v ≠ 0#64) (h3 : p3Entry m root v ≠ 0#64) :
    table m root 2 (pageNo v / 512 / 512) = some (frame (p3Entry m root v)) := by
  rw [table_two h4, next_of_ne_zero (by decide) h3]

theorem table_three (h4 : p4Entry m root v ≠ 0#64) (h3 : p3Entry m root v ≠ 0#64) :
    table m root 3 (pageNo v / 512) = next 2 (p2Entry m root v) := by
  rw [table_succ, table_two_eq h4 h3, p2Entry, pageTableIndices_eq]
  rfl

theorem hugeLeaf_eq_leaf2MB (h4 : p4Entry m root v ≠ 0#64) (h3 : p3Entry m root v ≠ 0#64) :
    hugeLeaf m root (pageNo v / 512) = leaf2MB (p2Entry m root v) := by
  rw [hugeLeaf, table_two_eq h4 h3, p2Entry, pageTableIndices_eq]
  rfl

theorem table_eq_none_of_meetsZeroAbove (h : MeetsZeroAbove m root v) :
    table m root 3 (pageNo v / 512) = none ∧ hugeLeaf m root (pageNo v / 512) = none := by
  by_cases h4 : p4Entry m root v = 0#64
  · have h2 : table m root 2 (pageNo v / 512 / 512) = none := by
      rw [table_succ, table_one, h4, next_zero]
      rfl
    exact ⟨table_three_of_none h2, by rw [hugeLeaf, h2]; rfl⟩
  by_cases h3 : p3Entry m root v = 0#64
  · have h2 : table m root 2 (pageNo v / 512 / 512) = none := by
      rw [table_two h4, h3, next_zero]
    exact ⟨table_three_of_none h2, by rw [hugeLeaf, h2]; rfl⟩
  · have h2 : p2Entry m root v = 0#64 := (h.resolve_left h4).resolve_left h3
    refine ⟨by rw [table_three h4 h3, h2, next_zero], ?_⟩
    rw [hugeLeaf_eq_leaf2MB h4 h3, h2, leaf2MB, if_neg fun hc => hc.1 rfl]

/-- The offset inside a 2MB page. -/
theorem pagePtr_add_offset (f : ℕ) (v : U64) :
    pagePtr (f + pageNo v % 512) + BitVec.ofNat 64 (v.toNat % 4096) =
      pagePtr f + BitVec.ofNat 64 (v.toNat % 2 ^ 21) := by
  apply BitVec.eq_of_toNat_eq
  simp only [pagePtr, pageNo, BitVec.toNat_add, BitVec.toNat_ofNat]
  omega

theorem not_meetsZeroAbove (h : ¬ MeetsZeroAbove m root v) :
    p4Entry m root v ≠ 0#64 ∧ p3Entry m root v ≠ 0#64 ∧ p2Entry m root v ≠ 0#64 :=
  ⟨fun h4 => h (Or.inl h4), fun h3 => h (Or.inr (Or.inl h3)), fun h2 => h (Or.inr (Or.inr h2))⟩

theorem frames_of_huge (h : ¬ MeetsZeroAbove m root v) (hh : huge (p2Entry m root v)) :
    frames m root (pageNo v) = some (frame (p2Entry m root v) + pageNo v % 512) := by
  obtain ⟨h4, h3, h2⟩ := not_meetsZeroAbove h
  apply frames_of_hugeLeaf
  rw [hugeLeaf_eq_leaf2MB h4 h3, leaf2MB, if_pos ⟨h2, hh⟩]

theorem table_of_not_huge (h : ¬ MeetsZeroAbove m root v) (hh : ¬ huge (p2Entry m root v)) :
    table m root 3 (pageNo v / 512) = some (frame (p2Entry m root v)) := by
  obtain ⟨h4, h3, h2⟩ := not_meetsZeroAbove h
  rw [table_three h4 h3, next, if_neg]
  rintro (h0 | h0)
  · exact h2 h0
  · exact hh h0.2

theorem frames_of_not_huge (h : ¬ MeetsZeroAbove m root v) (hh : ¬ huge (p2Entry m root v)) :
    frames m root (pageNo v) = leaf4KB (p1Entry m root v) := by
  rw [frames_of_table (table_of_not_huge h hh), p1Entry, pageTableIndices_eq]

/-- **The answer of `translate`**, entry by entry. -/
theorem translation_eq_walk : translation m root v =
    if MeetsZeroAbove m root v then 0#64
    else if ¬ huge (p2Entry m root v) ∧ p1Entry m root v = 0#64 then
      BitVec.ofNat 64 (v.toNat % 4096)
    else leafAddress m root v := by
  split_ifs with habove hzero
  · obtain ⟨h3, hleaf⟩ := table_eq_none_of_meetsZeroAbove habove
    rw [translation, frames, hleaf, h3]
    rfl
  · rw [translation, frames_of_not_huge habove hzero.1, leaf4KB, if_pos hzero.2,
      table_of_not_huge habove hzero.1]
    rfl
  · unfold leafAddress
    split_ifs with hh
    · rw [translation_of_frames (frames_of_huge habove hh)]
      exact pagePtr_add_offset _ v
    · have h1 : p1Entry m root v ≠ 0#64 := fun h1 => hzero ⟨hh, h1⟩
      have hframe : frames m root (pageNo v) = some (frame (p1Entry m root v)) := by
        rw [frames_of_not_huge habove hh, leaf4KB, if_neg h1]
      rw [translation_of_frames hframe]

/-! ### The addresses of one page -/

theorem pageNo_pageBase (v : U64) : pageNo (pageBase v) = pageNo v := by
  rw [pageNo, pageNo, pageBase, BitVec.toNat_ofNat]
  omega

/-- The walk is the same for all addresses of a page. -/
theorem entries_pageBase (m : Memory) (root : ℕ) (v : U64) :
    p4Entry m root (pageBase v) = p4Entry m root v ∧ p3Entry m root (pageBase v) = p3Entry m root v ∧
      p2Entry m root (pageBase v) = p2Entry m root v ∧
      p1Entry m root (pageBase v) = p1Entry m root v := by
  have h4 : p4Entry m root (pageBase v) = p4Entry m root v := by
    rw [p4Entry, p4Entry, pageTableIndices_eq, pageTableIndices_eq, pageNo_pageBase]
  have h3 : p3Entry m root (pageBase v) = p3Entry m root v := by
    rw [p3Entry, p3Entry, h4, pageTableIndices_eq, pageTableIndices_eq, pageNo_pageBase]
  have h2 : p2Entry m root (pageBase v) = p2Entry m root v := by
    rw [p2Entry, p2Entry, h3, pageTableIndices_eq, pageTableIndices_eq, pageNo_pageBase]
  refine ⟨h4, h3, h2, ?_⟩
  rw [p1Entry, p1Entry, h2, pageTableIndices_eq, pageTableIndices_eq, pageNo_pageBase]

theorem leafAddress_pageBase (m : Memory) (root : ℕ) (v : U64) :
    leafAddress m root v = leafAddress m root (pageBase v) + BitVec.ofNat 64 (v.toNat % 4096) := by
  obtain ⟨-, -, h2, h1⟩ := entries_pageBase m root v
  rw [leafAddress, leafAddress, h2, h1]
  split_ifs
  · apply BitVec.eq_of_toNat_eq
    simp only [pagePtr, pageBase, BitVec.toNat_add, BitVec.toNat_ofNat]
    omega
  · apply BitVec.eq_of_toNat_eq
    simp only [pagePtr, pageBase, BitVec.toNat_add, BitVec.toNat_ofNat]
    omega

/-- What `translate` should answer for `v` and for the other addresses of its page. -/
structure ExactAt (root : ℕ) (s : Kernel ρ) (v : U64) : Prop where
  null_iff : translate (pagePtr root) v s = Except.ok (0#64, s) ↔ MeetsZero s.memory root v
  leaf : ¬ MeetsZero s.memory root v →
    translate (pagePtr root) v s = Except.ok (leafAddress s.memory root v, s)
  /-- All addresses of the page are translated, or none is. -/
  page_null_iff : translate (pagePtr root) v s = Except.ok (0#64, s) ↔
    translate (pagePtr root) (pageBase v) s = Except.ok (0#64, s)
  page : ∀ a b, translate (pagePtr root) v s = Except.ok (a, s) →
    translate (pagePtr root) (pageBase v) s = Except.ok (b, s) → a ≠ 0#64 →
    a = b + BitVec.ofNat 64 (v.toNat % 4096)

/-- The walk for `v` ends at a zero entry of a p1 table. -/
def NoPage (m : Memory) (root : ℕ) (v : U64) : Prop :=
  ¬ MeetsZeroAbove m root v ∧ ¬ huge (p2Entry m root v) ∧ p1Entry m root v = 0#64

/-- The walk for `v` ends at a 2MB page, and the part of it that `v` is in starts at the end of the
kernel window. -/
def AtWindowEnd (m : Memory) (root : ℕ) (v : U64) : Prop :=
  ¬ MeetsZeroAbove m root v ∧ huge (p2Entry m root v) ∧
    frame (p2Entry m root v) + (pageTableIndices v).p1 = windowPages

theorem Walkable.translate_eq_iff (hW : Walkable s.memory root) (a : U64) :
    translate (pagePtr root) v s = Except.ok (a, s) ↔ translation s.memory root v = a := by
  rw [hW.translate_eq]
  constructor
  · intro h
    exact congrArg Prod.fst (Except.ok.inj h)
  · rintro rfl
    rfl

/-- The same about the answers. -/
theorem Walkable.exactAt_iff (hW : Walkable s.memory root) : ExactAt root s v ↔
    (translation s.memory root v = 0#64 ↔ MeetsZero s.memory root v) ∧
      (¬ MeetsZero s.memory root v → translation s.memory root v = leafAddress s.memory root v) ∧
      (translation s.memory root v = 0#64 ↔ translation s.memory root (pageBase v) = 0#64) ∧
      (translation s.memory root v ≠ 0#64 → translation s.memory root v =
        translation s.memory root (pageBase v) + BitVec.ofNat 64 (v.toNat % 4096)) := by
  constructor
  · rintro ⟨hnull, hleaf, hpage, hadd⟩
    rw [hW.translate_eq_iff] at hnull hpage
    rw [hW.translate_eq_iff] at hpage
    refine ⟨hnull, fun h => (hW.translate_eq_iff _).1 (hleaf h), hpage, fun h => ?_⟩
    exact hadd _ _ (hW.translate_eq v) (hW.translate_eq (pageBase v)) h
  · rintro ⟨hnull, hleaf, hpage, hadd⟩
    refine ⟨by rw [hW.translate_eq_iff, hnull], fun h => (hW.translate_eq_iff _).2 (hleaf h),
      by rw [hW.translate_eq_iff, hW.translate_eq_iff, hpage], fun a b ha hb hne => ?_⟩
    rw [hW.translate_eq_iff] at ha hb
    rw [← ha, ← hb]
    exact hadd (by rwa [ha])

theorem Walkable.frame_p2Entry_lt (hW : Walkable m root) (h : ¬ MeetsZeroAbove m root v) :
    frame (p2Entry m root v) < windowPages := by
  obtain ⟨h4, h3, h2⟩ := not_meetsZeroAbove h
  have hy2 := Radix.div_lt_pow (by decide) (Radix.div_lt_pow (by decide) (pageNo_lt_pow v))
  refine hW.frame_lt (isTable_of_table (by omega) hy2 (table_two_eq h4 h3)) ?_ h2
  rw [pageTableIndices_eq]
  exact Nat.mod_lt _ (by decide)

theorem Walkable.frame_p1Entry_lt (hW : Walkable m root) (h : ¬ MeetsZeroAbove m root v)
    (hh : ¬ huge (p2Entry m root v)) (h1 : p1Entry m root v ≠ 0#64) :
    frame (p1Entry m root v) < windowPages := by
  have hy3 := Radix.div_lt_pow (by decide) (pageNo_lt_pow v)
  refine hW.frame_lt (isTable_of_table le_rfl hy3 (table_of_not_huge h hh)) ?_ h1
  rw [pageTableIndices_eq]
  exact Nat.mod_lt _ (by decide)

/-- A walk that ends at a page leads to `NULL` only at the end of the kernel window. -/
theorem Walkable.leafAddress_eq_zero_iff (hW : Walkable m root) (h : ¬ MeetsZero m root v) :
    leafAddress m root v = 0#64 ↔ AtWindowEnd m root v ∧ v.toNat % 4096 = 0 := by
  obtain ⟨habove, hzero⟩ := not_or.1 h
  have hzero' : ∀ {f o : ℕ}, f < windowPages → o < 2 ^ 21 →
      (pagePtr f + BitVec.ofNat 64 o = 0#64 ↔ 4096 * f + o = 4096 * windowPages) := by
    intro f o hf ho
    rw [← BitVec.toNat_inj, BitVec.toNat_add, pagePtr_toNat hf, BitVec.toNat_ofNat,
      BitVec.toNat_ofNat]
    unfold windowPages at hf ⊢
    omega
  have hmod : v.toNat % 2 ^ 21 = 4096 * (pageNo v % 512) + v.toNat % 4096 := by
    rw [pageNo]
    omega
  have hp1 : (pageTableIndices v).p1 = pageNo v % 512 := by rw [pageTableIndices_eq]
  unfold leafAddress
  split_ifs with hh
  · rw [hzero' (hW.frame_p2Entry_lt habove) (Nat.mod_lt _ (by decide)), hmod, AtWindowEnd, hp1]
    constructor
    · intro heq
      exact ⟨⟨habove, hh, by omega⟩, by omega⟩
    · rintro ⟨⟨-, -, hend⟩, hoff⟩
      omega
  · have hlt := hW.frame_p1Entry_lt habove hh fun h1 => hzero ⟨hh, h1⟩
    have ho : v.toNat % 4096 < 4096 := Nat.mod_lt _ (by decide)
    rw [hzero' hlt (by omega)]
    constructor
    · intro heq
      omega
    · rintro ⟨⟨-, hhuge, -⟩, -⟩
      exact absurd hhuge hh

theorem meetsZeroAbove_pageBase : MeetsZeroAbove m root (pageBase v) ↔ MeetsZeroAbove m root v := by
  obtain ⟨h4, h3, h2, -⟩ := entries_pageBase m root v
  rw [MeetsZeroAbove, MeetsZeroAbove, h4, h3, h2]

theorem meetsZero_pageBase : MeetsZero m root (pageBase v) ↔ MeetsZero m root v := by
  obtain ⟨-, -, h2, h1⟩ := entries_pageBase m root v
  rw [MeetsZero, MeetsZero, meetsZeroAbove_pageBase, h2, h1]

theorem atWindowEnd_pageBase : AtWindowEnd m root (pageBase v) ↔ AtWindowEnd m root v := by
  obtain ⟨-, -, h2, -⟩ := entries_pageBase m root v
  rw [AtWindowEnd, AtWindowEnd, meetsZeroAbove_pageBase, h2, pageTableIndices_eq, pageTableIndices_eq,
    pageNo_pageBase]

/-- **`translate`.**  For every address of a table whose entries lead into the kernel window, the answer
is `NULL` exactly if the walk meets a zero entry, and agrees with that for the start of the page,
exactly if the address is not inside of a page that a p1 table has no entry for, and not in a 2MB page
at the end of the window. -/
theorem translate_exact_iff (hW : Walkable s.memory root) (v : U64) : ExactAt root s v ↔
    (NoPage s.memory root v → v.toNat % 4096 = 0) ∧ ¬ AtWindowEnd s.memory root v := by
  have hbase : (pageBase v).toNat % 4096 = 0 := pageBase_mod v
  rw [hW.exactAt_iff, translation_eq_walk, translation_eq_walk]
  by_cases habove : MeetsZeroAbove s.memory root v
  · rw [if_pos habove, if_pos (meetsZeroAbove_pageBase.2 habove)]
    refine iff_of_true ⟨iff_of_true rfl (Or.inl habove), ?_, Iff.rfl, ?_⟩ ⟨?_, ?_⟩
    · exact fun h => absurd (Or.inl habove) h
    · exact fun h => absurd rfl h
    · exact fun h => absurd habove h.1
    · exact fun h => h.1 habove
  rw [if_neg habove, if_neg (mt meetsZeroAbove_pageBase.1 habove)]
  obtain ⟨-, -, h2, h1⟩ := entries_pageBase s.memory root v
  rw [h2, h1, hbase]
  by_cases hzero : ¬ huge (p2Entry s.memory root v) ∧ p1Entry s.memory root v = 0#64
  · -- the offset is added to `NULL`
    have hlt : v.toNat % 4096 < 4096 := Nat.mod_lt _ (by decide)
    have hword : BitVec.ofNat 64 (v.toNat % 4096) = 0#64 ↔ v.toNat % 4096 = 0 := by
      rw [← BitVec.toNat_inj, BitVec.toNat_ofNat, BitVec.toNat_ofNat]
      omega
    rw [if_pos hzero, if_pos hzero, hword]
    have hmeets : MeetsZero s.memory root v := Or.inr hzero
    constructor
    · rintro ⟨hnull, -⟩
      exact ⟨fun _ => hnull.2 hmeets, fun h => hzero.1 h.2.1⟩
    · rintro ⟨hoff, -⟩
      have h0 := hoff ⟨habove, hzero⟩
      refine ⟨iff_of_true h0 hmeets, fun h => absurd hmeets h, iff_of_true h0 rfl, fun h => ?_⟩
      exact absurd (hword.2 h0) h
  · rw [if_neg hzero, if_neg hzero]
    have hmeets : ¬ MeetsZero s.memory root v := not_or.2 ⟨habove, hzero⟩
    have hv := hW.leafAddress_eq_zero_iff hmeets
    have hb := hW.leafAddress_eq_zero_iff (mt meetsZero_pageBase.1 hmeets)
    rw [atWindowEnd_pageBase] at hb
    constructor
    · rintro ⟨hnull, -, hpage, -⟩
      refine ⟨fun h => absurd h.2 hzero, fun hend => ?_⟩
      exact hmeets (hnull.1 (hpage.2 (hb.2 ⟨hend, hbase⟩)))
    · rintro ⟨-, hend⟩
      have hv0 : leafAddress s.memory root v ≠ 0#64 := fun h => hend (hv.1 h).1
      have hb0 : leafAddress s.memory root (pageBase v) ≠ 0#64 := fun h => hend (hb.1 h).1
      exact ⟨iff_of_false hv0 hmeets, fun _ => rfl, iff_of_false hv0 hb0,
        fun _ => leafAddress_pageBase s.memory root v⟩

/-- The page at `0x1000` is mapped to frame 20. -/
theorem translate_exact_mapped :
    translate (pagePtr 4) 0x1234#64 (twoPages 21) =
        Except.ok (pagePtr 20 + 0x234#64, twoPages 21) ∧ ExactAt 4 (twoPages 21) 0x1234#64 := by
  refine ⟨rfl, (translate_exact_iff (twoPages_built (Or.inl rfl)).tree.readable.walkable _).2 ⟨?_, ?_⟩⟩
  · exact fun h => absurd h.2.2 (by decide)
  · exact fun h => absurd h.2.1 (by decide)

/-- The page at `0x3000` is not mapped, but its p1 table is there: the answer is the offset. -/
theorem translate_not_exact : ∃ s : Kernel (List ℕ), Walkable s.memory 4 ∧
    MeetsZero s.memory 4 0x3001#64 ∧
    translate (pagePtr 4) 0x3001#64 s = Except.ok (1#64, s) ∧
    translate (pagePtr 4) 0x3000#64 s = Except.ok (0#64, s) ∧ ¬ ExactAt 4 s 0x3001#64 := by
  have hW := (twoPages_built (Or.inl rfl : 21 = 21 ∨ 21 = 30)).tree.readable.walkable
  refine ⟨twoPages 21, hW, by decide, rfl, rfl, fun h => ?_⟩
  have hnull := h.null_iff.2 (by decide)
  rw [show translate (pagePtr 4) 0x3001#64 (twoPages 21) = Except.ok (1#64, twoPages 21) from rfl]
    at hnull
  exact absurd (congrArg Prod.fst (Except.ok.inj hnull)) (by decide)

/-! ### `region_size` -/

/-- The page `i` pages after `v` is mapped to the page `i` pages after that of `v`. -/
def Follows (root : ℕ) (s : Kernel ρ) (v : U64) (i : ℕ) : Prop :=
  ∃ a b, translate (pagePtr root) v s = Except.ok (a, s) ∧
    translate (pagePtr root) (pagesAfter v i) s = Except.ok (b, s) ∧ b ≠ 0#64 ∧ b = pagesAfter a i

theorem follows_iff (hR : Readable s.memory root) (hv : v.toNat % 4096 = 0) {f : ℕ}
    (hf : frames s.memory root (pageNo v) = some f) {i : ℕ} (hi : f + i ≤ windowPages) :
    Follows root s v i ↔ frames s.memory root ((pageNo v + i) % 2 ^ 36) = some (f + i) := by
  have htr : translation s.memory root (pagesAfter v i) =
      ptrOf (frames s.memory root ((pageNo v + i) % 2 ^ 36)) := by
    rw [translation_of_aligned (pagesAfter_mod hv i), pageNo_pagesAfter]
  have hlt : ∀ g, frames s.memory root ((pageNo v + i) % 2 ^ 36) = some g → g < windowPages :=
    fun g hg => hR.frames_lt (Nat.mod_lt _ (by decide)) hg
  constructor
  · rintro ⟨a, b, ha, hb, hne, rfl⟩
    rw [hR.walkable.translate_eq_iff, translation_of_aligned hv, hf, ptrOf_some] at ha
    subst ha
    rw [hR.walkable.translate_eq_iff, htr, pagesAfter_pagePtr] at hb
    rw [pagesAfter_pagePtr] at hne
    -- the window ends at `NULL`
    have hend : f + i ≠ windowPages := by
      intro hc
      rw [hc, pagePtr_windowPages] at hne
      exact hne rfl
    cases hg : frames s.memory root ((pageNo v + i) % 2 ^ 36) with
    | none =>
      rw [hg] at hb
      exact absurd hb.symm hne
    | some g =>
      rw [hg, ptrOf_some] at hb
      rw [pagePtr_inj (hlt g hg) (by omega) hb]
  · intro hg
    refine ⟨pagePtr f, pagePtr (f + i), ?_, ?_, pagePtr_ne_zero (hlt _ hg), ?_⟩
    · rw [translate_eq hR, translation_of_aligned hv, hf, ptrOf_some]
    · rw [translate_eq hR, htr, hg, ptrOf_some]
    · rw [pagesAfter_pagePtr]

/-- **`region_size`** returns for every page, also if all pages are mapped.  The result is the largest
number of pages from `v` on that are mapped to contiguous pages, and is at most the number of pages of
the kernel window. -/
theorem regionSize_greatest (hR : Readable s.memory root) (hv : v.toNat % 4096 = 0) :
    ∃ n, regionSize (pagePtr root) v s = Except.ok (n, s) ∧ n ≤ 2 ^ 35 ∧
      (n = 0 ↔ translate (pagePtr root) v s = Except.ok (0#64, s)) ∧
      IsGreatest {n | ∀ i < n, Follows root s v i} n := by
  cases hf : frames s.memory root (pageNo v) with
  | none =>
    have htr : translation s.memory root v = 0#64 := by
      rw [translation_of_aligned hv, hf]
      rfl
    have hrun : wp (regionSize (pagePtr root) v) (fun n s' => n = 0 ∧ s' = s) s := by
      simp only [regionSize, wp_bind, wp_translate hR, htr, if_true, wp_pure, and_self]
    obtain ⟨n, s', hrun, rfl, rfl⟩ := hrun
    refine ⟨0, hrun, by decide, iff_of_true rfl ((hR.walkable.translate_eq_iff _).2 htr), ?_, ?_⟩
    · intro i hi
      omega
    · intro n hn
      by_contra hpos
      obtain ⟨a, b, -, hb, hne, -⟩ := hn 0 (by omega)
      rw [pagesAfter_zero, hR.walkable.translate_eq_iff, htr] at hb
      exact hne hb.symm
  | some f =>
    obtain ⟨n, s', hrun, rfl, hpos, hle, hall, hend⟩ := wp_regionSize hR hv hf
    have htr : translation s'.memory root v ≠ 0#64 := by
      rw [translation_of_aligned hv, hf, ptrOf_some]
      exact pagePtr_ne_zero (by omega)
    refine ⟨n, hrun, ?_, ?_, ?_, ?_⟩
    · unfold windowPages at hle
      omega
    · rw [hR.walkable.translate_eq_iff]
      exact iff_of_false (by omega) htr
    · intro i hi
      exact (follows_iff hR hv hf (by omega)).2 (hall i hi)
    · intro k hk
      by_contra hlt
      exact hend ((follows_iff hR hv hf hle).1 (hk n (by omega)))

/-- Frames 20 and 21 are a region of two pages. -/
theorem regionSize_greatest_two_pages :
    ∃ n, regionSize (pagePtr 4) 0x1000#64 (twoPages 21) = Except.ok (n, twoPages 21) ∧ n = 2 ∧
      IsGreatest {n | ∀ i < n, Follows 4 (twoPages 21) 0x1000#64 i} n := by
  obtain ⟨n, hrun, -, -, hgreatest⟩ :=
    regionSize_greatest (twoPages_built (Or.inl rfl : 21 = 21 ∨ 21 = 30)).tree.readable
      (show (0x1000#64 : U64).toNat % 4096 = 0 by decide)
  have htwo : regionSize (pagePtr 4) 0x1000#64 (twoPages 21) = Except.ok (2, twoPages 21) := rfl
  refine ⟨n, hrun, ?_, hgreatest⟩
  rw [htwo] at hrun
  exact (congrArg Prod.fst (Except.ok.inj hrun)).symm

/-- `bench` after the page at `0x1000` of table 4 was mapped to the last page of the window. -/
def lastPage : Kernel (List ℕ) :=
  ⟨⟨fun _ => 0#64, [(cell 7 1, pte (windowPages - 1) 1#64), (cell 6 0, pte 7 1#64),
    (cell 5 0, pte 6 1#64), (cell 4 0, pte 5 1#64)]⟩, [1, 2, 3],
    [pagePtr 7, pagePtr 6, pagePtr 5], []⟩

theorem lastPage_built : Built stock 4 lastPage := by
  have hlast : windowPages - 1 < windowPages := by decide
  refine reachable_guarded_built bench_start (.tail .refl
    (e := .call (.page 0x1000#64 (pagePtr (windowPages - 1)) 1#64)) ⟨⟨?_, ?_⟩, fun _ => ?_⟩ rfl)
  · exact kernelSpaceBegin_le_pagePtr hlast
  · exact ⟨by decide, by decide, by decide⟩
  · exact guarded_of_hugeLeaf_eq_none rfl

/-- The page behind a page at the end of the window is not mapped, and its answer `NULL` is the address
behind that of the last page: `region_size` does not count it. -/
theorem regionSize_null_after_window : ∃ s : Kernel (List ℕ), Readable s.memory 4 ∧
    regionSize (pagePtr 4) 0x1000#64 s = Except.ok (1, s) ∧
    translate (pagePtr 4) 0x1000#64 s = Except.ok (pagePtr (windowPages - 1), s) ∧
    ∀ i < 2, translate (pagePtr 4) (pagesAfter 0x1000#64 i) s =
      Except.ok (pagesAfter (pagePtr (windowPages - 1)) i, s) := by
  refine ⟨lastPage, lastPage_built.tree.readable, rfl, rfl, fun i hi => ?_⟩
  obtain rfl | rfl : i = 0 ∨ i = 1 := by omega
  · rfl
  · rfl

end Dumboss.PageTable
