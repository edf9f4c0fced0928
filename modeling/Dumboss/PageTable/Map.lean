import Dumboss.PageTable.Grow

/-!
# `map_page` and `map_2MB_page`

Virtual page numbers are taken modulo `2 ^ 36`.  `placed F n f c` is the mapping `F` after the `c`
pages from `n` on were mapped to the frames from `f` on.

* `Added`: the first pages of a range were mapped, and tables were made for them;
* `Mapping`: the outcomes of a call: refused without any change, stopped because
  `zeroed_pages(1)` failed, or the pages are mapped;
* `Guarded`: the word of a 2MB page that `map_page` takes for a p1 entry is not zero.  `map_page` does
  not look at `PTE_HUGE_PAGE`, so it needs this;
* `wp_mapPage`, `wp_map2MBPage`.
-/

namespace Dumboss.PageTable

open Prog

/-! ### Ranges of virtual pages -/

/-- How many pages after `n` the page `k` comes. -/
def offset (n k : ℕ) : ℕ := (k + (2 ^ 36 - n % 2 ^ 36)) % 2 ^ 36

/-- The mapping `F` with the `c` pages from `n` on mapped to the frames from `f` on. -/
def placed (F : ℕ → Option ℕ) (n f c k : ℕ) : Option ℕ :=
  if offset n k < c then some (f + offset n k) else F k

theorem offset_add {n i : ℕ} (hi : i < 2 ^ 36) : offset n ((n + i) % 2 ^ 36) = i := by
  unfold offset
  omega

theorem add_offset {n k : ℕ} (hk : k < 2 ^ 36) : (n + offset n k) % 2 ^ 36 = k := by
  unfold offset
  omega

theorem placed_zero (F : ℕ → Option ℕ) (n f k : ℕ) : placed F n f 0 k = F k := by
  rw [placed, if_neg (by omega)]

/-- Two adjacent ranges are one range. -/
theorem placed_placed (F : ℕ → Option ℕ) {n f i j k : ℕ} (hij : i + j ≤ 2 ^ 36) :
    placed (placed F n f i) (n + i) (f + i) j k = placed F n f (i + j) k := by
  have hoff : offset (n + i) k = if i ≤ offset n k then offset n k - i
      else offset n k + 2 ^ 36 - i := by
    unfold offset
    split_ifs <;> omega
  have hlt : offset n k < 2 ^ 36 := Nat.mod_lt _ (by decide)
  unfold placed
  rw [hoff]
  split_ifs <;> first | omega | rfl | (congr 1; omega)

theorem placed_one {F : ℕ → Option ℕ} {n f k : ℕ} (hn : n < 2 ^ 36) (hk : k < 2 ^ 36) :
    placed F n f 1 k = if k = n then some f else F k := by
  have hoff : offset n k = 0 ↔ k = n := by
    unfold offset
    omega
  by_cases h : k = n
  · rw [placed, hoff.2 h, if_pos Nat.one_pos, if_pos h, Nat.add_zero]
  · rw [placed, if_neg (by rwa [Nat.lt_one_iff, hoff]), if_neg h]

theorem offset_lt_512 {n k : ℕ} (hn : n < 2 ^ 36) (hdvd : n % 512 = 0) (hk : k < 2 ^ 36) :
    offset n k < 512 ↔ k / 512 = n / 512 := by
  unfold offset
  omega

theorem placed_512 {F : ℕ → Option ℕ} {n f k : ℕ} (hn : n < 2 ^ 36) (hdvd : n % 512 = 0)
    (hk : k < 2 ^ 36) :
    placed F n f 512 k = if k / 512 = n / 512 then some (f + k % 512) else F k := by
  by_cases h : k / 512 = n / 512
  · have hoff : offset n k = k % 512 := by
      unfold offset
      omega
    rw [placed, if_pos ((offset_lt_512 hn hdvd hk).2 h), if_pos h, hoff]
  · rw [placed, if_neg fun hc => h ((offset_lt_512 hn hdvd hk).1 hc), if_neg h]

/-! ### Outcomes -/

variable {ρ : Type} {src : PageSource ρ} {root : ℕ} {s s' s'' : Kernel ρ}

/-- From `s` to `s'` the `c` pages from `n` on were mapped to the frames from `f` on. -/
structure Added (src : PageSource ρ) (root : ℕ) (s s' : Kernel ρ) (got : List U64)
    (n f c : ℕ) : Prop where
  grown : Grown src root s s' got
  lively : Lively s'.memory root
  frames_eq : ∀ k < 2 ^ 36, frames s'.memory root k = placed (frames s.memory root) n f c k
  hugeLeaf_cases : ∀ z < 512 ^ 3, hugeLeaf s'.memory root z = hugeLeaf s.memory root z ∨
    ∀ k, k / 512 = z → offset n k < c

theorem Added.refl (hB : Built src root s) (n f : ℕ) : Added src root s s [] n f 0 where
  grown := Grown.refl hB.tree hB.valid
  lively := hB.lively
  frames_eq _ _ := (placed_zero _ _ _ _).symm
  hugeLeaf_cases _ _ := Or.inl rfl

theorem Added.built {got : List U64} {n f c : ℕ} (h : Added src root s s' got n f c) :
    Built src root s' := ⟨h.grown.tree, h.lively, h.grown.valid⟩

theorem Added.trans {got got' : List U64} {n f i j : ℕ} (hij : i + j ≤ 2 ^ 36)
    (h : Added src root s s' got n f i) (h' : Added src root s' s'' got' (n + i) (f + i) j) :
    Added src root s s'' (got' ++ got) n f (i + j) where
  grown := h.grown.trans h'.grown
  lively := h'.lively
  frames_eq k hk := by
    rw [h'.frames_eq k hk, ← placed_placed _ hij]
    simp only [placed]
    split_ifs with h1 h2
    · rfl
    · rw [h.frames_eq k hk, placed, if_pos h2]
    · rw [h.frames_eq k hk, placed, if_neg h2]
  hugeLeaf_cases z hz := by
    rcases h'.hugeLeaf_cases z hz with h1 | h1
    · rcases h.hugeLeaf_cases z hz with h2 | h2
      · exact Or.inl (h1.trans h2)
      · refine Or.inr fun k hk => ?_
        have := h2 k hk
        omega
    · refine Or.inr fun k hk => ?_
      have := h1 k hk
      unfold offset at *
      omega

/-- The `c` pages from `n` on are not mapped. -/
def Free (m : Memory) (root n c : ℕ) : Prop := ∀ i < c, frames m root ((n + i) % 2 ^ 36) = none

/-- The outcomes of a call that is to map the `c` pages from `n` on to the frames from `f` on;
`accepted` says that the arguments pass the checks. -/
inductive Mapping (src : PageSource ρ) (root : ℕ) (s : Kernel ρ) (accepted : Prop) (n f c : ℕ) :
    Bool → Kernel ρ → Prop
  | refused (h : ¬ (accepted ∧ Free s.memory root n c)) : Mapping src root s accepted n f c false s
  | exhausted {got : List U64} {s' : Kernel ρ} (h : accepted ∧ Free s.memory root n c)
      (hadd : Added src root s s' got n f 0) (hgot : 0#64 ∈ got) :
      Mapping src root s accepted n f c false s'
  | mapped {got : List U64} {s' : Kernel ρ} (h : accepted ∧ Free s.memory root n c)
      (hadd : Added src root s s' got n f c) (hgot : 0#64 ∉ got) :
      Mapping src root s accepted n f c true s'

/-- A store into an entry that leads to no table, before or after. -/
theorem Grown.store {got : List U64} {t i : ℕ} {e : U64} (hg : Grown src root s s' got)
    (ht : IsTable s'.memory root t) (hi : i < 512)
    (htree : Tree (s'.memory.store (cell t i) e) root (src.used s'.source))
    (hiff : ∀ p, IsTable (s'.memory.store (cell t i) e) root p ↔ IsTable s'.memory root p) :
    Grown src root s { s' with memory := s'.memory.store (cell t i) e } got where
  tree := htree
  valid := src.valid_store _ _ _ _ _ hg.valid (hg.tree.mem_used ht) (hg.tree.table_lt ht) hi
  obtained := hg.obtained
  released := hg.released
  used := hg.used
  isTable p := (hiff p).trans (hg.isTable p)
  fresh := hg.fresh
  nodup := hg.nodup
  ptr := hg.ptr
  word := by
    intro p hp hlt hpt j hj
    have hne : p ≠ t := by
      rintro rfl
      rcases (hg.isTable p).1 ht with h | h
      · exact hpt h
      · exact hg.fresh p h hp
    change (s'.memory.store (cell t i) e).word p j = _
    rw [Memory.word_store _ _ (hg.tree.table_lt ht) hlt hi hj, if_neg fun h => hne h.1]
    exact hg.word p hp hlt hpt j hj

/-! ### Nothing, one page -/

/-- The way down failed: nothing is mapped. -/
theorem added_none {got : List U64} {d y : ℕ} (hl : Lively s.memory root)
    (hext : Extended src root s s' got d y)
    (hnone : d = 3 → table s'.memory root 3 y = none) (n f : ℕ) :
    Added src root s s' got n f 0 where
  grown := hext.grown
  lively := by
    intro z hz hsome
    by_cases hzy : d = 3 ∧ z = y
    · obtain ⟨hd, rfl⟩ := hzy
      exact absurd (hnone hd) hsome
    · rw [hext.p1 z hz hzy] at hsome
      obtain ⟨k, hk, hkz, hf⟩ := hl z hz hsome
      refine ⟨k, hk, hkz, ?_⟩
      rwa [hext.frames_eq k hk]
  frames_eq k hk := by rw [hext.frames_eq k hk, placed_zero]
  hugeLeaf_cases z hz := Or.inl (hext.hugeLeaf_eq z hz)

/-- The word of the entry that is written. -/
theorem word_store_self {used : Set ℕ} {m : Memory} {t i : ℕ} (hT : Tree m root used)
    (ht : IsTable m root t) (hi : i < 512) (e : U64) : (m.store (cell t i) e).word t i = e := by
  rw [Memory.word_store _ _ (hT.table_lt ht) (hT.table_lt ht) hi hi, if_pos ⟨rfl, rfl⟩]

theorem filled4KB_store {used : Set ℕ} {m : Memory} {n t f : ℕ} {flags : U64}
    (hT : Tree m root used) (hn : n < 2 ^ 36) (ht : table m root 3 (n / 512) = some t)
    (hf : f < windowPages) (hflags : FlagsOk flags) :
    Filled4KB m (m.store (cell t (n % 512)) (pte f flags)) root n t := by
  have hmod : n % 512 < 512 := Nat.mod_lt _ (by decide)
  have htab := isTable_of_table le_rfl (Radix.div_lt_pow (by decide) hn) ht
  have hself := word_store_self hT htab hmod (pte f flags)
  refine ⟨hn, ht, ?_, ?_, ?_⟩
  · rw [hself]
    exact pte_ne_zero hflags.ne_zero
  · rwa [hself, frame_pte hf hflags.address]
  · intro p hp j hj hne
    rw [Memory.word_store _ _ (hT.table_lt htab) (hT.table_lt hp) hmod hj, if_neg hne]

/-- The entry of a 4KB page is written. -/
theorem added_page {got : List U64} {n t f : ℕ} {flags : U64} (hn : n < 2 ^ 36)
    (hl : Lively s.memory root) (hext : Extended src root s s' got 3 (n / 512))
    (ht : table s'.memory root 3 (n / 512) = some t) (hf : f < windowPages)
    (hflags : FlagsOk flags) :
    Added src root s { s' with memory := s'.memory.store (cell t (n % 512)) (pte f flags) }
      got n f 1 := by
  have hT := hext.grown.tree
  have hy : n / 512 < 512 ^ 3 := Radix.div_lt_pow (by decide) hn
  have hmod : n % 512 < 512 := Nat.mod_lt _ (by decide)
  have htab := isTable_of_table le_rfl hy ht
  have hself := word_store_self hT htab hmod (pte f flags)
  have hfill := filled4KB_store hT hn ht hf hflags
  have hframes : ∀ k < 2 ^ 36, frames (s'.memory.store (cell t (n % 512)) (pte f flags)) root k =
      if k = n then some f else frames s.memory root k := by
    intro k hk
    rw [hfill.frames_eq hT hk, hself, frame_pte hf hflags.address, hext.frames_eq k hk]
  refine ⟨hext.grown.store htab hmod (hfill.tree hT) (hfill.isTable_iff hT), ?_, ?_, ?_⟩
  · intro z hz hsome
    by_cases hzn : z = n / 512
    · refine ⟨n, hn, hzn.symm, ?_⟩
      rw [hframes n hn, if_pos rfl]
      simp
    · rw [hfill.table_eq hT le_rfl hz, hext.p1 z hz fun h => hzn h.2] at hsome
      obtain ⟨k, hk, hkz, hf⟩ := hl z hz hsome
      refine ⟨k, hk, hkz, ?_⟩
      rw [hframes k hk, if_neg (by rintro rfl; exact hzn hkz.symm)]
      exact hf
  · intro k hk
    rw [hframes k hk, placed_one hn hk]
  · intro z hz
    left
    rw [hfill.hugeLeaf_eq hT hz, hext.hugeLeaf_eq z hz]

/-- The word that `map_page` takes for the p1 entry of page `n` if `n` lies in a 2MB page is not
zero. -/
def Guarded (m : Memory) (root n : ℕ) : Prop :=
  ∀ f, hugeLeaf m root (n / 512) = some f → m.word f (n % 512) ≠ 0#64

/-- The virtual address and the kernel pointer pass the checks of the map functions. -/
def Accepted (align : ℕ) (v k : U64) : Prop :=
  v ≠ 0#64 ∧ v.toNat % align = 0 ∧ k.toNat % align = 0

instance (align : ℕ) (v k : U64) : Decidable (Accepted align v k) :=
  inferInstanceAs (Decidable (_ ∧ _ ∧ _))

theorem free_one {m : Memory} {n : ℕ} (hn : n < 2 ^ 36) :
    Free m root n 1 ↔ frames m root n = none := by
  constructor
  · intro h
    have h0 := h 0 (by omega)
    rwa [Nat.add_zero, Nat.mod_eq_of_lt hn] at h0
  · intro h i hi
    obtain rfl : i = 0 := by omega
    rwa [Nat.add_zero, Nat.mod_eq_of_lt hn]

/-- The first two levels of `map_page` and `map_2MB_page`, down to the p2 table. -/
def withP2 (src : PageSource ρ) (p4 : U64) (n : ℕ) (flags : U64)
    (rest : U64 → Kern (Kernel ρ) Bool) : Kern (Kernel ρ) Bool := do
  let p3 ← nextTable src p4 (n / 512 / 512 / 512 % 512) flags
  if p3 = 0#64 then return false
  let p2 ← nextTable src p3 (n / 512 / 512 % 512) flags
  if p2 = 0#64 then return false
  rest p2

/-- `map_page` below the p2 table. -/
def mapPageRest (src : PageSource ρ) (n : ℕ) (kernel flags p2 : U64) : Kern (Kernel ρ) Bool := do
  let p1 ← nextTable src p2 (n / 512 % 512) flags
  if p1 = 0#64 then return false
  if (← loadEntry p1 (n % 512)) ≠ 0#64 then return false
  storeEntry p1 (n % 512) (← makePte kernel flags)
  return true

/-- `map_2MB_page` below the p2 table. -/
def map2MBPageRest (n : ℕ) (kernel flags p2 : U64) : Kern (Kernel ρ) Bool := do
  if (← loadEntry p2 (n / 512 % 512)) ≠ 0#64 then return false
  storeEntry p2 (n / 512 % 512) (← makePte kernel (flags ||| pteHugePage))
  return true

theorem isAligned_eq {σ : Type} {k : ℕ} (hk : k < 64) (v : ℕ) :
    (isAligned v (2 ^ k) : Kern σ Bool) = pure (decide (v % 2 ^ k = 0)) := by
  rw [isAligned, assertAlign, assert, if_pos (popcountl_two_pow k hk)]
  rfl

/-- The checks of `kernel` and `virtual`, in the order in which they are made. -/
theorem ite_accepted {α : Type} (align : ℕ) (v k : U64) (a b : α) :
    (if ¬ k.toNat % align = 0 then a else if ¬ (¬ v = 0#64 ∧ v.toNat % align = 0) then a else b) =
      if Accepted align v k then b else a := by
  by_cases h1 : k.toNat % align = 0
  · by_cases h2 : ¬ v = 0#64 ∧ v.toNat % align = 0
    · rw [if_neg (not_not_intro h1), if_neg (not_not_intro h2), if_pos ⟨h2.1, h2.2, h1⟩]
    · rw [if_neg (not_not_intro h1), if_pos h2, if_neg]
      rintro ⟨h3, h4, -⟩
      exact h2 ⟨h3, h4⟩
  · rw [if_pos h1, if_neg]
    rintro ⟨-, -, h3⟩
    exact h1 h3

theorem pagePtr_aligned (hroot : root < windowPages) : (pagePtr root).toNat % 2 ^ 12 = 0 := by
  rw [pagePtr_toNat hroot]
  omega

theorem ne_zero_of_kernelSpaceBegin_le {k : U64} (hk : kernelSpaceBegin ≤ k) : k ≠ 0#64 := by
  rintro rfl
  exact absurd hk (by decide)

theorem mapPage_eq (hroot : root < windowPages) {v k : U64} (hk : kernelSpaceBegin ≤ k)
    (flags : U64) : mapPage src (pagePtr root) v k flags =
      if Accepted (2 ^ 12) v k then
        withP2 src (pagePtr root) (pageNo v) flags (mapPageRest src (pageNo v) k flags)
      else pure false := by
  unfold mapPage withP2 mapPageRest
  simp only [isAligned_eq (show 12 < 64 by decide), pageTableIndices_eq, pure_bind,
    pagePtr_aligned hroot, ne_zero_of_kernelSpaceBegin_le hk, pagePtr_ne_zero hroot, decide_true,
    decide_eq_true_eq, ne_eq, not_false_eq_true, true_and, not_true_eq_false, if_false]
  rw [ite_accepted]

theorem map2MBPage_eq (hroot : root < windowPages) {v k : U64} (hk : kernelSpaceBegin ≤ k)
    (flags : U64) : map2MBPage src (pagePtr root) v k flags =
      if Accepted (2 ^ 21) v k then
        withP2 src (pagePtr root) (pageNo v) flags (map2MBPageRest (pageNo v) k flags)
      else pure false := by
  unfold map2MBPage withP2 map2MBPageRest
  simp only [isAligned_eq (show 12 < 64 by decide), isAligned_eq (show 21 < 64 by decide),
    pageTableIndices_eq, pure_bind, pagePtr_aligned hroot, ne_zero_of_kernelSpaceBegin_le hk,
    pagePtr_ne_zero hroot, decide_true, decide_eq_true_eq, ne_eq, not_false_eq_true, true_and,
    not_true_eq_false, if_false]
  rw [ite_accepted]

/-- The way down to the p2 table. -/
theorem wp_withP2 (hB : Built src root s) {flags : U64} (hf : FlagsOk flags) {n : ℕ}
    (hn : n < 2 ^ 36) {rest : U64 → Kern (Kernel ρ) Bool} {Q : Bool → Kernel ρ → Prop}
    (hfailed : ∀ got s', table s.memory root 2 (n / 512 / 512) = none → 0#64 ∈ got →
      (∀ f, Added src root s s' got n f 0) → Q false s')
    (hrest : ∀ p2 s', Descent src root s 2 (n / 512 / 512) p2 s' → p2 ≠ 0#64 →
      wp (rest p2) Q s') :
    wp (withP2 src (pagePtr root) n flags rest) Q s := by
  have hy3 : n / 512 < 512 ^ 3 := Radix.div_lt_pow (by decide) hn
  have hy2 := Radix.div_lt_pow (by decide) hy3
  have hy1 := Radix.div_lt_pow (by decide) hy2
  have hroot := pagePtr_ne_zero (hB.tree.table_lt isTable_root)
  unfold withP2
  simp only [wp_bind, wp_ite, wp_pure]
  refine wp_mono (wp_nextTable hB.tree hB.valid hf (by omega) hy1 (by omega)
    (.found (table_zero _)) hroot) ?_
  intro p3 s₁ h1
  split_ifs with h3
  · obtain ⟨hnone, -, got, hext, hgot⟩ := h1.null hB.tree (by omega) hy1 h3
    refine hfailed got s₁ ?_ hgot (added_none hB.lively hext (by omega) n)
    rw [table_succ, hnone]
    rfl
  · refine wp_mono (wp_nextTable hB.tree hB.valid hf (by omega) hy2 (by omega) h1 h3) ?_
    intro p2 s₂ h2
    split_ifs with h4
    · obtain ⟨hnone, -, got, hext, hgot⟩ := h2.null hB.tree (by omega) hy2 h4
      exact hfailed got s₂ hnone hgot (added_none hB.lively hext (by omega) n)
    · exact hrest p2 s₂ h2 h4

/-! ### `map_page` -/

theorem wp_nextTable_of_ne_zero {t i : ℕ} {flags : U64} (h0 : s.memory.word t i ≠ 0#64)
    (hlt : frame (s.memory.word t i) < windowPages) (Q : U64 → Kernel ρ → Prop) :
    wp (nextTable src (pagePtr t) i flags) Q s ↔ Q (pagePtr (frame (s.memory.word t i))) s := by
  simp only [nextTable, wp_bind, wp_loadEntry, wp_pteAddress (fun _ => hlt), wp_ite, wp_pure]
  rw [if_neg h0, if_pos (pagePtr_ne_zero hlt)]

/-- `map_page` on a page of a 2MB page takes a word of that page for the p1 entry. -/
theorem wp_mapPage_of_hugeLeaf (hB : Built src root s) {v k flags : U64}
    (hk : kernelSpaceBegin ≤ k) (hf : FlagsOk flags) (hacc : Accepted (2 ^ 12) v k) {g : ℕ}
    (hg : hugeLeaf s.memory root (pageNo v / 512) = some g) {Q : Bool → Kernel ρ → Prop}
    (hrefused : s.memory.word g (pageNo v % 512) ≠ 0#64 → Q false s)
    (hwritten : s.memory.word g (pageNo v % 512) = 0#64 →
      Q true { s with memory := s.memory.store (cell g (pageNo v % 512)) (pte (pageOf k) flags) }) :
    wp (mapPage src (pagePtr root) v k flags) Q s := by
  have hn := pageNo_lt v
  have hy : pageNo v / 512 < 512 ^ 3 := Radix.div_lt_pow (by decide) hn
  obtain ⟨hlt, hkeq⟩ := eq_pagePtr_pageOf hk hacc.2.2
  obtain ⟨t, ht, hleaf⟩ := Option.bind_eq_some_iff.1 hg
  obtain ⟨⟨h0, -⟩, rfl⟩ : (s.memory.word t (pageNo v / 512 % 512) ≠ 0#64 ∧
      huge (s.memory.word t (pageNo v / 512 % 512))) ∧
      frame (s.memory.word t (pageNo v / 512 % 512)) = g := by
    unfold leaf2MB at hleaf
    split_ifs at hleaf with hc
    exact ⟨hc, Option.some.inj hleaf⟩
  have hg' : frame (s.memory.word t (pageNo v / 512 % 512)) < windowPages := by
    have := hB.tree.huge_lt hy hg
    omega
  rw [mapPage_eq (hB.tree.table_lt isTable_root) hk, if_pos hacc]
  refine wp_withP2 hB hf hn ?_ ?_
  · intro got s' hnone
    rw [ht] at hnone
    cases hnone
  · intro p2 s' hdesc h2
    cases hdesc with
    | made hnone =>
      rw [ht] at hnone
      cases hnone
    | failed => exact absurd rfl h2
    | found ht' =>
      obtain rfl := Option.some.inj (ht.symm.trans ht')
      simp only [mapPageRest, wp_bind, wp_nextTable_of_ne_zero h0 hg', wp_ite, wp_loadEntry,
        wp_pure]
      rw [if_neg (pagePtr_ne_zero hg')]
      split_ifs with he
      · exact hrefused he
      · rw [hkeq, wp_makePte hlt, wp_storeEntry]
        exact hwritten (not_not.1 he)

/-- `map_page` on a page outside of all 2MB pages. -/
theorem wp_mapPage_of_no_hugeLeaf (hB : Built src root s) {v k flags : U64}
    (hk : kernelSpaceBegin ≤ k) (hf : FlagsOk flags) (hacc : Accepted (2 ^ 12) v k)
    (hg : hugeLeaf s.memory root (pageNo v / 512) = none) :
    wp (mapPage src (pagePtr root) v k flags)
      (Mapping src root s (Accepted (2 ^ 12) v k) (pageNo v) (pageOf k) 1) s := by
  have hn := pageNo_lt v
  have hy : pageNo v / 512 < 512 ^ 3 := Radix.div_lt_pow (by decide) hn
  obtain ⟨hlt, hkeq⟩ := eq_pagePtr_pageOf hk hacc.2.2
  have hfree : table s.memory root 3 (pageNo v / 512) = none →
      Accepted (2 ^ 12) v k ∧ Free s.memory root (pageNo v) 1 := by
    intro hnone
    refine ⟨hacc, (free_one hn).2 ?_⟩
    rw [frames, hg, hnone]
    rfl
  rw [mapPage_eq (hB.tree.table_lt isTable_root) hk, if_pos hacc]
  refine wp_withP2 hB hf hn ?_ ?_
  · intro got s' hnone hgot hadd
    exact .exhausted (hfree (table_three_of_none hnone)) (hadd _) hgot
  · intro p2 s' hdesc h2
    simp only [mapPageRest, wp_bind, wp_ite, wp_pure]
    refine wp_mono (wp_nextTable hB.tree hB.valid hf (by omega) hy (fun _ => hg) hdesc h2) ?_
    intro p1 s₁ hdesc₁
    split_ifs with h1
    · obtain ⟨hnone, hnone', got, hext, hgot⟩ := hdesc₁.null hB.tree le_rfl hy h1
      exact .exhausted (hfree hnone) (added_none hB.lively hext (fun _ => hnone') _ _) hgot
    · cases hdesc₁ with
      | failed => exact absurd rfl h1
      | found ht =>
        rw [wp_loadEntry]
        split_ifs with he
        · refine .refused fun h => ?_
          have hnone := (free_one hn).1 h.2
          rw [frames_of_table ht, leaf4KB, if_neg he] at hnone
          cases hnone
        · have hnone : Free s.memory root (pageNo v) 1 := by
            rw [free_one hn, frames_of_table ht, leaf4KB, if_pos (not_not.1 he)]
          rw [hkeq, wp_makePte hlt, wp_storeEntry, ← hkeq]
          exact .mapped ⟨hacc, hnone⟩
            (added_page hn hB.lively (.refl hB.tree hB.valid) ht hlt hf) (by simp)
      | made hnone hext hgot ht hzero =>
        rw [wp_loadEntry, hzero _ (Nat.mod_lt _ (by decide)), if_neg (by simp), hkeq,
          wp_makePte hlt, wp_storeEntry, ← hkeq]
        exact .mapped (hfree hnone) (added_page hn hB.lively hext ht hlt hf) hgot

/-- **`map_page`.** -/
theorem wp_mapPage (hB : Built src root s) {v k flags : U64} (hk : kernelSpaceBegin ≤ k)
    (hf : FlagsOk flags) (hguard : Accepted (2 ^ 12) v k → Guarded s.memory root (pageNo v)) :
    wp (mapPage src (pagePtr root) v k flags)
      (Mapping src root s (Accepted (2 ^ 12) v k) (pageNo v) (pageOf k) 1) s := by
  by_cases hacc : Accepted (2 ^ 12) v k
  · cases hg : hugeLeaf s.memory root (pageNo v / 512) with
    | none => exact wp_mapPage_of_no_hugeLeaf hB hk hf hacc hg
    | some g =>
      refine wp_mapPage_of_hugeLeaf hB hk hf hacc hg ?_ fun h0 => absurd h0 (hguard hacc g hg)
      intro _
      refine .refused fun h => ?_
      have hnone := (free_one (pageNo_lt v)).1 h.2
      rw [frames_of_hugeLeaf hg] at hnone
      cases hnone
  · rw [mapPage_eq (hB.tree.table_lt isTable_root) hk, if_neg hacc, wp_pure]
    exact .refused fun h => hacc h.1

/-! ### `map_2MB_page` -/

theorem filled2MB_store {used : Set ℕ} {m : Memory} {n t f : ℕ} {flags : U64}
    (hT : Tree m root used) (hn : n < 2 ^ 36) (ht : table m root 2 (n / 512 / 512) = some t)
    (hempty : m.word t (n / 512 % 512) = 0#64) (hf : f < windowPages) (hfdvd : 512 ∣ f)
    (hflags : FlagsOk flags) :
    Filled2MB m (m.store (cell t (n / 512 % 512)) (pte f (flags ||| pteHugePage))) root
      (n / 512) t := by
  have hy : n / 512 < 512 ^ 3 := Radix.div_lt_pow (by decide) hn
  have hmod : n / 512 % 512 < 512 := Nat.mod_lt _ (by decide)
  have htab := isTable_of_table (by omega) (Radix.div_lt_pow (by decide) hy) ht
  have hself := word_store_self hT htab hmod (pte f (flags ||| pteHugePage))
  obtain ⟨hne, haddr, hhuge⟩ := hflags.or_huge
  refine ⟨hy, ht, hempty, ?_, ?_, ?_, ?_, ?_⟩
  · rw [hself]
    exact pte_ne_zero hne
  · rwa [hself, huge_pte]
  · rwa [hself, frame_pte hf haddr]
  · rwa [hself, frame_pte hf haddr]
  · intro p hp j hj hne
    rw [Memory.word_store _ _ (hT.table_lt htab) (hT.table_lt hp) hmod hj, if_neg hne]

/-- The entry of a 2MB page is written. -/
theorem added_page2MB {got : List U64} {n t f : ℕ} {flags : U64} (hn : n < 2 ^ 36)
    (hdvd : n % 512 = 0) (hl : Lively s.memory root)
    (hext : Extended src root s s' got 2 (n / 512 / 512))
    (ht : table s'.memory root 2 (n / 512 / 512) = some t)
    (hempty : s'.memory.word t (n / 512 % 512) = 0#64) (hf : f < windowPages) (hfdvd : 512 ∣ f)
    (hflags : FlagsOk flags) :
    Added src root s
      { s' with
        memory := s'.memory.store (cell t (n / 512 % 512)) (pte f (flags ||| pteHugePage)) }
      got n f 512 := by
  have hT := hext.grown.tree
  have hy : n / 512 < 512 ^ 3 := Radix.div_lt_pow (by decide) hn
  have hmod : n / 512 % 512 < 512 := Nat.mod_lt _ (by decide)
  have htab := isTable_of_table (by omega) (Radix.div_lt_pow (by decide) hy) ht
  have hself := word_store_self hT htab hmod (pte f (flags ||| pteHugePage))
  have haddr := hflags.or_huge.2.1
  have hfill := filled2MB_store hT hn ht hempty hf hfdvd hflags
  have hframes : ∀ k < 2 ^ 36, frames
      (s'.memory.store (cell t (n / 512 % 512)) (pte f (flags ||| pteHugePage))) root k =
      if k / 512 = n / 512 then some (f + k % 512) else frames s.memory root k := by
    intro k hk
    rw [hfill.frames_eq hT hk, hself, frame_pte hf haddr, hext.frames_eq k hk]
  refine ⟨hext.grown.store htab hmod (hfill.tree hT) (hfill.isTable_iff hT), ?_, ?_, ?_⟩
  · intro z hz hsome
    rw [hfill.table_eq hT le_rfl hz, hext.p1 z hz (by omega)] at hsome
    obtain ⟨k, hk, hkz, hf⟩ := hl z hz hsome
    refine ⟨k, hk, hkz, ?_⟩
    rw [hframes k hk]
    split_ifs
    · simp
    · exact hf
  · intro k hk
    rw [hframes k hk, placed_512 hn hdvd hk]
  · intro z hz
    rw [hfill.hugeLeaf_eq hT hz, hext.hugeLeaf_eq z hz]
    by_cases hzn : z = n / 512
    · refine Or.inr fun k hk => ?_
      unfold offset
      have : k < 2 ^ 36 := by omega
      omega
    · exact Or.inl (if_neg hzn)

/-- The 2MB range of `n` is not mapped exactly if its p2 entry is empty. -/
theorem free_512 (hB : Built src root s) {n t : ℕ} (hn : n < 2 ^ 36) (hdvd : n % 512 = 0)
    (ht : table s.memory root 2 (n / 512 / 512) = some t) :
    Free s.memory root n 512 ↔ s.memory.word t (n / 512 % 512) = 0#64 := by
  have hy : n / 512 < 512 ^ 3 := Radix.div_lt_pow (by decide) hn
  have hchild : table s.memory root 3 (n / 512) = next 2 (s.memory.word t (n / 512 % 512)) := by
    rw [table_succ, ht]
    rfl
  have hleaf : hugeLeaf s.memory root (n / 512) = leaf2MB (s.memory.word t (n / 512 % 512)) := by
    rw [hugeLeaf, ht]
    rfl
  constructor
  · intro hfree
    by_contra h0
    by_cases hh : huge (s.memory.word t (n / 512 % 512))
    · -- a 2MB page is there
      have h := hfree 0 (by omega)
      rw [Nat.add_zero, Nat.mod_eq_of_lt hn, frames_of_hugeLeaf
        (hleaf.trans (by rw [leaf2MB, if_pos ⟨h0, hh⟩]))] at h
      cases h
    · -- a p1 table is there, and maps a page
      have hsome : table s.memory root 3 (n / 512) ≠ none := by
        rw [hchild, next, if_neg (by rintro (h | ⟨-, h⟩) <;> contradiction)]
        simp
      obtain ⟨k, hk, hkn, hf⟩ := hB.lively _ hy hsome
      have h := hfree (k % 512) (Nat.mod_lt _ (by decide))
      rw [show (n + k % 512) % 2 ^ 36 = k by omega] at h
      exact hf h
  · intro h0 i hi
    have hdiv : (n + i) % 2 ^ 36 / 512 = n / 512 := by omega
    rw [frames, hdiv, hleaf, hchild, h0]
    rfl

/-- **`map_2MB_page`.** -/
theorem wp_map2MBPage (hB : Built src root s) {v k flags : U64} (hk : kernelSpaceBegin ≤ k)
    (hf : FlagsOk flags) :
    wp (map2MBPage src (pagePtr root) v k flags)
      (Mapping src root s (Accepted (2 ^ 21) v k) (pageNo v) (pageOf k) 512) s := by
  by_cases hacc : Accepted (2 ^ 21) v k
  · have hn := pageNo_lt v
    have hy : pageNo v / 512 < 512 ^ 3 := Radix.div_lt_pow (by decide) hn
    have hdvd : pageNo v % 512 = 0 := by
      have := hacc.2.1
      unfold pageNo
      omega
    obtain ⟨hlt, hkeq⟩ := eq_pagePtr_pageOf hk (by have := hacc.2.2; omega)
    have hfdvd := dvd_pageOf hacc.2.2
    rw [map2MBPage_eq (hB.tree.table_lt isTable_root) hk, if_pos hacc]
    have hfree : table s.memory root 2 (pageNo v / 512 / 512) = none →
        Accepted (2 ^ 21) v k ∧ Free s.memory root (pageNo v) 512 := by
      intro hnone
      refine ⟨hacc, fun i hi => frames_of_table_none ?_⟩
      rwa [show (pageNo v + i) % 2 ^ 36 / 512 / 512 = pageNo v / 512 / 512 by omega]
    refine wp_withP2 hB hf hn ?_ ?_
    · intro got s' hnone hgot hadd
      exact .exhausted (hfree hnone) (hadd _) hgot
    · intro p2 s' hdesc h2
      simp only [map2MBPageRest, wp_bind, wp_ite, wp_pure]
      cases hdesc with
      | failed => exact absurd rfl h2
      | found ht =>
        rw [wp_loadEntry]
        split_ifs with he
        · exact .refused fun h => he ((free_512 hB hn hdvd ht).1 h.2)
        · rw [hkeq, wp_makePte hlt, wp_storeEntry, ← hkeq]
          have h0 := not_not.1 he
          exact .mapped ⟨hacc, (free_512 hB hn hdvd ht).2 h0⟩
            (added_page2MB hn hdvd hB.lively (.refl hB.tree hB.valid) ht h0 hlt hfdvd hf) (by simp)
      | made hnone hext hgot ht hzero =>
        have h0 := hzero (pageNo v / 512 % 512) (Nat.mod_lt _ (by decide))
        rw [wp_loadEntry, h0, if_neg (by simp), hkeq, wp_makePte hlt, wp_storeEntry, ← hkeq]
        exact .mapped (hfree hnone)
          (added_page2MB hn hdvd hB.lively hext ht h0 hlt hfdvd hf) hgot
  · rw [map2MBPage_eq (hB.tree.table_lt isTable_root) hk, if_neg hacc, wp_pure]
    exact .refused fun h => hacc h.1

end Dumboss.PageTable
