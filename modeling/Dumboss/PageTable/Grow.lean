import Dumboss.PageTable.Walk

/-!
# How the tables grow

The map functions go down from the p4 table and make the tables that are missing.

* `pageOf`, `pagesOf`: the pages that pointers point to;
* `Grown`: what a call did to the tables and to the page source, with the list of the results of its
  calls of `zeroed_pages(1)`;
* `Lively`: every p1 table maps a page.  It holds between calls, and it is why a 2MB page can be put
  wherever nothing is mapped;
* `Built`: the tables, between two calls;
* `Descent`, `wp_nextTable`: the way down to depth `d`, one step at a time.
-/

namespace Dumboss.PageTable

open Prog

variable {ρ : Type} {src : PageSource ρ} {root : ℕ} {s s' s'' : Kernel ρ}

/-! ### Pages obtained -/

/-- The page that a kernel pointer points to. -/
def pageOf (ptr : U64) : ℕ := (ptr.toNat - kernelSpaceBegin.toNat) / 4096

theorem pageOf_pagePtr {q : ℕ} (hq : q < windowPages) : pageOf (pagePtr q) = q := by
  rw [pageOf, pagePtr_toNat hq, kernelSpaceBegin_toNat]
  omega

/-- A page-aligned kernel pointer is the pointer to its page. -/
theorem eq_pagePtr_pageOf {k : U64} (hk : kernelSpaceBegin ≤ k) (hal : k.toNat % 4096 = 0) :
    pageOf k < windowPages ∧ k = pagePtr (pageOf k) := by
  rw [BitVec.le_def, kernelSpaceBegin_toNat] at hk
  have hlt : pageOf k < windowPages := by
    rw [pageOf, kernelSpaceBegin_toNat, windowPages]
    have := k.isLt
    omega
  refine ⟨hlt, BitVec.eq_of_toNat_eq ?_⟩
  rw [pagePtr_toNat hlt, pageOf, kernelSpaceBegin_toNat]
  omega

/-- The pages of a pointer that is aligned to 2MB. -/
theorem dvd_pageOf {k : U64} (hal : k.toNat % 2 ^ 21 = 0) : 512 ∣ pageOf k := by
  rw [pageOf, kernelSpaceBegin_toNat]
  omega

/-- The pages among the results of `zeroed_pages(1)`. -/
def pagesOf (ptrs : List U64) : List ℕ := (ptrs.filter (· ≠ 0#64)).map pageOf

theorem pagesOf_append (l l' : List U64) : pagesOf (l ++ l') = pagesOf l ++ pagesOf l' := by
  rw [pagesOf, List.filter_append, List.map_append]
  rfl

theorem pagesOf_null : pagesOf [0#64] = [] := rfl

theorem pagesOf_pagePtr {q : ℕ} (hq : q < windowPages) : pagesOf [pagePtr q] = [q] := by
  simp [pagesOf, pagePtr_ne_zero hq, pageOf_pagePtr hq]

/-- What happened from `s` to `s'` to the tables of `root`: `got` are the results of the calls of
`zeroed_pages(1)`, latest first, and all pages among them are tables now. -/
structure Grown (src : PageSource ρ) (root : ℕ) (s s' : Kernel ρ) (got : List U64) : Prop where
  tree : Tree s'.memory root (src.used s'.source)
  valid : src.Valid s'.memory s'.source
  obtained : s'.obtained = got ++ s.obtained
  released : s'.released = s.released
  used : ∀ p, p ∈ src.used s'.source ↔ p ∈ src.used s.source ∨ p ∈ pagesOf got
  isTable : ∀ t, IsTable s'.memory root t ↔ IsTable s.memory root t ∨ t ∈ pagesOf got
  fresh : ∀ q ∈ pagesOf got, q ∉ src.used s.source
  nodup : (pagesOf got).Nodup
  ptr : ∀ x ∈ got, x ≠ 0#64 → ∃ q, q < windowPages ∧ x = pagePtr q
  /-- Pages in use that are no tables are not written. -/
  word : ∀ p ∈ src.used s.source, p < windowPages → ¬ IsTable s.memory root p → ∀ i < 512,
    s'.memory.word p i = s.memory.word p i

theorem Grown.refl (hT : Tree s.memory root (src.used s.source))
    (hv : src.Valid s.memory s.source) : Grown src root s s [] where
  tree := hT
  valid := hv
  obtained := rfl
  released := rfl
  used _ := by simp [pagesOf]
  isTable _ := by simp [pagesOf]
  fresh := by simp [pagesOf]
  nodup := List.nodup_nil
  ptr := by simp
  word _ _ _ _ _ _ := rfl

theorem Grown.trans {got got' : List U64} (h : Grown src root s s' got)
    (h' : Grown src root s' s'' got') : Grown src root s s'' (got' ++ got) where
  tree := h'.tree
  valid := h'.valid
  obtained := by rw [h'.obtained, h.obtained, List.append_assoc]
  released := h'.released.trans h.released
  used p := by
    rw [h'.used, h.used, pagesOf_append, List.mem_append]
    tauto
  isTable t := by
    rw [h'.isTable, h.isTable, pagesOf_append, List.mem_append]
    tauto
  fresh := by
    intro q hq hu
    rw [pagesOf_append, List.mem_append] at hq
    rcases hq with hq | hq
    · exact h'.fresh q hq ((h.used q).2 (Or.inl hu))
    · exact h.fresh q hq hu
  nodup := by
    rw [pagesOf_append]
    refine h'.nodup.append h.nodup ?_
    intro q hq' hq
    exact h'.fresh q hq' ((h.used q).2 (Or.inr hq))
  ptr := by
    intro x hx
    rcases List.mem_append.1 hx with hx | hx
    · exact h'.ptr x hx
    · exact h.ptr x hx
  word := by
    intro p hp hlt ht i hi
    have ht' : ¬ IsTable s'.memory root p := by
      rw [h.isTable]
      rintro (h1 | h1)
      · exact ht h1
      · exact h.fresh p h1 hp
    rw [h'.word p ((h.used p).2 (Or.inl hp)) hlt ht' i hi, h.word p hp hlt ht i hi]

/-- Every p1 table maps a page. -/
def Lively (m : Memory) (root : ℕ) : Prop :=
  ∀ y < 512 ^ 3, table m root 3 y ≠ none → ∃ n < 512 ^ 4, n / 512 = y ∧ frames m root n ≠ none

/-- **The invariant** between two calls of the map functions. -/
structure Built (src : PageSource ρ) (root : ℕ) (s : Kernel ρ) : Prop where
  tree : Tree s.memory root (src.used s.source)
  lively : Lively s.memory root
  valid : src.Valid s.memory s.source

/-! ### One step down -/

theorem zeroedPage_eq {ptr : U64} {m : Memory} {r : ρ}
    (h : src.zeroedPage (s.memory, s.source) = Except.ok (ptr, m, r)) : zeroedPage src s =
      Except.ok (ptr, { s with memory := m, source := r, obtained := ptr :: s.obtained }) := by
  rw [zeroedPage, h]

theorem wp_zeroedPage (hv : src.Valid s.memory s.source) :
    wp (zeroedPage src) (fun ptr s' => src.Valid s'.memory s'.source ∧
      FreshPage (src.used s.source) (src.used s'.source) s.memory s'.memory ptr ∧
      s'.obtained = ptr :: s.obtained ∧ s'.released = s.released) s := by
  obtain ⟨ptr, ⟨m, r⟩, hrun, hv', hfresh⟩ := src.wp_zeroedPage s.memory s.source hv
  exact ⟨ptr, _, zeroedPage_eq hrun, hv', hfresh, rfl, rfl⟩

/-- `zeroed_pages(1)` returned `NULL`. -/
theorem grown_null (hT : Tree s.memory root (src.used s.source))
    (hv : src.Valid s'.memory s'.source)
    (hfresh : FreshPage (src.used s.source) (src.used s'.source) s.memory s'.memory 0#64)
    (hgot : s'.obtained = 0#64 :: s.obtained) (hrel : s'.released = s.released) :
    Grown src root s s' [0#64] ∧ Agree s.memory s'.memory root := by
  have hused : src.used s'.source = src.used s.source := by
    rcases hfresh.page with ⟨-, h⟩ | ⟨q, hq, -, h, -⟩
    · exact h
    · exact absurd h.symm (pagePtr_ne_zero hq)
  have hagree : Agree s.memory s'.memory root :=
    fun t ht i hi => hfresh.words t (hT.mem_used ht) (hT.table_lt ht) i hi
  refine ⟨?_, hagree⟩
  exact {
    tree := hT.congr hagree fun t ht => hused ▸ hT.mem_used ht
    valid := hv
    obtained := hgot
    released := hrel
    used := by simp [hused, pagesOf_null]
    isTable := by simp [hagree.isTable_iff, pagesOf_null]
    fresh := by simp [pagesOf_null]
    nodup := by simp [pagesOf_null]
    ptr := by simp
    word := fun p hp hlt _ i hi => hfresh.words p hp hlt i hi }

/-- `zeroed_pages(1)` returned page `q`. -/
theorem FreshPage.of_pagePtr {used used' : Set ℕ} {m m' : Memory} {q : ℕ}
    (h : FreshPage used used' m m' (pagePtr q)) (hq : q < windowPages) :
    q ∉ used ∧ used' = insert q used ∧ ∀ j < 512, m'.word q j = 0#64 := by
  rcases h.page with ⟨h0, -⟩ | ⟨q', hq', hqu, heq, hused, hzero⟩
  · exact absurd h0 (pagePtr_ne_zero hq)
  · obtain rfl := pagePtr_inj hq hq' heq
    exact ⟨hqu, hused, hzero⟩

/-- The entry of a fresh page is put into the empty slot `i` of `t`. -/
theorem linked_store {used : Set ℕ} {m m' : Memory} (hT : Tree m root used) {flags : U64}
    (hf : FlagsOk flags) {d x i t q : ℕ} (hd : d < 3) (hx : x < 512 ^ d) (hi : i < 512)
    (ht : table m root d x = some t) (hempty : m.word t i = 0#64) (hq : q < windowPages)
    (hqu : q ∉ used) (hzero : ∀ j < 512, m'.word q j = 0#64)
    (hword : ∀ p ∈ used, p < windowPages → ∀ j < 512, ¬ (p = t ∧ j = i) →
      (m'.store (cell t i) (pte q flags)).word p j = m.word p j) :
    Linked m (m'.store (cell t i) (pte q flags)) root d x i t q := by
  have htab : IsTable m root t := isTable_of_table hd.le hx ht
  have htlt := hT.table_lt htab
  have hqt : q ≠ t := fun h => hqu (h ▸ hT.mem_used htab)
  have hself : (m'.store (cell t i) (pte q flags)).word t i = pte q flags := by
    rw [Memory.word_store _ _ htlt htlt hi hi, if_pos ⟨rfl, rfl⟩]
  exact {
    depth := hd
    key_lt := hx
    slot_lt := hi
    parent := ht
    empty := hempty
    ne_zero := by
      rw [hself]
      exact pte_ne_zero hf.ne_zero
    not_huge := by
      rw [hself, huge_pte]
      exact hf.not_huge
    frame_eq := by rw [hself, frame_pte hq hf.address]
    lt := hq
    fresh := fun h => hqu (hT.mem_used h)
    zero := by
      intro j hj
      rw [Memory.word_store _ _ htlt hq hi hj, if_neg fun h => hqt h.1]
      exact hzero j hj
    other := fun p hp j hj hne => hword p (hT.mem_used hp) (hT.table_lt hp) j hj hne }

/-- `zeroed_pages(1)` returned page `q`, and its entry was put into the empty slot `i` of `t`. -/
theorem grown_linked (hT : Tree s.memory root (src.used s.source)) {flags : U64}
    (hf : FlagsOk flags) {d x i t q : ℕ} (hd : d < 3) (hx : x < 512 ^ d) (hi : i < 512)
    (ht : table s.memory root d x = some t) (hempty : s.memory.word t i = 0#64)
    (hq : q < windowPages) (hv : src.Valid s'.memory s'.source)
    (hfresh : FreshPage (src.used s.source) (src.used s'.source) s.memory s'.memory (pagePtr q))
    (hgot : s'.obtained = pagePtr q :: s.obtained) (hrel : s'.released = s.released) :
    Grown src root s { s' with memory := s'.memory.store (cell t i) (pte q flags) } [pagePtr q] ∧
      Linked s.memory (s'.memory.store (cell t i) (pte q flags)) root d x i t q := by
  have htab : IsTable s.memory root t := isTable_of_table hd.le hx ht
  have htlt := hT.table_lt htab
  obtain ⟨hqu, hused, hzero⟩ := hfresh.of_pagePtr hq
  have hword : ∀ p ∈ src.used s.source, p < windowPages → ∀ j < 512, ¬ (p = t ∧ j = i) →
      (s'.memory.store (cell t i) (pte q flags)).word p j = s.memory.word p j := by
    intro p hp hlt j hj hne
    rw [Memory.word_store _ _ htlt hlt hi hj, if_neg hne]
    exact hfresh.words p hp hlt j hj
  have hlink := linked_store hT hf hd hx hi ht hempty hq hqu hzero hword
  have hpages : ∀ p, p ∈ pagesOf [pagePtr q] ↔ p = q := by simp [pagesOf_pagePtr hq]
  refine ⟨?_, hlink⟩
  exact {
    tree := by
      change Tree _ root (src.used s'.source)
      rw [hused]
      exact hlink.tree hT
    valid := by
      refine src.valid_store _ _ _ _ _ hv ?_ htlt hi
      rw [hused]
      exact Set.mem_insert_of_mem _ (hT.mem_used htab)
    obtained := hgot
    released := hrel
    used := by
      intro p
      rw [hpages]
      change p ∈ src.used s'.source ↔ _
      rw [hused, Set.mem_insert_iff, or_comm]
    isTable := fun p => (hlink.isTable_iff hT p).trans (or_congr_right (hpages p).symm)
    fresh := by
      intro p hp
      rw [hpages] at hp
      exact hp ▸ hqu
    nodup := by
      rw [pagesOf_pagePtr hq]
      exact List.nodup_singleton q
    ptr := by
      intro x hx _
      exact ⟨q, hq, List.mem_singleton.1 hx⟩
    word := by
      intro p hp hlt hpt j hj
      refine hword p hp hlt j hj ?_
      rintro ⟨rfl, -⟩
      exact hpt htab }

/-! ### The way down -/

/-- Tables were made on the way to the table at depth `d` for `y`; the mapping is the same. -/
structure Extended (src : PageSource ρ) (root : ℕ) (s s' : Kernel ρ) (got : List U64)
    (d y : ℕ) : Prop where
  grown : Grown src root s s' got
  frames_eq : ∀ n < 512 ^ 4, frames s'.memory root n = frames s.memory root n
  hugeLeaf_eq : ∀ z < 512 ^ 3, hugeLeaf s'.memory root z = hugeLeaf s.memory root z
  p1 : ∀ z < 512 ^ 3, ¬ (d = 3 ∧ z = y) → table s'.memory root 3 z = table s.memory root 3 z

namespace Extended

variable {got got' : List U64} {d y : ℕ}

theorem refl (hT : Tree s.memory root (src.used s.source)) (hv : src.Valid s.memory s.source) :
    Extended src root s s [] d y :=
  ⟨Grown.refl hT hv, fun _ _ => rfl, fun _ _ => rfl, fun _ _ _ => rfl⟩

theorem of_agree (hg : Grown src root s s' got) (ha : Agree s.memory s'.memory root) :
    Extended src root s s' got d y where
  grown := hg
  frames_eq _ hn := ha.frames_eq hn
  hugeLeaf_eq _ hz := ha.hugeLeaf_eq hz
  p1 _ hz _ := ha.table_eq le_rfl hz

theorem of_linked {t q : ℕ} (hT : Tree s.memory root (src.used s.source))
    (hg : Grown src root s s' got)
    (hl : Linked s.memory s'.memory root d (y / 512) (y % 512) t q) :
    Extended src root s s' got (d + 1) y where
  grown := hg
  frames_eq _ hn := hl.frames_eq hT hn
  hugeLeaf_eq _ hz := hl.hugeLeaf_eq hT hz
  p1 := by
    intro z hz hne
    rw [hl.table_eq hT le_rfl hz, if_neg]
    rw [Nat.div_add_mod']
    rintro ⟨hd, rfl⟩
    exact hne ⟨hd.symm, rfl⟩

/-- One level further down. -/
theorem step (hd : d < 3) (h : Extended src root s s' got d (y / 512))
    (h' : Extended src root s' s'' got' (d + 1) y) :
    Extended src root s s'' (got' ++ got) (d + 1) y where
  grown := h.grown.trans h'.grown
  frames_eq n hn := (h'.frames_eq n hn).trans (h.frames_eq n hn)
  hugeLeaf_eq z hz := (h'.hugeLeaf_eq z hz).trans (h.hugeLeaf_eq z hz)
  p1 z hz hne := (h'.p1 z hz hne).trans (h.p1 z hz fun hc => by omega)

end Extended

/-- The way down from `root` to the table at depth `d` for `y`: it was there, or it was made (and is
empty), or a call of `zeroed_pages(1)` failed. -/
inductive Descent (src : PageSource ρ) (root : ℕ) (s : Kernel ρ) (d y : ℕ) :
    U64 → Kernel ρ → Prop
  | found {t : ℕ} (ht : table s.memory root d y = some t) : Descent src root s d y (pagePtr t) s
  | made {t : ℕ} {got : List U64} {s' : Kernel ρ} (hnone : table s.memory root d y = none)
      (hext : Extended src root s s' got d y) (hgot : 0#64 ∉ got)
      (ht : table s'.memory root d y = some t) (hzero : ∀ j < 512, s'.memory.word t j = 0#64) :
      Descent src root s d y (pagePtr t) s'
  | failed {got : List U64} {s' : Kernel ρ} (hnone : table s.memory root d y = none)
      (hext : Extended src root s s' got d y) (hgot : 0#64 ∈ got)
      (hnone' : table s'.memory root d y = none) :
      Descent src root s d y 0#64 s'

/-- `NULL` means that a call of `zeroed_pages(1)` failed. -/
theorem Descent.null (hT : Tree s.memory root (src.used s.source)) {d y : ℕ} (hd : d ≤ 3)
    (hy : y < 512 ^ d) {ptr : U64} (h : Descent src root s d y ptr s') (hptr : ptr = 0#64) :
    table s.memory root d y = none ∧ table s'.memory root d y = none ∧
      ∃ got, Extended src root s s' got d y ∧ 0#64 ∈ got := by
  cases h with
  | found ht => exact absurd hptr (pagePtr_ne_zero (hT.table_lt (isTable_of_table hd hy ht)))
  | made _ hext _ ht =>
    have hlt := hext.grown.tree.table_lt (isTable_of_table hd hy ht)
    exact absurd hptr (pagePtr_ne_zero hlt)
  | failed hnone hext hgot hnone' => exact ⟨hnone, hnone', _, hext, hgot⟩

/-- `nextTable` in a table of the tree, with the entry that it writes. -/
theorem wp_nextTable_written (hT : Tree s.memory root (src.used s.source))
    (hv : src.Valid s.memory s.source) {flags : U64} (hf : FlagsOk flags) {d y t : ℕ} (hd : d < 3)
    (hy : y < 512 ^ (d + 1)) (ht : table s.memory root d (y / 512) = some t)
    (hleaf : d = 2 → hugeLeaf s.memory root y = none) {Q : U64 → Kernel ρ → Prop}
    (hfound : ∀ q, table s.memory root (d + 1) y = some q → Q (pagePtr q) s)
    (hfailed : ∀ s', table s.memory root (d + 1) y = none → Grown src root s s' [0#64] →
      Agree s.memory s'.memory root → Q 0#64 s')
    (hmade : ∀ q s', table s.memory root (d + 1) y = none → Grown src root s s' [pagePtr q] →
      Linked s.memory s'.memory root d (y / 512) (y % 512) t q →
      s'.memory.word t (y % 512) = pte q flags → Q (pagePtr q) s') :
    wp (nextTable src (pagePtr t) (y % 512) flags) Q s := by
  have hy' := Radix.div_lt_pow (by decide) hy
  have hmod : y % 512 < 512 := Nat.mod_lt _ (by decide)
  have htab := isTable_of_table hd.le hy' ht
  have hchild : table s.memory root (d + 1) y = next d (s.memory.word t (y % 512)) := by
    rw [table_succ, ht]
    rfl
  simp only [nextTable, wp_bind, wp_loadEntry, wp_pteAddress (hT.frame_lt htab hmod), wp_ite,
    wp_pure]
  by_cases h0 : s.memory.word t (y % 512) = 0#64
  · have hnone : table s.memory root (d + 1) y = none := by
      rw [hchild, next, if_pos (Or.inl h0)]
    rw [if_pos h0, if_neg (by simp)]
    refine wp_mono (wp_zeroedPage hv) ?_
    rintro ptr s₁ ⟨hv₁, hfresh, hgot, hrel⟩
    by_cases hptr : ptr = 0#64
    · subst hptr
      obtain ⟨hg, ha⟩ := grown_null hT hv₁ hfresh hgot hrel
      rw [if_pos rfl]
      exact hfailed s₁ hnone hg ha
    · obtain ⟨q, hq, rfl⟩ : ∃ q, q < windowPages ∧ ptr = pagePtr q := by
        rcases hfresh.page with ⟨h, -⟩ | ⟨q, hq, -, h, -⟩
        · exact absurd h hptr
        · exact ⟨q, hq, h⟩
      obtain ⟨hg, hl⟩ := grown_linked hT hf hd hy' hmod ht h0 hq hv₁ hfresh hgot hrel
      rw [if_neg hptr, wp_makePte hq, wp_storeEntry]
      refine hmade q _ hnone hg hl ?_
      have htlt := hT.table_lt htab
      exact (Memory.word_store _ _ htlt htlt hmod hmod).trans (if_pos ⟨rfl, rfl⟩)
  · have hnext : table s.memory root (d + 1) y = some (frame (s.memory.word t (y % 512))) := by
      rw [hchild, next, if_neg]
      rintro (h | ⟨rfl, hh⟩)
      · exact h0 h
      · have hl := hleaf rfl
        rw [hugeLeaf, ht, Option.bind_some, leaf2MB, if_pos ⟨h0, hh⟩] at hl
        cases hl
    rw [if_neg h0, if_pos (pagePtr_ne_zero (hT.frame_lt htab hmod h0))]
    exact hfound _ hnext

/-- `nextTable` in a table of the tree. -/
theorem wp_nextTable_cases (hT : Tree s.memory root (src.used s.source))
    (hv : src.Valid s.memory s.source) {flags : U64} (hf : FlagsOk flags) {d y t : ℕ} (hd : d < 3)
    (hy : y < 512 ^ (d + 1)) (ht : table s.memory root d (y / 512) = some t)
    (hleaf : d = 2 → hugeLeaf s.memory root y = none) {Q : U64 → Kernel ρ → Prop}
    (hfound : ∀ q, table s.memory root (d + 1) y = some q → Q (pagePtr q) s)
    (hfailed : ∀ s', table s.memory root (d + 1) y = none → Grown src root s s' [0#64] →
      Agree s.memory s'.memory root → Q 0#64 s')
    (hmade : ∀ q s', table s.memory root (d + 1) y = none → Grown src root s s' [pagePtr q] →
      Linked s.memory s'.memory root d (y / 512) (y % 512) t q → Q (pagePtr q) s') :
    wp (nextTable src (pagePtr t) (y % 512) flags) Q s := by
  refine wp_nextTable_written hT hv hf hd hy ht hleaf hfound hfailed ?_
  intro q s' hnone hg hl _
  exact hmade q s' hnone hg hl

/-- **One step down.** -/
theorem wp_nextTable (hT : Tree s.memory root (src.used s.source))
    (hv : src.Valid s.memory s.source) {flags : U64} (hf : FlagsOk flags) {d y : ℕ} (hd : d < 3)
    (hy : y < 512 ^ (d + 1)) (hleaf : d = 2 → hugeLeaf s.memory root y = none) {ptr : U64}
    (hdesc : Descent src root s d (y / 512) ptr s') (hptr : ptr ≠ 0#64) :
    wp (nextTable src ptr (y % 512) flags) (Descent src root s (d + 1) y) s' := by
  cases hdesc with
  | failed => exact absurd rfl hptr
  | found ht =>
    refine wp_nextTable_cases hT hv hf hd hy ht hleaf ?_ ?_ ?_
    · intro q hq
      exact .found hq
    · intro s₁ hnone hg ha
      refine .failed hnone (.of_agree hg ha) (by simp) ?_
      rw [ha.table_eq hd hy, hnone]
    · intro q s₁ hnone hg hl
      have hnew := hl.table_new hT
      rw [Nat.div_add_mod'] at hnew
      refine .made hnone (.of_linked hT hg hl) ?_ hnew hl.zero
      simpa using (pagePtr_ne_zero hl.lt).symm
  | made hnone hext hgot ht hzero =>
    have hnone' : table s.memory root (d + 1) y = none := by
      rw [table_succ, hnone]
      rfl
    have hT' := hext.grown.tree
    refine wp_nextTable_cases hT' hext.grown.valid hf hd hy ht ?_ ?_ ?_ ?_
    · rintro rfl
      rw [hext.hugeLeaf_eq y hy]
      exact hleaf rfl
    · intro q hq
      rw [table_succ, ht, Option.bind_some, hzero _ (Nat.mod_lt _ (by decide))] at hq
      cases hq
    · intro s₁ hnone₁ hg ha
      refine .failed hnone' (hext.step hd (.of_agree hg ha)) (by simp) ?_
      rw [ha.table_eq hd hy, hnone₁]
    · intro q s₁ _ hg hl
      have hnew := hl.table_new hT'
      rw [Nat.div_add_mod'] at hnew
      refine .made hnone' (hext.step hd (.of_linked hT' hg hl)) ?_ hnew hl.zero
      simp [hgot, (pagePtr_ne_zero hl.lt).symm]

end Dumboss.PageTable
