import Dumboss.PageTable.Entries
import Dumboss.Lib.Radix

/-!
# The tree of tables and the mapping it stands for

`table m root d x` is the table at depth `d` (the p4 table `root` is at depth `0`, the p1 tables at
depth `3`) for the virtual pages whose number starts with the digits `x` to base 512: an instance of
`Radix.node`.  Read as a whole, the tree is a partial function from virtual to physical page numbers,
`frames m root`.

* `hugeLeaf`, `frames`: the 2MB pages, and the mapping;
* `Walkable`: every entry leads into the kernel window, so that `translate` can follow it; `Readable`:
  2MB pages end there, too;
* `Tree`: the invariant of the tables that the map functions build;
* `Linked`, `Filled4KB`, `Filled2MB`: the three ways in which they change memory, and what these do
  to the tables and to the mapping.
-/

namespace Dumboss.PageTable

open Prog

/-- The table an entry of a table at depth `d` leads to. -/
def next (d : ℕ) (e : U64) : Option ℕ :=
  if e = 0#64 ∨ (d = 2 ∧ huge e) then none else some (frame e)

/-- The table at depth `d` for the virtual pages that start with `x`. -/
def table (m : Memory) (root d x : ℕ) : Option ℕ := Radix.node 512 next m.word root d x

/-- `t` is one of the tables. -/
def IsTable (m : Memory) (root t : ℕ) : Prop := Radix.IsNode 512 3 next m.word root t

/-- The first page of the 2MB page an entry at depth 2 stands for. -/
def leaf2MB (e : U64) : Option ℕ := if e ≠ 0#64 ∧ huge e then some (frame e) else none

/-- The page an entry at depth 3 stands for. -/
def leaf4KB (e : U64) : Option ℕ := if e = 0#64 then none else some (frame e)

/-- The 2MB page that the 512 virtual pages from `512 * y` on are mapped to. -/
def hugeLeaf (m : Memory) (root y : ℕ) : Option ℕ :=
  (table m root 2 (y / 512)).bind fun t => leaf2MB (m.word t (y % 512))

/-- **The mapping**: the physical page that virtual page `n` is mapped to. -/
def frames (m : Memory) (root n : ℕ) : Option ℕ :=
  match hugeLeaf m root (n / 512) with
  | some f => some (f + n % 512)
  | none => (table m root 3 (n / 512)).bind fun t => leaf4KB (m.word t (n % 512))

variable {m m' : Memory} {root : ℕ}

theorem table_zero (x : ℕ) : table m root 0 x = some root := rfl

theorem table_succ (d x : ℕ) : table m root (d + 1) x =
    (table m root d (x / 512)).bind fun t => next d (m.word t (x % 512)) := rfl

theorem isTable_root : IsTable m root root := ⟨0, 0, by omega, by decide, rfl⟩

theorem isTable_of_table {d x t : ℕ} (hd : d ≤ 3) (hx : x < 512 ^ d)
    (ht : table m root d x = some t) : IsTable m root t := ⟨d, x, hd, hx, ht⟩

theorem pageNo_lt_pow (v : U64) : pageNo v < 512 ^ 4 := lt_of_lt_of_eq (pageNo_lt v) (by decide)

/-- A page of a 2MB page has no table at depth 3. -/
theorem table_three_eq_none {y f : ℕ} (h : hugeLeaf m root y = some f) :
    table m root 3 y = none := by
  obtain ⟨t, ht, hl⟩ := Option.bind_eq_some_iff.1 h
  have hhuge : huge (m.word t (y % 512)) := by
    unfold leaf2MB at hl
    split_ifs at hl with hc
    exact hc.2
  rw [table_succ, ht]
  simp [next, hhuge]

theorem hugeLeaf_eq_none {y t : ℕ} (h : table m root 3 y = some t) : hugeLeaf m root y = none := by
  cases hl : hugeLeaf m root y with
  | none => rfl
  | some f =>
    rw [table_three_eq_none hl] at h
    cases h

theorem frames_of_hugeLeaf {n f : ℕ} (h : hugeLeaf m root (n / 512) = some f) :
    frames m root n = some (f + n % 512) := by
  rw [frames, h]

theorem frames_of_table {n t : ℕ} (h : table m root 3 (n / 512) = some t) :
    frames m root n = leaf4KB (m.word t (n % 512)) := by
  rw [frames, hugeLeaf_eq_none h, h]
  rfl

/-! ### Memory that no table notices -/

/-- The words of all tables are the same. -/
def Agree (m m' : Memory) (root : ℕ) : Prop :=
  ∀ t, IsTable m root t → ∀ i < 512, m'.word t i = m.word t i

theorem Agree.table_eq (h : Agree m m' root) {d x : ℕ} (hd : d ≤ 3) (hx : x < 512 ^ d) :
    table m' root d x = table m root d x := by
  refine Radix.node_congr (by decide) ?_ d x hd hx
  intro d x t hd hx ht i hi
  rw [h t ⟨d, x, hd.le, hx, ht⟩ i hi]

theorem Agree.isTable_iff (h : Agree m m' root) (t : ℕ) : IsTable m' root t ↔ IsTable m root t :=
  Radix.isNode_congr (fun _ _ hd hx => h.table_eq hd hx) t

theorem Agree.hugeLeaf_eq (h : Agree m m' root) {y : ℕ} (hy : y < 512 ^ 3) :
    hugeLeaf m' root y = hugeLeaf m root y := by
  have hy' := Radix.div_lt_pow (by decide) hy
  rw [hugeLeaf, hugeLeaf, h.table_eq (by omega) hy']
  cases ht : table m root 2 (y / 512) with
  | none => rfl
  | some t =>
    simp only [Option.bind_some]
    rw [h t (isTable_of_table (by omega) hy' ht) _ (Nat.mod_lt _ (by decide))]

theorem Agree.frames_eq (h : Agree m m' root) {n : ℕ} (hn : n < 512 ^ 4) :
    frames m' root n = frames m root n := by
  have hy := Radix.div_lt_pow (by decide) hn
  rw [frames, frames, h.hugeLeaf_eq hy, h.table_eq le_rfl hy]
  cases hugeLeaf m root (n / 512) with
  | some f => rfl
  | none =>
    cases ht : table m root 3 (n / 512) with
    | none => rfl
    | some t =>
      simp only [Option.bind_some]
      rw [h t (isTable_of_table le_rfl hy ht) _ (Nat.mod_lt _ (by decide))]

/-! ### Tables that can be read and tables that were built -/

/-- Every entry leads into the kernel window, as far as its first page goes. -/
structure Walkable (m : Memory) (root : ℕ) : Prop where
  root_lt : root < windowPages
  frame_lt : ∀ {t}, IsTable m root t → ∀ {i}, i < 512 → m.word t i ≠ 0#64 →
    frame (m.word t i) < windowPages

theorem Walkable.table_lt (hW : Walkable m root) {t : ℕ} (ht : IsTable m root t) :
    t < windowPages := by
  obtain ⟨d, x, hd, hx, hnode⟩ := ht
  cases d with
  | zero =>
    obtain rfl : root = t := Option.some.inj hnode
    exact hW.root_lt
  | succ d =>
    rw [Radix.node_succ] at hnode
    obtain ⟨p, hp, hnext⟩ := Option.bind_eq_some_iff.1 hnode
    unfold next at hnext
    split_ifs at hnext with h0
    rw [← Option.some.inj hnext]
    exact hW.frame_lt (isTable_of_table (by omega) (Radix.div_lt_pow (by decide) hx) hp)
      (Nat.mod_lt x (by decide)) fun hz => h0 (Or.inl hz)

/-- Every entry leads into the kernel window. -/
structure Readable (m : Memory) (root : ℕ) : Prop where
  table_lt : ∀ {t}, IsTable m root t → t < windowPages
  frame_lt : ∀ {t}, IsTable m root t → ∀ {i}, i < 512 → m.word t i ≠ 0#64 →
    frame (m.word t i) < windowPages
  huge_lt : ∀ {y f}, y < 512 ^ 3 → hugeLeaf m root y = some f → f + 511 < windowPages

theorem Readable.walkable (hR : Readable m root) : Walkable m root :=
  ⟨hR.table_lt isTable_root, hR.frame_lt⟩

theorem Readable.frames_lt (hR : Readable m root) {n f : ℕ} (hn : n < 512 ^ 4)
    (hf : frames m root n = some f) : f < windowPages := by
  have hy := Radix.div_lt_pow (by decide) hn
  cases hl : hugeLeaf m root (n / 512) with
  | some g =>
    rw [frames_of_hugeLeaf hl] at hf
    have := hR.huge_lt hy hl
    have := Option.some.inj hf
    omega
  | none =>
    rw [frames, hl] at hf
    obtain ⟨t, ht, hleaf⟩ := Option.bind_eq_some_iff.1 hf
    unfold leaf4KB at hleaf
    split_ifs at hleaf with h0
    rw [← Option.some.inj hleaf]
    exact hR.frame_lt (isTable_of_table le_rfl hy ht) (Nat.mod_lt _ (by decide)) h0

theorem Agree.readable (h : Agree m m' root) (hR : Readable m root) : Readable m' root where
  table_lt ht := hR.table_lt ((h.isTable_iff _).1 ht)
  frame_lt := by
    intro t ht i hi
    have ht' := (h.isTable_iff t).1 ht
    rw [h t ht' i hi]
    exact hR.frame_lt ht' hi
  huge_lt hy hl := hR.huge_lt hy (by rwa [h.hugeLeaf_eq hy] at hl)

/-- **The invariant** of the tables that the map functions build from the p4 table `root`. -/
structure Tree (m : Memory) (root : ℕ) (used : Set ℕ) : Prop where
  inj : Radix.Inj 512 3 next m.word root
  mem_used : ∀ {t}, IsTable m root t → t ∈ used
  table_lt : ∀ {t}, IsTable m root t → t < windowPages
  frame_lt : ∀ {t}, IsTable m root t → ∀ {i}, i < 512 → m.word t i ≠ 0#64 →
    frame (m.word t i) < windowPages
  /-- `PTE_HUGE_PAGE` is used at depth 2 only. -/
  not_huge : ∀ {d x t}, d < 2 → x < 512 ^ d → table m root d x = some t → ∀ {i}, i < 512 →
    ¬ huge (m.word t i)
  /-- 2MB pages are aligned. -/
  dvd : ∀ {y f}, y < 512 ^ 3 → hugeLeaf m root y = some f → 512 ∣ f

theorem Tree.huge_lt {used : Set ℕ} (hT : Tree m root used) {y f : ℕ} (hy : y < 512 ^ 3)
    (hl : hugeLeaf m root y = some f) : f + 511 < windowPages := by
  have hy' := Radix.div_lt_pow (by decide) hy
  have hlt : f < windowPages := by
    obtain ⟨t, ht, hleaf⟩ := Option.bind_eq_some_iff.1 hl
    unfold leaf2MB at hleaf
    split_ifs at hleaf with hc
    rw [← Option.some.inj hleaf]
    exact hT.frame_lt (isTable_of_table (by omega) hy' ht) (Nat.mod_lt _ (by decide)) hc.1
  obtain ⟨k, rfl⟩ := hT.dvd hy hl
  unfold windowPages at *
  omega

theorem Tree.readable {used : Set ℕ} (hT : Tree m root used) : Readable m root where
  table_lt := hT.table_lt
  frame_lt := hT.frame_lt
  huge_lt := hT.huge_lt

theorem Tree.congr {used used' : Set ℕ} (hT : Tree m root used) (h : Agree m m' root)
    (hused : ∀ t, IsTable m root t → t ∈ used') : Tree m' root used' where
  inj := hT.inj.congr fun _ _ hd hx => h.table_eq hd hx
  mem_used ht := hused _ ((h.isTable_iff _).1 ht)
  table_lt := (h.readable hT.readable).table_lt
  frame_lt := (h.readable hT.readable).frame_lt
  not_huge := by
    intro d x t hd hx ht i hi
    rw [h.table_eq (by omega) hx] at ht
    rw [h t (isTable_of_table (by omega) hx ht) i hi]
    exact hT.not_huge hd hx ht hi
  dvd hy hl := hT.dvd hy (by rwa [h.hugeLeaf_eq hy] at hl)

/-- A zeroed page is a tree without mappings. -/
theorem table_of_zero (hzero : ∀ i < 512, m.word root i = 0#64) {d x : ℕ} (hd : d ≠ 0) :
    table m root d x = none := by
  obtain ⟨d, rfl⟩ := Nat.exists_eq_succ_of_ne_zero hd
  induction d generalizing x with
  | zero =>
    rw [table_succ, table_zero, Option.bind_some, hzero _ (Nat.mod_lt _ (by decide))]
    rfl
  | succ d ih =>
    rw [table_succ, ih (by omega)]
    rfl

theorem frames_of_zero (hzero : ∀ i < 512, m.word root i = 0#64) (n : ℕ) :
    frames m root n = none := by
  rw [frames, hugeLeaf, table_of_zero hzero (by omega), table_of_zero hzero (by omega)]
  rfl

theorem isTable_of_zero (hzero : ∀ i < 512, m.word root i = 0#64) {t : ℕ} :
    IsTable m root t ↔ t = root := by
  constructor
  · rintro ⟨d, x, -, -, ht⟩
    by_cases hd : d = 0
    · subst hd
      exact (Option.some.inj ht).symm
    · have hnone := table_of_zero hzero (x := x) hd
      rw [table, ht] at hnone
      cases hnone
  · rintro rfl
    exact isTable_root

theorem tree_of_zero {used : Set ℕ} (hroot : root ∈ used) (hlt : root < windowPages)
    (hzero : ∀ i < 512, m.word root i = 0#64) : Tree m root used where
  inj := by
    intro d x d' x' t hd hx hd' hx' ht ht'
    have hd0 : ∀ {d x}, Radix.node 512 next m.word root d x = some t → d = 0 := by
      intro d x ht
      by_contra hd
      have hnone := table_of_zero hzero (x := x) hd
      rw [table, ht] at hnone
      cases hnone
    obtain rfl := hd0 ht
    obtain rfl := hd0 ht'
    simp only [pow_zero, Nat.lt_one_iff] at hx hx'
    exact ⟨rfl, hx.trans hx'.symm⟩
  mem_used ht := by
    rw [isTable_of_zero hzero] at ht
    exact ht ▸ hroot
  table_lt ht := by
    rw [isTable_of_zero hzero] at ht
    exact ht ▸ hlt
  frame_lt := by
    intro t ht i hi h0
    rw [isTable_of_zero hzero] at ht
    subst ht
    exact absurd (hzero i hi) h0
  not_huge := by
    intro d x t hd hx ht i hi
    have htab := isTable_of_table (by omega) hx ht
    rw [isTable_of_zero hzero] at htab
    subst htab
    rw [hzero i hi, huge]
    simp
  dvd := by
    intro y f hy hl
    rw [hugeLeaf, table_of_zero hzero (by omega)] at hl
    cases hl

/-! ### A new table -/

/-- The new table `q` is hung into the empty entry `i` of the table `t` at depth `d`. -/
structure Linked (m m' : Memory) (root d x i t q : ℕ) : Prop where
  depth : d < 3
  key_lt : x < 512 ^ d
  slot_lt : i < 512
  parent : table m root d x = some t
  empty : m.word t i = 0#64
  ne_zero : m'.word t i ≠ 0#64
  not_huge : ¬ huge (m'.word t i)
  frame_eq : frame (m'.word t i) = q
  lt : q < windowPages
  fresh : ¬ IsTable m root q
  zero : ∀ j < 512, m'.word q j = 0#64
  other : ∀ s, IsTable m root s → ∀ j < 512, ¬ (s = t ∧ j = i) → m'.word s j = m.word s j

namespace Linked

variable {d x i t q : ℕ} {used : Set ℕ}

theorem next_eq (hl : Linked m m' root d x i t q) : next d (m'.word t i) = some q := by
  rw [next, if_neg, hl.frame_eq]
  rintro (h0 | ⟨-, hh⟩)
  · exact hl.ne_zero h0
  · exact hl.not_huge hh

theorem link (hl : Linked m m' root d x i t q) :
    Radix.Link 512 3 next m.word m'.word root d x i t q where
  depth := hl.depth
  key_lt := hl.key_lt
  slot_lt := hl.slot_lt
  parent := hl.parent
  empty := by
    rw [hl.empty]
    rfl
  linked := hl.next_eq
  fresh := hl.fresh
  bare := by
    intro l j hj
    rw [hl.zero j hj]
    rfl
  other := by
    intro l s hs j hj hne
    rw [hl.other s hs j hj hne]

theorem table_eq (hl : Linked m m' root d x i t q) (hT : Tree m root used) {l y : ℕ} (hd : l ≤ 3)
    (hy : y < 512 ^ l) : table m' root l y =
      if l = d + 1 ∧ y = x * 512 + i then some q else table m root l y :=
  Radix.node_link hT.inj hl.link l y hd hy

theorem table_new (hl : Linked m m' root d x i t q) (hT : Tree m root used) :
    table m' root (d + 1) (x * 512 + i) = some q := by
  rw [hl.table_eq hT hl.depth (Radix.child_lt_pow hl.key_lt hl.slot_lt), if_pos ⟨rfl, rfl⟩]

theorem table_old (hl : Linked m m' root d x i t q) :
    table m root (d + 1) (x * 512 + i) = none := by
  have hdiv : (x * 512 + i) / 512 = x := by
    have := hl.slot_lt
    omega
  have hmod : (x * 512 + i) % 512 = i := by
    have := hl.slot_lt
    omega
  rw [table_succ, hdiv, hmod, hl.parent, Option.bind_some, hl.empty]
  rfl

theorem isTable_iff (hl : Linked m m' root d x i t q) (hT : Tree m root used) (s : ℕ) :
    IsTable m' root s ↔ IsTable m root s ∨ s = q :=
  Radix.isNode_link hT.inj hl.link s

/-- A table that was there keeps its entries, but for the one that leads to the new table. -/
theorem word_cases (hl : Linked m m' root d x i t q) {s j : ℕ} (hs : IsTable m root s)
    (hj : j < 512) :
    m'.word s j = m.word s j ∨ (m.word s j = 0#64 ∧ m'.word s j ≠ 0#64 ∧ ¬ huge (m'.word s j) ∧
      frame (m'.word s j) = q ∧ s = t ∧ j = i) := by
  by_cases h : s = t ∧ j = i
  · obtain ⟨rfl, rfl⟩ := h
    exact Or.inr ⟨hl.empty, hl.ne_zero, hl.not_huge, hl.frame_eq, rfl, rfl⟩
  · exact Or.inl (hl.other s hs j hj h)

theorem leaf2MB_eq (hl : Linked m m' root d x i t q) {s j : ℕ} (hs : IsTable m root s)
    (hj : j < 512) : leaf2MB (m'.word s j) = leaf2MB (m.word s j) := by
  rcases hl.word_cases hs hj with h | ⟨h0, -, hh, -⟩
  · rw [h]
  · rw [leaf2MB, leaf2MB, h0, if_neg fun hc => hh hc.2, if_neg fun hc => hc.1 rfl]

theorem hugeLeaf_eq (hl : Linked m m' root d x i t q) (hT : Tree m root used) {y : ℕ}
    (hy : y < 512 ^ 3) : hugeLeaf m' root y = hugeLeaf m root y := by
  have hy' := Radix.div_lt_pow (by decide) hy
  have hmod : y % 512 < 512 := Nat.mod_lt _ (by decide)
  rw [hugeLeaf, hugeLeaf, hl.table_eq hT (by omega) hy']
  split_ifs with hnew
  · obtain ⟨hd, hyx⟩ := hnew
    obtain rfl : d = 1 := by omega
    rw [hyx, hl.table_old, Option.bind_some, hl.zero _ hmod]
    rfl
  · cases hs : table m root 2 (y / 512) with
    | none => rfl
    | some s => exact hl.leaf2MB_eq (isTable_of_table (by omega) hy' hs) hmod

/-- A new table maps nothing. -/
theorem frames_eq (hl : Linked m m' root d x i t q) (hT : Tree m root used) {n : ℕ}
    (hn : n < 512 ^ 4) : frames m' root n = frames m root n := by
  have hy := Radix.div_lt_pow (by decide) hn
  have hmod : n % 512 < 512 := Nat.mod_lt _ (by decide)
  rw [frames, frames, hl.hugeLeaf_eq hT hy, hl.table_eq hT le_rfl hy]
  cases hugeLeaf m root (n / 512) with
  | some f => rfl
  | none =>
    split_ifs with hnew
    · obtain ⟨hd, hyx⟩ := hnew
      obtain rfl : d = 2 := by omega
      rw [hyx, hl.table_old, Option.bind_some, hl.zero _ hmod]
      rfl
    · cases hs : table m root 3 (n / 512) with
      | none => rfl
      | some s =>
        -- entries of depth 3 do not change: the new table hangs above
        simp only [Option.bind_some]
        rw [hl.other s (isTable_of_table le_rfl hy hs) _ hmod]
        rintro ⟨rfl, -⟩
        obtain ⟨hd, -⟩ := hT.inj 3 (n / 512) d x s le_rfl hy hl.depth.le hl.key_lt hs hl.parent
        have := hl.depth
        omega

theorem tree (hl : Linked m m' root d x i t q) (hT : Tree m root used) :
    Tree m' root (insert q used) where
  inj := hT.inj.link hl.link
  mem_used hs := by
    rcases (hl.isTable_iff hT _).1 hs with hs | rfl
    · exact Set.mem_insert_of_mem _ (hT.mem_used hs)
    · exact Set.mem_insert _ _
  table_lt hs := by
    rcases (hl.isTable_iff hT _).1 hs with hs | rfl
    · exact hT.table_lt hs
    · exact hl.lt
  frame_lt := by
    intro s hs j hj h0
    rcases (hl.isTable_iff hT s).1 hs with hs | rfl
    · rcases hl.word_cases hs hj with h | ⟨-, -, -, hf, -⟩
      · rw [h] at h0 ⊢
        exact hT.frame_lt hs hj h0
      · rw [hf]
        exact hl.lt
    · exact absurd (hl.zero j hj) h0
  not_huge := by
    intro l y s hlt hy hs j hj
    rw [hl.table_eq hT (by omega) hy] at hs
    split_ifs at hs with hnew
    · obtain rfl := Option.some.inj hs
      rw [hl.zero j hj, huge]
      simp
    · rcases hl.word_cases (isTable_of_table (by omega) hy hs) hj with h | ⟨-, -, hh, -⟩
      · rw [h]
        exact hT.not_huge hlt hy hs hj
      · exact hh
  dvd hy hf := hT.dvd hy (by rwa [hl.hugeLeaf_eq hT hy] at hf)

end Linked

/-! ### A new 4KB page -/

/-- The empty entry for virtual page `n` in the p1 table `t` is filled. -/
structure Filled4KB (m m' : Memory) (root n t : ℕ) : Prop where
  lt : n < 512 ^ 4
  parent : table m root 3 (n / 512) = some t
  ne_zero : m'.word t (n % 512) ≠ 0#64
  frame_lt : frame (m'.word t (n % 512)) < windowPages
  other : ∀ s, IsTable m root s → ∀ j < 512, ¬ (s = t ∧ j = n % 512) → m'.word s j = m.word s j

namespace Filled4KB

variable {n t : ℕ} {used : Set ℕ}

/-- The entries of tables above depth 3 do not change. -/
theorem word_eq (hf : Filled4KB m m' root n t) (hT : Tree m root used) {d x s j : ℕ} (hd : d < 3)
    (hx : x < 512 ^ d) (hs : table m root d x = some s) (hj : j < 512) :
    m'.word s j = m.word s j := by
  refine hf.other s (isTable_of_table hd.le hx hs) j hj ?_
  rintro ⟨rfl, -⟩
  obtain ⟨hd', -⟩ := hT.inj d x 3 (n / 512) s hd.le hx le_rfl
    (Radix.div_lt_pow (by decide) hf.lt) hs hf.parent
  omega

theorem table_eq (hf : Filled4KB m m' root n t) (hT : Tree m root used) {d x : ℕ} (hd : d ≤ 3)
    (hx : x < 512 ^ d) : table m' root d x = table m root d x := by
  refine Radix.node_congr (by decide) ?_ d x hd hx
  intro d x s hd hx hs i hi
  rw [hf.word_eq hT hd hx hs hi]

theorem isTable_iff (hf : Filled4KB m m' root n t) (hT : Tree m root used) (s : ℕ) :
    IsTable m' root s ↔ IsTable m root s :=
  Radix.isNode_congr (fun _ _ hd hx => hf.table_eq hT hd hx) s

theorem hugeLeaf_eq (hf : Filled4KB m m' root n t) (hT : Tree m root used) {y : ℕ}
    (hy : y < 512 ^ 3) : hugeLeaf m' root y = hugeLeaf m root y := by
  have hy' := Radix.div_lt_pow (by decide) hy
  rw [hugeLeaf, hugeLeaf, hf.table_eq hT (by omega) hy']
  cases hs : table m root 2 (y / 512) with
  | none => rfl
  | some s =>
    simp only [Option.bind_some]
    rw [hf.word_eq hT (by omega) hy' hs (Nat.mod_lt _ (by decide))]

theorem frames_eq (hf : Filled4KB m m' root n t) (hT : Tree m root used) {k : ℕ}
    (hk : k < 512 ^ 4) : frames m' root k =
      if k = n then some (frame (m'.word t (n % 512))) else frames m root k := by
  have hy := Radix.div_lt_pow (by decide) hk
  have hyn := Radix.div_lt_pow (by decide) hf.lt
  have hmod : k % 512 < 512 := Nat.mod_lt _ (by decide)
  split_ifs with hkn
  · subst hkn
    rw [frames_of_table (by rw [hf.table_eq hT le_rfl hy]; exact hf.parent), leaf4KB,
      if_neg hf.ne_zero]
  · rw [frames, frames, hf.hugeLeaf_eq hT hy, hf.table_eq hT le_rfl hy]
    cases hugeLeaf m root (k / 512) with
    | some f => rfl
    | none =>
      cases hs : table m root 3 (k / 512) with
      | none => rfl
      | some s =>
        simp only [Option.bind_some]
        rw [hf.other s (isTable_of_table le_rfl hy hs) _ hmod]
        rintro ⟨rfl, hj⟩
        obtain ⟨-, hdiv⟩ := hT.inj 3 (k / 512) 3 (n / 512) s le_rfl hy le_rfl hyn hs hf.parent
        omega

theorem tree (hf : Filled4KB m m' root n t) (hT : Tree m root used) : Tree m' root used where
  inj := hT.inj.congr fun _ _ hd hx => hf.table_eq hT hd hx
  mem_used hs := hT.mem_used ((hf.isTable_iff hT _).1 hs)
  table_lt hs := hT.table_lt ((hf.isTable_iff hT _).1 hs)
  frame_lt := by
    intro s hs j hj h0
    by_cases h : s = t ∧ j = n % 512
    · obtain ⟨rfl, rfl⟩ := h
      exact hf.frame_lt
    · have hs' := (hf.isTable_iff hT s).1 hs
      rw [hf.other s hs' j hj h] at h0 ⊢
      exact hT.frame_lt hs' hj h0
  not_huge := by
    intro d x s hd hx hs i hi
    rw [hf.table_eq hT (by omega) hx] at hs
    rw [hf.word_eq hT (by omega) hx hs hi]
    exact hT.not_huge hd hx hs hi
  dvd hy hl := hT.dvd hy (by rwa [hf.hugeLeaf_eq hT hy] at hl)

end Filled4KB

/-! ### A new 2MB page -/

/-- The empty entry for the 512 virtual pages from `512 * y` on in the p2 table `t` is filled. -/
structure Filled2MB (m m' : Memory) (root y t : ℕ) : Prop where
  lt : y < 512 ^ 3
  parent : table m root 2 (y / 512) = some t
  empty : m.word t (y % 512) = 0#64
  ne_zero : m'.word t (y % 512) ≠ 0#64
  huge : huge (m'.word t (y % 512))
  frame_lt : frame (m'.word t (y % 512)) < windowPages
  dvd : 512 ∣ frame (m'.word t (y % 512))
  other : ∀ s, IsTable m root s → ∀ j < 512, ¬ (s = t ∧ j = y % 512) → m'.word s j = m.word s j

namespace Filled2MB

variable {y t : ℕ} {used : Set ℕ}

theorem table_three_eq_none (hf : Filled2MB m m' root y t) : table m root 3 y = none := by
  rw [table_succ, hf.parent, Option.bind_some, hf.empty]
  rfl

theorem hugeLeaf_eq_none (hf : Filled2MB m m' root y t) : hugeLeaf m root y = none := by
  rw [hugeLeaf, hf.parent, Option.bind_some, hf.empty]
  rfl

theorem table_eq (hf : Filled2MB m m' root y t) (hT : Tree m root used) {d x : ℕ} (hd : d ≤ 3)
    (hx : x < 512 ^ d) : table m' root d x = table m root d x := by
  refine Radix.node_congr (by decide) ?_ d x hd hx
  intro d x s hd hx hs i hi
  by_cases h : s = t ∧ i = y % 512
  · -- neither the empty entry nor the one of a 2MB page leads to a table
    obtain ⟨rfl, rfl⟩ := h
    obtain ⟨rfl, -⟩ := hT.inj d x 2 (y / 512) s hd.le hx (by omega)
      (Radix.div_lt_pow (by decide) hf.lt) hs hf.parent
    rw [next, if_pos (Or.inr ⟨rfl, hf.huge⟩), hf.empty]
    rfl
  · rw [hf.other s (isTable_of_table hd.le hx hs) i hi h]

theorem isTable_iff (hf : Filled2MB m m' root y t) (hT : Tree m root used) (s : ℕ) :
    IsTable m' root s ↔ IsTable m root s :=
  Radix.isNode_congr (fun _ _ hd hx => hf.table_eq hT hd hx) s

theorem hugeLeaf_eq (hf : Filled2MB m m' root y t) (hT : Tree m root used) {z : ℕ}
    (hz : z < 512 ^ 3) : hugeLeaf m' root z =
      if z = y then some (frame (m'.word t (y % 512))) else hugeLeaf m root z := by
  have hz' := Radix.div_lt_pow (by decide) hz
  have hy' := Radix.div_lt_pow (by decide) hf.lt
  have hmod : z % 512 < 512 := Nat.mod_lt _ (by decide)
  rw [hugeLeaf, hf.table_eq hT (by omega) hz']
  split_ifs with hzy
  · subst hzy
    rw [hf.parent, Option.bind_some, leaf2MB, if_pos ⟨hf.ne_zero, hf.huge⟩]
  · rw [hugeLeaf]
    cases hs : table m root 2 (z / 512) with
    | none => rfl
    | some s =>
      simp only [Option.bind_some]
      rw [hf.other s (isTable_of_table (by omega) hz' hs) _ hmod]
      rintro ⟨rfl, hj⟩
      obtain ⟨-, hdiv⟩ := hT.inj 2 (z / 512) 2 (y / 512) s (by omega) hz' (by omega) hy' hs hf.parent
      omega

theorem frames_eq (hf : Filled2MB m m' root y t) (hT : Tree m root used) {k : ℕ}
    (hk : k < 512 ^ 4) : frames m' root k =
      if k / 512 = y then some (frame (m'.word t (y % 512)) + k % 512) else frames m root k := by
  have hy := Radix.div_lt_pow (by decide) hk
  split_ifs with hky
  · rw [frames, hf.hugeLeaf_eq hT hy, if_pos hky]
  · rw [frames, frames, hf.hugeLeaf_eq hT hy, if_neg hky, hf.table_eq hT le_rfl hy]
    cases hugeLeaf m root (k / 512) with
    | some f => rfl
    | none =>
      cases hs : table m root 3 (k / 512) with
      | none => rfl
      | some s =>
        simp only [Option.bind_some]
        rw [hf.other s (isTable_of_table le_rfl hy hs) _ (Nat.mod_lt _ (by decide))]
        rintro ⟨rfl, -⟩
        obtain ⟨hd, -⟩ := hT.inj 3 (k / 512) 2 (y / 512) s le_rfl hy (by omega)
          (Radix.div_lt_pow (by decide) hf.lt) hs hf.parent
        omega

theorem tree (hf : Filled2MB m m' root y t) (hT : Tree m root used) : Tree m' root used where
  inj := hT.inj.congr fun _ _ hd hx => hf.table_eq hT hd hx
  mem_used hs := hT.mem_used ((hf.isTable_iff hT _).1 hs)
  table_lt hs := hT.table_lt ((hf.isTable_iff hT _).1 hs)
  frame_lt := by
    intro s hs j hj h0
    by_cases h : s = t ∧ j = y % 512
    · obtain ⟨rfl, rfl⟩ := h
      exact hf.frame_lt
    · have hs' := (hf.isTable_iff hT s).1 hs
      rw [hf.other s hs' j hj h] at h0 ⊢
      exact hT.frame_lt hs' hj h0
  not_huge := by
    intro d x s hd hx hs i hi
    rw [hf.table_eq hT (by omega) hx] at hs
    rw [hf.other s (isTable_of_table (by omega) hx hs) i hi]
    · exact hT.not_huge hd hx hs hi
    · rintro ⟨rfl, -⟩
      obtain ⟨hd', -⟩ := hT.inj d x 2 (y / 512) s (by omega) hx (by omega)
        (Radix.div_lt_pow (by decide) hf.lt) hs hf.parent
      omega
  dvd := by
    intro z f hz hl
    rw [hf.hugeLeaf_eq hT hz] at hl
    split_ifs at hl with hzy
    · rw [← Option.some.inj hl]
      exact hf.dvd
    · exact hT.dvd hz hl

end Filled2MB

end Dumboss.PageTable
