import Dumboss.PageTable.Overlap

/-!
# Access rights

The processor combines the rights of all entries on the way to a page: it may be written, or reached
from user mode, if every entry says so, and it may not be executed if one entry says so.  The map
functions give the flags of a call to the entry of the page and to all entries that they make on the
way, and leave the entries alone that are there.

* `Rights`, `rightsOf`, `combine`; `combine_eq_iff`;
* `entry`, `walk`, `effective`: the entries on the way to a page, and its effective rights;
* `Stamped`: what a call does to the entries; `wp_call_stamped`;
* `Call.Permitted`: the entries on the way that are there before a call do not take away what it asks
  for;
* `rights_exact`: this is when a call has the rights it asks for, then and ever after.
-/

namespace Dumboss.PageTable

open Prog Runs

/-- `PTE_PRESENT`. -/
def ptePresent : U64 := 1#64

/-- `PTE_WRITABLE`. -/
def pteWritable : U64 := 1#64 <<< 1

/-- `PTE_USER_ACCESSIBLE`. -/
def pteUserAccessible : U64 := 1#64 <<< 2

/-- `PTE_NOT_EMPTY`, which is `PTE_BIT_9`. -/
def pteNotEmpty : U64 := 1#64 <<< 9

/-- `PTE_NO_EXECUTE`. -/
def pteNoExecute : U64 := 1#64 <<< 63

/-- `PTE_KERNEL`. -/
def pteKernel : U64 := pteWritable ||| pteNoExecute ||| ptePresent ||| pteNotEmpty

/-- `PTE_KERNEL_EXE`. -/
def pteKernelExe : U64 := ptePresent ||| pteNotEmpty

/-- `PTE_USER`. -/
def pteUser : U64 :=
  pteWritable ||| pteNoExecute ||| ptePresent ||| pteUserAccessible ||| pteNotEmpty

/-- What `PTE_WRITABLE`, `PTE_USER_ACCESSIBLE` and `PTE_NO_EXECUTE` say. -/
structure Rights where
  writable : Bool
  userAccessible : Bool
  noExecute : Bool
  deriving DecidableEq

/-- The rights of an entry or of flags. -/
def rightsOf (e : U64) : Rights where
  writable := e &&& pteWritable ≠ 0#64
  userAccessible := e &&& pteUserAccessible ≠ 0#64
  noExecute := e &&& pteNoExecute ≠ 0#64

/-- The rights of a page that is reached through the entries `es`. -/
def combine (es : List U64) : Rights where
  writable := es.all fun e => (rightsOf e).writable
  userAccessible := es.all fun e => (rightsOf e).userAccessible
  noExecute := es.any fun e => (rightsOf e).noExecute

/-- An entry with the rights `r` takes nothing away from a page with the rights `asked`. -/
structure Permits (r asked : Rights) : Prop where
  writable : asked.writable = true → r.writable = true
  userAccessible : asked.userAccessible = true → r.userAccessible = true
  noExecute : r.noExecute = true → asked.noExecute = true

theorem Permits.refl (r : Rights) : Permits r r := ⟨id, id, id⟩

/-- If one of the entries has the rights asked for, then these are the rights of the page exactly if
no entry takes anything away. -/
theorem combine_eq_iff {es : List U64} {asked : Rights} (hleaf : ∃ e ∈ es, rightsOf e = asked) :
    combine es = asked ↔ ∀ e ∈ es, Permits (rightsOf e) asked := by
  constructor
  · rintro rfl e he
    refine ⟨fun h => List.all_eq_true.1 h e he, fun h => List.all_eq_true.1 h e he, fun h => ?_⟩
    exact List.any_eq_true.2 ⟨e, he, h⟩
  · intro h
    obtain ⟨leaf, hmem, rfl⟩ := hleaf
    have hw : es.all (fun e => (rightsOf e).writable) = (rightsOf leaf).writable := by
      rw [Bool.eq_iff_iff, List.all_eq_true]
      exact ⟨fun hall => hall leaf hmem, fun hl e he => (h e he).writable hl⟩
    have hu : es.all (fun e => (rightsOf e).userAccessible) = (rightsOf leaf).userAccessible := by
      rw [Bool.eq_iff_iff, List.all_eq_true]
      exact ⟨fun hall => hall leaf hmem, fun hl e he => (h e he).userAccessible hl⟩
    have hx : es.any (fun e => (rightsOf e).noExecute) = (rightsOf leaf).noExecute := by
      rw [Bool.eq_iff_iff, List.any_eq_true]
      constructor
      · rintro ⟨e, he, hone⟩
        exact (h e he).noExecute hone
      · exact fun hl => ⟨leaf, hmem, hl⟩
    unfold combine
    rw [hw, hu, hx]

theorem rightsOf_eq (e : U64) : rightsOf e = ⟨e.getLsbD 1, e.getLsbD 2, e.getLsbD 63⟩ := by
  have hbit : ∀ i < 64, decide (e &&& 1#64 <<< i ≠ 0#64) = e.getLsbD i := by
    intro i hi
    rw [Bool.eq_iff_iff, decide_eq_true_eq, BitVec.and_comm, ne_comm]
    exact BitSet.bit_and_ne_zero_iff e hi
  unfold rightsOf pteWritable pteUserAccessible pteNoExecute
  rw [hbit 1 (by decide), hbit 2 (by decide), hbit 63 (by decide)]

theorem rightsOf_pte (q : ℕ) (flags : U64) : rightsOf (pte q flags) = rightsOf flags := by
  rw [rightsOf_eq, rightsOf_eq, getLsbD_pte (by decide), getLsbD_pte (by decide),
    getLsbD_pte (by decide)]
  rfl

theorem rightsOf_or_huge (flags : U64) : rightsOf (flags ||| pteHugePage) = rightsOf flags := by
  rw [rightsOf_eq, rightsOf_eq]
  simp only [BitVec.getLsbD_or, getLsbD_pteHugePage 1 (by decide), getLsbD_pteHugePage 2 (by decide),
    getLsbD_pteHugePage 63 (by decide)]
  simp

/-! ### The entries on the way to a page -/

/-- The entry at depth `d` for the virtual pages that start with `x`, `0` if there is no table. -/
def entry (m : Memory) (root d x : ℕ) : U64 :=
  (table m root d (x / 512)).elim 0#64 fun t => m.word t (x % 512)

/-- The entries that lead to the tables on the way to page `n`. -/
def upper (m : Memory) (root n : ℕ) : List U64 :=
  [entry m root 0 (n / 512 / 512 / 512), entry m root 1 (n / 512 / 512), entry m root 2 (n / 512)]

/-- All entries on the way to page `n`; a 2MB page has no entry at depth 3. -/
def walk (m : Memory) (root n : ℕ) : List U64 :=
  if huge (entry m root 2 (n / 512)) then upper m root n
  else upper m root n ++ [entry m root 3 n]

/-- **The effective rights** of page `n`. -/
def effective (m : Memory) (root n : ℕ) : Rights := combine (walk m root n)

variable {m m' m'' : Memory} {root : ℕ}

theorem entry_of_table {d x t : ℕ} (h : table m root d (x / 512) = some t) :
    entry m root d x = m.word t (x % 512) := by
  rw [entry, h]
  rfl

theorem entry_of_table_none {d x : ℕ} (h : table m root d (x / 512) = none) :
    entry m root d x = 0#64 := by
  rw [entry, h]
  rfl

theorem entry_ne_zero_of_table {d x t : ℕ} (h : table m root (d + 1) x = some t) :
    entry m root d x ≠ 0#64 := by
  obtain ⟨p, hp, hnext⟩ := Option.bind_eq_some_iff.1 h
  rw [entry_of_table hp]
  intro h0
  rw [h0] at hnext
  cases hnext

/-- The leaf of page `n` in `walk`: the entry of its 2MB page or of its own. -/
def leafEntry (m : Memory) (root n : ℕ) : U64 :=
  if huge (entry m root 2 (n / 512)) then entry m root 2 (n / 512) else entry m root 3 n

/-- The digits of page `n` that lead to its entry at depth `d`. -/
def key (n : ℕ) : ℕ → ℕ
  | 0 => n / 512 / 512 / 512
  | 1 => n / 512 / 512
  | 2 => n / 512
  | _ => n

theorem key_lt {n : ℕ} (hn : n < 2 ^ 36) : ∀ d ≤ 3, key n d < 512 ^ (d + 1) := by
  have hy3 : n / 512 < 512 ^ 3 := Radix.div_lt_pow (by decide) hn
  have hy2 := Radix.div_lt_pow (by decide) hy3
  have hy1 := Radix.div_lt_pow (by decide) hy2
  intro d hd
  interval_cases d
  · exact hy1
  · exact hy2
  · exact hy3
  · exact hn

theorem mem_upper {n : ℕ} {e : U64} :
    e ∈ upper m root n ↔ ∃ d < 3, e = entry m root d (key n d) := by
  simp only [upper, List.mem_cons, List.not_mem_nil, or_false]
  constructor
  · rintro (rfl | rfl | rfl)
    · exact ⟨0, by omega, rfl⟩
    · exact ⟨1, by omega, rfl⟩
    · exact ⟨2, by omega, rfl⟩
  · rintro ⟨d, hd, rfl⟩
    interval_cases d
    · exact Or.inl rfl
    · exact Or.inr (Or.inl rfl)
    · exact Or.inr (Or.inr rfl)

theorem mem_walk {n : ℕ} {e : U64} :
    e ∈ walk m root n ↔ e ∈ upper m root n ∨ e = leafEntry m root n := by
  unfold walk leafEntry
  split_ifs with hh
  · constructor
    · exact Or.inl
    · rintro (he | rfl)
      · exact he
      · exact mem_upper.2 ⟨2, by omega, rfl⟩
  · rw [List.mem_append, List.mem_singleton]

/-- A page is mapped exactly if its leaf is not zero. -/
theorem frames_ne_none_iff (n : ℕ) : frames m root n ≠ none ↔ leafEntry m root n ≠ 0#64 := by
  have hhuge : ∀ e, huge e → e ≠ 0#64 := by
    rintro e he rfl
    exact he (by simp)
  have hleaf : hugeLeaf m root (n / 512) = leaf2MB (entry m root 2 (n / 512)) := by
    unfold hugeLeaf entry
    cases table m root 2 (n / 512 / 512) with
    | none => rfl
    | some t => rfl
  rw [leafEntry, frames, hleaf, leaf2MB]
  by_cases hh : huge (entry m root 2 (n / 512))
  · rw [if_pos ⟨hhuge _ hh, hh⟩, if_pos hh]
    simp [hhuge _ hh]
  · rw [if_neg fun h => hh h.2, if_neg hh]
    unfold entry leaf4KB
    cases table m root 3 (n / 512) with
    | none => simp
    | some t => simp

/-- All entries on the way to a mapped page are nonzero. -/
theorem walk_ne_zero {n : ℕ} (h : frames m root n ≠ none) : ∀ e ∈ walk m root n, e ≠ 0#64 := by
  have hleaf := (frames_ne_none_iff n).1 h
  have h2 : entry m root 2 (n / 512) ≠ 0#64 := by
    unfold leafEntry at hleaf
    split_ifs at hleaf with hh
    · exact hleaf
    · intro h0
      have hnone : table m root 3 (n / 512) = none := by
        by_contra hsome
        obtain ⟨t, ht⟩ := Option.ne_none_iff_exists'.1 hsome
        exact entry_ne_zero_of_table ht h0
      exact hleaf (entry_of_table_none hnone)
  have up : ∀ d x, entry m root (d + 1) x ≠ 0#64 → entry m root d (x / 512) ≠ 0#64 := by
    intro d x hne
    have hsome : table m root (d + 1) (x / 512) ≠ none := fun hnone => hne (entry_of_table_none hnone)
    obtain ⟨t, ht⟩ := Option.ne_none_iff_exists'.1 hsome
    exact entry_ne_zero_of_table ht
  have h1 := up 1 _ h2
  have h0 := up 0 _ h1
  have hupper : ∀ e ∈ upper m root n, e ≠ 0#64 := by
    intro e he
    simp only [upper, List.mem_cons, List.not_mem_nil, or_false] at he
    rcases he with rfl | rfl | rfl
    · exact h0
    · exact h1
    · exact h2
  unfold walk
  unfold leafEntry at hleaf
  split_ifs at hleaf ⊢ with hh
  · exact hupper
  · intro e he
    rcases List.mem_append.1 he with he | he
    · exact hupper e he
    · rw [List.mem_singleton.1 he]
      exact hleaf

/-! ### What a call does to the entries -/

/-- The entries that are there stay, and the new ones have the rights of `flags`. -/
def Stamped (flags : U64) (root : ℕ) (m m' : Memory) : Prop :=
  ∀ d ≤ 3, ∀ x < 512 ^ (d + 1), entry m' root d x = entry m root d x ∨
    entry m root d x = 0#64 ∧ rightsOf (entry m' root d x) = rightsOf flags

theorem Stamped.refl (flags : U64) (root : ℕ) (m : Memory) : Stamped flags root m m :=
  fun _ _ _ _ => Or.inl rfl

theorem Stamped.trans {flags : U64} (h : Stamped flags root m m') (h' : Stamped flags root m' m'') :
    Stamped flags root m m'' := by
  intro d hd x hx
  rcases h d hd x hx with heq | ⟨h0, hr⟩
  · rcases h' d hd x hx with heq' | ⟨h0', hr'⟩
    · exact Or.inl (heq'.trans heq)
    · exact Or.inr ⟨heq ▸ h0', hr'⟩
  · rcases h' d hd x hx with heq' | ⟨-, hr'⟩
    · exact Or.inr ⟨h0, heq' ▸ hr⟩
    · exact Or.inr ⟨h0, hr'⟩

theorem Agree.stamped (h : Agree m m' root) (flags : U64) : Stamped flags root m m' := by
  intro d hd x hx
  have hx' := Radix.div_lt_pow (by decide) hx
  left
  unfold entry
  rw [h.table_eq hd hx']
  cases ht : table m root d (x / 512) with
  | none => rfl
  | some t => exact h t (isTable_of_table hd hx' ht) _ (Nat.mod_lt _ (by decide))

/-- One entry is written, which was empty; a table that comes with it is empty. -/
theorem stamped_of_cell {flags : U64} {t i : ℕ} (hempty : m.word t i = 0#64)
    (hself : rightsOf (m'.word t i) = rightsOf flags)
    (hother : ∀ p, IsTable m root p → ∀ j < 512, ¬ (p = t ∧ j = i) → m'.word p j = m.word p j)
    (htable : ∀ d ≤ 3, ∀ x < 512 ^ d, table m' root d x = table m root d x ∨
      table m root d x = none ∧ ∀ q, table m' root d x = some q → ∀ j < 512, m'.word q j = 0#64) :
    Stamped flags root m m' := by
  intro d hd x hx
  have hx' := Radix.div_lt_pow (by decide) hx
  have hmod : x % 512 < 512 := Nat.mod_lt _ (by decide)
  rcases htable d hd _ hx' with heq | ⟨hnone, hzero⟩
  · cases ht : table m root d (x / 512) with
    | none =>
      rw [ht] at heq
      exact Or.inl (by rw [entry_of_table_none ht, entry_of_table_none heq])
    | some p =>
      rw [ht] at heq
      rw [entry_of_table ht, entry_of_table heq]
      by_cases hcell : p = t ∧ x % 512 = i
      · obtain ⟨rfl, rfl⟩ := hcell
        exact Or.inr ⟨hempty, hself⟩
      · exact Or.inl (hother p (isTable_of_table hd hx' ht) _ hmod hcell)
  · left
    rw [entry_of_table_none hnone]
    cases hq : table m' root d (x / 512) with
    | none => rw [entry_of_table_none hq]
    | some q => rw [entry_of_table hq, hzero q hq _ hmod]

theorem stamped_page {used : Set ℕ} {n t f : ℕ} {flags : U64} (hT : Tree m root used)
    (hn : n < 2 ^ 36) (ht : table m root 3 (n / 512) = some t) (hempty : m.word t (n % 512) = 0#64)
    (hf : f < windowPages) (hflags : FlagsOk flags) :
    Stamped flags root m (m.store (cell t (n % 512)) (pte f flags)) := by
  have hfill := filled4KB_store hT hn ht hf hflags
  have htab := isTable_of_table le_rfl (Radix.div_lt_pow (by decide) hn) ht
  refine stamped_of_cell hempty ?_ hfill.other fun d hd x hx => Or.inl (hfill.table_eq hT hd hx)
  rw [word_store_self hT htab (Nat.mod_lt _ (by decide)), rightsOf_pte]

theorem stamped_page2MB {used : Set ℕ} {n t f : ℕ} {flags : U64} (hT : Tree m root used)
    (hn : n < 2 ^ 36) (ht : table m root 2 (n / 512 / 512) = some t)
    (hempty : m.word t (n / 512 % 512) = 0#64) (hf : f < windowPages) (hfdvd : 512 ∣ f)
    (hflags : FlagsOk flags) : Stamped flags root m
      (m.store (cell t (n / 512 % 512)) (pte f (flags ||| pteHugePage))) := by
  have hfill := filled2MB_store hT hn ht hempty hf hfdvd hflags
  have hy : n / 512 < 512 ^ 3 := Radix.div_lt_pow (by decide) hn
  have htab := isTable_of_table (by omega) (Radix.div_lt_pow (by decide) hy) ht
  refine stamped_of_cell hempty ?_ hfill.other fun d hd x hx => Or.inl (hfill.table_eq hT hd hx)
  rw [word_store_self hT htab (Nat.mod_lt _ (by decide)), rightsOf_pte, rightsOf_or_huge]

theorem Linked.stamped {used : Set ℕ} {flags : U64} {d x i t q : ℕ} (hT : Tree m root used)
    (hl : Linked m m' root d x i t q) (hword : m'.word t i = pte q flags) :
    Stamped flags root m m' := by
  refine stamped_of_cell hl.empty (by rw [hword, rightsOf_pte]) hl.other ?_
  intro l hl' y hy
  rw [hl.table_eq hT hl' hy]
  split_ifs with hnew
  · obtain ⟨rfl, rfl⟩ := hnew
    refine Or.inr ⟨hl.table_old, fun p hp => ?_⟩
    rw [← Option.some.inj hp]
    exact hl.zero
  · exact Or.inl rfl

/-! ### The calls -/

variable {ρ : Type} {src : PageSource ρ} {s s' s₀ s₁ s₂ s₃ : Kernel ρ}

theorem wp_nextTable_stamped (hT : Tree s.memory root (src.used s.source))
    (hv : src.Valid s.memory s.source) {flags : U64} (hf : FlagsOk flags) {d y t : ℕ} (hd : d < 3)
    (hy : y < 512 ^ (d + 1)) (ht : table s.memory root d (y / 512) = some t)
    (hleaf : d = 2 → hugeLeaf s.memory root y = none) :
    wp (nextTable src (pagePtr t) (y % 512) flags)
      (fun _ s' => Stamped flags root s.memory s'.memory) s := by
  refine wp_nextTable_written hT hv hf hd hy ht hleaf ?_ ?_ ?_
  · exact fun _ _ => .refl _ _ _
  · exact fun _ _ _ hagree => hagree.stamped flags
  · exact fun _ _ _ _ hl hword => hl.stamped hT hword

/-- One step down. -/
theorem Descent.wp_stamped (hB : Built src root s) {flags : U64} (hf : FlagsOk flags) {d y : ℕ}
    (hd : d < 3) (hy : y < 512 ^ (d + 1)) (hleaf : d = 2 → hugeLeaf s.memory root y = none) {ptr : U64}
    (hdesc : Descent src root s d (y / 512) ptr s') (hptr : ptr ≠ 0#64)
    (hst : Stamped flags root s.memory s'.memory) :
    wp (nextTable src ptr (y % 512) flags) (fun p s'' => Descent src root s (d + 1) y p s'' ∧
      Stamped flags root s.memory s''.memory) s' := by
  refine wp_and (wp_nextTable hB.tree hB.valid hf hd hy hleaf hdesc hptr) ?_
  have hnext : ∀ t, ptr = pagePtr t → Tree s'.memory root (src.used s'.source) →
      src.Valid s'.memory s'.source → table s'.memory root d (y / 512) = some t →
      (d = 2 → hugeLeaf s'.memory root y = none) →
      wp (nextTable src ptr (y % 512) flags)
        (fun _ s'' => Stamped flags root s.memory s''.memory) s' := by
    rintro t rfl hT hv ht hleaf'
    exact wp_mono (wp_nextTable_stamped hT hv hf hd hy ht hleaf') fun _ _ h => hst.trans h
  cases hdesc with
  | failed => exact absurd rfl hptr
  | found ht => exact hnext _ rfl hB.tree hB.valid ht hleaf
  | made hnone hext hgot ht hzero =>
    refine hnext _ rfl hext.grown.tree hext.grown.valid ht ?_
    rintro rfl
    rw [hext.hugeLeaf_eq y hy]
    exact hleaf rfl

theorem wp_withP2_stamped (hB : Built src root s) {flags : U64} (hf : FlagsOk flags) {n : ℕ}
    (hn : n < 2 ^ 36) {rest : U64 → Kern (Kernel ρ) Bool} {Q : Bool → Kernel ρ → Prop}
    (hfailed : ∀ s', Stamped flags root s.memory s'.memory → Q false s')
    (hrest : ∀ p2 s', Descent src root s 2 (n / 512 / 512) p2 s' → p2 ≠ 0#64 →
      Stamped flags root s.memory s'.memory → wp (rest p2) Q s') :
    wp (withP2 src (pagePtr root) n flags rest) Q s := by
  have hy3 : n / 512 < 512 ^ 3 := Radix.div_lt_pow (by decide) hn
  have hy2 := Radix.div_lt_pow (by decide) hy3
  have hy1 := Radix.div_lt_pow (by decide) hy2
  have hroot := pagePtr_ne_zero (hB.tree.table_lt isTable_root)
  unfold withP2
  simp only [wp_bind, wp_ite, wp_pure]
  refine wp_mono (Descent.wp_stamped hB hf (by omega) hy1 (by omega) (.found (table_zero _)) hroot
    (.refl _ _ _)) ?_
  rintro p3 s₁ ⟨hdesc, hst⟩
  split_ifs with h3
  · exact hfailed s₁ hst
  · refine wp_mono (hdesc.wp_stamped hB hf (by omega) hy2 (by omega) h3 hst) ?_
    rintro p2 s₂ ⟨hdesc₂, hst₂⟩
    split_ifs with h2
    · exact hfailed s₂ hst₂
    · exact hrest p2 s₂ hdesc₂ h2 hst₂

/-- The table that a way down has come to. -/
theorem Descent.exists_table (hB : Built src root s) {d y : ℕ} {ptr : U64}
    (hdesc : Descent src root s d y ptr s') (hptr : ptr ≠ 0#64) :
    ∃ t, ptr = pagePtr t ∧ table s'.memory root d y = some t ∧
      Tree s'.memory root (src.used s'.source) := by
  cases hdesc with
  | failed => exact absurd rfl hptr
  | found ht => exact ⟨_, rfl, ht, hB.tree⟩
  | made _ hext _ ht => exact ⟨_, rfl, ht, hext.grown.tree⟩

theorem wp_mapPage_stamped (hB : Built src root s) {v k flags : U64} (hk : kernelSpaceBegin ≤ k)
    (hf : FlagsOk flags) (hg : hugeLeaf s.memory root (pageNo v / 512) = none) :
    wp (mapPage src (pagePtr root) v k flags)
      (fun _ s' => Stamped flags root s.memory s'.memory) s := by
  have hn := pageNo_lt v
  have hy : pageNo v / 512 < 512 ^ 3 := Radix.div_lt_pow (by decide) hn
  rw [mapPage_eq (hB.tree.table_lt isTable_root) hk]
  split_ifs with hacc
  · obtain ⟨hlt, hkeq⟩ := eq_pagePtr_pageOf hk hacc.2.2
    refine wp_withP2_stamped hB hf hn (fun _ h => h) ?_
    intro p2 s₁ hdesc h2 hst
    simp only [mapPageRest, wp_bind, wp_ite, wp_pure]
    refine wp_mono (hdesc.wp_stamped hB hf (by omega) hy (fun _ => hg) h2 hst) ?_
    rintro p1 s₂ ⟨hdesc₁, hst₁⟩
    split_ifs with h1
    · exact hst₁
    · obtain ⟨t, rfl, ht, hT⟩ := hdesc₁.exists_table hB h1
      rw [wp_loadEntry]
      split_ifs with he
      · exact hst₁
      · rw [hkeq, wp_makePte hlt, wp_storeEntry]
        exact hst₁.trans (stamped_page hT hn ht (not_not.1 he) hlt hf)
  · rw [wp_pure]
    exact .refl _ _ _

theorem wp_map2MBPage_stamped (hB : Built src root s) {v k flags : U64} (hk : kernelSpaceBegin ≤ k)
    (hf : FlagsOk flags) : wp (map2MBPage src (pagePtr root) v k flags)
      (fun _ s' => Stamped flags root s.memory s'.memory) s := by
  have hn := pageNo_lt v
  rw [map2MBPage_eq (hB.tree.table_lt isTable_root) hk]
  split_ifs with hacc
  · obtain ⟨hlt, hkeq⟩ := eq_pagePtr_pageOf hk (by have := hacc.2.2; omega)
    have hfdvd := dvd_pageOf hacc.2.2
    refine wp_withP2_stamped hB hf hn (fun _ h => h) ?_
    intro p2 s₁ hdesc h2 hst
    obtain ⟨t, rfl, ht, hT⟩ := hdesc.exists_table hB h2
    simp only [map2MBPageRest, wp_bind, wp_ite, wp_pure]
    rw [wp_loadEntry]
    split_ifs with he
    · exact hst
    · rw [hkeq, wp_makePte hlt, wp_storeEntry]
      exact hst.trans (stamped_page2MB hT hn ht (not_not.1 he) hlt hfdvd hf)
  · rw [wp_pure]
    exact .refl _ _ _

theorem wp_mapRegionStep_stamped (hB : Built src root s) {virt ptr flags : U64} {left : ℤ}
    (hptr : kernelSpaceBegin ≤ ptr) (hf : FlagsOk flags)
    (hg : hugeLeaf s.memory root (pageNo virt / 512) = none) :
    wp (mapRegionStep src (pagePtr root) virt ptr flags left)
      (fun _ s' => Stamped flags root s.memory s'.memory) s := by
  rw [mapRegionStep_eq]
  split_ifs
  · rw [wp_map]
    exact wp_map2MBPage_stamped hB hptr hf
  · rw [wp_map]
    exact wp_mapPage_stamped hB hptr hf hg

theorem wp_mapRegion_stamped (hB : Built src root s) {v k flags : U64} {count : ℤ}
    (hk : kernelSpaceBegin ≤ k) (hf : FlagsOk flags)
    (hfree : Free s.memory root (pageNo v) (regionPages count)) :
    wp (mapRegion src (pagePtr root) v k count flags)
      (fun r s' => Stamped flags root s.memory s'.memory ∧ (r = true → ∃ got,
        Added src root s s' got (pageNo v) (pageOf k) (regionPages count))) s := by
  have hroot := hB.tree.table_lt isTable_root
  by_cases hacc : Accepted (2 ^ 12) v k
  · have hk' : k.toNat % 4096 = 0 := hacc.2.2
    have hlt := (eq_pagePtr_pageOf hk hk').1
    refine wp_mono (wp_mapRegion_loop hroot hk hacc
      (I := fun j s' => pageOf k + j ≤ windowPages ∧ Stamped flags root s.memory s'.memory ∧
        ∃ got, Added src root s s' got (pageNo v) (pageOf k) j)
      (F := fun s' => Stamped flags root s.memory s'.memory)
      ⟨by omega, .refl _ _ _, [], Added.refl hB _ _⟩ ?_) ?_
    · rintro j s' hj ⟨hle, hst, got, hadd⟩
      by_cases hend : pageOf k + j = windowPages
      · refine wp_mono (wp_round_end hroot hk hk' hend) ?_
        rintro res s'' ⟨hres, rfl⟩
        refine ⟨fun _ => hst, fun ht => ?_⟩
        rw [hres] at ht
        cases ht
      · have hptr : kernelSpaceBegin ≤ pagesAfter k j := by
          rw [pagesAfter_eq_pagePtr hk hk']
          exact kernelSpaceBegin_le_pagePtr (by omega)
        have hnone : hugeLeaf s'.memory root ((pageNo v + j) % 2 ^ 36 / 512) = none := by
          refine hadd.hugeLeaf_eq_none ?_ (hfree.hugeLeaf_eq_none hj)
          unfold windowPages at hle
          omega
        refine wp_mono (wp_and
          (wp_round hadd.built hk hk' hj (by omega) hf fun _ _ => guarded_of_hugeLeaf_eq_none hnone)
          (wp_mapRegionStep_stamped hadd.built hptr hf (by rwa [pageNo_pagesAfter]))) ?_
        rintro ⟨r, diff⟩ s'' ⟨⟨i, hi, hji, hw, hdiff, hmap⟩, hst'⟩
        refine ⟨fun _ => hst.trans hst', fun hr => ⟨i, hi, hji, hdiff, hw, hst.trans hst', ?_⟩⟩
        have hij : j + i ≤ 2 ^ 36 := by
          unfold windowPages at hw
          omega
        cases hmap with
        | refused => cases hr
        | exhausted => cases hr
        | mapped _ hadd' => exact ⟨_, hadd.trans hij hadd'.of_mod⟩
    · rintro r s' (⟨-, -, hst, hadd⟩ | ⟨rfl, hst⟩)
      · exact ⟨hst, fun _ => hadd⟩
      · exact ⟨hst, fun hr => by cases hr⟩
  · rw [mapRegion_eq hroot hk, if_neg hacc, wp_pure]
    exact ⟨.refl _ _ _, fun hr => by cases hr⟩

namespace Call

/-- The flags that are asked for. -/
def flags : Call → U64
  | page _ _ flags => flags
  | page2MB _ _ flags => flags
  | region _ _ _ flags => flags

/-- The pages of the range. -/
def Covers (c : Call) (n : ℕ) : Prop := ∃ i < c.range.2, n = (c.range.1 + i) % 2 ^ 36

/-- The entries on the way to the pages of the range take nothing away from what is asked for. -/
def Permitted (m : Memory) (root : ℕ) (c : Call) : Prop :=
  ∀ n, c.Covers n → ∀ e ∈ upper m root n, e ≠ 0#64 → Permits (rightsOf e) (rightsOf c.flags)

end Call

theorem Added.frames_ne_none {got : List U64} {n f c i : ℕ} (h : Added src root s s' got n f c)
    (hi : i < c) : frames s'.memory root ((n + i) % 2 ^ 36) ≠ none := by
  have hoff : offset n ((n + i) % 2 ^ 36) < c := by
    unfold offset
    omega
  rw [h.frames_eq _ (Nat.mod_lt _ (by decide)), placed, if_pos hoff]
  simp

/-- **Step lemma**: a call on a range that is not mapped stamps its flags on the entries it makes, and
has mapped the whole range if it returns `true`. -/
theorem wp_call_stamped (hB : Built src root s) {c : Call} (hl : c.Legal)
    (ha : c.Apart s.memory root) :
    wp (c.run src (pagePtr root)) (fun r s' => Stamped c.flags root s.memory s'.memory ∧
      (r = true → ∀ n, c.Covers n → frames s'.memory root n ≠ none)) s := by
  have hmapping : ∀ {acc n f i r s'}, Mapping src root s acc n f i r s' → r = true →
      ∀ k, (∃ j < i, k = (n + j) % 2 ^ 36) → frames s'.memory root k ≠ none := by
    rintro acc n f i r s' h hr k ⟨j, hj, rfl⟩
    cases h with
    | refused => cases hr
    | exhausted => cases hr
    | mapped _ hadd => exact hadd.frames_ne_none hj
  cases c with
  | page v k flags =>
    have hg : hugeLeaf s.memory root (pageNo v / 512) = none := by
      have h0 := ha.hugeLeaf_eq_none (j := 0) Nat.one_pos
      rwa [Nat.add_zero, Call.range, Nat.mod_eq_of_lt (pageNo_lt v)] at h0
    refine wp_mono (wp_and (wp_mapPage_stamped hB hl.1 hl.2 hg)
      (wp_mapPage hB hl.1 hl.2 fun _ => guarded_of_hugeLeaf_eq_none hg)) ?_
    exact fun r s' h => ⟨h.1, hmapping h.2⟩
  | page2MB v k flags =>
    refine wp_mono (wp_and (wp_map2MBPage_stamped hB hl.1 hl.2) (wp_map2MBPage hB hl.1 hl.2)) ?_
    exact fun r s' h => ⟨h.1, hmapping h.2⟩
  | region v k count flags =>
    refine wp_mono (wp_mapRegion_stamped hB hl.1 hl.2 ha) ?_
    rintro r s' ⟨hst, hadd⟩
    refine ⟨hst, fun hr n hn => ?_⟩
    obtain ⟨got, hadd⟩ := hadd hr
    obtain ⟨i, hi, rfl⟩ := hn
    exact hadd.frames_ne_none hi

/-! ### Later calls -/

/-- The entries that are there stay. -/
def Keeps (root : ℕ) (m m' : Memory) : Prop :=
  ∀ d ≤ 3, ∀ x < 512 ^ (d + 1), entry m root d x ≠ 0#64 → entry m' root d x = entry m root d x

theorem Stamped.keeps {flags : U64} (h : Stamped flags root m m') : Keeps root m m' := by
  intro d hd x hx hne
  rcases h d hd x hx with heq | ⟨h0, -⟩
  · exact heq
  · exact absurd h0 hne

theorem Keeps.trans (h : Keeps root m m') (h' : Keeps root m' m'') : Keeps root m m'' := by
  intro d hd x hx hne
  have heq := h d hd x hx hne
  rw [h' d hd x hx (by rwa [heq]), heq]

/-- The way to a mapped page stays the same. -/
theorem Keeps.walk_eq (h : Keeps root m m') {n : ℕ} (hn : n < 2 ^ 36)
    (hmapped : frames m root n ≠ none) : walk m' root n = walk m root n := by
  have hne := walk_ne_zero hmapped
  have hentry : ∀ d < 3, entry m' root d (key n d) = entry m root d (key n d) := by
    intro d hd
    refine h d hd.le _ (key_lt hn d hd.le) (hne _ (mem_walk.2 (Or.inl ?_)))
    exact mem_upper.2 ⟨d, hd, rfl⟩
  have h2 : entry m' root 2 (n / 512) = entry m root 2 (n / 512) := hentry 2 (by omega)
  have hupper : upper m' root n = upper m root n := by
    unfold upper
    rw [show entry m' root 0 (n / 512 / 512 / 512) = _ from hentry 0 (by omega),
      show entry m' root 1 (n / 512 / 512) = _ from hentry 1 (by omega), h2]
    rfl
  unfold walk
  rw [h2, hupper]
  split_ifs with hh
  · rfl
  · have hleaf : entry m root 3 n ∈ walk m root n := by
      rw [walk, if_neg hh]
      simp
    rw [h 3 le_rfl n hn (hne _ hleaf)]

/-- **Run lemma**: the entries that are there stay in every run without overlaps. -/
theorem reachable_keeps (hB : Built src root s)
    (hr : Reach (step src (pagePtr root)) (NoOverlap src root) s s') :
    Keeps root s.memory s'.memory := by
  have h : Built src root s' ∧ Keeps root s.memory s'.memory := by
    refine hr.invariant (P := fun t => Built src root t ∧ Keeps root s.memory t.memory)
      ⟨hB, fun _ _ _ _ _ => rfl⟩ ?_
    rintro t e t' ⟨hBt, hk⟩ hgood hstep
    cases e with
    | call c =>
      obtain ⟨r, hrun⟩ := step_call hstep
      obtain ⟨got, n, f, j, hadd⟩ := wp_run hrun (wp_call hBt hgood.1 hgood.2.apart2MB.guard)
      exact ⟨hadd.built, hk.trans (wp_run hrun (wp_call_stamped hBt hgood.1 hgood.2)).1.keeps⟩
    | other t₁ =>
      obtain rfl : t₁ = t' := Option.some.inj hstep
      exact ⟨hBt.other hgood, hk.trans (hgood.agree.stamped 0#64).keeps⟩
  exact h.2

/-! ### When a page has the rights asked for -/

/-- The leaf of a page that was mapped by a call has the rights of its flags. -/
theorem Stamped.rightsOf_leafEntry {flags : U64} (h : Stamped flags root m m') {n : ℕ}
    (hn : n < 2 ^ 36) (hfree : frames m root n = none) (hmapped : frames m' root n ≠ none) :
    rightsOf (leafEntry m' root n) = rightsOf flags := by
  have hzero : leafEntry m root n = 0#64 := by
    by_contra hne
    exact (frames_ne_none_iff n).2 hne hfree
  have hleaf := (frames_ne_none_iff n).1 hmapped
  have hhuge : ¬ huge (entry m root 2 (n / 512)) := by
    intro hh
    rw [leafEntry, if_pos hh] at hzero
    rw [hzero] at hh
    exact hh (by simp)
  rw [leafEntry, if_neg hhuge] at hzero
  unfold leafEntry at hleaf ⊢
  split_ifs at hleaf ⊢ with hh
  · rcases h 2 (by omega) _ (key_lt hn 2 (by omega)) with heq | ⟨-, hr⟩
    · exact absurd (heq ▸ hh) hhuge
    · exact hr
  · rcases h 3 le_rfl n hn with heq | ⟨-, hr⟩
    · exact absurd (heq.trans hzero) hleaf
    · exact hr

/-- A page that was mapped by a call has the rights it asks for exactly if the entries on the way that
were there take nothing away. -/
theorem Stamped.effective_eq_iff {flags : U64} (h : Stamped flags root m m') {n : ℕ}
    (hn : n < 2 ^ 36) (hfree : frames m root n = none) (hmapped : frames m' root n ≠ none) :
    effective m' root n = rightsOf flags ↔
      ∀ e ∈ upper m root n, e ≠ 0#64 → Permits (rightsOf e) (rightsOf flags) := by
  have hleaf := h.rightsOf_leafEntry hn hfree hmapped
  have hne := walk_ne_zero hmapped
  rw [effective, combine_eq_iff ⟨_, mem_walk.2 (Or.inr rfl), hleaf⟩]
  constructor
  · intro hall e he hne'
    obtain ⟨d, hd, rfl⟩ := mem_upper.1 he
    refine hall _ (mem_walk.2 (Or.inl (mem_upper.2 ⟨d, hd, ?_⟩)))
    exact (h.keeps d hd.le _ (key_lt hn d hd.le) hne').symm
  · intro hall e he
    rcases mem_walk.1 he with hup | rfl
    · obtain ⟨d, hd, rfl⟩ := mem_upper.1 hup
      rcases h d hd.le _ (key_lt hn d hd.le) with heq | ⟨-, hr⟩
      · have h0 := hne _ he
        rw [heq] at h0 ⊢
        exact hall _ (mem_upper.2 ⟨d, hd, rfl⟩) h0
      · rw [hr]
        exact .refl _
    · rw [hleaf]
      exact .refl _

/-- **Effective rights.**  A call that maps a range, in a run without overlaps from a zeroed table, gives
all its pages the rights of its flags exactly if it is permitted, and whatever is mapped later leaves
the rights as they are. -/
theorem rights_exact (h0 : Start src root s₀)
    (hr : Reach (step src (pagePtr root)) (NoOverlap src root) s₀ s₁) {c : Call} (hl : c.Legal)
    (ha : c.Apart s₁.memory root) (hrun : c.run src (pagePtr root) s₁ = Except.ok (true, s₂))
    (hlater : Reach (step src (pagePtr root)) (NoOverlap src root) s₂ s₃) :
    ((∀ n, c.Covers n → effective s₃.memory root n = rightsOf c.flags) ↔
      c.Permitted s₁.memory root) ∧
    ∀ n, c.Covers n → effective s₃.memory root n = effective s₂.memory root n := by
  have hB₁ := reachable_built h0 hr
  obtain ⟨hst, hmapped⟩ := wp_run hrun (wp_call_stamped hB₁ hl ha)
  obtain ⟨got, n, f, j, hadd⟩ := wp_run hrun (wp_call hB₁ hl ha.apart2MB.guard)
  have hkeep := reachable_keeps hadd.built hlater
  have hlt : ∀ n, c.Covers n → n < 2 ^ 36 := by
    rintro n ⟨i, -, rfl⟩
    exact Nat.mod_lt _ (by decide)
  have hsame : ∀ n, c.Covers n → effective s₃.memory root n = effective s₂.memory root n := by
    intro n hn
    rw [effective, effective, hkeep.walk_eq (hlt n hn) (hmapped rfl n hn)]
  refine ⟨?_, hsame⟩
  have hiff : ∀ n, c.Covers n → (effective s₃.memory root n = rightsOf c.flags ↔
      ∀ e ∈ upper s₁.memory root n, e ≠ 0#64 → Permits (rightsOf e) (rightsOf c.flags)) := by
    intro n hn
    have hfree : frames s₁.memory root n = none := by
      obtain ⟨i, hi, rfl⟩ := hn
      exact ha i hi
    rw [hsame n hn, hst.effective_eq_iff (hlt n hn) hfree (hmapped rfl n hn)]
  exact forall₂_congr hiff

/-- Two pages next to each other, both with `PTE_KERNEL`. -/
theorem rights_exact_two_pages : ∃ s₂ : Kernel (List ℕ),
    mapPage stock (pagePtr 0) 0x2000#64 (pagePtr 10) pteKernel (firstPage pteKernel) =
      Except.ok (true, s₂) ∧ effective s₂.memory 0 2 = rightsOf pteKernel := by
  have hf : FlagsOk pteKernel := ⟨by decide, by decide, by decide⟩
  have hrun : Call.run stock (pagePtr 0) (.page 0x2000#64 (pagePtr 10) pteKernel)
      (firstPage pteKernel) = Except.ok (true, { firstPage pteKernel with
        memory := (firstPage pteKernel).memory.store (cell 3 2) (pte 10 pteKernel) }) := rfl
  have hcovers : ∀ n, (Call.page 0x2000#64 (pagePtr 10) pteKernel).Covers n ↔ n = 2 := by
    intro n
    constructor
    · rintro ⟨i, hi, rfl⟩
      obtain rfl : i = 0 := Nat.lt_one_iff.1 hi
      rfl
    · rintro rfl
      exact ⟨0, Nat.one_pos, rfl⟩
  have hapart : (Call.page 0x2000#64 (pagePtr 10) pteKernel).Apart (firstPage pteKernel).memory 0 := by
    intro i hi
    obtain rfl : i = 0 := Nat.lt_one_iff.1 hi
    rfl
  have h := rights_exact threePages_start (firstPage_reach hf rfl)
    (c := .page 0x2000#64 (pagePtr 10) pteKernel) ⟨kernelSpaceBegin_le_pagePtr (by decide), hf⟩
    hapart hrun .refl
  refine ⟨_, hrun, h.1.2 ?_ 2 ((hcovers 2).2 rfl)⟩
  intro n hn e he _
  obtain rfl := (hcovers n).1 hn
  have he' : e = pte 1 pteKernel ∨ e = pte 2 pteKernel ∨ e = pte 3 pteKernel := by
    have hupper : upper (firstPage pteKernel).memory 0 2 =
        [pte 1 pteKernel, pte 2 pteKernel, pte 3 pteKernel] := rfl
    rw [hupper] at he
    simpa using he
  rcases he' with rfl | rfl | rfl <;> (rw [rightsOf_pte]; exact .refl _)

/-- The page at `0x1000` with `PTE_KERNEL_EXE`, and then the one after it with `PTE_KERNEL`: that one
cannot be written. -/
theorem rights_not_effective : ∃ s₂ : Kernel (List ℕ), Start stock 0 threePages ∧
    Reach (step stock (pagePtr 0)) (NoOverlap stock 0) threePages (firstPage pteKernelExe) ∧
    (Call.page 0x2000#64 (pagePtr 10) pteKernel).Legal ∧
    (Call.page 0x2000#64 (pagePtr 10) pteKernel).Apart (firstPage pteKernelExe).memory 0 ∧
    mapPage stock (pagePtr 0) 0x2000#64 (pagePtr 10) pteKernel (firstPage pteKernelExe) =
      Except.ok (true, s₂) ∧
    (effective s₂.memory 0 2).writable = false ∧ (rightsOf pteKernel).writable = true := by
  have hf : FlagsOk pteKernelExe := ⟨by decide, by decide, by decide⟩
  have hf' : FlagsOk pteKernel := ⟨by decide, by decide, by decide⟩
  refine ⟨{ firstPage pteKernelExe with
    memory := (firstPage pteKernelExe).memory.store (cell 3 2) (pte 10 pteKernel) }, threePages_start,
    firstPage_reach hf rfl, ⟨kernelSpaceBegin_le_pagePtr (by decide), hf'⟩, ?_, rfl, rfl, rfl⟩
  intro i hi
  obtain rfl : i = 0 := Nat.lt_one_iff.1 hi
  rfl

end Dumboss.PageTable
