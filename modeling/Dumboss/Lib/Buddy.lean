import Mathlib
import Mathlib.Data.Nat.Bitwise
import Mathlib.Algebra.BigOperators.Group.Finset.Basic

/-!
# Buddy decompositions of a set of natural numbers

The block `j` of class `k` is the set of all `p` with `p / 2 ^ k = j`, that is the interval from
`j * 2 ^ k` up to `(j + 1) * 2 ^ k`.  A *decomposition* of `F` with top class `top` is a family
`B k` of block indices of the classes `0, …, top` such that every point of `F` lies in exactly one
block, and below the top class a block and its sibling are never both present.

* `Decomposition.insert` and `Decomposition.erase`: the two ways a buddy allocator changes one;
* `Decomposition.mem_iff`: **the canonical form**: `B` is determined by `F`, the blocks present are
  the maximal ones;
* `Decomposition.card_eq`: the number of points is the sum of the sizes of the blocks.
-/

namespace Buddy

/-- The block `j` of class `k`. -/
def block (k j : ℕ) : Set ℕ := {p | p / 2 ^ k = j}

@[simp] theorem mem_block {k j p : ℕ} : p ∈ block k j ↔ p / 2 ^ k = j := Iff.rfl

theorem mem_block_iff_bounds {k j p : ℕ} :
    p ∈ block k j ↔ j * 2 ^ k ≤ p ∧ p < j * 2 ^ k + 2 ^ k := by
  rw [mem_block, Nat.div_eq_iff (Nat.two_pow_pos k)]
  have := Nat.two_pow_pos k
  omega

theorem start_mem_block (k j : ℕ) : j * 2 ^ k ∈ block k j :=
  Nat.mul_div_cancel j (Nat.two_pow_pos k)

theorem mul_pow_eq_iff {k b j : ℕ} (hb : 2 ^ k ∣ b) : j * 2 ^ k = b ↔ j = b / 2 ^ k := by
  rw [eq_comm (b := b / 2 ^ k), Nat.div_eq_iff_eq_mul_left (Nat.two_pow_pos k) hb, eq_comm]

/-- The other half of the parent block. -/
def sibling (j : ℕ) : ℕ := j ^^^ 1

theorem sibling_cases (j : ℕ) :
    (j % 2 = 0 ∧ sibling j = j + 1) ∨ (j % 2 = 1 ∧ sibling j = j - 1) := by
  rcases Nat.mod_two_eq_zero_or_one j with h | h
  · exact Or.inl ⟨h, Nat.xor_one_of_even (Nat.even_iff.2 h)⟩
  · exact Or.inr ⟨h, Nat.xor_one_of_odd (Nat.odd_iff.2 h)⟩

theorem sibling_div_two (j : ℕ) : sibling j / 2 = j / 2 := by
  rcases sibling_cases j with ⟨h, e⟩ | ⟨h, e⟩ <;> rw [e] <;> omega

theorem sibling_ne (j : ℕ) : sibling j ≠ j := by
  rcases sibling_cases j with ⟨h, e⟩ | ⟨h, e⟩ <;> rw [e] <;> omega

theorem sibling_sibling (j : ℕ) : sibling (sibling j) = j := by
  rcases sibling_cases j with ⟨h, e⟩ | ⟨h, e⟩ <;>
    rcases sibling_cases (sibling j) with ⟨h', e'⟩ | ⟨h', e'⟩ <;> rw [e'] <;> omega

/-- The two numbers of a pair of siblings, in their order and from one of them. -/
theorem xor_pair_iff (P : ℕ → Prop) (j : ℕ) :
    Xor (P (2 * (j / 2))) (P (2 * (j / 2) + 1)) ↔ Xor (P j) (P (sibling j)) := by
  rcases sibling_cases j with ⟨h, e⟩ | ⟨h, e⟩
  · rw [e, show 2 * (j / 2) = j by omega]
  · rw [e, show 2 * (j / 2) + 1 = j by omega, show 2 * (j / 2) = j - 1 by omega, xor_comm]

/-- The start of the sibling, as the allocator computes it. -/
theorem start_xor (k j : ℕ) : (j * 2 ^ k) ^^^ 2 ^ k = sibling j * 2 ^ k := by
  have h := Nat.shiftLeft_xor_distrib (a := j) (b := 1) (i := k)
  rw [Nat.shiftLeft_eq, Nat.shiftLeft_eq, Nat.shiftLeft_eq, Nat.one_mul] at h
  exact h.symm

/-- The start of the parent is the smaller of the two siblings' starts. -/
theorem min_start (k j : ℕ) : min (j * 2 ^ k) (sibling j * 2 ^ k) = j / 2 * 2 ^ (k + 1) := by
  have hmin : min j (sibling j) = j / 2 * 2 := by
    rcases sibling_cases j with ⟨h, e⟩ | ⟨h, e⟩ <;> rw [e] <;> omega
  rw [Nat.mul_min_mul_right, hmin, Nat.pow_succ, Nat.mul_comm (2 ^ k) 2, Nat.mul_assoc]

theorem div_pow_add (p k l : ℕ) : p / 2 ^ (k + l) = p / 2 ^ k / 2 ^ l := by
  rw [pow_add, Nat.div_div_eq_div_mul]

theorem div_pow_succ (p k : ℕ) : p / 2 ^ (k + 1) = p / 2 ^ k / 2 := by
  rw [div_pow_add, pow_one]

theorem block_succ (k j : ℕ) : block (k + 1) j = block k (2 * j) ∪ block k (2 * j + 1) := by
  ext p
  simp only [mem_block, Set.mem_union, div_pow_succ]
  omega

theorem block_parent (k j : ℕ) : block (k + 1) (j / 2) = block k j ∪ block k (sibling j) := by
  ext p
  simp only [mem_block, Set.mem_union, div_pow_succ]
  rcases sibling_cases j with ⟨h, e⟩ | ⟨h, e⟩ <;> rw [e] <;> omega

theorem div_eq_of_le {p q k l : ℕ} (hkl : k ≤ l) (h : p / 2 ^ k = q / 2 ^ k) :
    p / 2 ^ l = q / 2 ^ l := by
  obtain ⟨d, rfl⟩ := Nat.exists_eq_add_of_le hkl
  rw [div_pow_add, div_pow_add, h]

/-- `B` decomposes `F` into blocks of the classes up to `top`, no two of them siblings below the
top class. -/
structure Decomposition (top : ℕ) (F : Set ℕ) (B : ℕ → Set ℕ) : Prop where
  class_le : ∀ {k j}, j ∈ B k → k ≤ top
  cover : ∀ {p}, p ∈ F ↔ ∃ k, p / 2 ^ k ∈ B k
  unique : ∀ {p k l}, p / 2 ^ k ∈ B k → p / 2 ^ l ∈ B l → k = l
  lone : ∀ {k j}, k < top → j ∈ B k → sibling j ∉ B k

namespace Decomposition

variable {top : ℕ} {F : Set ℕ} {B : ℕ → Set ℕ}

theorem empty (top : ℕ) : Decomposition top ∅ (fun _ => ∅) where
  class_le h := h.elim
  cover := ⟨fun h => h.elim, fun ⟨_, h⟩ => h.elim⟩
  unique h := h.elim
  lone _ h := h.elim

theorem block_subset (h : Decomposition top F B) {k j : ℕ} (hj : j ∈ B k) : block k j ⊆ F := by
  intro p hp
  rw [mem_block] at hp
  exact h.cover.2 ⟨k, hp ▸ hj⟩

theorem disjoint (h : Decomposition top F B) {k l i j : ℕ} (hi : i ∈ B k) (hj : j ∈ B l)
    (hne : k ≠ l ∨ i ≠ j) : Disjoint (block k i) (block l j) := by
  rw [Set.disjoint_left]
  intro p hp hq
  rw [mem_block] at hp hq
  have hkl : k = l := h.unique (hp ▸ hi) (hq ▸ hj)
  subst hkl
  exact hne.elim (fun h => h rfl) (fun h => h (hp.symm.trans hq))

/-- Adding a block outside `F` whose sibling is absent. -/
theorem insert (h : Decomposition top F B) {k j : ℕ} (hk : k ≤ top)
    (hF : Disjoint (block k j) F) (hs : k < top → sibling j ∉ B k) :
    Decomposition top (F ∪ block k j) (Function.update B k (insert j (B k))) := by
  have hcov : ∀ {p l}, p / 2 ^ l ∈ Function.update B k (Insert.insert j (B k)) l →
      p / 2 ^ l ∈ B l ∨ (l = k ∧ p ∈ block k j) := by
    intro p l hp
    by_cases hl : l = k
    · subst hl
      rw [Function.update_self] at hp
      exact hp.elim (fun h => Or.inr ⟨rfl, h⟩) Or.inl
    · rw [Function.update_of_ne hl] at hp
      exact Or.inl hp
  refine ⟨?_, ?_, ?_, ?_⟩
  · intro l i hi
    by_cases hl : l = k
    · exact hl ▸ hk
    · rw [Function.update_of_ne hl] at hi
      exact h.class_le hi
  · intro p
    constructor
    · rintro (hp | hp)
      · obtain ⟨l, hl⟩ := h.cover.1 hp
        refine ⟨l, ?_⟩
        by_cases hlk : l = k
        · subst hlk
          rw [Function.update_self]
          exact Or.inr hl
        · rwa [Function.update_of_ne hlk]
      · refine ⟨k, ?_⟩
        rw [Function.update_self]
        exact Or.inl hp
    · rintro ⟨l, hl⟩
      rcases hcov hl with hl | ⟨-, hp⟩
      · exact Or.inl (h.cover.2 ⟨l, hl⟩)
      · exact Or.inr hp
  · intro p a b ha hb
    rcases hcov ha with ha' | ⟨hak, hpa⟩ <;> rcases hcov hb with hb' | ⟨hbk, hpb⟩
    · exact h.unique ha' hb'
    · exact absurd (h.cover.2 ⟨a, ha'⟩) (Set.disjoint_left.1 hF hpb)
    · exact absurd (h.cover.2 ⟨b, hb'⟩) (Set.disjoint_left.1 hF hpa)
    · exact hak.trans hbk.symm
  · intro l i hl hi
    by_cases hlk : l = k
    · subst hlk
      rw [Function.update_self] at hi ⊢
      rcases hi with rfl | hi
      · rintro (hsi | hsi)
        · exact sibling_ne i hsi
        · exact hs hl hsi
      · rintro (hsi | hsi)
        · refine hs hl ?_
          rw [← hsi, sibling_sibling]
          exact hi
        · exact h.lone hl hi hsi
    · rw [Function.update_of_ne hlk] at hi ⊢
      exact h.lone hl hi

/-- Taking a block out. -/
theorem erase (h : Decomposition top F B) {k j : ℕ} (hj : j ∈ B k) :
    Decomposition top (F \ block k j) (Function.update B k (B k \ {j})) := by
  have hsub : ∀ {l i}, i ∈ Function.update B k (B k \ {j}) l → i ∈ B l := by
    intro l i hi
    by_cases hl : l = k
    · subst hl
      rw [Function.update_self] at hi
      exact hi.1
    · rwa [Function.update_of_ne hl] at hi
  refine ⟨fun hi => h.class_le (hsub hi), ?_, fun ha hb => h.unique (hsub ha) (hsub hb),
    fun hl hi hs => h.lone hl (hsub hi) (hsub hs)⟩
  intro p
  constructor
  · rintro ⟨hp, hpj⟩
    obtain ⟨l, hl⟩ := h.cover.1 hp
    refine ⟨l, ?_⟩
    by_cases hlk : l = k
    · subst hlk
      rw [Function.update_self]
      exact ⟨hl, hpj⟩
    · rwa [Function.update_of_ne hlk]
  · rintro ⟨l, hl⟩
    refine ⟨h.cover.2 ⟨l, hsub hl⟩, fun hpj => ?_⟩
    rw [mem_block] at hpj
    have hlk : l = k := h.unique (hsub hl) (hpj ▸ hj)
    subst hlk
    rw [Function.update_self, hpj] at hl
    exact hl.2 rfl

/-- A block inside `F` that no block of a larger class meets is present. -/
theorem mem_of_subset (h : Decomposition top F B) {k j : ℕ} (hk : k ≤ top) (hF : block k j ⊆ F)
    (hbig : ∀ p ∈ block k j, ∀ l, k < l → p / 2 ^ l ∉ B l) : j ∈ B k := by
  induction k generalizing j with
  | zero =>
    have hj : j ∈ block 0 j := by simp
    obtain ⟨l, hl⟩ := h.cover.1 (hF hj)
    have hl0 : l = 0 := by
      by_contra hne
      exact hbig j hj l (Nat.pos_of_ne_zero hne) hl
    subst hl0
    simpa using hl
  | succ k ih =>
    by_contra hj
    have child : ∀ i, i / 2 = j → i ∈ B k := by
      intro i hi
      have hsub : block k i ⊆ block (k + 1) j := by
        intro p hp
        rw [mem_block] at hp ⊢
        rw [div_pow_succ, hp, hi]
      refine ih (by omega) (hsub.trans hF) fun p hp l hl hpl => ?_
      by_cases hlk : l = k + 1
      · subst hlk
        exact hj (hsub hp ▸ hpl)
      · exact hbig p (hsub hp) l (by omega) hpl
    exact h.lone (by omega) (child (2 * j) (by omega))
      (child (sibling (2 * j)) (by rw [sibling_div_two]; omega))

/-- If a block is inside `F`, then some block of its class or of a larger one is present. -/
theorem exists_mem_of_subset (h : Decomposition top F B) {k j : ℕ} (hk : k ≤ top)
    (hF : block k j ⊆ F) : ∃ l i, k ≤ l ∧ i ∈ B l := by
  by_contra hnone
  push Not at hnone
  exact hnone k j le_rfl (h.mem_of_subset hk hF fun p _ l hl => hnone l _ hl.le)

/-- No block of a larger class meets a block that is present. -/
theorem not_mem_of_lt (h : Decomposition top F B) {k j p l : ℕ} (hj : j ∈ B k)
    (hp : p / 2 ^ (k + 1) = j / 2) (hl : k < l) : p / 2 ^ l ∉ B l := by
  intro hpl
  have hq : p / 2 ^ l = j * 2 ^ k / 2 ^ l := by
    refine div_eq_of_le (k := k + 1) hl ?_
    rw [hp, div_pow_succ, Nat.mul_div_cancel _ (Nat.two_pow_pos k)]
  have hkl : k = l := h.unique (p := j * 2 ^ k)
    (by rwa [Nat.mul_div_cancel _ (Nat.two_pow_pos k)]) (hq ▸ hpl)
  omega

/-- **Canonical form.** The blocks of a decomposition are the blocks inside `F` whose parent is
not inside `F`, and the blocks of the top class inside `F`. -/
theorem mem_iff (h : Decomposition top F B) {k j : ℕ} :
    j ∈ B k ↔ k ≤ top ∧ block k j ⊆ F ∧ (k = top ∨ ¬ block (k + 1) (j / 2) ⊆ F) := by
  constructor
  · intro hj
    refine ⟨h.class_le hj, h.block_subset hj, ?_⟩
    by_contra hcon
    obtain ⟨hne, hpar⟩ := not_or.1 hcon
    rw [not_not] at hpar
    have hlt : k < top := lt_of_le_of_ne (h.class_le hj) hne
    refine h.lone hlt hj (h.mem_of_subset hlt.le ?_ fun p hp l hl => ?_)
    · exact fun p hp => hpar (block_parent k j ▸ Or.inr hp)
    · refine h.not_mem_of_lt hj ?_ hl
      rw [div_pow_succ, mem_block.1 hp, sibling_div_two]
  · rintro ⟨hk, hF, hmax⟩
    refine h.mem_of_subset hk hF fun p hp l hl hpl => ?_
    rcases hmax with rfl | hpar
    · exact absurd (h.class_le hpl) (by omega)
    · refine hpar fun q hq => h.block_subset hpl ?_
      rw [mem_block] at hp hq ⊢
      refine div_eq_of_le (k := k + 1) hl ?_
      rw [hq, div_pow_succ, hp]

/-- Two decompositions of the same set are equal. -/
theorem eq_of_same {B' : ℕ → Set ℕ} (h : Decomposition top F B) (h' : Decomposition top F B') :
    B = B' := by
  funext k
  ext j
  rw [h.mem_iff, h'.mem_iff]

/-- The points of a finite `F` are counted by the blocks. -/
theorem card_eq {F : Finset ℕ} {C : ℕ → Finset ℕ}
    (h : Decomposition top (F : Set ℕ) (fun k => (C k : Set ℕ))) :
    F.card = ∑ k ∈ Finset.range (top + 1), (C k).card * 2 ^ k := by
  classical
  -- the class of the block that holds a point
  have hcls : ∀ p, ∃ k, p ∈ F → p / 2 ^ k ∈ C k := by
    intro p
    by_cases hp : p ∈ F
    · obtain ⟨k, hk⟩ := h.cover.1 (Finset.mem_coe.2 hp)
      exact ⟨k, fun _ => hk⟩
    · exact ⟨0, fun hp' => absurd hp' hp⟩
  choose c hc using hcls
  have hmaps : (F : Set ℕ).MapsTo c (Finset.range (top + 1) : Finset ℕ) := by
    intro p hp
    have := h.class_le (hc p hp)
    simp only [Finset.coe_range, Set.mem_Iio]
    omega
  rw [Finset.card_eq_sum_card_fiberwise hmaps]
  refine Finset.sum_congr rfl fun k _ => ?_
  have hmem : ∀ p, p ∈ F.filter (fun p => c p = k) ↔ p / 2 ^ k ∈ C k := by
    intro p
    rw [Finset.mem_filter]
    constructor
    · rintro ⟨hp, rfl⟩
      exact hc p hp
    · intro hpk
      have hp : p ∈ F := Finset.mem_coe.1 (h.cover.2 ⟨k, hpk⟩)
      exact ⟨hp, h.unique (hc p hp) hpk⟩
  rw [Finset.card_eq_sum_card_fiberwise (f := fun p => p / 2 ^ k) (t := C k)
    fun p hp => (hmem p).1 hp]
  rw [Finset.sum_const_nat (m := 2 ^ k)]
  intro j hj
  have hblock : (F.filter (fun p => c p = k)).filter (fun p => p / 2 ^ k = j) =
      Finset.Ico (j * 2 ^ k) (j * 2 ^ k + 2 ^ k) := by
    ext p
    rw [Finset.mem_filter, hmem, Finset.mem_Ico, ← mem_block_iff_bounds, mem_block]
    constructor
    · exact fun hp => hp.2
    · exact fun hp => ⟨hp ▸ hj, hp⟩
  rw [hblock, Nat.card_Ico, Nat.add_sub_cancel_left]

end Decomposition

end Buddy
