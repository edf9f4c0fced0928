import Mathlib

/-!
# Shares of a stock

The items of a stock `S` are spread over a common pool and the shares of some parties: every item of
`S` is in the pool or in exactly one share, and nothing else is anywhere.

* `Split S pool share`;
* `Split.start`, `Split.take`, `Split.give`: nobody holds anything yet, a party takes items out of the
  pool, and a party puts items back;
* `Split.whole`: when nobody holds anything, the pool is the stock;
* `Split.ncard_add`: the items are accounted for by number.
-/

namespace Shares

variable {ν κ : Type}

/-- Every item of `S` is in the pool or in exactly one share. -/
structure Split (S pool : Set ν) (share : κ → Set ν) : Prop where
  cover : ∀ x, x ∈ S ↔ x ∈ pool ∨ ∃ k, x ∈ share k
  pool_apart : ∀ k, Disjoint (share k) pool
  apart : ∀ k l, k ≠ l → Disjoint (share k) (share l)

variable {S pool : Set ν} {share : κ → Set ν} {A : Set ν}

theorem Split.start (S : Set ν) : Split S S fun _ : κ => ∅ where
  cover x := by simp
  pool_apart k := Set.empty_disjoint S
  apart k l _ := Set.empty_disjoint ∅

theorem Split.share_subset (h : Split S pool share) (k : κ) : share k ⊆ S :=
  fun x hx => (h.cover x).2 (Or.inr ⟨k, hx⟩)

theorem Split.whole (h : Split S pool share) (hall : ∀ k, share k = ∅) : pool = S := by
  ext x
  rw [h.cover x]
  simp [hall]

/-- The items are accounted for by number. -/
theorem Split.ncard_add (h : Split S pool share) (hS : S.Finite) :
    pool.ncard + (⋃ k, share k).ncard = S.ncard := by
  have hunion : S = pool ∪ ⋃ k, share k := by
    ext x
    rw [h.cover x, Set.mem_union, Set.mem_iUnion]
  have hdis : Disjoint pool (⋃ k, share k) :=
    Set.disjoint_iUnion_right.2 fun k => (h.pool_apart k).symm
  have hpool : pool.Finite := hS.subset (hunion ▸ Set.subset_union_left)
  have hheld : (⋃ k, share k).Finite := hS.subset (hunion ▸ Set.subset_union_right)
  rw [hunion, Set.ncard_union_eq hdis hpool hheld]

variable [DecidableEq κ]

/-- Party `k` takes the items `A` out of the pool. -/
theorem Split.take (h : Split S pool share) (k : κ) (hA : A ⊆ pool) :
    Split S (pool \ A) (Function.update share k (share k ∪ A)) := by
  have hold : ∀ l, l ≠ k → Function.update share k (share k ∪ A) l = share l :=
    fun l hl => Function.update_of_ne hl _ _
  have hfresh : ∀ l, Disjoint (share l) A := fun l => (h.pool_apart l).mono_right hA
  refine ⟨?_, ?_, ?_⟩
  · intro x
    rw [h.cover x]
    constructor
    · rintro (hx | ⟨l, hl⟩)
      · by_cases hxA : x ∈ A
        · exact Or.inr ⟨k, by rw [Function.update_self]; exact Or.inr hxA⟩
        · exact Or.inl ⟨hx, hxA⟩
      · refine Or.inr ⟨l, ?_⟩
        by_cases hlk : l = k
        · subst hlk
          rw [Function.update_self]
          exact Or.inl hl
        · rwa [hold l hlk]
    · rintro (hx | ⟨l, hl⟩)
      · exact Or.inl hx.1
      · by_cases hlk : l = k
        · subst hlk
          rw [Function.update_self] at hl
          exact hl.elim (fun hx => Or.inr ⟨l, hx⟩) fun hx => Or.inl (hA hx)
        · rw [hold l hlk] at hl
          exact Or.inr ⟨l, hl⟩
  · intro l
    by_cases hlk : l = k
    · subst hlk
      rw [Function.update_self, Set.disjoint_union_left]
      exact ⟨(h.pool_apart l).mono_right Set.sdiff_subset, Set.disjoint_sdiff_right⟩
    · rw [hold l hlk]
      exact (h.pool_apart l).mono_right Set.sdiff_subset
  · intro l m hlm
    by_cases hlk : l = k
    · subst hlk
      rw [Function.update_self, hold m hlm.symm, Set.disjoint_union_left]
      exact ⟨h.apart l m hlm, (hfresh m).symm⟩
    · by_cases hmk : m = k
      · subst hmk
        rw [Function.update_self, hold l hlk, Set.disjoint_union_right]
        exact ⟨h.apart l m hlm, hfresh l⟩
      · rw [hold l hlk, hold m hmk]
        exact h.apart l m hlm

/-- Party `k` puts the items `A` back into the pool. -/
theorem Split.give (h : Split S pool share) (k : κ) (hA : A ⊆ share k) :
    Split S (pool ∪ A) (Function.update share k (share k \ A)) := by
  have hle : ∀ l, Function.update share k (share k \ A) l ⊆ share l := by
    intro l
    by_cases hlk : l = k
    · subst hlk
      rw [Function.update_self]
      exact Set.sdiff_subset
    · rw [Function.update_of_ne hlk]
  have hapart : ∀ l, Disjoint (Function.update share k (share k \ A) l) A := by
    intro l
    by_cases hlk : l = k
    · subst hlk
      rw [Function.update_self]
      exact Set.disjoint_sdiff_left
    · rw [Function.update_of_ne hlk]
      exact (h.apart l k hlk).mono_right hA
  refine ⟨?_, ?_, ?_⟩
  · intro x
    rw [h.cover x, Set.mem_union]
    constructor
    · rintro (hx | ⟨l, hl⟩)
      · exact Or.inl (Or.inl hx)
      · by_cases hxA : x ∈ A
        · exact Or.inl (Or.inr hxA)
        · refine Or.inr ⟨l, ?_⟩
          by_cases hlk : l = k
          · subst hlk
            rw [Function.update_self]
            exact ⟨hl, hxA⟩
          · rwa [Function.update_of_ne hlk]
    · rintro ((hx | hx) | ⟨l, hl⟩)
      · exact Or.inl hx
      · exact Or.inr ⟨k, hA hx⟩
      · exact Or.inr ⟨l, hle l hl⟩
  · intro l
    rw [Set.disjoint_union_right]
    exact ⟨(h.pool_apart l).mono_left (hle l), hapart l⟩
  · intro l m hlm
    exact (h.apart l m hlm).mono (hle l) (hle m)

end Shares
