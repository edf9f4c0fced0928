import Mathlib

/-!
# Custody: who holds what

Two bookkeeping invariants of concurrent hand-over protocols.

`Exclusive own held`: a party `c` holds at most one resource, `own c`; a resource is marked as held
(`held r = some y`, with a mark `y`) exactly when one party holds it, and that party is the only one.

`Ledger key src held`: every item `v` that a source has handed in (`src k = some v`) is in exactly
one place (`held p = some v`), and every place's item comes from a source.  Items are told apart by
their `key`.

Each comes with the moves that keep it: `Exclusive.acquire`, `Exclusive.drop`; `Ledger.publish`,
`Ledger.move`.  `Ledger.encard_eq` counts.
-/

namespace Custody

section Exclusive

variable {κ ρ μ : Type} [DecidableEq κ] [DecidableEq ρ]

/-- The marks of the resources tell which ones have a holder, and holders are unique. -/
structure Exclusive (own : κ → Option (μ × ρ)) (held : ρ → Option μ) : Prop where
  marked : ∀ {c y r}, own c = some (y, r) → held r = some y
  unique : ∀ {c d y z r}, own c = some (y, r) → own d = some (z, r) → c = d
  holder : ∀ {y r}, held r = some y → ∃ c, own c = some (y, r)

variable {own : κ → Option (μ × ρ)} {held : ρ → Option μ}

theorem Exclusive.acquire (h : Exclusive own held) {c : κ} {y : μ} {r : ρ} (hc : own c = none)
    (hr : held r = none) :
    Exclusive (Function.update own c (some (y, r))) (Function.update held r (some y)) := by
  have hfree : ∀ d z, own d ≠ some (z, r) := by
    intro d z hd
    rw [h.marked hd] at hr
    cases hr
  refine ⟨?_, ?_, ?_⟩
  · intro d z q hd
    by_cases hdc : d = c
    · subst hdc
      rw [Function.update_self] at hd
      cases hd
      rw [Function.update_self]
    · rw [Function.update_of_ne hdc] at hd
      have hq : q ≠ r := by
        rintro rfl
        exact hfree d z hd
      rw [Function.update_of_ne hq]
      exact h.marked hd
  · intro d e z z' q hd he
    by_cases hdc : d = c
    · by_cases hec : e = c
      · rw [hdc, hec]
      · subst hdc
        rw [Function.update_self] at hd
        rw [Function.update_of_ne hec] at he
        cases hd
        exact absurd he (hfree e z')
    · rw [Function.update_of_ne hdc] at hd
      by_cases hec : e = c
      · subst hec
        rw [Function.update_self] at he
        cases he
        exact absurd hd (hfree d z)
      · rw [Function.update_of_ne hec] at he
        exact h.unique hd he
  · intro z q hq
    by_cases hqr : q = r
    · subst hqr
      rw [Function.update_self] at hq
      cases hq
      exact ⟨c, Function.update_self _ _ _⟩
    · rw [Function.update_of_ne hqr] at hq
      obtain ⟨d, hd⟩ := h.holder hq
      refine ⟨d, ?_⟩
      rw [Function.update_of_ne, hd]
      rintro rfl
      rw [hc] at hd
      cases hd

theorem Exclusive.drop (h : Exclusive own held) {c : κ} {y : μ} {r : ρ} (hc : own c = some (y, r)) :
    Exclusive (Function.update own c none) (Function.update held r none) := by
  -- whoever still holds something holds something else
  have hold : ∀ {d z q}, Function.update own c none d = some (z, q) →
      own d = some (z, q) ∧ d ≠ c ∧ q ≠ r := by
    intro d z q hd
    have hdc : d ≠ c := by
      rintro rfl
      rw [Function.update_self] at hd
      cases hd
    rw [Function.update_of_ne hdc] at hd
    refine ⟨hd, hdc, ?_⟩
    rintro rfl
    exact hdc (h.unique hd hc)
  refine ⟨?_, ?_, ?_⟩
  · intro d z q hd
    obtain ⟨hd, -, hqr⟩ := hold hd
    rw [Function.update_of_ne hqr]
    exact h.marked hd
  · intro d e z z' q hd he
    exact h.unique (hold hd).1 (hold he).1
  · intro z q hq
    have hqr : q ≠ r := by
      rintro rfl
      rw [Function.update_self] at hq
      cases hq
    rw [Function.update_of_ne hqr] at hq
    obtain ⟨d, hd⟩ := h.holder hq
    refine ⟨d, ?_⟩
    rw [Function.update_of_ne, hd]
    rintro rfl
    rw [hc] at hd
    cases hd
    exact hqr rfl

end Exclusive

section Ledger

variable {κ π ν ι : Type} [DecidableEq κ] [DecidableEq π]

/-- Every item handed in by a source is in exactly one place, and nothing else is. -/
structure Ledger (key : ν → ι) (src : κ → Option ν) (held : π → Option ν) : Prop where
  placed : ∀ {k v}, src k = some v → ∃ p, held p = some v
  sourced : ∀ {p v}, held p = some v → ∃ k, src k = some v
  held_inj : ∀ {p q v w}, held p = some v → held q = some w → key v = key w → p = q
  src_inj : ∀ {k l v w}, src k = some v → src l = some w → key v = key w → k = l

variable {key : ν → ι} {src : κ → Option ν} {held : π → Option ν}

/-- A source hands in an item with a new key. -/
theorem Ledger.publish (h : Ledger key src held) {k : κ} {p : π} {v : ν} (hk : src k = none)
    (hp : held p = none) (hnew : ∀ l w, src l = some w → key w ≠ key v) :
    Ledger key (Function.update src k (some v)) (Function.update held p (some v)) := by
  have hheld : ∀ q w, held q = some w → key w ≠ key v := by
    intro q w hq
    obtain ⟨l, hl⟩ := h.sourced hq
    exact hnew l w hl
  refine ⟨?_, ?_, ?_, ?_⟩
  · intro l w hl
    by_cases hlk : l = k
    · subst hlk
      rw [Function.update_self] at hl
      cases hl
      exact ⟨p, Function.update_self _ _ _⟩
    · rw [Function.update_of_ne hlk] at hl
      obtain ⟨q, hq⟩ := h.placed hl
      refine ⟨q, ?_⟩
      rw [Function.update_of_ne, hq]
      rintro rfl
      rw [hp] at hq
      cases hq
  · intro q w hq
    by_cases hqp : q = p
    · subst hqp
      rw [Function.update_self] at hq
      cases hq
      exact ⟨k, Function.update_self _ _ _⟩
    · rw [Function.update_of_ne hqp] at hq
      obtain ⟨l, hl⟩ := h.sourced hq
      refine ⟨l, ?_⟩
      rw [Function.update_of_ne, hl]
      rintro rfl
      rw [hk] at hl
      cases hl
  · intro q q' w w' hq hq' hkey
    by_cases hqp : q = p
    · by_cases hqp' : q' = p
      · rw [hqp, hqp']
      · subst hqp
        rw [Function.update_self] at hq
        rw [Function.update_of_ne hqp'] at hq'
        cases hq
        exact absurd hkey.symm (hheld q' w' hq')
    · rw [Function.update_of_ne hqp] at hq
      by_cases hqp' : q' = p
      · subst hqp'
        rw [Function.update_self] at hq'
        cases hq'
        exact absurd hkey (hheld q w hq)
      · rw [Function.update_of_ne hqp'] at hq'
        exact h.held_inj hq hq' hkey
  · intro l l' w w' hl hl' hkey
    by_cases hlk : l = k
    · by_cases hlk' : l' = k
      · rw [hlk, hlk']
      · subst hlk
        rw [Function.update_self] at hl
        rw [Function.update_of_ne hlk'] at hl'
        cases hl
        exact absurd hkey.symm (hnew l' w' hl')
    · rw [Function.update_of_ne hlk] at hl
      by_cases hlk' : l' = k
      · subst hlk'
        rw [Function.update_self] at hl'
        cases hl'
        exact absurd hkey (hnew l w hl)
      · rw [Function.update_of_ne hlk'] at hl'
        exact h.src_inj hl hl' hkey

omit [DecidableEq κ] in
/-- An item changes its place. -/
theorem Ledger.move (h : Ledger key src held) {p q : π} {v : ν} (hp : held p = some v)
    (hq : held q = none) :
    Ledger key src (Function.update (Function.update held p none) q (some v)) := by
  have hqp : q ≠ p := by
    rintro rfl
    rw [hp] at hq
    cases hq
  -- where an item now is, and where it was
  have hback : ∀ {x w}, Function.update (Function.update held p none) q (some v) x = some w →
      (x = q ∧ w = v) ∨ (x ≠ q ∧ x ≠ p ∧ held x = some w) := by
    intro x w hx
    by_cases hxq : x = q
    · subst hxq
      rw [Function.update_self] at hx
      exact Or.inl ⟨rfl, (Option.some.inj hx).symm⟩
    · rw [Function.update_of_ne hxq] at hx
      have hxp : x ≠ p := by
        rintro rfl
        rw [Function.update_self] at hx
        cases hx
      rw [Function.update_of_ne hxp] at hx
      exact Or.inr ⟨hxq, hxp, hx⟩
  refine ⟨?_, ?_, ?_, h.src_inj⟩
  · intro k w hk
    obtain ⟨x, hx⟩ := h.placed hk
    by_cases hxp : x = p
    · subst hxp
      rw [hp] at hx
      cases hx
      exact ⟨q, Function.update_self _ _ _⟩
    · refine ⟨x, ?_⟩
      rw [Function.update_of_ne, Function.update_of_ne hxp, hx]
      rintro rfl
      rw [hq] at hx
      cases hx
  · intro x w hx
    rcases hback hx with ⟨-, rfl⟩ | ⟨-, -, hx⟩
    · exact h.sourced hp
    · exact h.sourced hx
  · intro x y w w' hx hy hkey
    rcases hback hx with ⟨rfl, rfl⟩ | ⟨-, hxp, hx'⟩
    · rcases hback hy with ⟨rfl, -⟩ | ⟨-, hyp, hy'⟩
      · rfl
      · exact absurd (h.held_inj hp hy' hkey).symm hyp
    · rcases hback hy with ⟨rfl, rfl⟩ | ⟨-, -, hy'⟩
      · exact absurd (h.held_inj hp hx' hkey.symm).symm hxp
      · exact h.held_inj hx' hy' hkey

omit [DecidableEq κ] [DecidableEq π] in
/-- There are as many sources that handed in an item as places that hold one. -/
theorem Ledger.encard_eq (h : Ledger key src held) :
    {k | src k ≠ none}.encard = {p | held p ≠ none}.encard := by
  -- both sets have the same keys, and a key names one source and one place
  have hsrc : Set.InjOn (fun k => (src k).map key) {k | src k ≠ none} := by
    intro k hk l hl hkl
    obtain ⟨v, hv⟩ := Option.ne_none_iff_exists'.1 hk
    obtain ⟨w, hw⟩ := Option.ne_none_iff_exists'.1 hl
    simp only [hv, hw, Option.map_some, Option.some.injEq] at hkl
    exact h.src_inj hv hw hkl
  have hheld : Set.InjOn (fun p => (held p).map key) {p | held p ≠ none} := by
    intro p hp q hq hpq
    obtain ⟨v, hv⟩ := Option.ne_none_iff_exists'.1 hp
    obtain ⟨w, hw⟩ := Option.ne_none_iff_exists'.1 hq
    simp only [hv, hw, Option.map_some, Option.some.injEq] at hpq
    exact h.held_inj hv hw hpq
  rw [← hsrc.encard_image, ← hheld.encard_image]
  congr 1
  ext x
  constructor
  · rintro ⟨k, hk, rfl⟩
    obtain ⟨v, hv⟩ := Option.ne_none_iff_exists'.1 hk
    obtain ⟨p, hp⟩ := h.placed hv
    refine ⟨p, ?_, ?_⟩
    · simp [hp]
    · simp [hp, hv]
  · rintro ⟨p, hp, rfl⟩
    obtain ⟨v, hv⟩ := Option.ne_none_iff_exists'.1 hp
    obtain ⟨k, hk⟩ := h.sourced hv
    refine ⟨k, ?_, ?_⟩
    · simp [hk]
    · simp [hk, hv]

end Ledger

end Custody
