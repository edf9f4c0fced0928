import Dumboss.BitSet

/-!
# What the writes of a bit set change (`lib/bitset.h`)

`BitSet__set_range` fills the bits up to the first word boundary one by one, then whole words, then the
bits behind the last boundary.

* `setEach`: `BitSet__set`, once for each index of a list;
* `Assigned bits P value r`: `r` is `bits` with the bits of `P` changed to `value`; it determines `r`;
* `setRange_exact`: `BitSet__set_range` writes its range and nothing else, and `BitSet__set` on each
  index of the range, in any order, has the same result.

The indices are integers without a bound: the code's casts to `u64` and back to `s64` are exact for a
set whose words fit into the `2 ^ 48` canonical addresses.
-/

namespace Dumboss.BitSet

open Prog

variable {σ : Type} {bits r r' : BitSet} {value : Bool} {b e : ℕ}

/-! ### One index after the other -/

/-- `BitSet__set` on each index of a list. -/
def setEach (value : Bool) : List ℕ → BitSet → Kern σ BitSet
  | [], bits => return bits
  | i :: is, bits => do
    let bits ← bits.set i value
    setEach value is bits

/-- `r` is `bits` with the bits satisfying `P` changed to `value`. -/
def Assigned (bits : BitSet) (P : ℕ → Prop) [DecidablePred P] (value : Bool) (r : BitSet) : Prop :=
  r.count = bits.count ∧ ∀ j, r.test j = if P j then value else bits.test j

theorem Assigned.unique {P Q : ℕ → Prop} [DecidablePred P] [DecidablePred Q] (hPQ : ∀ j, P j ↔ Q j)
    (h : Assigned bits P value r) (h' : Assigned bits Q value r') : r = r' := by
  apply ext_test (h.1.trans h'.1.symm)
  intro j
  rw [h.2, h'.2]
  simp only [hPQ]

theorem Filled.assigned (h : Filled bits b e value r) :
    Assigned bits (fun j => b ≤ j ∧ j < e) value r := h

theorem wp_setEach {is : List ℕ} (his : ∀ i ∈ is, (i : ℤ) < bits.count) (value : Bool) (s : σ) :
    wp (setEach value is bits) (fun r s' => Assigned bits (· ∈ is) value r ∧ s' = s) s := by
  induction is generalizing bits with
  | nil =>
    rw [setEach, wp_pure]
    exact ⟨⟨rfl, fun j => by simp⟩, rfl⟩
  | cons i is ih =>
    rw [setEach, wp_bind, wp_set (his i (List.mem_cons_self ..))]
    refine wp_mono (ih fun k hk => his k (List.mem_cons_of_mem i hk)) ?_
    rintro r s' ⟨⟨hcount, htest⟩, rfl⟩
    refine ⟨⟨hcount, fun j => ?_⟩, rfl⟩
    -- a later write of the same bit writes the same value
    rw [htest, test_put]
    by_cases hj : j = i
    · simp [hj]
    · simp [hj]

/-! ### The range -/

/-- What `BitSet__set_range` makes of a set: the range reads as `value`, and every other bit of every
word, the bits behind the last one of the set included, is as before. -/
structure WritesExactly (bits : BitSet) (b e : ℕ) (value : Bool) (r : BitSet) : Prop where
  count_eq : r.count = bits.count
  get_eq : ∀ i : ℕ, b ≤ i → i < e → ∀ s : Unit, r.get i s = Except.ok (value, s)
  bit_eq : ∀ w j, j < 64 → ¬ (b ≤ 64 * w + j ∧ 64 * w + j < e) →
    (r.data w).getLsbD j = (bits.data w).getLsbD j

theorem Filled.writesExactly (he : (e : ℤ) ≤ bits.count) (h : Filled bits b e value r) :
    WritesExactly bits b e value r where
  count_eq := h.1
  get_eq i hb hlt s := by
    have hi : (i : ℤ) < r.count := by
      rw [h.1]
      omega
    rw [get_eq_ok hi, h.test_eq, if_pos ⟨hb, hlt⟩]
  bit_eq w j hj hout := by
    rw [← test_word r w hj, ← test_word bits w hj, h.test_eq, if_neg hout]

/-- **`BitSet__set_range` writes exactly its range**, and so does `BitSet__set` on each index of the
range, whatever the order. -/
theorem setRange_exact (bits : BitSet) {b e : ℕ} (hbe : b ≤ e) (he : (e : ℤ) ≤ bits.count)
    (value : Bool) : ∃ r, (∀ s : σ, bits.setRange b e value s = Except.ok (r, s)) ∧
      WritesExactly bits b e value r ∧
      ∀ is : List ℕ, (∀ i, i ∈ is ↔ b ≤ i ∧ i < e) →
        ∀ s : σ, setEach value is bits s = Except.ok (r, s) := by
  obtain ⟨r, -, -, hr, -⟩ := wp_setRange hbe he value ()
  refine ⟨r, fun s => ?_, hr.writesExactly he, fun is his s => ?_⟩
  · obtain ⟨r', s', hrun, hr', rfl⟩ := wp_setRange hbe he value s
    rw [hrun, hr'.assigned.unique (fun _ => Iff.rfl) hr.assigned]
  · have hlt : ∀ i ∈ is, (i : ℤ) < bits.count := by
      intro i hi
      have := (his i).1 hi
      omega
    obtain ⟨r', s', hrun, hr', rfl⟩ := wp_setEach hlt value s
    rw [hrun, hr'.unique his hr.assigned]

/-- A range with a head, a whole word and a tail, written from behind. -/
theorem setRange_exact_three_words : (60 : ℕ) ≤ 130 ∧ ((130 : ℕ) : ℤ) ≤ 200 ∧
    ∃ r, (⟨fun _ => 5#64, 200⟩ : BitSet).setRange (60 : ℕ) (130 : ℕ) true () = Except.ok (r, ()) ∧
      setEach true (List.range' 60 70).reverse ⟨fun _ => 5#64, 200⟩ () = Except.ok (r, ()) := by
  obtain ⟨r, hrun, -, heach⟩ := setRange_exact (σ := Unit) ⟨fun _ => 5#64, 200⟩
    (b := 60) (e := 130) (by decide) (by decide) true
  refine ⟨by decide, by decide, r, hrun (), heach _ (fun i => ?_) ()⟩
  rw [List.mem_reverse, List.mem_range'_1]

end Dumboss.BitSet
