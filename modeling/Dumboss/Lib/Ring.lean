import Mathlib

/-!
# Queues in a ring

A ring has `n` slots; the slot of an index is the index modulo `n`.  `Holds n a slots q` says that the
list `q` stands in the ring from index `a` on, in order, and that the other slots are empty.

* `Holds.push`, `Holds.pop`: at the two ends of a queue;
* `Holds.cons`: a slot filled in front of the first element;
* `Holds.nil_of_nil`: an empty queue begins anywhere;
* `Holds.last_eq_none`, `Holds.front_eq_none`: the two slots next to a queue.
-/

namespace Ring

variable {α : Type} {n a : ℕ} {slots : ℕ → Option α} {q : List α} {x : α}

/-- The slots hold `q` from index `a` on, and nothing else. -/
def Holds (n a : ℕ) (slots : ℕ → Option α) (q : List α) : Prop :=
  q.length ≤ n ∧ ∀ k < n, slots ((a + k) % n) = q[k]?

theorem mod_add_inj {k l : ℕ} (hk : k < n) (hl : l < n) (h : (a + k) % n = (a + l) % n) : k = l := by
  have hkl : k ≡ l [MOD n] := Nat.ModEq.add_left_cancel' a h
  rwa [Nat.ModEq, Nat.mod_eq_of_lt hk, Nat.mod_eq_of_lt hl] at hkl

/-- Every slot has an index at most `n - 1` after `a`. -/
theorem exists_mod_add (a : ℕ) {i : ℕ} (hi : i < n) : ∃ k < n, (a + k) % n = i := by
  refine ⟨(i + (n - a % n)) % n, Nat.mod_lt _ (by omega), ?_⟩
  have ha : a % n < n := Nat.mod_lt _ (by omega)
  rw [Nat.add_mod_mod, ← Nat.mod_add_mod, show a % n + (i + (n - a % n)) = i + n by omega,
    Nat.add_mod_right, Nat.mod_eq_of_lt hi]

theorem Holds.nil_of_nil (b : ℕ) (h : Holds n a slots []) : Holds n b slots [] := by
  refine ⟨Nat.zero_le _, fun k hk => ?_⟩
  obtain ⟨l, hl, heq⟩ := exists_mod_add a (Nat.mod_lt (b + k) (by omega : n > 0))
  rw [← heq, h.2 l hl]
  rfl

theorem Holds.push (h : Holds n a slots q) (hlen : q.length < n) :
    Holds n a (Function.update slots ((a + q.length) % n) (some x)) (q ++ [x]) := by
  refine ⟨by simpa using hlen, fun k hk => ?_⟩
  rcases eq_or_ne k q.length with rfl | hne
  · rw [Function.update_self, List.getElem?_concat_length]
  · rw [Function.update_of_ne fun heq => hne (mod_add_inj hk hlen heq), h.2 k hk]
    rcases Nat.lt_or_gt_of_ne hne with hlt | hgt
    · rw [List.getElem?_append_left hlt]
    · rw [List.getElem?_eq_none hgt.le, List.getElem?_eq_none]
      simpa using hgt

theorem Holds.pop (h : Holds n a slots (x :: q)) :
    Holds n (a + 1) (Function.update slots (a % n) none) q := by
  have hlen : q.length + 1 ≤ n := h.1
  refine ⟨by omega, fun k hk => ?_⟩
  rcases eq_or_ne (k + 1) n with heq | hne
  · -- the index before `a` comes round to the slot that was emptied
    have hslot : (a + 1 + k) % n = a % n := by
      rw [show a + 1 + k = a + n by omega, Nat.add_mod_right]
    rw [hslot, Function.update_self, List.getElem?_eq_none (by omega)]
  · have hk' : k + 1 < n := by omega
    have hslot : (a + (k + 1)) % n ≠ a % n := fun heq =>
      absurd (mod_add_inj hk' (by omega : 0 < n) heq) (by omega)
    rw [show a + 1 + k = a + (k + 1) by omega, Function.update_of_ne hslot, h.2 _ hk',
      List.getElem?_cons_succ]

theorem Holds.cons (h : Holds n (a + 1) slots q) (hlen : q.length < n) :
    Holds n a (Function.update slots (a % n) (some x)) (x :: q) := by
  refine ⟨hlen, fun k hk => ?_⟩
  cases k with
  | zero => rw [Nat.add_zero, Function.update_self, List.getElem?_cons_zero]
  | succ k =>
    have hslot : (a + (k + 1)) % n ≠ a % n := fun heq =>
      absurd (mod_add_inj hk (by omega : 0 < n) heq) (by omega)
    rw [Function.update_of_ne hslot, show a + (k + 1) = a + 1 + k by omega, h.2 k (by omega),
      List.getElem?_cons_succ]

theorem Holds.head_eq (h : Holds n a slots (x :: q)) : slots (a % n) = some x := by
  have hlen : q.length + 1 ≤ n := h.1
  simpa using h.2 0 (by omega)

/-- The slot after the last element. -/
theorem Holds.last_eq_none (h : Holds n a slots q) (hlen : q.length < n) :
    slots ((a + q.length) % n) = none := by
  rw [h.2 _ hlen, List.getElem?_eq_none le_rfl]

/-- The slot of the last element. -/
theorem Holds.getLast_ne_none {j : ℕ} (h : Holds n a slots q) (hne : q ≠ [])
    (hj : j + 1 = a + q.length) : slots (j % n) ≠ none := by
  have hpos : 0 < q.length := List.length_pos_iff.2 hne
  have hlt : q.length - 1 < q.length := by omega
  rw [show j = a + (q.length - 1) by omega, h.2 _ (hlt.trans_le h.1), List.getElem?_eq_getElem hlt]
  exact Option.some_ne_none _

/-- The slot before the first element, if the ring is not full. -/
theorem Holds.front_eq_none {r : ℕ} (h : Holds n (r + 1) slots q) (hlen : q.length < n) :
    slots (r % n) = none := by
  have hslot : (r + 1 + (n - 1)) % n = r % n := by
    rw [show r + 1 + (n - 1) = r + n by omega, Nat.add_mod_right]
  rw [← hslot, h.2 _ (by omega), List.getElem?_eq_none (by omega)]

/-- No slot of a full ring is empty. -/
theorem Holds.ne_none_of_full (h : Holds n a slots q) (hlen : q.length = n) {i : ℕ} (hi : i < n) :
    slots i ≠ none := by
  obtain ⟨k, hk, rfl⟩ := exists_mod_add a hi
  rw [h.2 k hk, List.getElem?_eq_getElem (by omega)]
  exact Option.some_ne_none _

end Ring
