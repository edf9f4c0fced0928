import Dumboss.Lib.Prog

/-!
# Effects with a bound

`Within R k m` says that every run of `m` takes a state to one that it is related to by `R k`.  If the
bounds of a relation add up, `Graded R`, the bound of a program is the sum of the bounds of its parts.
Nothing is said about whether the program returns; `wp` does that.

* `Graded`, `Within`;
* the rules, one for each way to make a program: `Within.pure`, `Within.bind`, `Within.ite` and so on;
* `Within.forM`: a loop over a list;
* `Reads`, `Within.reads`: a program that never changes the state;
* `Gives`: the same for the result.
-/

namespace Prog

variable {ε σ α β : Type}

/-- The bounds of `R` add up. -/
structure Graded (R : ℕ → σ → σ → Prop) : Prop where
  refl : ∀ s, R 0 s s
  trans : ∀ {j k s s' s''}, R j s s' → R k s' s'' → R (j + k) s s''
  mono : ∀ {j k s s'}, j ≤ k → R j s s' → R k s s'

/-- Every run of `m` is an `R k` step. -/
def Within (R : ℕ → σ → σ → Prop) (k : ℕ) (m : Prog ε σ α) : Prop :=
  ∀ ⦃s a s'⦄, m s = Except.ok (a, s') → R k s s'

/-- Every run of `m` ends where it began. -/
def Reads (m : Prog ε σ α) : Prop := Within (fun _ s s' => s' = s) 0 m

namespace Within

variable {R : ℕ → σ → σ → Prop} {j k : ℕ}

theorem mono (hR : Graded R) {m : Prog ε σ α} (h : Within R j m) (hjk : j ≤ k) : Within R k m :=
  fun _ _ _ hrun => hR.mono hjk (h hrun)

theorem pure (hR : Graded R) (a : α) : Within R k (pure a : Prog ε σ α) := by
  intro s b s' hrun
  cases hrun
  exact hR.mono (Nat.zero_le k) (hR.refl s)

theorem throw (e : ε) : Within R k (throw e : Prog ε σ α) := by
  intro s a s' hrun
  cases hrun

theorem bind (hR : Graded R) {m : Prog ε σ α} {f : α → Prog ε σ β} (hm : Within R j m)
    (hf : ∀ a, Within R k (f a)) : Within R (j + k) (m >>= f) := by
  intro s b s'' hrun
  obtain ⟨a, s', hrun', hrest⟩ := of_bind_eq_ok hrun
  exact hR.trans (hm hrun') (hf a hrest)

theorem ite {c : Prop} [Decidable c] {m n : Prog ε σ α} (hm : c → Within R k m)
    (hn : ¬ c → Within R k n) : Within R k (if c then m else n) := by
  split_ifs with h
  · exact hm h
  · exact hn h

theorem assert (hR : Graded R) (c : Prop) [Decidable c] (e : ε) :
    Within R k (assert c e : Prog ε σ Unit) :=
  ite (fun _ => pure hR ()) fun _ => throw e

/-- The bound of a loop is the sum of the bounds of its rounds. -/
theorem forM (hR : Graded R) {f : α → Prog ε σ Unit} {cost : α → ℕ} (l : List α)
    (hf : ∀ a ∈ l, Within R (cost a) (f a)) : Within R (l.map cost).sum (l.forM f) := by
  induction l with
  | nil => exact pure hR ()
  | cons a l ih =>
    simp only [List.forM, List.map_cons, List.sum_cons]
    exact bind hR (hf a (by simp)) fun _ => ih fun b hb => hf b (by simp [hb])

/-- Reading is free. -/
theorem reads (hR : Graded R) {m : Prog ε σ α} (h : Reads m) : Within R k m := by
  intro s a s' hrun
  obtain rfl := h hrun
  exact hR.mono (Nat.zero_le k) (hR.refl _)

/-- A sequence that begins with reading. -/
theorem reads_bind (hR : Graded R) {m : Prog ε σ α} {f : α → Prog ε σ β} (hm : Reads m)
    (hf : ∀ a, Within R k (f a)) : Within R k (m >>= f) := by
  have h := bind hR (reads (k := 0) hR hm) hf
  rwa [Nat.zero_add] at h

end Within

namespace Reads

theorem graded : Graded fun (_ : ℕ) (s s' : σ) => s' = s where
  refl _ := rfl
  trans h h' := h'.trans h
  mono _ h := h

theorem pure (a : α) : Reads (pure a : Prog ε σ α) := Within.pure graded a

theorem throw (e : ε) : Reads (throw e : Prog ε σ α) := Within.throw e

theorem get : Reads (get : Prog ε σ σ) := by
  intro s a s' hrun
  cases hrun
  rfl

theorem bind {m : Prog ε σ α} {f : α → Prog ε σ β} (hm : Reads m) (hf : ∀ a, Reads (f a)) :
    Reads (m >>= f) := Within.bind graded hm hf

theorem ite {c : Prop} [Decidable c] {m n : Prog ε σ α} (hm : Reads m) (hn : Reads n) :
    Reads (if c then m else n) := Within.ite (fun _ => hm) fun _ => hn

theorem assert (c : Prop) [Decidable c] (e : ε) : Reads (assert c e : Prog ε σ Unit) :=
  Within.assert graded c e

end Reads

/-! ### Results -/

/-- Every run of `m` has a result with `P`. -/
def Gives (P : α → Prop) (m : Prog ε σ α) : Prop := ∀ ⦃s a s'⦄, m s = Except.ok (a, s') → P a

namespace Gives

variable {P : α → Prop}

theorem pure {a : α} (ha : P a) : Gives P (pure a : Prog ε σ α) := by
  intro s b s' hrun
  cases hrun
  exact ha

theorem bind {Q : β → Prop} {m : Prog ε σ β} {f : β → Prog ε σ α} (hm : Gives Q m)
    (hf : ∀ b, Q b → Gives P (f b)) : Gives P (m >>= f) := by
  intro s a s'' hrun
  obtain ⟨b, s', hrun', hrest⟩ := of_bind_eq_ok hrun
  exact hf b (hm hrun') hrest

/-- The result of a sequence is that of its last part. -/
theorem last {m : Prog ε σ β} {f : β → Prog ε σ α} (hf : ∀ b, Gives P (f b)) : Gives P (m >>= f) :=
  bind (Q := fun _ => True) (fun _ _ _ _ => trivial) fun b _ => hf b

theorem ite {c : Prop} [Decidable c] {m n : Prog ε σ α} (hm : Gives P m) (hn : Gives P n) :
    Gives P (if c then m else n) := by
  split_ifs
  · exact hm
  · exact hn

end Gives

end Prog
