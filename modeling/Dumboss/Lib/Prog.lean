import Mathlib

/-!
# Programs with state and assertions, and their total correctness

A program over a state `σ` either returns a value with a new state or stops at a failed
assertion of type `ε`.  `wp m Q s` says that `m`, started in `s`, *returns* (no assertion fails)
and that its result and final state satisfy `Q`; so a `wp` fact is a total-correctness fact.

* `Prog`, `assert`, `wp`;
* the rules `wp_pure`, `wp_bind`, `wp_get`, `wp_modify`, `wp_assert`, `wp_ite`, which run straight
  line code, and `wp_mono`, which uses the specification of a called function;
* `bind_eq_run`, `bind_eq_error`, `of_bind_eq_ok`: the runs of a sequence;
* `wp_of_run`, `wp_run` and `eq_ok_of_wp` pass between `wp` and the run of the program.
-/

/-- A program over the state `σ` that may fail an assertion of type `ε`. -/
abbrev Prog (ε σ α : Type) := StateT σ (Except ε) α

namespace Prog

variable {ε σ α β : Type}

/-- Stop with `e` unless `c` holds. -/
def assert (c : Prop) [Decidable c] (e : ε) : Prog ε σ Unit := if c then pure () else throw e

/-- `m` started in `s` returns, and its result and final state satisfy `Q`. -/
def wp (m : Prog ε σ α) (Q : α → σ → Prop) (s : σ) : Prop :=
  ∃ a s', m s = Except.ok (a, s') ∧ Q a s'

theorem wp_of_run {m : Prog ε σ α} {Q : α → σ → Prop} {s s' : σ} {a : α}
    (h : m s = Except.ok (a, s')) (hQ : Q a s') : wp m Q s := ⟨a, s', h, hQ⟩

/-- The result of a run is the one its `wp` speaks of. -/
theorem wp_run {m : Prog ε σ α} {Q : α → σ → Prop} {s s' : σ} {a : α}
    (h : m s = Except.ok (a, s')) (hw : wp m Q s) : Q a s' := by
  obtain ⟨b, t, hbt, hQ⟩ := hw
  rw [h] at hbt
  cases hbt
  exact hQ

/-- The run, from a `wp` that names its result and its final state. -/
theorem eq_ok_of_wp {m : Prog ε σ α} {s s' : σ} {a : α} (h : wp m (fun b t => b = a ∧ t = s') s) :
    m s = Except.ok (a, s') := by
  obtain ⟨_, _, hrun, rfl, rfl⟩ := h
  exact hrun

theorem wp_mono {m : Prog ε σ α} {P Q : α → σ → Prop} {s : σ}
    (h : wp m P s) (hPQ : ∀ a s', P a s' → Q a s') : wp m Q s := by
  obtain ⟨a, s', hm, hP⟩ := h
  exact ⟨a, s', hm, hPQ a s' hP⟩

/-- Two facts about the same run. -/
theorem wp_and {m : Prog ε σ α} {P Q : α → σ → Prop} {s : σ} (hP : wp m P s) (hQ : wp m Q s) :
    wp m (fun a s' => P a s' ∧ Q a s') s := by
  obtain ⟨a, s', hm, hP⟩ := hP
  exact ⟨a, s', hm, hP, wp_run hm hQ⟩

@[simp] theorem wp_pure (a : α) (Q : α → σ → Prop) (s : σ) :
    wp (pure a : Prog ε σ α) Q s ↔ Q a s := by
  constructor
  · rintro ⟨b, t, h, hQ⟩
    cases h
    exact hQ
  · intro hQ
    exact ⟨a, s, rfl, hQ⟩

@[simp] theorem wp_bind (m : Prog ε σ α) (f : α → Prog ε σ β) (Q : β → σ → Prop) (s : σ) :
    wp (m >>= f) Q s ↔ wp m (fun a s' => wp (f a) Q s') s := by
  have hb : (m >>= f) s = (m s).bind fun p => f p.1 p.2 := rfl
  unfold wp
  rw [hb]
  cases m s with
  | error e => simp [Except.bind]
  | ok p =>
    obtain ⟨a, s'⟩ := p
    simp [Except.bind]

/-- A program goes on from where its first part returns. -/
theorem bind_eq_run {m : Prog ε σ α} {f : α → Prog ε σ β} {s s' : σ} {a : α}
    (h : m s = Except.ok (a, s')) : (m >>= f) s = f a s' := by
  have hb : (m >>= f) s = (m s).bind fun p => f p.1 p.2 := rfl
  rw [hb, h]
  rfl

/-- A program that begins with a failing one fails. -/
theorem bind_eq_error {m : Prog ε σ α} {f : α → Prog ε σ β} {s : σ} {e : ε}
    (h : m s = Except.error e) : (m >>= f) s = Except.error e := by
  have hb : (m >>= f) s = (m s).bind fun p => f p.1 p.2 := rfl
  rw [hb, h]
  rfl

/-- **Inversion** of a sequence: if it returns, both parts do. -/
theorem of_bind_eq_ok {m : Prog ε σ α} {f : α → Prog ε σ β} {s t : σ} {b : β}
    (h : (m >>= f) s = Except.ok (b, t)) :
    ∃ a s', m s = Except.ok (a, s') ∧ f a s' = Except.ok (b, t) := by
  cases hm : m s with
  | error e =>
    rw [bind_eq_error hm] at h
    cases h
  | ok p =>
    rw [bind_eq_run hm] at h
    exact ⟨p.1, p.2, rfl, h⟩

@[simp] theorem wp_map (f : α → β) (m : Prog ε σ α) (Q : β → σ → Prop) (s : σ) :
    wp (f <$> m) Q s ↔ wp m (fun a => Q (f a)) s := by
  rw [← bind_pure_comp, wp_bind]
  simp

@[simp] theorem wp_get (Q : σ → σ → Prop) (s : σ) :
    wp (get : Prog ε σ σ) Q s ↔ Q s s :=
  wp_pure s Q s

@[simp] theorem wp_modify (f : σ → σ) (Q : PUnit → σ → Prop) (s : σ) :
    wp (modify f : Prog ε σ PUnit) Q s ↔ Q ⟨⟩ (f s) := by
  constructor
  · rintro ⟨b, t, h, hQ⟩
    cases h
    exact hQ
  · intro hQ
    exact ⟨⟨⟩, f s, rfl, hQ⟩

@[simp] theorem wp_throw (e : ε) (Q : α → σ → Prop) (s : σ) :
    wp (throw e : Prog ε σ α) Q s ↔ False := by
  constructor
  · rintro ⟨b, t, h, -⟩
    cases h
  · exact False.elim

@[simp] theorem wp_assert (c : Prop) [Decidable c] (e : ε) (Q : Unit → σ → Prop) (s : σ) :
    wp (assert c e : Prog ε σ Unit) Q s ↔ c ∧ Q () s := by
  unfold assert
  split_ifs with h
  · simp [h]
  · simp [h]

@[simp] theorem wp_ite (c : Prop) [Decidable c] (m n : Prog ε σ α) (Q : α → σ → Prop) (s : σ) :
    wp (if c then m else n) Q s ↔ if c then wp m Q s else wp n Q s := by
  split_ifs <;> rfl

end Prog
