import Mathlib

/-!
# Runs of a transition system

A system is a step function on states `σ` and events `ε`; `step s e = none` says that `e` cannot
happen in `s`.  `Reach step good s₀ s` says that some sequence of events leads from `s₀` to `s`, each
of them satisfying `good` in the state it happens in; with `good` restricted to the events of one
party it speaks of that party running alone.

* `Reach.invariant`: what holds at first and is kept by every good step holds at the end;
* `Reach.mono`, `Reach.trans`;
* `execute` runs a list of events that pass a check, and `Reach.of_execute` turns its result into a
  run;
* `execute_rank`: a rank that certain events lower bounds how often they occur.
-/

namespace Runs

variable {σ ε : Type} (step : σ → ε → Option σ)

/-- The states reached from `s₀` by events that satisfy `good`. -/
inductive Reach (good : σ → ε → Prop) (s₀ : σ) : σ → Prop
  | refl : Reach good s₀ s₀
  | tail {s s' : σ} {e : ε} (hr : Reach good s₀ s) (hg : good s e) (hs : step s e = some s') :
      Reach good s₀ s'

/-- Run the events `es` in order, as long as they pass `check`. -/
def execute (check : σ → ε → Bool) (s : σ) : List ε → Option σ
  | [] => some s
  | e :: es => if check s e then (step s e).bind fun s' => execute check s' es else none

variable {step} {good good' : σ → ε → Prop} {s₀ s s' : σ}

/-- **Invariant rule.** -/
theorem Reach.invariant {P : σ → Prop} (hr : Reach step good s₀ s) (h0 : P s₀)
    (hstep : ∀ s e s', P s → good s e → step s e = some s' → P s') : P s := by
  induction hr with
  | refl => exact h0
  | tail _ hg hs ih => exact hstep _ _ _ ih hg hs

theorem Reach.mono (hr : Reach step good s₀ s) (h : ∀ s e, good s e → good' s e) :
    Reach step good' s₀ s := by
  induction hr with
  | refl => exact .refl
  | tail _ hg hs ih => exact ih.tail (h _ _ hg) hs

theorem Reach.trans (hr : Reach step good s₀ s) (hr' : Reach step good s s') :
    Reach step good s₀ s' := by
  induction hr' with
  | refl => exact hr
  | tail _ hg hs ih => exact ih.tail hg hs

theorem Reach.of_execute {check : σ → ε → Bool} {es : List ε}
    (h : execute step check s es = some s') :
    Reach step (fun s e => check s e = true ∧ e ∈ es) s s' := by
  induction es generalizing s with
  | nil =>
    obtain rfl : s = s' := Option.some.inj h
    exact .refl
  | cons e es ih =>
    rw [execute] at h
    split_ifs at h with hc
    obtain ⟨s₁, hs, h⟩ := Option.bind_eq_some_iff.1 h
    have hfirst : Reach step (fun s f => check s f = true ∧ f ∈ e :: es) s s₁ :=
      .tail .refl ⟨hc, by simp⟩ hs
    exact hfirst.trans ((ih h).mono fun _ f hf => ⟨hf.1, List.mem_cons_of_mem _ hf.2⟩)

/-- **Ranking rule.**  Where no event raises the rank and those that satisfy `p` lower it, the rank at
first bounds the number of the latter. -/
theorem execute_rank {check : σ → ε → Bool} {P : σ → Prop} {rank : σ → ℕ} {p : ε → Bool}
    (hstep : ∀ s e s', P s → step s e = some s' →
      P s' ∧ rank s' + (if p e then 1 else 0) ≤ rank s)
    {es : List ε} (h0 : P s) (h : execute step check s es = some s') :
    P s' ∧ rank s' + es.countP p ≤ rank s := by
  induction es generalizing s with
  | nil =>
    obtain rfl : s = s' := Option.some.inj h
    exact ⟨h0, le_rfl⟩
  | cons e es ih =>
    rw [execute] at h
    split_ifs at h
    obtain ⟨s₁, hs, h⟩ := Option.bind_eq_some_iff.1 h
    obtain ⟨h1, hle⟩ := hstep s e s₁ h0 hs
    obtain ⟨hP, hrest⟩ := ih h1 h
    refine ⟨hP, ?_⟩
    rw [List.countP_cons]
    omega

end Runs
