import Dumboss.Tasks.Stranded

/-!
# The indices of a ring

Both functions move an index against an older value of the other one: `enqueue_task` keeps `write_to`
below the `read_from` that it loaded plus `task_count`, `dequeue_task` keeps `read_from` below the
`write_to` that it loaded.  Since the indices only grow, the bounds that were loaded stay bounds, no
matter which calls come in between.

* `Call.seenUpperBound`: the bound a call of `enqueue_task` has computed;
* `IndexInv`: the indices are in order and at most `task_count` apart, and the values that calls in
  progress have loaded are bounds still;
* `indices_bounded`: this is so in every reachable state.
-/

namespace Dumboss.Tasks

variable {s s' : State} {e : Event} {c w : ℕ} {spurious : Bool}

/-- The `upper_bound` at a point of `enqueue_task`, if it is live there. -/
def EnqueuePc.upperBound : EnqueuePc → Option ℕ
  | .loadWriteTo upperBound => some upperBound
  | .claim upperBound _ => some upperBound
  | .advance upperBound _ => some upperBound
  | _ => none

/-- The worker and the `upper_bound` of a call of `enqueue_task`. -/
def Call.seenUpperBound : Call → Option (ℕ × ℕ)
  | .enqueue w _ pc => pc.upperBound.map (w, ·)
  | _ => none

/-- A call of `enqueue_task` computes its bound from `read_from`, and keeps it. -/
theorem stepEnqueue_upperBound {data : TaskData} {pc : EnqueuePc}
    (hs : stepEnqueue s c w data spurious pc = some s') :
    ∃ pc', s'.calls c = .enqueue w data pc' ∧ ∀ x, pc'.upperBound = some x →
      pc.upperBound = some x ∨ x = (s.workers w).readFrom + (s.workers w).taskCount := by
  have moved : ∀ (t : State) (pc' : EnqueuePc), t.setCall c (.enqueue w data pc') = s' →
      (∀ x, pc'.upperBound = some x →
        pc.upperBound = some x ∨ x = (s.workers w).readFrom + (s.workers w).taskCount) →
      ∃ pc', s'.calls c = .enqueue w data pc' ∧ ∀ x, pc'.upperBound = some x →
        pc.upperBound = some x ∨ x = (s.workers w).readFrom + (s.workers w).taskCount := by
    rintro t pc' rfl hx
    exact ⟨pc', by rw [State.calls_setCall, Function.update_self], hx⟩
  cases pc with
  | loadReadFrom =>
    refine moved _ _ (Option.some.inj hs) fun x hx => Or.inr ?_
    exact (Option.some.inj hx).symm
  | loadWriteTo upperBound => exact moved _ _ (Option.some.inj hs) fun x hx => Or.inl hx
  | claim upperBound writeTo =>
    simp only [stepEnqueue] at hs
    split_ifs at hs
    · exact moved _ _ (Option.some.inj hs) fun x hx => by cases hx
    · exact moved _ _ (Option.some.inj hs) fun x hx => Or.inl hx
  | advance upperBound writeTo =>
    simp only [stepEnqueue] at hs
    split_ifs at hs
    · exact moved _ _ (Option.some.inj hs) fun x hx => Or.inl hx
    · exact moved _ _ (Option.some.inj hs) fun x hx => Or.inl hx
    · exact moved _ _ (Option.some.inj hs) fun x hx => by cases hx
  | takeId slot => exact moved _ _ (Option.some.inj hs) fun x hx => by cases hx
  | write slot id todo =>
    cases todo with
    | nil => exact moved _ _ (Option.some.inj hs) fun x hx => by cases hx
    | cons f todo => exact moved _ _ (Option.some.inj hs) fun x hx => by cases hx
  | accepted id => cases hs
  | refused => cases hs

/-- A call of `dequeue_task` stays one. -/
theorem stepDequeue_calls {pc : DequeuePc} (hs : stepDequeue s c w spurious pc = some s') :
    ∃ pc', s'.calls c = .dequeue w pc' := by
  have moved : ∀ (t : State) (pc' : DequeuePc), t.setCall c (.dequeue w pc') = s' →
      ∃ pc', s'.calls c = .dequeue w pc' := by
    rintro t pc' rfl
    exact ⟨pc', by rw [State.calls_setCall, Function.update_self]⟩
  cases pc with
  | claim writeTo readFrom =>
    simp only [stepDequeue] at hs
    split_ifs at hs
    · exact moved _ _ (Option.some.inj hs)
    · exact moved _ _ (Option.some.inj hs)
  | advance writeTo readFrom =>
    simp only [stepDequeue] at hs
    split_ifs at hs
    · exact moved _ _ (Option.some.inj hs)
    · exact moved _ _ (Option.some.inj hs)
    · exact moved _ _ (Option.some.inj hs)
  | copy slot task todo =>
    cases todo with
    | nil => exact moved _ _ (Option.some.inj hs)
    | cons f todo => exact moved _ _ (Option.some.inj hs)
  | returned task => cases hs
  | _ => exact moved _ _ (Option.some.inj hs)

theorem step_seenUpperBound (hs : step s e = some s') {x : ℕ}
    (hx : (s'.calls e.call).seenUpperBound = some (w, x)) :
    (s.calls e.call).seenUpperBound = some (w, x) ∨
      x = (s.workers w).readFrom + (s.workers w).taskCount := by
  obtain ⟨v, data, -, rfl⟩ | ⟨v, -, rfl⟩ | ⟨v, data, spurious, pc, hc, hs⟩ |
    ⟨v, spurious, pc, -, hs⟩ := step_cases hs
  · rw [State.calls_setCall, Function.update_self] at hx
    cases hx
  · rw [State.calls_setCall, Function.update_self] at hx
    cases hx
  · obtain ⟨pc', hcall, hbound⟩ := stepEnqueue_upperBound hs
    rw [hcall] at hx
    obtain ⟨y, hy, hpair⟩ := Option.map_eq_some_iff.1 hx
    cases hpair
    rw [hc]
    refine (hbound x hy).imp_left fun h => ?_
    exact Option.map_eq_some_iff.2 ⟨x, h, rfl⟩
  · obtain ⟨pc', hcall⟩ := stepDequeue_calls hs
    rw [hcall] at hx
    cases hx

/-- **The invariant of the indices.** -/
structure IndexInv (s : State) : Prop where
  order : IndexOrder s
  bound : ∀ w, (s.workers w).writeTo ≤ (s.workers w).readFrom + (s.workers w).taskCount
  seenUpperBound : ∀ c w x, (s.calls c).seenUpperBound = some (w, x) →
    x ≤ (s.workers w).readFrom + (s.workers w).taskCount

theorem IndexInv.step (h : IndexInv s) (hs : Tasks.step s e = some s') : IndexInv s' := by
  have hn := step_taskCount hs
  have hchange := windowChange_of_step hs
  have hle : ∀ w, (s.workers w).readFrom + (s.workers w).taskCount ≤
      (s'.workers w).readFrom + (s'.workers w).taskCount := by
    intro w
    rw [hn]
    exact Nat.add_le_add_right (hchange.mono w).1 _
  refine ⟨h.order.step hs, fun w => ?_, fun c w x hx => ?_⟩
  · cases hchange with
    | advanceWriteTo v upperBound data hold hlt hcalls hR hW hq =>
      rw [hW]
      split_ifs with hv
      · -- the call compared `write_to` with a bound that still is one
        subst hv
        have := h.seenUpperBound e.call w upperBound (by rw [hold]; rfl)
        exact (Nat.succ_le_of_lt hlt).trans (this.trans (hle w))
      · exact (h.bound w).trans (hle w)
    | other _ _ _ _ _ hW => exact (hW w).le.trans ((h.bound w).trans (hle w))
    | publish _ _ _ _ _ _ _ hW => exact (hW w).le.trans ((h.bound w).trans (hle w))
    | claim _ _ _ _ _ _ _ _ hW => exact (hW w).le.trans ((h.bound w).trans (hle w))
    | advanceReadFrom _ _ _ _ _ _ hW => exact (hW w).le.trans ((h.bound w).trans (hle w))
  · by_cases hc : c = e.call
    · subst hc
      rcases step_seenUpperBound hs hx with hx | rfl
      · exact (h.seenUpperBound _ w x hx).trans (hle w)
      · exact hle w
    · rw [calls_eq_of_step hs hc] at hx
      exact (h.seenUpperBound c w x hx).trans (hle w)

theorem IndexInv.initial (taskCount : ℕ → ℕ) : IndexInv (initial taskCount) where
  order := by
    refine ⟨fun _ => le_rfl, ?_⟩
    intro c w x h
    cases h
  bound _ := Nat.zero_le _
  seenUpperBound c w x h := by cases h

/-- The indices grow along every run. -/
theorem indices_mono (hr : Runs.Reach step (fun _ _ => True) s s') (w : ℕ) :
    (s.workers w).readFrom ≤ (s'.workers w).readFrom ∧
      (s.workers w).writeTo ≤ (s'.workers w).writeTo := by
  induction hr with
  | refl => exact ⟨le_rfl, le_rfl⟩
  | tail _ _ hs ih =>
    have := (windowChange_of_step hs).mono w
    exact ⟨ih.1.trans this.1, ih.2.trans this.2⟩

/-- **The indices of a ring.**  In every interleaving of calls, `read_from` does not pass `write_to`,
`write_to` does not get further than `task_count` ahead of it, and neither of them ever decreases. -/
theorem indices_bounded (taskCount : ℕ → ℕ) (s : State) (hr : Reachable taskCount s) (w : ℕ) :
    0 ≤ (s.workers w).readFrom ∧ (s.workers w).readFrom ≤ (s.workers w).writeTo ∧
      (s.workers w).writeTo ≤ (s.workers w).readFrom + taskCount w ∧
      ∀ s', Runs.Reach step (fun _ _ => True) s s' →
        (s.workers w).readFrom ≤ (s'.workers w).readFrom ∧
          (s.workers w).writeTo ≤ (s'.workers w).writeTo := by
  have h : IndexInv s := hr.invariant (IndexInv.initial taskCount) fun _ _ _ h _ hs => h.step hs
  have hbound := h.bound w
  rw [hr.taskCount_eq] at hbound
  exact ⟨Nat.zero_le _, h.order.le w, hbound, fun s' hr' => indices_mono hr' w⟩

/-- Two calls of `enqueue_task` on a ring of one slot: the second one moves `write_to`. -/
theorem indices_bounded_one_slot : ∃ s, Reachable (fun _ => 1) s ∧ (s.workers 0).writeTo = 1 ∧
    (s.workers 0).writeTo ≤ (s.workers 0).readFrom + 1 := by
  let data : TaskData := ⟨7#64, 8#64, 9#64⟩
  let events : List Event := .enqueue 0 0 data :: List.replicate 9 (.run 0 false) ++
    .enqueue 1 0 data :: List.replicate 4 (.run 1 false)
  have hrun : (Runs.execute step (fun _ _ => true) (initial fun _ => 1) events).map
      (fun s => (s.workers 0).writeTo) = some 1 := by decide
  obtain ⟨s, hs, hwrite⟩ := Option.map_eq_some_iff.1 hrun
  have hr : Reachable (fun _ => 1) s := (Runs.Reach.of_execute hs).mono fun _ _ _ => trivial
  exact ⟨s, hr, hwrite, (indices_bounded (fun _ => 1) s hr 0).2.2.1⟩

end Dumboss.Tasks
