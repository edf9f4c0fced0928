import Dumboss.Tasks.Indices
import Dumboss.Tasks.Scheduler

/-!
# How many steps a call takes

No call waits for another one.  A call that loses a slot or a compare-exchange goes on to a later index,
and it stops at a bound that it loaded at first.  So the number of its own steps depends on the size of
the ring only, whatever the other calls do in between; a weak compare-exchange that fails spuriously is
tried again and not counted.

* `claimRank`, `advanceRank`: the steps that are left between two indices; the local index can stand at
  the shared one or be behind it;
* `State.rank`: the steps that are left for a call; `State.rank_step`: its own steps lower it, those of
  other calls do not raise it;
* `wait_free`: the bound for a call of `enqueue_task` or `dequeue_task`;
* `Job.rank`, `loops_wait_free`: the bound for `add_task_inner` and for the loop of `task_main`.
-/

namespace Dumboss.Tasks

/-! ### The rank of a call -/

/-- The steps that are left when the slot of `index` is tried next. -/
def claimRank (shared index bound : ℕ) : ℕ :=
  if bound ≤ index then 7 else 3 * (bound - index) + if index < shared then 4 else 6

/-- The steps that are left when the shared index is to be moved next. -/
def advanceRank (shared index bound : ℕ) : ℕ :=
  if bound ≤ index then 1 else 3 * (bound - index) + if index < shared then 3 else 5

theorem claimRank_anti {shared shared' : ℕ} (h : shared ≤ shared') (index bound : ℕ) :
    claimRank shared' index bound ≤ claimRank shared index bound := by
  unfold claimRank
  split_ifs <;> omega

theorem advanceRank_anti {shared shared' : ℕ} (h : shared ≤ shared') (index bound : ℕ) :
    advanceRank shared' index bound ≤ advanceRank shared index bound := by
  unfold advanceRank
  split_ifs <;> omega

/-- The same for an index that is yet to be loaded. -/
theorem claimRank_self_anti {shared shared' : ℕ} (h : shared ≤ shared') (bound : ℕ) :
    claimRank shared' shared' bound ≤ claimRank shared shared bound := by
  unfold claimRank
  split_ifs <;> omega

theorem claimRank_self_le {shared bound n : ℕ} (hn : 0 < n) (h : bound ≤ shared + n) :
    claimRank shared shared bound ≤ 3 * n + 6 := by
  unfold claimRank
  split_ifs <;> omega

/-- The slot is not free for the call. -/
theorem advanceRank_lt_claimRank (shared index bound : ℕ) :
    advanceRank shared index bound < claimRank shared index bound := by
  unfold advanceRank claimRank
  split_ifs <;> omega

/-- The slot is claimed. -/
theorem six_lt_claimRank (shared index bound : ℕ) : 6 < claimRank shared index bound := by
  unfold claimRank
  split_ifs <;> omega

theorem advanceRank_pos (shared index bound : ℕ) : 0 < advanceRank shared index bound := by
  unfold advanceRank
  split_ifs <;> omega

/-- The compare-exchange succeeds: the shared index moves on, the local one stays. -/
theorem claimRank_succ_lt {index bound : ℕ} (h : index < bound) :
    claimRank (index + 1) index bound < advanceRank index index bound := by
  unfold advanceRank claimRank
  split_ifs <;> omega

/-- The compare-exchange fails: the shared index has moved, or the failure is a spurious one. -/
theorem advanceRank_reload_le {shared index bound : ℕ} {spurious : Bool} (h : index < bound)
    (hle : index ≤ shared) (hfail : ¬ (shared = index ∧ spurious = false)) :
    advanceRank shared shared bound + (if spurious then 0 else 1) ≤ advanceRank shared index bound := by
  cases spurious with
  | false =>
    have hne : shared ≠ index := fun heq => hfail ⟨heq, rfl⟩
    unfold advanceRank
    split_ifs <;> omega
  | true =>
    rw [if_pos rfl, Nat.add_zero]
    unfold advanceRank
    split_ifs <;> omega

/-- The steps that are left at a point of `enqueue_task`. -/
def EnqueuePc.rank (worker : WorkerState) : EnqueuePc → ℕ
  | .loadReadFrom => 3 * worker.taskCount + 8
  | .loadWriteTo upperBound => claimRank worker.writeTo worker.writeTo upperBound + 1
  | .claim upperBound writeTo => claimRank worker.writeTo writeTo upperBound
  | .advance upperBound writeTo => advanceRank worker.writeTo writeTo upperBound
  | .takeId _ => 6
  | .write _ _ todo => todo.length + 1
  | .accepted _ => 0
  | .refused => 0

/-- The steps that are left at a point of `dequeue_task`. -/
def DequeuePc.rank (worker : WorkerState) : DequeuePc → ℕ
  | .loadWriteTo => 3 * worker.taskCount + 8
  | .loadReadFrom writeTo => claimRank worker.readFrom worker.readFrom writeTo + 1
  | .claim writeTo readFrom => claimRank worker.readFrom readFrom writeTo
  | .advance writeTo readFrom => advanceRank worker.readFrom readFrom writeTo
  | .copy _ _ todo => todo.length + 1
  | .returned _ => 0

def Call.rank (s : State) : Call → ℕ
  | .idle => 0
  | .enqueue w _ pc => pc.rank (s.workers w)
  | .dequeue w pc => pc.rank (s.workers w)

/-- The steps that are left for call `c`. -/
def State.rank (s : State) (c : ℕ) : ℕ := (s.calls c).rank s

/-- The local copy of an index is not above the index. -/
def Call.Behind (s : State) : Call → Prop
  | .enqueue w _ (.claim _ writeTo) => writeTo ≤ (s.workers w).writeTo
  | .enqueue w _ (.advance _ writeTo) => writeTo ≤ (s.workers w).writeTo
  | .dequeue w (.claim _ readFrom) => readFrom ≤ (s.workers w).readFrom
  | .dequeue w (.advance _ readFrom) => readFrom ≤ (s.workers w).readFrom
  | _ => True

/-- The event is a step of call `c`, and not a spurious failure. -/
def Event.steps (c : ℕ) : Event → Bool
  | .run d spurious => d == c && !spurious
  | _ => false

variable {s s' : State} {e : Event} {c w : ℕ} {spurious : Bool} {taskCount : ℕ → ℕ}

/-- What other calls do does not raise the rank. -/
theorem Call.rank_anti (hs : step s e = some s') (call : Call) : call.rank s' ≤ call.rank s := by
  have hmono := (windowChange_of_step hs).mono
  have hn := step_taskCount hs
  cases call with
  | idle => exact le_rfl
  | enqueue w data pc =>
    cases pc with
    | loadReadFrom => simp only [Call.rank, EnqueuePc.rank, hn, le_refl]
    | loadWriteTo upperBound => exact Nat.succ_le_succ (claimRank_self_anti (hmono w).2 _)
    | claim upperBound writeTo => exact claimRank_anti (hmono w).2 _ _
    | advance upperBound writeTo => exact advanceRank_anti (hmono w).2 _ _
    | _ => exact le_rfl
  | dequeue w pc =>
    cases pc with
    | loadWriteTo => simp only [Call.rank, DequeuePc.rank, hn, le_refl]
    | loadReadFrom writeTo => exact Nat.succ_le_succ (claimRank_self_anti (hmono w).1 _)
    | claim writeTo readFrom => exact claimRank_anti (hmono w).1 _ _
    | advance writeTo readFrom => exact advanceRank_anti (hmono w).1 _ _
    | _ => exact le_rfl

theorem Call.Behind.mono {call : Call} (hb : call.Behind s) (hs : step s e = some s') :
    call.Behind s' := by
  have hmono := (windowChange_of_step hs).mono
  cases call with
  | idle => trivial
  | enqueue w data pc =>
    cases pc with
    | claim upperBound writeTo => exact le_trans hb (hmono w).2
    | advance upperBound writeTo => exact le_trans hb (hmono w).2
    | _ => trivial
  | dequeue w pc =>
    cases pc with
    | claim writeTo readFrom => exact le_trans hb (hmono w).1
    | advance writeTo readFrom => exact le_trans hb (hmono w).1
    | _ => trivial

/-- What a step of call `c` itself leaves behind. -/
structure Descends (s : State) (c : ℕ) (spurious : Bool) (s' : State) : Prop where
  behind : (s'.calls c).Behind s'
  rank : s'.rank c + (if spurious then 0 else 1) ≤ s.rank c

theorem descends_of_setCall {t : State} {call : Call} (hb : call.Behind t)
    (hr : call.rank t + (if spurious then 0 else 1) ≤ s.rank c) :
    Descends s c spurious (t.setCall c call) := by
  have hcall : (t.setCall c call).calls c = call := Function.update_self _ _ _
  refine ⟨?_, ?_⟩
  · rw [hcall]
    cases call with
    | idle => trivial
    | enqueue w data pc => cases pc <;> exact hb
    | dequeue w pc => cases pc <;> exact hb
  · rw [State.rank, hcall]
    cases call with
    | idle => exact hr
    | enqueue w data pc => cases pc <;> exact hr
    | dequeue w pc => cases pc <;> exact hr

/-- A step that is made whether or not the next weak compare-exchange would fail. -/
theorem le_of_succ_le {a b : ℕ} (h : a + 1 ≤ b) (spurious : Bool) :
    a + (if spurious then 0 else 1) ≤ b := by
  split_ifs <;> omega

theorem descends_of_stepEnqueue {data : TaskData} {pc : EnqueuePc} (hI : IndexInv s)
    (hn : 0 < (s.workers w).taskCount) (hc : s.calls c = .enqueue w data pc)
    (hb : (s.calls c).Behind s) (hs : stepEnqueue s c w data spurious pc = some s') :
    Descends s c spurious s' := by
  have hrank : s.rank c = pc.rank (s.workers w) := by rw [State.rank, hc, Call.rank]
  rw [hc] at hb
  cases pc with
  | loadReadFrom =>
    cases hs
    refine descends_of_setCall trivial (le_of_succ_le ?_ _)
    have hle := claimRank_self_le hn (Nat.add_le_add_right (hI.order.le w) (s.workers w).taskCount)
    rw [hrank, Call.rank, EnqueuePc.rank, EnqueuePc.rank]
    omega
  | loadWriteTo upperBound =>
    cases hs
    refine descends_of_setCall le_rfl (le_of_succ_le ?_ _)
    rw [hrank]
    exact le_rfl
  | claim upperBound writeTo =>
    simp only [stepEnqueue] at hs
    split_ifs at hs
    · cases hs
      refine descends_of_setCall trivial (le_of_succ_le ?_ _)
      rw [hrank]
      exact six_lt_claimRank _ _ _
    · cases hs
      refine descends_of_setCall hb (le_of_succ_le ?_ _)
      rw [hrank]
      exact advanceRank_lt_claimRank _ _ _
  | advance upperBound writeTo =>
    simp only [stepEnqueue] at hs
    split_ifs at hs with hlt hcas
    · cases hs
      obtain ⟨rfl, -⟩ := hcas
      have hW : ((s.setWriteTo w ((s.workers w).writeTo + 1)).workers w).writeTo =
          (s.workers w).writeTo + 1 := by rw [State.writeTo_setWriteTo, if_pos rfl]
      refine descends_of_setCall ?_ (le_of_succ_le ?_ _)
      · rw [Call.Behind, hW]
        exact Nat.le_succ _
      · rw [hrank, Call.rank, EnqueuePc.rank, hW]
        exact claimRank_succ_lt hlt
    · cases hs
      refine descends_of_setCall le_rfl ?_
      rw [hrank]
      exact advanceRank_reload_le hlt hb hcas
    · cases hs
      refine descends_of_setCall trivial (le_of_succ_le ?_ _)
      rw [hrank]
      exact advanceRank_pos _ _ _
  | takeId slot =>
    cases hs
    refine descends_of_setCall trivial (le_of_succ_le ?_ _)
    rw [hrank]
    exact le_rfl
  | write slot id todo =>
    cases todo with
    | nil =>
      cases hs
      refine descends_of_setCall trivial (le_of_succ_le ?_ _)
      rw [hrank]
      exact le_rfl
    | cons f todo =>
      cases hs
      refine descends_of_setCall trivial (le_of_succ_le ?_ _)
      rw [hrank]
      exact le_rfl
  | accepted id => cases hs
  | refused => cases hs

theorem descends_of_stepDequeue {pc : DequeuePc} (hI : IndexInv s)
    (hn : 0 < (s.workers w).taskCount) (hc : s.calls c = .dequeue w pc)
    (hb : (s.calls c).Behind s) (hs : stepDequeue s c w spurious pc = some s') :
    Descends s c spurious s' := by
  have hrank : s.rank c = pc.rank (s.workers w) := by rw [State.rank, hc, Call.rank]
  rw [hc] at hb
  cases pc with
  | loadWriteTo =>
    cases hs
    refine descends_of_setCall trivial (le_of_succ_le ?_ _)
    have hle := claimRank_self_le hn (hI.bound w)
    rw [hrank, Call.rank, DequeuePc.rank, DequeuePc.rank]
    omega
  | loadReadFrom writeTo =>
    cases hs
    refine descends_of_setCall le_rfl (le_of_succ_le ?_ _)
    rw [hrank]
    exact le_rfl
  | claim writeTo readFrom =>
    simp only [stepDequeue] at hs
    split_ifs at hs
    · cases hs
      refine descends_of_setCall trivial (le_of_succ_le ?_ _)
      rw [hrank]
      exact six_lt_claimRank _ _ _
    · cases hs
      refine descends_of_setCall hb (le_of_succ_le ?_ _)
      rw [hrank]
      exact advanceRank_lt_claimRank _ _ _
  | advance writeTo readFrom =>
    simp only [stepDequeue] at hs
    split_ifs at hs with hlt hcas
    · cases hs
      obtain ⟨rfl, -⟩ := hcas
      have hR : ((s.setReadFrom w ((s.workers w).readFrom + 1)).workers w).readFrom =
          (s.workers w).readFrom + 1 := by rw [State.readFrom_setReadFrom, if_pos rfl]
      refine descends_of_setCall ?_ (le_of_succ_le ?_ _)
      · rw [Call.Behind, hR]
        exact Nat.le_succ _
      · rw [hrank, Call.rank, DequeuePc.rank, hR]
        exact claimRank_succ_lt hlt
    · cases hs
      refine descends_of_setCall le_rfl ?_
      rw [hrank]
      exact advanceRank_reload_le hlt hb hcas
    · cases hs
      refine descends_of_setCall trivial (le_of_succ_le ?_ _)
      rw [hrank]
      exact advanceRank_pos _ _ _
  | copy slot task todo =>
    cases todo with
    | nil =>
      cases hs
      refine descends_of_setCall trivial (le_of_succ_le ?_ _)
      rw [hrank]
      exact le_rfl
    | cons f todo =>
      cases hs
      refine descends_of_setCall trivial (le_of_succ_le ?_ _)
      rw [hrank]
      exact le_rfl
  | returned task => cases hs

/-! ### Runs -/

theorem Reachable.indexInv (hr : Reachable taskCount s) : IndexInv s :=
  hr.invariant (IndexInv.initial taskCount) fun _ _ _ h _ hs => h.step hs

/-- A step of a call that has begun. -/
theorem descends_of_step (hI : IndexInv s) (hn : ∀ w, 0 < (s.workers w).taskCount)
    (hb : (s.calls c).Behind s) (hs : step s (.run c spurious) = some s') :
    s'.calls c ≠ .idle ∧ Descends s c spurious s' := by
  simp only [step] at hs
  split at hs
  · cases hs
  · next w data pc hc =>
    obtain ⟨pc', hcall⟩ := Scheduler.exists_pc_of_stepEnqueue hs
    refine ⟨?_, descends_of_stepEnqueue hI (hn w) hc hb hs⟩
    rw [hcall, Function.update_self]
    exact Call.noConfusion
  · next w pc hc =>
    obtain ⟨pc', hcall⟩ := Scheduler.exists_pc_of_stepDequeue hs
    refine ⟨?_, descends_of_stepDequeue hI (hn w) hc hb hs⟩
    rw [hcall, Function.update_self]
    exact Call.noConfusion

theorem Reachable.taskCount_pos (hn : ∀ w, 0 < taskCount w) (hr : Reachable taskCount s) (w : ℕ) :
    0 < (s.workers w).taskCount := by
  rw [hr.taskCount_eq]
  exact hn w

/-- **Run lemma** for the local copies. -/
theorem Reachable.behind (hn : ∀ w, 0 < taskCount w) (hr : Reachable taskCount s) (c : ℕ) :
    (s.calls c).Behind s := by
  induction hr generalizing c with
  | refl => trivial
  | @tail s s' e hr _ hs ih =>
    have hr' : Reachable taskCount s := hr
    by_cases hc : c = e.call
    · subst hc
      cases e with
      | enqueue c w data =>
        obtain ⟨-, rfl⟩ := of_step_enqueue hs
        rw [State.calls_setCall, Event.call, Function.update_self]
        trivial
      | dequeue c w =>
        obtain ⟨-, rfl⟩ := of_step_dequeue hs
        rw [State.calls_setCall, Event.call, Function.update_self]
        trivial
      | run c spurious =>
        exact (descends_of_step hr'.indexInv (hr'.taskCount_pos hn) (ih c) hs).2.behind
    · rw [calls_eq_of_step hs hc]
      exact (ih c).mono hs

/-- **Step lemma**: the steps of a call lower its rank, those of other calls do not raise it. -/
theorem State.rank_step (hn : ∀ w, 0 < taskCount w) (hr : Reachable taskCount s)
    (hbegun : s.calls c ≠ .idle) (hs : step s e = some s') :
    s'.calls c ≠ .idle ∧ s'.rank c + (if e.steps c then 1 else 0) ≤ s.rank c := by
  by_cases hc : c = e.call
  · subst hc
    cases e with
    | enqueue c w data => exact absurd (of_step_enqueue hs).1 hbegun
    | dequeue c w => exact absurd (of_step_dequeue hs).1 hbegun
    | run c spurious =>
      obtain ⟨hbegun', hd⟩ := descends_of_step hr.indexInv (hr.taskCount_pos hn) (hr.behind hn c) hs
      have hsteps : (Event.run c spurious).steps c = !spurious := by simp [Event.steps]
      have hrank := hd.rank
      refine ⟨hbegun', ?_⟩
      rw [Event.call, hsteps]
      cases spurious <;> exact hrank
  · have hcall := calls_eq_of_step hs hc
    have hsteps : e.steps c = false := by
      cases e with
      | run d spurious => simpa [Event.steps, Event.call] using fun h => absurd h.symm hc
      | _ => rfl
    rw [hsteps, State.rank, State.rank, hcall]
    exact ⟨hbegun, Call.rank_anti hs _⟩

/-- A call that has not returned can make a step. -/
theorem exists_step_of_not_resting (h : (s.calls c).resting = false) (spurious : Bool) :
    ∃ s', step s (.run c spurious) = some s' := by
  rw [step]
  cases hc : s.calls c with
  | idle =>
    rw [hc] at h
    cases h
  | enqueue w data pc =>
    rw [hc] at h
    cases pc with
    | write slot id todo => cases todo <;> exact ⟨_, rfl⟩
    | claim upperBound writeTo =>
      simp only [stepEnqueue]
      split_ifs <;> exact ⟨_, rfl⟩
    | advance upperBound writeTo =>
      simp only [stepEnqueue]
      split_ifs <;> exact ⟨_, rfl⟩
    | accepted id => cases h
    | refused => cases h
    | _ => exact ⟨_, rfl⟩
  | dequeue w pc =>
    rw [hc] at h
    cases pc with
    | copy slot task todo => cases todo <;> exact ⟨_, rfl⟩
    | claim writeTo readFrom =>
      simp only [stepDequeue]
      split_ifs <;> exact ⟨_, rfl⟩
    | advance writeTo readFrom =>
      simp only [stepDequeue]
      split_ifs <;> exact ⟨_, rfl⟩
    | returned task => cases h
    | _ => exact ⟨_, rfl⟩

/-- Only a call that has returned has no steps left. -/
theorem rank_pos_of_not_resting (h : (s.calls c).resting = false) : 0 < s.rank c := by
  rw [State.rank]
  cases hc : s.calls c with
  | idle =>
    rw [hc] at h
    cases h
  | enqueue w data pc =>
    rw [hc] at h
    cases pc with
    | accepted id => cases h
    | refused => cases h
    | claim upperBound writeTo => exact Nat.zero_lt_of_lt (six_lt_claimRank _ _ _)
    | advance upperBound writeTo => exact advanceRank_pos _ _ _
    | _ => exact Nat.succ_pos _
  | dequeue w pc =>
    rw [hc] at h
    cases pc with
    | returned task => cases h
    | claim writeTo readFrom => exact Nat.zero_lt_of_lt (six_lt_claimRank _ _ _)
    | advance writeTo readFrom => exact advanceRank_pos _ _ _
    | _ => exact Nat.succ_pos _

/-- The call `c` begins, of one of the two functions on worker `w`. -/
def Begins (c w : ℕ) (e : Event) : Prop := e = .dequeue c w ∨ ∃ data, e = .enqueue c w data

theorem Begins.rank (he : Begins c w e) (hs : step s e = some s') :
    s'.calls c ≠ .idle ∧ s'.rank c = 3 * (s.workers w).taskCount + 8 := by
  obtain rfl | ⟨data, rfl⟩ := he
  · obtain ⟨-, rfl⟩ := of_step_dequeue hs
    have hcall : (s.setCall c (.dequeue w .loadWriteTo)).calls c = .dequeue w .loadWriteTo :=
      Function.update_self _ _ _
    rw [State.rank, hcall]
    exact ⟨Call.noConfusion, rfl⟩
  · obtain ⟨-, rfl⟩ := of_step_enqueue hs
    have hcall : (s.setCall c (.enqueue w data .loadReadFrom)).calls c =
        .enqueue w data .loadReadFrom := Function.update_self _ _ _
    rw [State.rank, hcall]
    exact ⟨Call.noConfusion, rfl⟩

/-- **Wait-freedom.**  A call makes at most `3 * task_count + 8` steps besides spurious failures, it has
returned when it has made that many, and until it returns it can always make one. -/
theorem wait_free (hn : ∀ w, 0 < taskCount w) (hr : Reachable taskCount s) (he : Begins c w e)
    (hs : step s e = some s') {es : List Event} {t : State}
    (hrun : Runs.execute step (fun _ _ => true) s' es = some t) :
    es.countP (Event.steps c) ≤ 3 * taskCount w + 8 ∧
      (es.countP (Event.steps c) = 3 * taskCount w + 8 → (t.calls c).resting = true) ∧
      ((t.calls c).resting = false → ∀ spurious, ∃ t', step t (.run c spurious) = some t') := by
  obtain ⟨hbegun, hrank⟩ := he.rank hs
  rw [hr.taskCount_eq] at hrank
  have hstep : ∀ s e s', Reachable taskCount s ∧ s.calls c ≠ .idle → step s e = some s' →
      (Reachable taskCount s' ∧ s'.calls c ≠ .idle) ∧
        s'.rank c + (if e.steps c then 1 else 0) ≤ s.rank c := by
    rintro s e s' ⟨hr, hbegun⟩ hs
    obtain ⟨hbegun', hle⟩ := State.rank_step hn hr hbegun hs
    exact ⟨⟨hr.tail trivial hs, hbegun'⟩, hle⟩
  have hle := (Runs.execute_rank (p := Event.steps c) hstep ⟨hr.tail trivial hs, hbegun⟩ hrun).2
  refine ⟨by omega, fun hmax => ?_, exists_step_of_not_resting⟩
  by_contra hrest
  have := rank_pos_of_not_resting (Bool.eq_false_iff.2 hrest)
  omega

/-- With one slot the bound is reached: the call finds the slot taken, moves `write_to`, and tries the
same slot again after another call has emptied it. -/
theorem wait_free_one_slot : ∃ s s' es t, Reachable (fun _ => 1) s ∧
    step s (.enqueue 1 0 ⟨7#64, 8#64, 9#64⟩) = some s' ∧
    Runs.execute step (fun _ _ => true) s' es = some t ∧
    es.countP (Event.steps 1) = 3 * 1 + 8 ∧ (t.calls 1).resting = true := by
  let before : List Event := .enqueue 0 0 ⟨1#64, 2#64, 3#64⟩ :: List.replicate 9 (.run 0 false)
  let es : List Event := List.replicate 4 (.run 1 false) ++
    .dequeue 2 0 :: List.replicate 9 (.run 2 false) ++ List.replicate 7 (.run 1 false)
  have hrun : ((Runs.execute step (fun _ _ => true) (initial fun _ => 1) before).bind fun s =>
      (step s (.enqueue 1 0 ⟨7#64, 8#64, 9#64⟩)).bind fun s' =>
        Runs.execute step (fun _ _ => true) s' es).isSome = true := by decide
  obtain ⟨t, ht⟩ := Option.isSome_iff_exists.1 hrun
  obtain ⟨s, hs, ht⟩ := Option.bind_eq_some_iff.1 ht
  obtain ⟨s', hs', ht⟩ := Option.bind_eq_some_iff.1 ht
  have hr : Reachable (fun _ => 1) s := (Runs.Reach.of_execute hs).mono fun _ _ _ => trivial
  have hcount : es.countP (Event.steps 1) = 3 * 1 + 8 := by decide
  exact ⟨s, s', es, t, hr, hs', ht, hcount,
    (wait_free (fun _ => Nat.one_pos) hr (Or.inr ⟨_, rfl⟩) hs' ht).2.1 hcount⟩

/-! ### The two loops -/

namespace Scheduler

variable {workerCount : ℕ} {s s' : System} {j : ℕ} {e : Event}

/-- The event that starts a loop. -/
def Loop.start (j : ℕ) : Loop → Event
  | .add data => .add j data
  | .scan selfIndex => .main j selfIndex

/-- The event is a step of job `j`, and not a spurious failure. -/
def Event.steps (j : ℕ) : Event → Bool
  | .run k spurious => k == j && !spurious
  | _ => false

/-- What the rounds from `it` on can take: a call begins, makes its steps and is answered; one more step
leaves the loop.  The test of `running_task` goes with the begin of the next call, or leaves the loop. -/
def Loop.rest (workerCount : ℕ) (taskCount : ℕ → ℕ) (loop : Loop) (it : ℕ) : ℕ :=
  ∑ i ∈ Finset.Ico it workerCount, (3 * taskCount (loop.worker workerCount i) + 10) + 1

theorem Loop.rest_of_lt (loop : Loop) {it : ℕ} (h : it < workerCount) :
    loop.rest workerCount taskCount it = 3 * taskCount (loop.worker workerCount it) + 10 +
      loop.rest workerCount taskCount (it + 1) := by
  rw [Loop.rest, Finset.sum_eq_sum_Ico_succ_bot h, Nat.add_assoc, Loop.rest]

theorem Loop.rest_pos (loop : Loop) (it : ℕ) : 0 < loop.rest workerCount taskCount it :=
  Nat.succ_pos _

/-- The steps that are left for job `j` in round `it`. -/
def System.roundRank (workerCount : ℕ) (taskCount : ℕ → ℕ) (s : System) (j : ℕ) (loop : Loop) (it : ℕ) :
    ℕ :=
  match s.call j it with
  | .idle => loop.rest workerCount taskCount it
  | _ => s.tasks.rank (callOf j it) + 1 + loop.rest workerCount taskCount (it + 1)

/-- The steps that are left for job `j`. -/
def System.rank (workerCount : ℕ) (taskCount : ℕ → ℕ) (s : System) (j : ℕ) : ℕ :=
  match s.jobs j with
  | .running loop it => s.roundRank workerCount taskCount j loop it
  | .stored selfIndex it => (Loop.scan selfIndex).rest workerCount taskCount (it + 1)
  | _ => 0

theorem roundRank_of_idle {loop : Loop} {it : ℕ} (h : s.call j it = .idle) :
    s.roundRank workerCount taskCount j loop it = loop.rest workerCount taskCount it := by
  rw [System.roundRank, h]

theorem roundRank_of_begun {loop : Loop} {it : ℕ} (h : s.call j it ≠ .idle) :
    s.roundRank workerCount taskCount j loop it =
      s.tasks.rank (callOf j it) + 1 + loop.rest workerCount taskCount (it + 1) := by
  rw [System.roundRank]
  split
  · next hidle => exact absurd hidle h
  · rfl

theorem rank_of_running {loop : Loop} {it : ℕ} (h : s.jobs j = .running loop it) :
    s.rank workerCount taskCount j = s.roundRank workerCount taskCount j loop it := by
  rw [System.rank, h]

theorem rank_of_stored {selfIndex it : ℕ} (h : s.jobs j = .stored selfIndex it) :
    s.rank workerCount taskCount j = (Loop.scan selfIndex).rest workerCount taskCount (it + 1) := by
  rw [System.rank, h]

theorem rank_of_ended (h : (s.jobs j).ended = true) : s.rank workerCount taskCount j = 0 := by
  rw [System.rank]
  split
  · next loop it hj =>
    rw [hj] at h
    cases h
  · next selfIndex it hj =>
    rw [hj] at h
    cases h
  · rfl

theorem Loop.begins_begin (loop : Loop) (w c : ℕ) : Begins c w (loop.begin w c) := by
  cases loop with
  | add data => exact Or.inr ⟨data, rfl⟩
  | scan selfIndex => exact Or.inl rfl

/-- The rank while a call of a round is made. -/
theorem rank_of_call {loop : Loop} {it : ℕ} {t : System} (hjob : t.jobs j = .running loop it)
    (hbegun : t.call j it ≠ .idle) : t.rank workerCount taskCount j =
      t.tasks.rank (callOf j it) + 1 + loop.rest workerCount taskCount (it + 1) := by
  rw [rank_of_running hjob, roundRank_of_begun hbegun]

/-- A call of a round begins. -/
theorem rank_begin (hT : Tasks.Reachable taskCount s.tasks) {loop : Loop} {it : ℕ} {tasks : State}
    (hit : it < workerCount)
    (ht : Tasks.step s.tasks (loop.begin (loop.worker workerCount it) (callOf j it)) = some tasks)
    {t : System} (htasks : t.tasks = tasks) (hjob : t.jobs j = .running loop it) :
    t.rank workerCount taskCount j + 1 ≤ loop.rest workerCount taskCount it := by
  obtain ⟨hbegun, hrank⟩ := (loop.begins_begin _ _).rank ht
  rw [hT.taskCount_eq] at hrank
  subst htasks
  rw [rank_of_call hjob hbegun, loop.rest_of_lt hit]
  omega

/-- A step of the job, the call of its round included. -/
theorem roundRank_runLoop (hn : ∀ w, 0 < taskCount w) (hr : Reachable workerCount taskCount s)
    {loop : Loop} {it : ℕ} {spurious : Bool} (hold : s.jobs j = .running loop it)
    (hs : runLoop workerCount s j spurious loop it = some s') :
    s'.jobs j ≠ .idle ∧ s'.rank workerCount taskCount j + (if spurious then 0 else 1) ≤
      s.roundRank workerCount taskCount j loop it := by
  have hT : Tasks.Reachable taskCount s.tasks := hr.tasks
  have hround := Reachable.inv hr j
  rw [hold] at hround
  unfold runLoop at hs
  split_ifs at hs with hit
  · split at hs
    · -- the call of the round begins
      next hidle =>
      obtain ⟨tasks, ht, rfl⟩ := Option.map_eq_some_iff.1 hs
      refine ⟨by rw [hold]; exact Job.noConfusion, le_of_succ_le ?_ _⟩
      rw [roundRank_of_idle hidle]
      exact rank_begin hT hit ht rfl hold
    · -- `add_task_inner` returns
      next hcall =>
      obtain rfl := Option.some.inj hs
      refine ⟨by rw [jobs_setJob]; exact Job.noConfusion, le_of_succ_le ?_ _⟩
      rw [roundRank_of_begun (hcall ▸ Call.noConfusion), rank_of_ended (by rw [jobs_setJob]; rfl)]
      omega
    · -- the next round; its call has not begun
      next data w d hcall =>
      obtain rfl := Option.some.inj hs
      have hidle : (s.setJob j (.running (.add data) (it + 1))).call j (it + 1) = .idle :=
        hround.2.1.later _ (Nat.lt_succ_self it)
      refine ⟨by rw [jobs_setJob]; exact Job.noConfusion, le_of_succ_le ?_ _⟩
      rw [roundRank_of_begun (hcall ▸ Call.noConfusion), rank_of_running (jobs_setJob _ _ _),
        roundRank_of_idle hidle]
      omega
    · -- `task_main` stores what the call returned
      next selfIndex w task hcall =>
      obtain rfl := Option.some.inj hs
      refine ⟨by rw [jobs_setJob]; exact Job.noConfusion, le_of_succ_le ?_ _⟩
      rw [roundRank_of_begun (hcall ▸ Call.noConfusion), rank_of_stored (jobs_setJob _ _ _)]
      omega
    · -- a step of the call
      next hbusy _ _ _ =>
      have hbegun : s.call j it ≠ .idle := hbusy
      obtain ⟨tasks, ht, rfl⟩ := Option.map_eq_some_iff.1 hs
      obtain ⟨hbegun', hle⟩ := State.rank_step hn hT hbegun ht
      refine ⟨by rw [hold]; exact Job.noConfusion, ?_⟩
      have hrank : System.rank workerCount taskCount { s with tasks := tasks } j =
          tasks.rank (callOf j it) + 1 + Loop.rest workerCount taskCount _ (it + 1) :=
        rank_of_call hold hbegun'
      rw [roundRank_of_begun hbegun, hrank]
      have hsteps : (Tasks.Event.run (callOf j it) spurious).steps (callOf j it) = !spurious := by
        simp [Tasks.Event.steps]
      rw [hsteps] at hle
      change _ ≤ s.tasks.rank (callOf j it) at hle
      change tasks.rank (callOf j it) + 1 + _ + _ ≤ _
      cases spurious <;> simp only [Bool.not_true, Bool.not_false, if_true, if_false,
        Bool.false_eq_true] at hle ⊢ <;> omega
  · obtain rfl := Option.some.inj hs
    obtain rfl : it = workerCount := by
      have := hround.1
      omega
    have hidle : s.call j it = .idle := hround.2.2.resolve_right fun h => hit h.1
    refine ⟨by rw [jobs_setJob]; exact Job.noConfusion, le_of_succ_le ?_ _⟩
    rw [rank_of_ended (by rw [jobs_setJob]; rfl), roundRank_of_idle hidle]
    exact loop.rest_pos it

/-- The test of `running_task`, whatever it shows. -/
theorem rank_testTask (hr : Reachable workerCount taskCount s) {selfIndex it : ℕ}
    (hs : testTask workerCount s j selfIndex it = some s') :
    s'.jobs j ≠ .idle ∧ s'.rank workerCount taskCount j + 1 ≤
      (Loop.scan selfIndex).rest workerCount taskCount (it + 1) := by
  simp only [testTask] at hs
  split_ifs at hs with htest hit
  · obtain rfl := Option.some.inj hs
    refine ⟨by rw [jobs_setJob]; exact Job.noConfusion, ?_⟩
    rw [rank_of_ended (by rw [jobs_setJob]; rfl)]
    exact Loop.rest_pos _ _
  · obtain ⟨tasks, ht, rfl⟩ := Option.map_eq_some_iff.1 hs
    refine ⟨by rw [jobs_setJob]; exact Job.noConfusion, ?_⟩
    exact rank_begin hr.tasks hit ht rfl (jobs_setJob _ _ _)
  · obtain rfl := Option.some.inj hs
    refine ⟨by rw [jobs_setJob]; exact Job.noConfusion, ?_⟩
    rw [rank_of_ended (by rw [jobs_setJob]; rfl)]
    exact Loop.rest_pos _ _

/-- **Step lemma**: the steps of a job lower its rank, those of other jobs do not raise it. -/
theorem System.rank_step (hn : ∀ w, 0 < taskCount w) (hr : Reachable workerCount taskCount s)
    (hj : s.jobs j ≠ .idle) (hs : step workerCount s e = some s') :
    s'.jobs j ≠ .idle ∧ s'.rank workerCount taskCount j + (if e.steps j then 1 else 0) ≤
      s.rank workerCount taskCount j := by
  by_cases hown : j = e.job
  · subst hown
    cases e with
    | run k spurious =>
      have hsteps : (Event.run k spurious).steps k = !spurious := by simp [Event.steps]
      simp only [step] at hs
      split at hs
      · next loop it hold =>
        obtain ⟨hj', hle⟩ := roundRank_runLoop hn hr hold hs
        refine ⟨hj', ?_⟩
        rw [Event.job, hsteps, rank_of_running hold]
        cases spurious <;> exact hle
      · next selfIndex it hold =>
        obtain ⟨hj', hle⟩ := rank_testTask hr hs
        refine ⟨hj', ?_⟩
        rw [Event.job, hsteps, rank_of_stored hold]
        cases spurious
        · exact hle
        · exact (Nat.le_succ _).trans hle
      · cases hs
    | add k data =>
      simp only [step] at hs
      split at hs
      · next hidle => exact absurd hidle hj
      · cases hs
    | main k selfIndex =>
      simp only [step] at hs
      split at hs
      · next hidle => exact absurd hidle hj
      · cases hs
  · have hchange := change_of_step hs
    obtain ⟨hjobs, hcalls⟩ := hchange.other hown
    have hsteps : e.steps j = false := by
      cases e with
      | run k spurious => simpa [Event.steps, Event.job] using fun h => absurd h.symm hown
      | _ => rfl
    refine ⟨by rw [hjobs]; exact hj, ?_⟩
    rw [hsteps]
    -- the calls of `j` stay as they are, and none of their ranks goes up
    have hcall : ∀ it, s'.tasks.rank (callOf j it) ≤ s.tasks.rank (callOf j it) := by
      intro it
      have hsame : s'.tasks.calls (callOf j it) = s.tasks.calls (callOf j it) := congrFun hcalls it
      rw [State.rank, State.rank, hsame]
      cases hchange with
      | call loop it e tasks hold hit he hstep hbegin hnew =>
        subst hnew
        exact Call.rank_anti hstep _
      | again selfIndex it e tasks hold htest hit he hstep hnew =>
        subst hnew
        exact Call.rank_anti hstep _
      | _ => subst s'; exact le_rfl
    rw [System.rank, System.rank, hjobs]
    split
    · next loop it hold =>
      by_cases hidle : s.call j it = .idle
      · rw [roundRank_of_idle hidle, roundRank_of_idle (by rw [hcalls]; exact hidle)]
        exact le_rfl
      · rw [roundRank_of_begun hidle, roundRank_of_begun (by rw [hcalls]; exact hidle)]
        have := hcall it
        simp only [Bool.false_eq_true, if_false]
        omega
    · exact le_rfl
    · exact le_rfl

theorem Loop.exists_begin (loop : Loop) {t : State} {c : ℕ} (h : t.calls c = .idle) (w : ℕ) :
    ∃ t', Tasks.step t (loop.begin w c) = some t' := by
  cases loop with
  | add data => exact ⟨_, by rw [Loop.begin, Tasks.step, h]⟩
  | scan selfIndex => exact ⟨_, by rw [Loop.begin, Tasks.step, h]⟩

/-- A job that has not left its loop can make a step. -/
theorem exists_step_of_not_ended (hC : (s.jobs j).Calls workerCount (s.call j))
    (h : (s.jobs j).ended = false) (spurious : Bool) :
    ∃ s', step workerCount s (.run j spurious) = some s' := by
  rw [step]
  cases hj : s.jobs j with
  | running loop it =>
    rw [hj] at hC
    change ∃ s', runLoop workerCount s j spurious loop it = some s'
    unfold runLoop
    split_ifs
    · split
      · next loop _ _ hidle =>
        obtain ⟨tasks, ht⟩ := loop.exists_begin hidle (loop.worker workerCount it)
        exact ⟨_, by rw [ht]; rfl⟩
      · exact ⟨_, rfl⟩
      · exact ⟨_, rfl⟩
      · exact ⟨_, rfl⟩
      · next loop _ _ hbusy haccepted hrefused hreturned =>
        -- the call is one of the loop, and has not ended
        have hm := (hC.2.2.resolve_left hbusy).2
        have hrest : (s.tasks.calls (callOf j it)).resting = false := by
          change (s.call j it).resting = false
          generalize s.call j it = call at hbusy haccepted hrefused hreturned hm
          cases call with
          | idle => exact absurd rfl hbusy
          | enqueue w d pc =>
            cases loop with
            | add data =>
              cases pc with
              | accepted id => exact absurd rfl (haccepted data w d id rfl)
              | refused => exact absurd rfl (hrefused data w d rfl)
              | _ => rfl
            | scan selfIndex => exact hm.elim
          | dequeue w pc =>
            cases loop with
            | add data => exact hm.elim
            | scan selfIndex =>
              cases pc with
              | returned task => exact absurd rfl (hreturned selfIndex w task rfl)
              | _ => rfl
        obtain ⟨tasks, ht⟩ := exists_step_of_not_resting hrest spurious
        exact ⟨_, by rw [ht]; rfl⟩
    · exact ⟨_, rfl⟩
  | stored selfIndex it =>
    rw [hj] at hC
    change ∃ s', testTask workerCount s j selfIndex it = some s'
    simp only [testTask]
    split_ifs
    · exact ⟨_, rfl⟩
    · obtain ⟨tasks, ht⟩ := (Loop.scan selfIndex).exists_begin (hC.2.1.later _ (Nat.lt_succ_self it))
        ((Loop.scan selfIndex).worker workerCount (it + 1))
      exact ⟨_, by rw [ht]; rfl⟩
    · exact ⟨_, rfl⟩
  | idle =>
    rw [hj] at h
    cases h
  | succeeded loop it =>
    rw [hj] at h
    cases h
  | exhausted loop =>
    rw [hj] at h
    cases h

/-- **The loops are wait-free**: `add_task_inner`, and `task_main` on its way to a task, leave their loop
after a number of steps of their own that only the sizes of the rings bound, spurious failures aside, and
nothing that other cores do can hold them up. -/
theorem loops_wait_free (hn : ∀ w, 0 < taskCount w) (hr : Reachable workerCount taskCount s)
    (loop : Loop) (hs : step workerCount s (loop.start j) = some s') {es : List Event} {t : System}
    (hrun : Runs.execute (step workerCount) (fun _ _ => true) s' es = some t) :
    es.countP (Event.steps j) ≤
        ∑ it ∈ Finset.range workerCount, (3 * taskCount (loop.worker workerCount it) + 10) + 1 ∧
      (es.countP (Event.steps j) =
        ∑ it ∈ Finset.range workerCount, (3 * taskCount (loop.worker workerCount it) + 10) + 1 →
          (t.jobs j).ended = true) ∧
      ((t.jobs j).ended = false → ∀ spurious, ∃ t', step workerCount t (.run j spurious) = some t') := by
  -- the job begins in round `0`, and none of its calls has begun
  have hstart : s.jobs j = .idle ∧ s' = s.setJob j (.running loop 0) := by
    cases loop with
    | add data =>
      simp only [step, Loop.start] at hs
      split at hs
      · next hidle => exact ⟨hidle, (Option.some.inj hs).symm⟩
      · cases hs
    | scan selfIndex =>
      simp only [step, Loop.start] at hs
      split at hs
      · next hidle => exact ⟨hidle, (Option.some.inj hs).symm⟩
      · cases hs
  obtain ⟨hidle, rfl⟩ := hstart
  have hjob : (s.setJob j (.running loop 0)).jobs j = .running loop 0 := Function.update_self _ _ _
  have hcalls := Reachable.inv hr j
  rw [hidle] at hcalls
  have hrank : (s.setJob j (.running loop 0)).rank workerCount taskCount j =
      loop.rest workerCount taskCount 0 := by
    rw [rank_of_running hjob]
    exact roundRank_of_idle (hcalls 0)
  have hstep : ∀ s e s', Reachable workerCount taskCount s ∧ s.jobs j ≠ .idle →
      step workerCount s e = some s' → (Reachable workerCount taskCount s' ∧ s'.jobs j ≠ .idle) ∧
        s'.rank workerCount taskCount j + (if e.steps j then 1 else 0) ≤
          s.rank workerCount taskCount j := by
    rintro s e s' ⟨hr, hj⟩ hs
    obtain ⟨hj', hle⟩ := System.rank_step hn hr hj hs
    exact ⟨⟨hr.tail trivial hs, hj'⟩, hle⟩
  obtain ⟨⟨hr', hj'⟩, hle⟩ := Runs.execute_rank (p := Event.steps j) hstep
    ⟨hr.tail trivial hs, by rw [hjob]; exact Job.noConfusion⟩ hrun
  rw [hrank, Loop.rest, Nat.Ico_zero_eq_range] at hle
  refine ⟨by omega, fun hmax => ?_, exists_step_of_not_ended (Reachable.inv hr' j)⟩
  -- with no steps left the job is not in its loop
  by_contra hend
  have hzero : t.rank workerCount taskCount j = 0 := by omega
  cases hj : t.jobs j with
  | running loop' it =>
    rw [rank_of_running hj] at hzero
    by_cases hidle' : t.call j it = .idle
    · rw [roundRank_of_idle hidle'] at hzero
      exact (loop'.rest_pos it).ne' hzero
    · rw [roundRank_of_begun hidle'] at hzero
      omega
  | stored selfIndex it =>
    rw [rank_of_stored hj] at hzero
    exact (Loop.rest_pos _ _).ne' hzero
  | _ =>
    rw [hj] at hend
    exact hend rfl

/-- The first ring is full: the task goes into the second one. -/
theorem loops_wait_free_two_workers : ∃ s s' es t, Reachable 2 (fun _ => 1) s ∧
    step 2 s (.add 1 ⟨7#64, 8#64, 9#64⟩) = some s' ∧
    Runs.execute (step 2) (fun _ _ => true) s' es = some t ∧ answer (t.call 1 1) = some true ∧
    es.countP (Event.steps 1) = 20 ∧ es.countP (Event.steps 1) ≤
      ∑ _ ∈ Finset.range 2, (3 * 1 + 10) + 1 := by
  let before : List Event := .add 0 ⟨1#64, 2#64, 3#64⟩ :: List.replicate 11 (.run 0 false)
  let es : List Event := List.replicate 20 (.run 1 false)
  have hrun : ((Runs.execute (step 2) (fun _ _ => true) (initial fun _ => 1) before).bind fun s =>
      (step 2 s (.add 1 ⟨7#64, 8#64, 9#64⟩)).bind fun s' =>
        (Runs.execute (step 2) (fun _ _ => true) s' es).bind fun t =>
          if answer (t.call 1 1) = some true then some t else none).isSome = true := by decide
  obtain ⟨t, ht⟩ := Option.isSome_iff_exists.1 hrun
  obtain ⟨s, hs, ht⟩ := Option.bind_eq_some_iff.1 ht
  obtain ⟨s', hs', ht⟩ := Option.bind_eq_some_iff.1 ht
  obtain ⟨t', ht', ht⟩ := Option.bind_eq_some_iff.1 ht
  split_ifs at ht with hans
  obtain rfl := Option.some.inj ht
  have hr : Reachable 2 (fun _ => 1) s := (Runs.Reach.of_execute hs).mono fun _ _ _ => trivial
  exact ⟨s, s', es, t', hr, hs', ht', hans, by decide,
    (loops_wait_free (fun _ => Nat.one_pos) hr (.add ⟨7#64, 8#64, 9#64⟩) hs' ht').1⟩

end Scheduler

end Dumboss.Tasks
