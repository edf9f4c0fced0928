import Dumboss.Tasks.Conservation

/-!
# When a queued task can be taken

A call of `dequeue_task` tries the slots of the indices from `read_from` up to `write_to`, so a task
that is queued outside of that window is out of reach.  `enqueue_task` puts it there when it is
overtaken: it moves `write_to` on, claims the slot before it, and by the time it stores `Task__Queued`
the dequeuers have moved `read_from` past that slot.

* `Quiescent`, `DequeueAlone`, `Obtainable`;
* `stranded`: an interleaving of four calls that leaves a task behind;
* `WindowChange`: what a step does to the indices and to the queued slots; `IndexOrder`: `read_from`
  does not pass `write_to`;
* `PublishInWindow`: the slot is in the window, or a call is about to try it, when the task is
  published;
* `obtainable_of_publishInWindow`: in runs in which this is so, no task is left behind.
-/

namespace Dumboss.Tasks

/-- The call has not begun or has returned. -/
def Call.resting : Call → Bool
  | .idle => true
  | .enqueue _ _ (.accepted _) => true
  | .enqueue _ _ .refused => true
  | .dequeue _ (.returned _) => true
  | _ => false

/-- No call is in progress. -/
def Quiescent (s : State) : Prop := ∀ c, (s.calls c).resting = true

/-- The event is a step of call `c`. -/
def StepOf (c : ℕ) (_ : State) (e : Event) : Prop := ∃ spurious, e = .run c spurious

/-- A call of `dequeue_task` on worker `w` that runs alone from `s` to `s'` and returns `task`. -/
def DequeueAlone (w : ℕ) (s s' : State) (task : Task) : Prop :=
  ∃ c s₁, step s (.dequeue c w) = some s₁ ∧ Runs.Reach step (StepOf c) s₁ s' ∧
    s'.calls c = .dequeue w (.returned task)

/-- Some number of calls of `dequeue_task`, one after the other, ends with one that returns a
task. -/
def Obtainable (w : ℕ) (s : State) : Prop :=
  ∃ s₁ s₂ task, Relation.ReflTransGen (fun a b => ∃ t, DequeueAlone w a b t) s s₁ ∧
    DequeueAlone w s₁ s₂ task ∧ task.syncInfo ≠ .empty

/-- Some index of the window `read_from .. write_to` is that of slot `i`. -/
def InWindow (s : State) (w i : ℕ) : Prop :=
  ∃ j, (s.workers w).readFrom ≤ j ∧ j ≤ (s.workers w).writeTo ∧ j % (s.workers w).taskCount = i

instance (s : State) (w i : ℕ) : Decidable (InWindow s w i) :=
  decidable_of_iff (∃ j ∈ Finset.Icc (s.workers w).readFrom (s.workers w).writeTo,
    j % (s.workers w).taskCount = i) (by simp only [InWindow, Finset.mem_Icc, and_assoc])

/-- A call of `dequeue_task` is about to try slot `i`. -/
def Awaited (s : State) (w i : ℕ) : Prop :=
  ∃ c writeTo readFrom, s.calls c = .dequeue w (.claim writeTo readFrom) ∧
    readFrom % (s.workers w).taskCount = i

/-- If the event stores `Task__Queued`, the slot is in reach. -/
def PublishInWindow (s : State) (e : Event) : Prop :=
  ∀ c spurious w data i id, e = .run c spurious → s.calls c = .enqueue w data (.write i id []) →
    InWindow s w i ∨ Awaited s w i

/-! ### A task that is left behind -/

/-- The window has closed on a slot that is not queued. -/
structure Stuck (w : ℕ) (s : State) : Prop where
  closed : (s.workers w).readFrom = (s.workers w).writeTo
  notQueued : (s.task w ((s.workers w).readFrom % (s.workers w).taskCount)).syncInfo ≠ .queued

/-- The points of a call that runs alone over a closed window. -/
def Vain (w c : ℕ) (s : State) : Prop :=
  s.calls c = .dequeue w .loadWriteTo ∨
  s.calls c = .dequeue w (.loadReadFrom (s.workers w).writeTo) ∨
  s.calls c = .dequeue w (.claim (s.workers w).writeTo (s.workers w).readFrom) ∨
  s.calls c = .dequeue w (.advance (s.workers w).writeTo (s.workers w).readFrom) ∨
  s.calls c = .dequeue w (.returned .none)

theorem Stuck.run {w c : ℕ} {s s' : State} {spurious : Bool} (h : Stuck w s) (hv : Vain w c s)
    (hs : step s (.run c spurious) = some s') : Stuck w s' ∧ Vain w c s' := by
  have keep : ∀ call, s' = s.setCall c call → Stuck w s' := by
    rintro call rfl
    exact ⟨h.closed, h.notQueued⟩
  rcases hv with hc | hc | hc | hc | hc
  · simp only [step, hc, stepDequeue] at hs
    cases hs
    exact ⟨keep _ rfl, Or.inr (Or.inl (by simp))⟩
  · simp only [step, hc, stepDequeue] at hs
    cases hs
    exact ⟨keep _ rfl, Or.inr (Or.inr (Or.inl (by simp)))⟩
  · simp only [step, hc, stepDequeue, if_neg h.notQueued] at hs
    cases hs
    exact ⟨keep _ rfl, Or.inr (Or.inr (Or.inr (Or.inl (by simp))))⟩
  · simp only [step, hc, stepDequeue, h.closed, lt_irrefl, if_false] at hs
    cases hs
    exact ⟨keep _ rfl, Or.inr (Or.inr (Or.inr (Or.inr (by simp))))⟩
  · simp only [step, hc, stepDequeue] at hs
    cases hs

theorem Stuck.dequeueAlone {w : ℕ} {s s' : State} {task : Task} (h : Stuck w s)
    (hd : DequeueAlone w s s' task) : Stuck w s' ∧ task = .none := by
  obtain ⟨c, s₁, hbegin, hrun, hret⟩ := hd
  have hfirst : Stuck w s₁ ∧ Vain w c s₁ := by
    obtain ⟨-, rfl⟩ := of_step_dequeue hbegin
    exact ⟨⟨h.closed, h.notQueued⟩, Or.inl (by simp)⟩
  have hlast : Stuck w s' ∧ Vain w c s' := by
    refine hrun.invariant (P := fun s => Stuck w s ∧ Vain w c s) hfirst ?_
    rintro a e b ⟨ha, hv⟩ ⟨spurious, rfl⟩ hs
    exact ha.run hv hs
  refine ⟨hlast.1, ?_⟩
  rcases hlast.2 with hc | hc | hc | hc | hc <;> rw [hret] at hc <;> cases hc
  rfl

theorem Stuck.not_obtainable {w : ℕ} {s : State} (h : Stuck w s) : ¬ Obtainable w s := by
  rintro ⟨s₁, s₂, task, hruns, hlast, htask⟩
  have h₁ : Stuck w s₁ := by
    clear hlast
    induction hruns with
    | refl => exact h
    | tail _ hstep ih =>
      obtain ⟨t, ht⟩ := hstep
      exact (ih.dequeueAlone ht).1
  rw [(h₁.dequeueAlone hlast).2] at htask
  exact htask rfl

/-- Call `0` enqueues into slot `0`.  Call `1` moves `write_to` to `2` and claims slot `1`.  Call `2`
takes the first task; call `3` moves `read_from` to `2`, finds slot `1` in `Writing` and returns
without a task.  Then call `1` goes on and queues its task in slot `1`. -/
def overtaking : List Event := List.flatten
  [[.enqueue 0 0 ⟨1#64, 0#64, 0#64⟩], List.replicate 9 (.run 0 false),
    [.enqueue 1 0 ⟨2#64, 0#64, 0#64⟩], List.replicate 8 (.run 1 false),
    [.dequeue 2 0], List.replicate 9 (.run 2 false),
    [.dequeue 3 0], List.replicate 10 (.run 3 false),
    List.replicate 6 (.run 1 false)]

/-- What the run leaves behind: the indices, the state of slots `1` and `2`, and whether the four
calls have returned. -/
theorem execute_overtaking : (Runs.execute step (fun _ _ => true)
    (initial fun _ => 204) overtaking).map (fun s =>
    ((s.workers 0).readFrom, (s.workers 0).writeTo, (s.workers 0).taskCount,
      (s.task 0 1).syncInfo, (s.task 0 2).syncInfo,
      (List.range 4).all fun c => (s.calls c).resting)) =
    some (2, 2, 204, .queued, .empty, true) := by decide +kernel

/-- **A task is stranded**: with 204 slots, as `tasks__init` makes them, a state with no call in
progress and a queued task that no sequence of dequeues returns. -/
theorem stranded : ∃ s, Reachable (fun _ => 204) s ∧ Quiescent s ∧
    (s.task 0 1).syncInfo = .queued ∧ ¬ Obtainable 0 s := by
  obtain ⟨s, hs, hview⟩ := Option.map_eq_some_iff.1 execute_overtaking
  simp only [Prod.mk.injEq] at hview
  obtain ⟨hR, hW, hn, h1, h2, hrest⟩ := hview
  have hreach := Runs.Reach.of_execute hs
  have hidle : ∀ c, 4 ≤ c → s.calls c = .idle := by
    refine Runs.Reach.invariant (P := fun s => ∀ c, 4 ≤ c → s.calls c = .idle) hreach
      (fun _ _ => rfl) ?_
    intro a e b ha he hab c hc
    have hlt : e.call < 4 := by
      have hall : ∀ e ∈ overtaking, e.call < 4 := by decide
      exact hall e he.2
    rw [calls_eq_of_step hab (by omega)]
    exact ha c hc
  refine ⟨s, hreach.mono fun _ _ _ => trivial, fun c => ?_, h1, Stuck.not_obtainable ⟨?_, ?_⟩⟩
  · by_cases hc : c < 4
    · exact List.all_eq_true.1 hrest c (List.mem_range.2 hc)
    · rw [hidle c (by omega)]
      rfl
  · rw [hR, hW]
  · rw [hR, hn, show 2 % 204 = 2 by decide, h2]
    decide

/-! ### The window -/

/-- The value of `write_to` a call of `dequeue_task` on worker `w` has loaded. -/
def Call.seenWriteTo : Call → Option (ℕ × ℕ)
  | .dequeue w (.loadReadFrom writeTo) => some (w, writeTo)
  | .dequeue w (.claim writeTo _) => some (w, writeTo)
  | .dequeue w (.advance writeTo _) => some (w, writeTo)
  | _ => none

/-- What a step of call `c` can do to the indices and to the queued slots. -/
inductive WindowChange (s : State) (c : ℕ) (s' : State) : Prop
  /-- The indices stay, no slot is queued that was not, and the call was not about to take one. -/
  | other (call : Call) (hcalls : s'.calls = Function.update s.calls c call)
      (hold : ∀ w writeTo readFrom, s.calls c ≠ .dequeue w (.claim writeTo readFrom))
      (hseen : ∀ w x, call.seenWriteTo = some (w, x) →
        (s.calls c).seenWriteTo = some (w, x) ∨ x = (s.workers w).writeTo)
      (hR : ∀ w, (s'.workers w).readFrom = (s.workers w).readFrom)
      (hW : ∀ w, (s'.workers w).writeTo = (s.workers w).writeTo)
      (hq : ∀ w i, (s'.task w i).syncInfo = .queued → (s.task w i).syncInfo = .queued)
  | publish (w i id : ℕ) (data : TaskData) (hold : s.calls c = .enqueue w data (.write i id []))
      (hcalls : s'.calls = Function.update s.calls c (.enqueue w data (.accepted id)))
      (hR : ∀ w, (s'.workers w).readFrom = (s.workers w).readFrom)
      (hW : ∀ w, (s'.workers w).writeTo = (s.workers w).writeTo)
      (hq : ∀ v j, (s'.task v j).syncInfo = .queued →
        (v = w ∧ j = i) ∨ (s.task v j).syncInfo = .queued)
  | advanceWriteTo (w upperBound : ℕ) (data : TaskData)
      (hold : s.calls c = .enqueue w data (.advance upperBound (s.workers w).writeTo))
      (hlt : (s.workers w).writeTo < upperBound)
      (hcalls : s'.calls = Function.update s.calls c
        (.enqueue w data (.claim upperBound (s.workers w).writeTo)))
      (hR : ∀ w, (s'.workers w).readFrom = (s.workers w).readFrom)
      (hW : ∀ v, (s'.workers v).writeTo = (s.workers v).writeTo + if v = w then 1 else 0)
      (hq : ∀ w i, s'.task w i = s.task w i)
  /-- The slot is tried: it is queued and is taken, or it is not queued. -/
  | claim (w writeTo readFrom : ℕ) (pc : DequeuePc)
      (hold : s.calls c = .dequeue w (.claim writeTo readFrom))
      (hpc : pc = .advance writeTo readFrom ∨ (Call.dequeue w pc).seenWriteTo = none)
      (hcalls : s'.calls = Function.update s.calls c (.dequeue w pc))
      (hR : ∀ w, (s'.workers w).readFrom = (s.workers w).readFrom)
      (hW : ∀ w, (s'.workers w).writeTo = (s.workers w).writeTo)
      (hq : ∀ v j, (s'.task v j).syncInfo = .queued → (s.task v j).syncInfo = .queued ∧
        ¬ (v = w ∧ j = readFrom % (s.workers w).taskCount))
  | advanceReadFrom (w writeTo : ℕ)
      (hold : s.calls c = .dequeue w (.advance writeTo (s.workers w).readFrom))
      (hlt : (s.workers w).readFrom < writeTo)
      (hcalls : s'.calls = Function.update s.calls c
        (.dequeue w (.claim writeTo (s.workers w).readFrom)))
      (hR : ∀ v, (s'.workers v).readFrom = (s.workers v).readFrom + if v = w then 1 else 0)
      (hW : ∀ w, (s'.workers w).writeTo = (s.workers w).writeTo)
      (hq : ∀ w i, s'.task w i = s.task w i)

theorem windowChange_of_stepEnqueue {s s' : State} {c w : ℕ} {data : TaskData} {spurious : Bool}
    {pc : EnqueuePc} (hc : s.calls c = .enqueue w data pc)
    (hs : stepEnqueue s c w data spurious pc = some s') : WindowChange s c s' := by
  have hold : ∀ v writeTo readFrom, s.calls c ≠ .dequeue v (.claim writeTo readFrom) := by
    intro v writeTo readFrom h
    rw [hc] at h
    cases h
  have moved : ∀ pc', s' = s.setCall c (.enqueue w data pc') → WindowChange s c s' := by
    rintro pc' rfl
    exact .other _ rfl hold (fun v x h => by cases h) (fun _ => rfl) (fun _ => rfl) fun _ _ h => h
  cases pc with
  | loadReadFrom => exact moved _ (Option.some.inj hs).symm
  | loadWriteTo upperBound => exact moved _ (Option.some.inj hs).symm
  | claim upperBound writeTo =>
    simp only [stepEnqueue] at hs
    split_ifs at hs with hsync
    · cases hs
      refine .other _ rfl hold (fun v x h => by cases h) (fun _ => by simp) (fun _ => by simp) ?_
      intro v j h
      rw [State.task_setCall, State.task_setSync] at h
      split_ifs at h
      exact h
    · exact moved _ (Option.some.inj hs).symm
  | advance upperBound writeTo =>
    simp only [stepEnqueue] at hs
    split_ifs at hs with hlt hcas
    · cases hs
      obtain ⟨rfl, -⟩ := hcas
      refine .advanceWriteTo w upperBound data hc hlt rfl (fun _ => by simp) (fun v => ?_)
        fun _ _ => by simp
      rw [State.workers_setCall, State.writeTo_setWriteTo]
      split_ifs with hv
      · rw [hv]
      · rfl
    · exact moved _ (Option.some.inj hs).symm
    · exact moved _ (Option.some.inj hs).symm
  | takeId slot =>
    cases hs
    exact .other _ rfl hold (fun v x h => by cases h) (fun _ => rfl) (fun _ => rfl) fun _ _ h => h
  | write slot id todo =>
    cases todo with
    | nil =>
      cases hs
      refine .publish w slot id data hc rfl (fun _ => by simp) (fun _ => by simp) ?_
      intro v j h
      rw [State.task_setCall, State.task_setSync] at h
      split_ifs at h with hvj
      · exact Or.inl hvj
      · exact Or.inr h
    | cons f todo =>
      cases hs
      refine .other _ rfl hold (fun v x h => by cases h) (fun _ => by simp) (fun _ => by simp) ?_
      intro v j h
      rw [State.task_setCall, State.task_setTask] at h
      split_ifs at h with hvj
      · -- the source of the copy has `sync_info` empty
        obtain ⟨rfl, rfl⟩ := hvj
        cases f with
        | syncInfo => cases h
        | _ => exact h
      · exact h
  | accepted id => cases hs
  | refused => cases hs

theorem windowChange_of_stepDequeue {s s' : State} {c w : ℕ} {spurious : Bool} {pc : DequeuePc}
    (hc : s.calls c = .dequeue w pc) (hs : stepDequeue s c w spurious pc = some s') :
    WindowChange s c s' := by
  have moved : ∀ pc', (∀ writeTo readFrom, pc ≠ .claim writeTo readFrom) →
      (∀ v x, (Call.dequeue w pc').seenWriteTo = some (v, x) →
        (Call.dequeue w pc).seenWriteTo = some (v, x) ∨ x = (s.workers v).writeTo) →
      s' = s.setCall c (.dequeue w pc') → WindowChange s c s' := by
    rintro pc' hne hseen rfl
    refine .other _ rfl (fun v writeTo readFrom h => ?_) (fun v x h => ?_) (fun _ => rfl)
      (fun _ => rfl) fun _ _ h => h
    · rw [hc] at h
      cases h
      exact hne _ _ rfl
    · rw [hc]
      exact hseen v x h
  cases pc with
  | loadWriteTo =>
    refine moved _ (fun _ _ h => by cases h) (fun v x h => ?_) (Option.some.inj hs).symm
    cases h
    exact Or.inr rfl
  | loadReadFrom writeTo =>
    exact moved (.claim writeTo (s.workers w).readFrom) (fun _ _ h => by cases h)
      (fun v x h => Or.inl h) (Option.some.inj hs).symm
  | claim writeTo readFrom =>
    simp only [stepDequeue] at hs
    split_ifs at hs with hsync
    · cases hs
      refine .claim w writeTo readFrom _ hc (Or.inr rfl) rfl (fun _ => by simp) (fun _ => by simp) ?_
      intro v j h
      rw [State.task_setCall, State.task_setSync] at h
      split_ifs at h with hvj
      exact ⟨h, hvj⟩
    · cases hs
      refine .claim w writeTo readFrom _ hc (Or.inl rfl) rfl (fun _ => rfl) (fun _ => rfl) ?_
      intro v j h
      refine ⟨h, ?_⟩
      rintro ⟨rfl, rfl⟩
      exact hsync h
  | advance writeTo readFrom =>
    simp only [stepDequeue] at hs
    split_ifs at hs with hlt hcas
    · cases hs
      obtain ⟨rfl, -⟩ := hcas
      refine .advanceReadFrom w writeTo hc hlt rfl (fun v => ?_) (fun _ => by simp)
        fun _ _ => by simp
      rw [State.workers_setCall, State.readFrom_setReadFrom]
      split_ifs with hv
      · rw [hv]
      · rfl
    · exact moved (.advance writeTo (s.workers w).readFrom) (fun _ _ h => by cases h)
        (fun v x h => Or.inl h) (Option.some.inj hs).symm
    · exact moved _ (fun _ _ h => by cases h) (fun v x h => by cases h) (Option.some.inj hs).symm
  | copy slot task todo =>
    cases todo with
    | nil =>
      cases hs
      refine .other _ rfl (fun v writeTo readFrom h => ?_) (fun v x h => by cases h)
        (fun _ => by simp) (fun _ => by simp) ?_
      · rw [hc] at h
        cases h
      · intro v j h
        rw [State.task_setCall, State.task_setSync] at h
        split_ifs at h
        exact h
    | cons f todo =>
      exact moved _ (fun _ _ h => by cases h) (fun v x h => by cases h) (Option.some.inj hs).symm
  | returned task => cases hs

theorem windowChange_of_step {s s' : State} {e : Event} (hs : step s e = some s') :
    WindowChange s e.call s' := by
  have begins : ∀ c call, s.calls c = .idle → call.seenWriteTo = none →
      s' = s.setCall c call → WindowChange s c s' := by
    rintro c call hc hseen rfl
    refine .other call rfl (fun w writeTo readFrom h => ?_) (fun w x h => ?_) (fun _ => rfl)
      (fun _ => rfl) fun _ _ h => h
    · rw [hc] at h
      cases h
    · rw [hseen] at h
      cases h
  obtain ⟨w, data, hc, hs⟩ | ⟨w, hc, hs⟩ | ⟨w, data, spurious, pc, hc, hs⟩ |
    ⟨w, spurious, pc, hc, hs⟩ := step_cases hs
  · exact begins _ _ hc rfl hs
  · exact begins _ _ hc rfl hs
  · exact windowChange_of_stepEnqueue hc hs
  · exact windowChange_of_stepDequeue hc hs

/-- The indices only grow. -/
theorem WindowChange.mono {s s' : State} {c : ℕ} (h : WindowChange s c s') (w : ℕ) :
    (s.workers w).readFrom ≤ (s'.workers w).readFrom ∧
      (s.workers w).writeTo ≤ (s'.workers w).writeTo := by
  cases h with
  | other call hcalls hold hseen hR hW hq => exact ⟨(hR w).ge, (hW w).ge⟩
  | publish v i id data hold hcalls hR hW hq => exact ⟨(hR w).ge, (hW w).ge⟩
  | advanceWriteTo v upperBound data hold hlt hcalls hR hW hq =>
    refine ⟨(hR w).ge, ?_⟩
    rw [hW]
    omega
  | claim v writeTo readFrom pc hold hpc hcalls hR hW hq => exact ⟨(hR w).ge, (hW w).ge⟩
  | advanceReadFrom v writeTo hold hlt hcalls hR hW hq =>
    refine ⟨?_, (hW w).ge⟩
    rw [hR]
    omega

/-- The indices of every worker are in order, and no call has loaded a `write_to` above the current
one. -/
structure IndexOrder (s : State) : Prop where
  le : ∀ w, (s.workers w).readFrom ≤ (s.workers w).writeTo
  seen : ∀ c w x, (s.calls c).seenWriteTo = some (w, x) → x ≤ (s.workers w).writeTo

theorem IndexOrder.step {s s' : State} {e : Event} (h : IndexOrder s)
    (hs : Tasks.step s e = some s') : IndexOrder s' := by
  have hchange := windowChange_of_step hs
  have seen : ∀ call, s'.calls = Function.update s.calls e.call call →
      (∀ w x, call.seenWriteTo = some (w, x) → x ≤ (s'.workers w).writeTo) →
      ∀ c w x, (s'.calls c).seenWriteTo = some (w, x) → x ≤ (s'.workers w).writeTo := by
    intro call hcalls hnew c w x hx
    rw [hcalls] at hx
    by_cases hc : c = e.call
    · rw [hc, Function.update_self] at hx
      exact hnew w x hx
    · rw [Function.update_of_ne hc] at hx
      exact (h.seen c w x hx).trans (hchange.mono w).2
  cases hchange with
  | other call hcalls hold hseen hR hW hq =>
    refine ⟨fun w => by rw [hR, hW]; exact h.le w, seen call hcalls fun w x hx => ?_⟩
    rw [hW]
    rcases hseen w x hx with hx | rfl
    · exact h.seen _ w x hx
    · exact le_rfl
  | publish w i id data hold hcalls hR hW hq =>
    exact ⟨fun w => by rw [hR, hW]; exact h.le w, seen _ hcalls fun w x hx => by cases hx⟩
  | advanceWriteTo w upperBound data hold hlt hcalls hR hW hq =>
    refine ⟨fun v => ?_, seen _ hcalls fun v x hx => by cases hx⟩
    have := h.le v
    rw [hR, hW]
    omega
  | claim w writeTo readFrom pc hold hpc hcalls hR hW hq =>
    refine ⟨fun w => by rw [hR, hW]; exact h.le w, seen _ hcalls fun v x hx => ?_⟩
    rw [hW]
    rcases hpc with rfl | hnone
    · exact h.seen e.call v x (by rw [hold]; exact hx)
    · rw [hnone] at hx
      cases hx
  | advanceReadFrom w writeTo hold hlt hcalls hR hW hq =>
    have hseen : writeTo ≤ (s.workers w).writeTo := h.seen e.call w writeTo (by rw [hold]; rfl)
    refine ⟨fun v => ?_, seen _ hcalls fun v x hx => ?_⟩
    · rw [hR, hW]
      have := h.le v
      split_ifs with hv
      · subst hv
        omega
      · omega
    · cases hx
      rw [hW]
      exact hseen

/-- **The invariant of the window**: the indices are in order, and every queued slot is in reach. -/
structure WindowInv (s : State) : Prop where
  le : ∀ w, (s.workers w).readFrom ≤ (s.workers w).writeTo
  seen : ∀ c w x, (s.calls c).seenWriteTo = some (w, x) → x ≤ (s.workers w).writeTo
  covered : ∀ w i, (s.task w i).syncInfo = .queued → InWindow s w i ∨ Awaited s w i

theorem WindowInv.step {s s' : State} {e : Event} (h : WindowInv s) (hg : PublishInWindow s e)
    (hs : Tasks.step s e = some s') : WindowInv s' := by
  have hn := step_taskCount hs
  have horder : IndexOrder s' := IndexOrder.step ⟨h.le, h.seen⟩ hs
  have hchange := windowChange_of_step hs
  -- a call that still waits for the slot does so afterwards, unless it made the step
  have await : ∀ w i call, s'.calls = Function.update s.calls e.call call → Awaited s w i →
      Awaited s' w i ∨ ∃ writeTo readFrom, s.calls e.call = .dequeue w (.claim writeTo readFrom) ∧
        readFrom % (s.workers w).taskCount = i := by
    rintro w i call hcalls ⟨d, writeTo, readFrom, hd, hi⟩
    by_cases hdc : d = e.call
    · exact Or.inr ⟨writeTo, readFrom, hdc ▸ hd, hi⟩
    · refine Or.inl ⟨d, writeTo, readFrom, ?_, by rw [hn]; exact hi⟩
      rw [hcalls, Function.update_of_ne hdc]
      exact hd
  have window : ∀ w i, (s'.workers w).readFrom = (s.workers w).readFrom →
      InWindow s w i → InWindow s' w i := by
    rintro w i hR ⟨j, h1, h2, h3⟩
    exact ⟨j, by rw [hR]; exact h1, h2.trans (hchange.mono w).2, by rw [hn]; exact h3⟩
  refine ⟨horder.le, horder.seen, fun v j hj => ?_⟩
  cases hchange with
  | other call hcalls hold hseen hR hW hq =>
    rcases h.covered v j (hq v j hj) with hin | haw
    · exact Or.inl (window v j (hR v) hin)
    · rcases await v j call hcalls haw with haw | ⟨writeTo, readFrom, hc, -⟩
      · exact Or.inr haw
      · exact absurd hc (hold v writeTo readFrom)
  | publish w i id data hold hcalls hR hW hq =>
    have hreach : InWindow s v j ∨ Awaited s v j := by
      rcases hq v j hj with ⟨rfl, rfl⟩ | hj
      · cases e with
        | run c spurious => exact hg c spurious v data j id rfl hold
        | _ =>
          simp only [Tasks.step, Event.call] at hs hold
          rw [hold] at hs
          cases hs
      · exact h.covered v j hj
    rcases hreach with hin | haw
    · exact Or.inl (window v j (hR v) hin)
    · rcases await v j _ hcalls haw with haw | ⟨writeTo, readFrom, hc, -⟩
      · exact Or.inr haw
      · rw [hold] at hc
        cases hc
  | advanceWriteTo w upperBound data hold hlt hcalls hR hW hq =>
    rw [hq] at hj
    rcases h.covered v j hj with hin | haw
    · exact Or.inl (window v j (hR v) hin)
    · rcases await v j _ hcalls haw with haw | ⟨writeTo, readFrom, hc, -⟩
      · exact Or.inr haw
      · rw [hold] at hc
        cases hc
  | claim w writeTo readFrom pc hold hpc hcalls hR hW hq =>
    obtain ⟨hj, hne⟩ := hq v j hj
    rcases h.covered v j hj with hin | haw
    · exact Or.inl (window v j (hR v) hin)
    · rcases await v j _ hcalls haw with haw | ⟨writeTo', readFrom', hc, hmod⟩
      · exact Or.inr haw
      · rw [hold] at hc
        cases hc
        exact absurd ⟨rfl, hmod.symm⟩ hne
  | advanceReadFrom w writeTo hold hlt hcalls hR hW hq =>
    rw [hq] at hj
    have hnew : s'.calls e.call = .dequeue w (.claim writeTo (s.workers w).readFrom) := by
      rw [hcalls, Function.update_self]
    rcases h.covered v j hj with ⟨k, h1, h2, h3⟩ | haw
    · by_cases hk : v = w ∧ k = (s.workers w).readFrom
      · -- the index that leaves the window is tried once more
        obtain ⟨rfl, rfl⟩ := hk
        exact Or.inr ⟨e.call, writeTo, _, hnew, by rw [hn]; exact h3⟩
      · refine Or.inl ⟨k, ?_, by rw [hW]; exact h2, by rw [hn]; exact h3⟩
        rw [hR]
        split_ifs with hv
        · subst hv
          have : k ≠ (s.workers v).readFrom := fun hkk => hk ⟨rfl, hkk⟩
          omega
        · exact h1
    · rcases await v j _ hcalls haw with haw | ⟨writeTo', readFrom', hc, -⟩
      · exact Or.inr haw
      · rw [hold] at hc
        cases hc

/-- The invariant along runs in which every task is published within reach. -/
theorem windowInv_of_reach {taskCount : ℕ → ℕ} {s : State}
    (hr : Runs.Reach step PublishInWindow (initial taskCount) s) : WindowInv s := by
  refine hr.invariant (P := WindowInv) ⟨fun _ => le_rfl, ?_, ?_⟩ fun s e s' h hg hs => h.step hg hs
  · intro c w x h
    cases h
  · intro w i h
    cases h
/-! ### Dequeues that run alone -/

section alone

variable {s : State} {c w : ℕ}

/-- Finishing the copy. -/
theorem exists_returned_of_copy {i : ℕ} {task : Task} {todo : List Field}
    (hc : s.calls c = .dequeue w (.copy i task todo)) :
    ∃ s', Runs.Reach step (StepOf c) s s' ∧
      s'.calls c = .dequeue w (.returned (todo.foldl (Task.copyField (s.task w i)) task)) := by
  induction todo generalizing s task with
  | nil =>
    refine ⟨(s.setSync w i .empty).setCall c (.dequeue w (.returned task)),
      .tail (e := .run c false) .refl ⟨false, rfl⟩ ?_, by simp⟩
    simp only [step, hc, stepDequeue]
  | cons f todo ih =>
    let task' := Task.copyField (s.task w i) task f
    let s₁ := s.setCall c (.dequeue w (.copy i task' todo))
    have hc₁ : s₁.calls c = .dequeue w (.copy i task' todo) := by simp [s₁]
    obtain ⟨s', hrun, hret⟩ := ih hc₁
    refine ⟨s', .trans (.tail (e := .run c false) .refl ⟨false, rfl⟩ ?_) hrun, hret⟩
    simp only [step, hc, stepDequeue]
    rfl

/-- A queued slot is taken. -/
theorem exists_returned_of_queued {writeTo readFrom : ℕ}
    (hc : s.calls c = .dequeue w (.claim writeTo readFrom))
    (hq : (s.task w (readFrom % (s.workers w).taskCount)).syncInfo = .queued) :
    ∃ s' task, Runs.Reach step (StepOf c) s s' ∧ s'.calls c = .dequeue w (.returned task) ∧
      task.syncInfo ≠ .empty := by
  let i := readFrom % (s.workers w).taskCount
  let s₁ := (s.setSync w i .reading).setCall c (.dequeue w (.copy i .none dequeueFields))
  have hstep : step s (.run c false) = some s₁ := by
    simp only [step, hc, stepDequeue, if_pos hq]
    rfl
  have hc₁ : s₁.calls c = .dequeue w (.copy i .none dequeueFields) := by simp [s₁]
  obtain ⟨s', hrun, hret⟩ := exists_returned_of_copy hc₁
  rw [foldl_dequeueFields] at hret
  refine ⟨s', _, .trans (.tail .refl ⟨false, rfl⟩ hstep) hrun, hret, ?_⟩
  have htask : s₁.task w i = { s.task w i with syncInfo := .reading } := by
    simp only [s₁, State.task_setCall, State.task_setSync, and_self, if_true]
  rw [htask]
  exact fun h => by cases h

/-- A call that has not found a task moves `read_from` on and tries the next slots: it returns a
task, or comes to the end of the window. -/
theorem exists_returned_of_advance {r : ℕ} (hle : r ≤ (s.workers w).writeTo)
    (hc : s.calls c = .dequeue w (.advance (s.workers w).writeTo r))
    (hR : (s.workers w).readFrom = r) :
    ∃ s' task, Runs.Reach step (StepOf c) s s' ∧ s'.calls c = .dequeue w (.returned task) ∧
      (task.syncInfo ≠ .empty ∨
        ((s'.workers w).readFrom = (s.workers w).writeTo ∧
          (s'.workers w).writeTo = (s.workers w).writeTo ∧
          (s'.workers w).taskCount = (s.workers w).taskCount ∧
          (∀ i, s'.task w i = s.task w i) ∧
          ∀ j, r ≤ j → j < (s.workers w).writeTo →
            (s.task w (j % (s.workers w).taskCount)).syncInfo ≠ .queued)) := by
  obtain ⟨n, hn⟩ := Nat.exists_eq_add_of_le hle
  induction n generalizing s r with
  | zero =>
    have hend : ¬ r < (s.workers w).writeTo := by omega
    refine ⟨s.setCall c (.dequeue w (.returned .none)), .none,
      .tail (e := .run c false) .refl ⟨false, rfl⟩ ?_, by simp, Or.inr ⟨?_, rfl, rfl,
        fun _ => rfl, fun j h1 h2 => by omega⟩⟩
    · simp only [step, hc, stepDequeue, if_neg hend]
    · rw [State.workers_setCall, hR]
      omega
  | succ n ih =>
    have hlt : r < (s.workers w).writeTo := by omega
    -- `read_from` moves on, the same slot is tried
    let s₁ := (s.setReadFrom w (r + 1)).setCall c (.dequeue w (.claim (s.workers w).writeTo r))
    have h₁ : step s (.run c false) = some s₁ := by
      simp only [step, hc, stepDequeue, if_pos hlt, hR, and_self, if_true]
      rfl
    have hW₁ : (s₁.workers w).writeTo = (s.workers w).writeTo := by
      simp [s₁]
    have hR₁ : (s₁.workers w).readFrom = r + 1 := by
      simp [s₁, State.readFrom_setReadFrom]
    have hn₁ : (s₁.workers w).taskCount = (s.workers w).taskCount := step_taskCount h₁ w
    have ht₁ : ∀ i, s₁.task w i = s.task w i := by
      intro i
      simp [s₁]
    have hc₁ : s₁.calls c = .dequeue w (.claim (s.workers w).writeTo r) := by simp [s₁]
    have hrun₁ : Runs.Reach step (StepOf c) s s₁ := .tail .refl ⟨false, rfl⟩ h₁
    by_cases hq : (s.task w (r % (s.workers w).taskCount)).syncInfo = .queued
    · obtain ⟨s', task, hrun, hret, htask⟩ := exists_returned_of_queued hc₁ (by
        rw [hn₁, ht₁]; exact hq)
      exact ⟨s', task, hrun₁.trans hrun, hret, Or.inl htask⟩
    · -- the failed compare-exchange refreshes the index
      let s₂ := s₁.setCall c (.dequeue w (.advance (s.workers w).writeTo r))
      have h₂ : step s₁ (.run c false) = some s₂ := by
        simp only [step, hc₁, stepDequeue, hn₁, ht₁, if_neg hq]
        rfl
      let s₃ := s₂.setCall c (.dequeue w (.advance (s.workers w).writeTo (r + 1)))
      have h₃ : step s₂ (.run c false) = some s₃ := by
        have hc₂ : s₂.calls c = .dequeue w (.advance (s.workers w).writeTo r) := by simp [s₂]
        have hR₂ : (s₂.workers w).readFrom = r + 1 := hR₁
        simp only [step, hc₂, stepDequeue, if_pos hlt, hR₂]
        rw [if_neg (by omega)]
      obtain ⟨s', task, hrun, hret, hcase⟩ := ih (s := s₃) (r := r + 1)
        (by show r + 1 ≤ (s₁.workers w).writeTo; omega)
        (by
          show (s₂.setCall c _).calls c = _
          rw [State.calls_setCall, Function.update_self, ← hW₁]
          rfl)
        hR₁ (by show (s₁.workers w).writeTo = _; omega)
      refine ⟨s', task, ((hrun₁.tail ⟨false, rfl⟩ h₂).tail ⟨false, rfl⟩ h₃).trans hrun, hret, ?_⟩
      refine hcase.imp id ?_
      rintro ⟨hR', hW', hn', ht', hnot⟩
      have hW₃ : (s₃.workers w).writeTo = (s.workers w).writeTo := hW₁
      have hn₃ : (s₃.workers w).taskCount = (s.workers w).taskCount := hn₁
      have ht₃ : ∀ i, s₃.task w i = s.task w i := ht₁
      rw [hW₃] at hR' hW'
      rw [hn₃] at hn'
      refine ⟨hR', hW', hn', fun i => (ht' i).trans (ht₃ i), fun j h1 h2 => ?_⟩
      rcases Nat.eq_or_lt_of_le h1 with rfl | h1
      · exact hq
      · have hj := hnot j h1 (by rw [hW₃]; exact h2)
        rwa [hn₃, ht₃] at hj

/-- A call that begins and loads the two indices. -/
theorem exists_claim_of_idle (hc : s.calls c = .idle) :
    ∃ s₁ s₂, step s (.dequeue c w) = some s₁ ∧ Runs.Reach step (StepOf c) s₁ s₂ ∧
      s₂ = s.setCall c (.dequeue w (.claim (s.workers w).writeTo (s.workers w).readFrom)) := by
  let s₁ := s.setCall c (.dequeue w .loadWriteTo)
  let s₂ := s₁.setCall c (.dequeue w (.loadReadFrom (s.workers w).writeTo))
  have hc₁ : s₁.calls c = .dequeue w .loadWriteTo := by simp [s₁]
  have hc₂ : s₂.calls c = .dequeue w (.loadReadFrom (s.workers w).writeTo) := by simp [s₂]
  have h₁ : step s₁ (.run c false) = some s₂ := by
    simp only [step, hc₁, stepDequeue]
    rfl
  refine ⟨s₁, _, ?_, .tail (e := .run c false) (.tail .refl ⟨false, rfl⟩ h₁) ⟨false, rfl⟩ ?_, rfl⟩
  · simp only [step, hc]
    rfl
  · simp only [step, hc₂, stepDequeue]
    simp [s₂, s₁, State.setCall]

/-- The slot at `read_from` is tried first. -/
theorem exists_dequeueAlone_of_queued (hidle : s.calls c = .idle)
    (hq : (s.task w ((s.workers w).readFrom % (s.workers w).taskCount)).syncInfo = .queued) :
    ∃ s' task, DequeueAlone w s s' task ∧ task.syncInfo ≠ .empty := by
  obtain ⟨s₁, s₂, hbegin, hload, rfl⟩ := exists_claim_of_idle (w := w) hidle
  obtain ⟨s', task, hrun, hret, htask⟩ := exists_returned_of_queued (s := s.setCall c _)
    (by rw [State.calls_setCall, Function.update_self]) hq
  exact ⟨s', task, ⟨c, s₁, hbegin, hload.trans hrun, hret⟩, htask⟩

/-- A call that runs alone leaves the other calls alone. -/
theorem calls_eq_of_reach {s' : State} (hr : Runs.Reach step (StepOf c) s s') {d : ℕ} (hd : d ≠ c) :
    s'.calls d = s.calls d := by
  refine hr.invariant (P := fun s' => s'.calls d = s.calls d) rfl ?_
  rintro a e b ha ⟨spurious, rfl⟩ hs
  rw [calls_eq_of_step hs hd, ha]

/-- One call that runs alone returns a task, or moves `read_from` up to `write_to` past slots that
are not queued. -/
theorem exists_dequeueAlone (hle : (s.workers w).readFrom ≤ (s.workers w).writeTo)
    (hidle : s.calls c = .idle) :
    ∃ s' task, DequeueAlone w s s' task ∧
      (task.syncInfo ≠ .empty ∨
        ((s'.workers w).readFrom = (s.workers w).writeTo ∧
          (s'.workers w).taskCount = (s.workers w).taskCount ∧
          (∀ i, s'.task w i = s.task w i) ∧ (∀ d, d ≠ c → s'.calls d = s.calls d) ∧
          ∀ j, (s.workers w).readFrom ≤ j → j < (s.workers w).writeTo →
            (s.task w (j % (s.workers w).taskCount)).syncInfo ≠ .queued)) := by
  by_cases hq : (s.task w ((s.workers w).readFrom % (s.workers w).taskCount)).syncInfo = .queued
  · obtain ⟨s', task, halone, htask⟩ := exists_dequeueAlone_of_queued hidle hq
    exact ⟨s', task, halone, Or.inl htask⟩
  · obtain ⟨s₁, s₂, hbegin, hload, hs₂⟩ := exists_claim_of_idle (w := w) hidle
    have hc₂ : s₂.calls c =
        .dequeue w (.claim (s.workers w).writeTo (s.workers w).readFrom) := by simp [hs₂]
    have hworkers : s₂.workers = s.workers := by rw [hs₂]; rfl
    let s₃ := s₂.setCall c (.dequeue w (.advance (s.workers w).writeTo (s.workers w).readFrom))
    have h₃ : step s₂ (.run c false) = some s₃ := by
      have hq₂ : (s₂.task w ((s.workers w).readFrom % (s.workers w).taskCount)).syncInfo ≠
        .queued := by rw [hs₂]; exact hq
      simp only [step, hc₂, stepDequeue, hworkers, if_neg hq₂]
      rfl
    have hw₃ : s₃.workers = s.workers := hworkers
    have ht₃ : ∀ i, s₃.task w i = s.task w i := fun i => by rw [State.task, hw₃]; rfl
    obtain ⟨s', task, hrun, hret, hcase⟩ := exists_returned_of_advance (s := s₃) (c := c) (w := w)
      (r := (s.workers w).readFrom) (by rw [hw₃]; exact hle) (by simp [s₃, hworkers]) (by rw [hw₃])
    have hall := (hload.tail ⟨false, rfl⟩ h₃).trans hrun
    refine ⟨s', task, ⟨c, s₁, hbegin, hall, hret⟩, hcase.imp id ?_⟩
    rintro ⟨hR, -, hn, ht, hnot⟩
    rw [hw₃] at hR hn hnot
    refine ⟨hR, hn, fun i => (ht i).trans (ht₃ i), fun d hd => ?_, fun j h1 h2 => ?_⟩
    · rw [calls_eq_of_reach hall hd, calls_eq_of_step hbegin hd]
    · rw [← ht₃]
      exact hnot j h1 h2

end alone

/-- Only finitely many calls have begun. -/
theorem exists_idle {taskCount : ℕ → ℕ} {s : State} {good : State → Event → Prop}
    (hr : Runs.Reach step good (initial taskCount) s) : ∃ b, ∀ c, b ≤ c → s.calls c = .idle := by
  refine hr.invariant (P := fun s => ∃ b, ∀ c, b ≤ c → s.calls c = .idle) ⟨0, fun _ _ => rfl⟩ ?_
  rintro s e s' ⟨b, hb⟩ - hs
  refine ⟨b + e.call + 1, fun c hc => ?_⟩
  rw [calls_eq_of_step hs (by omega)]
  exact hb c (by omega)

/-- **No task is left behind** in runs in which every task is published within reach: when no call is
in progress and a slot of worker `w` is queued, calls of `dequeue_task` that run alone, one after
the other, come to one that returns a task. -/
theorem obtainable_of_publishInWindow {taskCount : ℕ → ℕ} {s : State}
    (hr : Runs.Reach step PublishInWindow (initial taskCount) s) (hquiet : Quiescent s) {w i : ℕ}
    (hq : (s.task w i).syncInfo = .queued) : Obtainable w s := by
  have hI := windowInv_of_reach hr
  obtain ⟨b, hb⟩ := exists_idle hr
  -- nobody is about to try the slot, so it is in the window
  obtain ⟨j, h1, h2, h3⟩ : InWindow s w i := by
    refine (hI.covered w i hq).resolve_right ?_
    rintro ⟨c, writeTo, readFrom, hc, -⟩
    have hrest := hquiet c
    rw [hc] at hrest
    cases hrest
  obtain ⟨s', task, halone, hcase⟩ := exists_dequeueAlone (hI.le w) (hb b le_rfl)
  rcases hcase with htask | ⟨hR, hn, ht, hcalls, hnot⟩
  · exact ⟨s, s', task, .refl, halone, htask⟩
  · -- the first call found nothing, so the slot is the last one of the window
    have hj : j = (s.workers w).writeTo := by
      by_contra hne
      exact hnot j h1 (by omega) (by rw [h3]; exact hq)
    have hidle : s'.calls (b + 1) = .idle := by
      rw [hcalls (b + 1) (by omega)]
      exact hb (b + 1) (by omega)
    obtain ⟨s'', task', halone', htask'⟩ := exists_dequeueAlone_of_queued (w := w) hidle (by
      rw [hR, hn, ht, ← hj, h3]
      exact hq)
    exact ⟨s', s'', task', .single ⟨task, halone⟩, halone', htask'⟩

/-- A check that is enough for `PublishInWindow`. -/
def publishesInWindow (s : State) : Event → Bool
  | .run c _ =>
    match s.calls c with
    | .enqueue w _ (.write i _ []) => InWindow s w i
    | _ => true
  | _ => true

theorem publishInWindow_of_check {s : State} {e : Event} (h : publishesInWindow s e = true) :
    PublishInWindow s e := by
  rintro c spurious w data i id rfl hc
  simp only [publishesInWindow, hc, decide_eq_true_eq] at h
  exact Or.inl h

/-- A task that is queued without being overtaken. -/
theorem obtainable_of_publishInWindow_one_task : ∃ s,
    Runs.Reach step PublishInWindow (initial fun _ => 204) s ∧ Quiescent s ∧
      (s.task 0 0).syncInfo = .queued ∧ Obtainable 0 s := by
  have hview : (Runs.execute step publishesInWindow (initial fun _ => 204)
      (.enqueue 0 0 ⟨1#64, 0#64, 0#64⟩ :: List.replicate 9 (.run 0 false))).map (fun s =>
        ((s.task 0 0).syncInfo, (s.calls 0).resting)) = some (.queued, true) := by decide +kernel
  obtain ⟨s, hs, hview⟩ := Option.map_eq_some_iff.1 hview
  simp only [Prod.mk.injEq] at hview
  have hrun := Runs.Reach.of_execute hs
  have hr : Runs.Reach step PublishInWindow (initial fun _ => 204) s :=
    hrun.mono fun _ _ h => publishInWindow_of_check h.1
  have hidle : ∀ c, c ≠ 0 → s.calls c = .idle := by
    refine hrun.invariant (P := fun s => ∀ c, c ≠ 0 → s.calls c = .idle) (fun _ _ => rfl) ?_
    rintro a e b ha ⟨-, he⟩ hab c hc
    have hcall : e.call = 0 := by
      simp only [List.mem_cons, List.mem_replicate] at he
      rcases he with rfl | ⟨-, rfl⟩ <;> rfl
    rw [calls_eq_of_step hab (by rw [hcall]; exact hc)]
    exact ha c hc
  have hquiet : Quiescent s := by
    intro c
    by_cases hc : c = 0
    · rw [hc]
      exact hview.2
    · rw [hidle c hc]
      rfl
  exact ⟨s, hr, hquiet, hview.1, obtainable_of_publishInWindow hr hquiet hview.1⟩

end Dumboss.Tasks
