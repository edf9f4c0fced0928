import Dumboss.Tasks.Stranded

/-!
# Calls one after the other

`enqueue_task` and `dequeue_task` on one worker, each call alone.  Both look for a slot in the same way:
they try the slot of an index `start`, and only then begin to move the index up to `bound`, which they
do before they try the next slot.  So the index is left at the slot that was taken if that is the
first one, and one after it otherwise.

* `Scan`, `ScanFails`: the two outcomes of the search, for any test of the slots;
* `Claiming`, `Advancing`: where the search stands between two steps;
* `EnqueueAlone`, `DequeueAlone`: a call that runs alone, with its result;
* `EnqueueAlone.spec`, `DequeueAlone.spec`: what it does to the worker;
* `History`: a sequence of calls, with the tasks that were accepted and those that were returned;
* `perform` makes a given sequence of calls, and `History.of_perform` turns the result into a history.
-/

namespace Dumboss.Tasks

/-! ### The search -/

section Scan

variable (test : ℕ → Prop) (start bound : ℕ)

/-- The search ends at index `j`, and leaves the shared index at `x`. -/
structure Scan (j x : ℕ) : Prop where
  le : start ≤ j
  tried : ∀ k, start ≤ k → k < j → ¬ test k
  found : test j
  advanced : j = start ∧ x = start ∨ start < j ∧ j < bound ∧ x = j + 1

/-- The search ends without a slot, and leaves the shared index at `max start bound`. -/
def ScanFails : Prop := ∀ k, start ≤ k → k < max bound (start + 1) → ¬ test k

/-- The slot of `i` is tried next, and the shared index is `x`. -/
structure Claiming (i x : ℕ) : Prop where
  le : start ≤ i
  tried : ∀ k, start ≤ k → k < i → ¬ test k
  -- the first slot is tried a second time after the shared index has moved
  advanced : i = start ∧ x = start ∨ i < bound ∧ x = i + 1 ∧ (i = start → ¬ test i)

/-- The compare-exchange from `i` is next, and the shared index is `x`. -/
structure Advancing (i x : ℕ) : Prop where
  le : start ≤ i
  tried : ∀ k, start ≤ k → k < max x (start + 1) → ¬ test k
  advanced : x = i ∧ (i = start ∨ i ≤ bound) ∨ x = i + 1 ∧ i < bound

variable {test start bound} {i x : ℕ}

theorem Claiming.first : Claiming test start bound start start where
  le := le_rfl
  tried k h h' := by omega
  advanced := Or.inl ⟨rfl, rfl⟩

theorem Claiming.scan (h : Claiming test start bound i x) (hi : test i) : Scan test start bound i x where
  le := h.le
  tried := h.tried
  found := hi
  advanced := by
    rcases h.advanced with hfirst | ⟨hlt, hx, hne⟩
    · exact Or.inl hfirst
    · exact Or.inr ⟨lt_of_le_of_ne h.le fun heq => hne heq.symm hi, hlt, hx⟩

theorem Claiming.miss (h : Claiming test start bound i x) (hi : ¬ test i) :
    Advancing test start bound i x where
  le := h.le
  tried k hk hlt := by
    rcases eq_or_ne k i with rfl | hne
    · exact hi
    · have := h.le
      refine h.tried k hk ?_
      rcases h.advanced with ⟨rfl, rfl⟩ | ⟨-, rfl, -⟩ <;> omega
  advanced := by
    rcases h.advanced with ⟨rfl, rfl⟩ | ⟨hlt, hx, -⟩
    · exact Or.inl ⟨rfl, Or.inl rfl⟩
    · exact Or.inr ⟨hx, hlt⟩

theorem Advancing.advance (h : Advancing test start bound i i) (hlt : i < bound) :
    Claiming test start bound i (i + 1) where
  le := h.le
  tried k hk hlt' := h.tried k hk (by omega)
  advanced := by
    refine Or.inr ⟨hlt, rfl, ?_⟩
    rintro rfl
    exact h.tried i le_rfl (by omega)

theorem Advancing.refresh (h : Advancing test start bound i x) : Advancing test start bound x x where
  le := by
    have := h.le
    rcases h.advanced with ⟨rfl, -⟩ | ⟨rfl, -⟩ <;> omega
  tried := h.tried
  advanced := by
    rcases h.advanced with ⟨rfl, hi⟩ | ⟨rfl, hlt⟩
    · exact Or.inl ⟨rfl, hi⟩
    · exact Or.inl ⟨rfl, Or.inr hlt⟩

theorem Advancing.fails (h : Advancing test start bound i x) (hlt : ¬ i < bound) :
    ScanFails test start bound ∧ x = max start bound := by
  have hle := h.le
  rcases h.advanced with ⟨rfl, hi⟩ | ⟨-, hlt'⟩
  · refine ⟨fun k hk hk' => h.tried k hk (by omega), by omega⟩
  · exact absurd hlt' hlt

end Scan

/-! ### `enqueue_task` alone -/

namespace WorkerState

variable (worker : WorkerState)

/-- The slot of index `k` has the given `sync_info`. -/
def At (y : SyncInfo) (k : ℕ) : Prop := (worker.tasks (k % worker.taskCount)).syncInfo = y

/-- The search of `enqueue_task`. -/
def EnqueueScan (j x : ℕ) : Prop :=
  Scan (worker.At .empty) worker.writeTo (worker.readFrom + worker.taskCount) j x

def EnqueueFails : Prop :=
  ScanFails (worker.At .empty) worker.writeTo (worker.readFrom + worker.taskCount)

/-- The search of `dequeue_task`. -/
def DequeueScan (j x : ℕ) : Prop :=
  Scan (worker.At .queued) worker.readFrom worker.writeTo j x

def DequeueFails : Prop := ScanFails (worker.At .queued) worker.readFrom worker.writeTo

/-- Write a slot, and move `write_to`. -/
def put (x slot : ℕ) (task : Task) : WorkerState :=
  { worker with tasks := Function.update worker.tasks slot task, writeTo := x }

/-- Write a slot, and move `read_from`. -/
def take (x slot : ℕ) (task : Task) : WorkerState :=
  { worker with tasks := Function.update worker.tasks slot task, readFrom := x }

end WorkerState

namespace State

@[simp] theorem workers_setTask_self (s : State) (w i : ℕ) (t : Task) : (s.setTask w i t).workers w =
    { s.workers w with tasks := Function.update (s.workers w).tasks i t } := Function.update_self ..

@[simp] theorem workers_setSync_self (s : State) (w i : ℕ) (y : SyncInfo) :
    (s.setSync w i y).workers w = { s.workers w with
      tasks := Function.update (s.workers w).tasks i { (s.workers w).tasks i with syncInfo := y } } :=
  Function.update_self ..

@[simp] theorem workers_setWriteTo_self (s : State) (w x : ℕ) : (s.setWriteTo w x).workers w =
    { s.workers w with writeTo := x } := Function.update_self ..

@[simp] theorem workers_setReadFrom_self (s : State) (w x : ℕ) : (s.setReadFrom w x).workers w =
    { s.workers w with readFrom := x } := Function.update_self ..

end State

/-- A call of `enqueue_task` on worker `w` that runs alone from `s` to `s'`; it returns `true` with the
id it took, or `false`. -/
def EnqueueAlone (w : ℕ) (data : TaskData) (s s' : State) (result : Option ℕ) : Prop :=
  ∃ c s₁, step s (.enqueue c w data) = some s₁ ∧ Runs.Reach step (StepOf c) s₁ s' ∧
    s'.calls c = .enqueue w data (result.elim .refused .accepted)

/-- What a call that began in `s` has done up to the point `pc` in `t`. -/
def EnqueuePhase (w : ℕ) (data : TaskData) (s t : State) : EnqueuePc → Prop
  | .loadReadFrom => t.workers w = s.workers w ∧ t.nextId = s.nextId
  | .loadWriteTo upperBound =>
    upperBound = (s.workers w).readFrom + (s.workers w).taskCount ∧ t.workers w = s.workers w ∧
      t.nextId = s.nextId
  | .claim upperBound writeTo =>
    upperBound = (s.workers w).readFrom + (s.workers w).taskCount ∧
      ∃ x, Claiming ((s.workers w).At .empty) (s.workers w).writeTo upperBound writeTo x ∧
        t.workers w = { s.workers w with writeTo := x } ∧ t.nextId = s.nextId
  | .advance upperBound writeTo =>
    upperBound = (s.workers w).readFrom + (s.workers w).taskCount ∧
      ∃ x, Advancing ((s.workers w).At .empty) (s.workers w).writeTo upperBound writeTo x ∧
        t.workers w = { s.workers w with writeTo := x } ∧ t.nextId = s.nextId
  | .takeId slot =>
    ∃ j x, (s.workers w).EnqueueScan j x ∧ slot = j % (s.workers w).taskCount ∧
      t.workers w = (s.workers w).put x slot { s.task w slot with syncInfo := .writing } ∧
      t.nextId = s.nextId
  | .write slot id todo =>
    ∃ j x done, (s.workers w).EnqueueScan j x ∧ slot = j % (s.workers w).taskCount ∧
      done ++ todo = enqueueFields ∧
      t.workers w = (s.workers w).put x slot
        (done.foldl (Task.copyField ⟨.empty, id, data⟩) { s.task w slot with syncInfo := .writing }) ∧
      id = s.nextId ∧ t.nextId = s.nextId + 1
  | .accepted id =>
    ∃ j x, (s.workers w).EnqueueScan j x ∧
      t.workers w = (s.workers w).put x (j % (s.workers w).taskCount) ⟨.queued, id, data⟩ ∧
      id = s.nextId ∧ t.nextId = s.nextId + 1
  | .refused =>
    (s.workers w).EnqueueFails ∧ t.nextId = s.nextId ∧
      t.workers w = { s.workers w with
        writeTo := max (s.workers w).writeTo ((s.workers w).readFrom + (s.workers w).taskCount) }

variable {s t t' : State} {c w : ℕ} {data : TaskData} {spurious : Bool}

theorem EnqueuePhase.step {pc : EnqueuePc} (h : EnqueuePhase w data s t pc)
    (hs : stepEnqueue t c w data spurious pc = some t') :
    ∃ pc', t'.calls c = .enqueue w data pc' ∧ EnqueuePhase w data s t' pc' := by
  cases pc with
  | loadReadFrom =>
    cases hs
    obtain ⟨hw, hid⟩ := h
    refine ⟨.loadWriteTo ((t.workers w).readFrom + (t.workers w).taskCount), by simp, ?_, hw, hid⟩
    rw [hw]
  | loadWriteTo upperBound =>
    cases hs
    obtain ⟨hub, hw, hid⟩ := h
    refine ⟨.claim upperBound (t.workers w).writeTo, by simp, hub, (s.workers w).writeTo, ?_, ?_, hid⟩
    · rw [hw]
      exact .first
    · rw [State.workers_setCall, hw]
  | claim upperBound writeTo =>
    obtain ⟨hub, x, hclaim, hw, hid⟩ := h
    simp only [stepEnqueue] at hs
    split_ifs at hs with hempty
    · cases hs
      have htest : (s.workers w).At .empty writeTo := by
        rw [State.task, hw] at hempty
        exact hempty
      refine ⟨.takeId (writeTo % (t.workers w).taskCount), by simp, writeTo, x, ?_, ?_, ?_, hid⟩
      · unfold WorkerState.EnqueueScan
        rw [← hub]
        exact hclaim.scan htest
      · rw [hw]
      · rw [State.workers_setCall, State.workers_setSync_self, hw]
        rfl
    · cases hs
      have htest : ¬ (s.workers w).At .empty writeTo := by
        rw [State.task, hw] at hempty
        exact hempty
      exact ⟨.advance upperBound writeTo, by simp, hub, x, hclaim.miss htest, hw, hid⟩
  | advance upperBound writeTo =>
    obtain ⟨hub, x, hadv, hw, hid⟩ := h
    simp only [stepEnqueue] at hs
    split_ifs at hs with hlt hcas
    · cases hs
      obtain rfl : x = writeTo := by
        have := hcas.1
        rwa [hw] at this
      refine ⟨.claim upperBound x, by simp, hub, x + 1, hadv.advance hlt, ?_, hid⟩
      rw [State.workers_setCall, State.workers_setWriteTo_self, hw]
    · cases hs
      refine ⟨.advance upperBound (t.workers w).writeTo, by simp, hub, x, ?_, hw, hid⟩
      rw [hw]
      exact hadv.refresh
    · cases hs
      obtain ⟨hfails, rfl⟩ := hadv.fails hlt
      rw [hub] at hfails hw
      exact ⟨.refused, by simp, hfails, hid, hw⟩
  | takeId slot =>
    obtain ⟨j, x, hscan, hslot, hw, hid⟩ := h
    cases hs
    exact ⟨.write slot t.nextId enqueueFields, by simp, j, x, [], hscan, hslot, rfl, hw, hid,
      by simp [hid]⟩
  | write slot id todo =>
    obtain ⟨j, x, done, hscan, hslot, hdone, hw, hid, hnext⟩ := h
    cases todo with
    | cons f todo =>
      cases hs
      refine ⟨.write slot id todo, by simp, j, x, done ++ [f], hscan, hslot, by simpa using hdone, ?_,
        hid, hnext⟩
      rw [State.workers_setCall, State.workers_setTask_self, List.foldl_append, State.task, hw]
      simp [WorkerState.put]
    | nil =>
      cases hs
      rw [List.append_nil] at hdone
      refine ⟨.accepted id, by simp, j, x, hscan, ?_, hid, hnext⟩
      rw [State.workers_setCall, State.workers_setSync_self, hw, hdone, ← hslot]
      simp [WorkerState.put, enqueueFields, Task.copyField]
  | accepted id => cases hs
  | refused => cases hs

/-- A call that runs alone ends at a point that its phases allow. -/
theorem EnqueueAlone.phase {s' : State} {result : Option ℕ} (h : EnqueueAlone w data s s' result) :
    EnqueuePhase w data s s' (result.elim .refused .accepted) := by
  obtain ⟨c, s₁, hbegin, hrun, hret⟩ := h
  have hfirst : ∃ pc, s₁.calls c = .enqueue w data pc ∧ EnqueuePhase w data s s₁ pc := by
    obtain ⟨-, rfl⟩ := of_step_enqueue hbegin
    exact ⟨.loadReadFrom, by simp, rfl, rfl⟩
  have hlast : ∃ pc, s'.calls c = .enqueue w data pc ∧ EnqueuePhase w data s s' pc := by
    refine hrun.invariant (P := fun t => ∃ pc, t.calls c = .enqueue w data pc ∧
      EnqueuePhase w data s t pc) hfirst ?_
    rintro t e t' ⟨pc, hc, hp⟩ ⟨spurious, rfl⟩ hs
    simp only [Tasks.step, hc] at hs
    exact hp.step hs
  obtain ⟨pc, hc, hp⟩ := hlast
  rw [hret] at hc
  cases hc
  exact hp

/-- **`enqueue_task` alone**, when it returns `true`. -/
theorem EnqueueAlone.accepted {s' : State} {id : ℕ} (h : EnqueueAlone w data s s' (some id)) :
    ∃ j x, (s.workers w).EnqueueScan j x ∧
      s'.workers w = (s.workers w).put x (j % (s.workers w).taskCount) ⟨.queued, id, data⟩ ∧
      id = s.nextId ∧ s'.nextId = s.nextId + 1 :=
  h.phase

/-- **`enqueue_task` alone**, when it returns `false`. -/
theorem EnqueueAlone.refused {s' : State} (h : EnqueueAlone w data s s' none) :
    (s.workers w).EnqueueFails ∧ s'.nextId = s.nextId ∧
      s'.workers w = { s.workers w with
        writeTo := max (s.workers w).writeTo ((s.workers w).readFrom + (s.workers w).taskCount) } :=
  h.phase

/-! ### `dequeue_task` alone -/

/-- What a call that began in `s` has done up to the point `pc` in `t`. -/
def DequeuePhase (w : ℕ) (s t : State) : DequeuePc → Prop
  | .loadWriteTo => t.workers w = s.workers w
  | .loadReadFrom writeTo => writeTo = (s.workers w).writeTo ∧ t.workers w = s.workers w
  | .claim writeTo readFrom =>
    writeTo = (s.workers w).writeTo ∧
      ∃ x, Claiming ((s.workers w).At .queued) (s.workers w).readFrom writeTo readFrom x ∧
        t.workers w = { s.workers w with readFrom := x }
  | .advance writeTo readFrom =>
    writeTo = (s.workers w).writeTo ∧
      ∃ x, Advancing ((s.workers w).At .queued) (s.workers w).readFrom writeTo readFrom x ∧
        t.workers w = { s.workers w with readFrom := x }
  | .copy slot task todo =>
    ∃ j x done, (s.workers w).DequeueScan j x ∧ slot = j % (s.workers w).taskCount ∧
      done ++ todo = dequeueFields ∧
      t.workers w = (s.workers w).take x slot { s.task w slot with syncInfo := .reading } ∧
      task = done.foldl (Task.copyField { s.task w slot with syncInfo := .reading }) .none
  | .returned task =>
    (∃ j x, (s.workers w).DequeueScan j x ∧
      task = { s.task w (j % (s.workers w).taskCount) with syncInfo := .reading } ∧
      t.workers w = (s.workers w).take x (j % (s.workers w).taskCount)
        { s.task w (j % (s.workers w).taskCount) with syncInfo := .empty }) ∨
    (s.workers w).DequeueFails ∧ task = .none ∧ t.workers w = { s.workers w with
      readFrom := max (s.workers w).readFrom (s.workers w).writeTo }

theorem DequeuePhase.step {pc : DequeuePc} (h : DequeuePhase w s t pc)
    (hnext : t.nextId = s.nextId) (hs : stepDequeue t c w spurious pc = some t') :
    t'.nextId = s.nextId ∧ ∃ pc', t'.calls c = .dequeue w pc' ∧ DequeuePhase w s t' pc' := by
  cases pc with
  | loadWriteTo =>
    cases hs
    refine ⟨hnext, .loadReadFrom (t.workers w).writeTo, by simp, ?_, h⟩
    rw [show t.workers w = s.workers w from h]
  | loadReadFrom writeTo =>
    cases hs
    obtain ⟨hwrite, hw⟩ := h
    refine ⟨hnext, .claim writeTo (t.workers w).readFrom, by simp, hwrite,
      (s.workers w).readFrom, ?_, ?_⟩
    · rw [hw]
      exact .first
    · rw [State.workers_setCall, hw]
  | claim writeTo readFrom =>
    obtain ⟨hwrite, x, hclaim, hw⟩ := h
    simp only [stepDequeue] at hs
    split_ifs at hs with hqueued
    · cases hs
      have htest : (s.workers w).At .queued readFrom := by
        rw [State.task, hw] at hqueued
        exact hqueued
      refine ⟨hnext, .copy (readFrom % (t.workers w).taskCount) .none dequeueFields, by simp,
        readFrom, x, [], ?_, ?_, rfl, ?_, rfl⟩
      · unfold WorkerState.DequeueScan
        rw [← hwrite]
        exact hclaim.scan htest
      · rw [hw]
      · rw [State.workers_setCall, State.workers_setSync_self, hw]
        rfl
    · cases hs
      have htest : ¬ (s.workers w).At .queued readFrom := by
        rw [State.task, hw] at hqueued
        exact hqueued
      exact ⟨hnext, .advance writeTo readFrom, by simp, hwrite, x, hclaim.miss htest, hw⟩
  | advance writeTo readFrom =>
    obtain ⟨hwrite, x, hadv, hw⟩ := h
    simp only [stepDequeue] at hs
    split_ifs at hs with hlt hcas
    · cases hs
      obtain rfl : x = readFrom := by
        have := hcas.1
        rwa [hw] at this
      refine ⟨hnext, .claim writeTo x, by simp, hwrite, x + 1, hadv.advance hlt, ?_⟩
      rw [State.workers_setCall, State.workers_setReadFrom_self, hw]
    · cases hs
      refine ⟨hnext, .advance writeTo (t.workers w).readFrom, by simp, hwrite, x, ?_, hw⟩
      rw [hw]
      exact hadv.refresh
    · cases hs
      obtain ⟨hfails, rfl⟩ := hadv.fails hlt
      rw [hwrite] at hfails hw
      exact ⟨hnext, .returned .none, by simp, Or.inr ⟨hfails, rfl, hw⟩⟩
  | copy slot task todo =>
    obtain ⟨j, x, done, hscan, hslot, hdone, hw, htask⟩ := h
    have hself : t.task w slot = { s.task w slot with syncInfo := .reading } := by
      rw [State.task, hw]
      exact Function.update_self ..
    cases todo with
    | cons f todo =>
      cases hs
      refine ⟨hnext, .copy slot (Task.copyField (t.task w slot) task f) todo, by simp, j, x,
        done ++ [f], hscan, hslot, by simpa using hdone, hw, ?_⟩
      rw [List.foldl_append, ← htask, hself]
      rfl
    | nil =>
      cases hs
      rw [List.append_nil] at hdone
      refine ⟨hnext, .returned task, by simp, Or.inl ⟨j, x, hscan, ?_, ?_⟩⟩
      · rw [htask, hdone, foldl_dequeueFields, hslot]
      · rw [State.workers_setCall, State.workers_setSync_self, ← hslot, hw]
        simp [WorkerState.take]
  | returned task => cases hs

/-- **`dequeue_task` alone**: it takes a task out of a slot, or returns an empty one. -/
theorem DequeueAlone.spec {s' : State} {task : Task} (h : DequeueAlone w s s' task) :
    s'.nextId = s.nextId ∧
    ((∃ j x, (s.workers w).DequeueScan j x ∧
      task = { s.task w (j % (s.workers w).taskCount) with syncInfo := .reading } ∧
      s'.workers w = (s.workers w).take x (j % (s.workers w).taskCount)
        { s.task w (j % (s.workers w).taskCount) with syncInfo := .empty }) ∨
    (s.workers w).DequeueFails ∧ task = .none ∧ s'.workers w = { s.workers w with
      readFrom := max (s.workers w).readFrom (s.workers w).writeTo }) := by
  obtain ⟨c, s₁, hbegin, hrun, hret⟩ := h
  have hfirst : s₁.nextId = s.nextId ∧ ∃ pc, s₁.calls c = .dequeue w pc ∧ DequeuePhase w s s₁ pc := by
    obtain ⟨-, rfl⟩ := of_step_dequeue hbegin
    exact ⟨rfl, .loadWriteTo, by simp, rfl⟩
  have hlast : s'.nextId = s.nextId ∧ ∃ pc, s'.calls c = .dequeue w pc ∧ DequeuePhase w s s' pc := by
    refine hrun.invariant (P := fun t => t.nextId = s.nextId ∧ ∃ pc, t.calls c = .dequeue w pc ∧
      DequeuePhase w s t pc) hfirst ?_
    rintro t e t' ⟨hnext, pc, hc, hp⟩ ⟨spurious, rfl⟩ hs
    simp only [Tasks.step, hc] at hs
    exact hp.step hnext hs
  obtain ⟨hnext, pc, hc, hp⟩ := hlast
  rw [hret] at hc
  cases hc
  exact ⟨hnext, hp⟩

/-! ### Sequences of calls -/

/-- The calls made on worker `w` one after the other, from an empty ring: the state they lead to, the
tasks that were accepted and the tasks that were returned, with their ids, in order.  `ok` is asked
of the state in which a call of `enqueue_task` begins. -/
inductive History (taskCount : ℕ → ℕ) (w : ℕ) (ok : State → Prop) :
    State → List (ℕ × TaskData) → List (ℕ × TaskData) → Prop
  | initial : History taskCount w ok (initial taskCount) [] []
  | accept {s s' : State} {accepted returned : List (ℕ × TaskData)} {id : ℕ} {data : TaskData}
      (h : History taskCount w ok s accepted returned) (hok : ok s)
      (hcall : EnqueueAlone w data s s' (some id)) :
      History taskCount w ok s' (accepted ++ [(id, data)]) returned
  | refuse {s s' : State} {accepted returned : List (ℕ × TaskData)} {data : TaskData}
      (h : History taskCount w ok s accepted returned) (hok : ok s)
      (hcall : EnqueueAlone w data s s' none) : History taskCount w ok s' accepted returned
  | take {s s' : State} {accepted returned : List (ℕ × TaskData)} {task : Task}
      (h : History taskCount w ok s accepted returned) (hcall : DequeueAlone w s s' task)
      (htask : task.syncInfo ≠ .empty) :
      History taskCount w ok s' accepted (returned ++ [(task.id, task.data)])
  | miss {s s' : State} {accepted returned : List (ℕ × TaskData)} {task : Task}
      (h : History taskCount w ok s accepted returned) (hcall : DequeueAlone w s s' task)
      (htask : task.syncInfo = .empty) : History taskCount w ok s' accepted returned

/-- The state after some calls, and their results. -/
structure Log where
  state : State
  accepted : List (ℕ × TaskData)
  returned : List (ℕ × TaskData)

/-- Call `c` makes at most `fuel` steps to its end. -/
def finish (c : ℕ) : ℕ → State → Option State
  | 0, _ => none
  | fuel + 1, s =>
    if (s.calls c).resting then some s else (Tasks.step s (.run c false)).bind (finish c fuel)

/-- Note the result of call `c`. -/
def Log.note (l : Log) (c : ℕ) (s : State) : Option Log :=
  match s.calls c with
  | .enqueue _ data (.accepted id) => some ⟨s, l.accepted ++ [(id, data)], l.returned⟩
  | .enqueue _ _ .refused => some ⟨s, l.accepted, l.returned⟩
  | .dequeue _ (.returned task) =>
    if task.syncInfo = .empty then some ⟨s, l.accepted, l.returned⟩
    else some ⟨s, l.accepted, l.returned ++ [(task.id, task.data)]⟩
  | _ => none

/-- Make the calls on worker `w` one after the other, the first one as call `c`: `enqueue_task` of the
data given, or `dequeue_task`.  `check` is made before every `enqueue_task`. -/
def perform (w : ℕ) (check : State → Bool) : ℕ → Log → List (Option TaskData) → Option Log
  | _, l, [] => some l
  | c, l, some data :: rest =>
    if check l.state then
      (Tasks.step l.state (.enqueue c w data)).bind fun s => (finish c 32 s).bind fun s' =>
        (l.note c s').bind fun l' => perform w check (c + 1) l' rest
    else none
  | c, l, none :: rest =>
    (Tasks.step l.state (.dequeue c w)).bind fun s => (finish c 32 s).bind fun s' =>
      (l.note c s').bind fun l' => perform w check (c + 1) l' rest

theorem reach_of_finish {fuel : ℕ} (h : finish c fuel s = some t) :
    Runs.Reach Tasks.step (StepOf c) s t := by
  induction fuel generalizing s with
  | zero => cases h
  | succ fuel ih =>
    rw [finish] at h
    split_ifs at h
    · cases h
      exact .refl
    · obtain ⟨s₁, hs, h⟩ := Option.bind_eq_some_iff.1 h
      exact (Runs.Reach.tail .refl ⟨false, rfl⟩ hs).trans (ih h)

/-- A call stays one of the same function on the same worker, with the same data. -/
theorem calls_enqueue_of_reach (hr : Runs.Reach Tasks.step (StepOf c) s t) {pc : EnqueuePc}
    (hc : s.calls c = .enqueue w data pc) : ∃ pc', t.calls c = .enqueue w data pc' := by
  refine hr.invariant (P := fun t => ∃ pc', t.calls c = .enqueue w data pc') ⟨pc, hc⟩ ?_
  rintro t e t' ⟨pc, hpc⟩ ⟨spurious, rfl⟩ hs
  simp only [Tasks.step, hpc] at hs
  cases pc with
  | write slot id todo => cases todo <;> (cases hs; exact ⟨_, Function.update_self ..⟩)
  | claim upperBound writeTo =>
    simp only [stepEnqueue] at hs
    split_ifs at hs <;> (cases hs; exact ⟨_, Function.update_self ..⟩)
  | advance upperBound writeTo =>
    simp only [stepEnqueue] at hs
    split_ifs at hs <;> (cases hs; exact ⟨_, Function.update_self ..⟩)
  | accepted id => cases hs
  | refused => cases hs
  | _ => cases hs; exact ⟨_, Function.update_self ..⟩

theorem calls_dequeue_of_reach (hr : Runs.Reach Tasks.step (StepOf c) s t) {pc : DequeuePc}
    (hc : s.calls c = .dequeue w pc) : ∃ pc', t.calls c = .dequeue w pc' := by
  refine hr.invariant (P := fun t => ∃ pc', t.calls c = .dequeue w pc') ⟨pc, hc⟩ ?_
  rintro t e t' ⟨pc, hpc⟩ ⟨spurious, rfl⟩ hs
  simp only [Tasks.step, hpc] at hs
  cases pc with
  | copy slot task todo => cases todo <;> (cases hs; exact ⟨_, Function.update_self ..⟩)
  | claim writeTo readFrom =>
    simp only [stepDequeue] at hs
    split_ifs at hs <;> (cases hs; exact ⟨_, Function.update_self ..⟩)
  | advance writeTo readFrom =>
    simp only [stepDequeue] at hs
    split_ifs at hs <;> (cases hs; exact ⟨_, Function.update_self ..⟩)
  | returned task => cases hs
  | _ => cases hs; exact ⟨_, Function.update_self ..⟩

theorem History.of_perform {taskCount : ℕ → ℕ} {ok : State → Prop} {check : State → Bool}
    (hok : ∀ t, check t = true → ok t) {calls : List (Option TaskData)} {l l' : Log}
    (h : History taskCount w ok l.state l.accepted l.returned)
    (hp : perform w check c l calls = some l') :
    History taskCount w ok l'.state l'.accepted l'.returned := by
  induction calls generalizing c l with
  | nil =>
    cases hp
    exact h
  | cons call rest ih =>
    cases call with
    | some data =>
      rw [perform] at hp
      split_ifs at hp with hcheck
      obtain ⟨s₁, hbegin, hp⟩ := Option.bind_eq_some_iff.1 hp
      obtain ⟨s', hfinish, hp⟩ := Option.bind_eq_some_iff.1 hp
      obtain ⟨l₁, hnote, hp⟩ := Option.bind_eq_some_iff.1 hp
      refine ih ?_ hp
      have hr := reach_of_finish hfinish
      obtain ⟨pc, hpc⟩ : ∃ pc, s'.calls c = .enqueue w data pc := by
        have hfirst : s₁.calls c = .enqueue w data .loadReadFrom := by
          rw [(of_step_enqueue hbegin).2]
          simp
        exact calls_enqueue_of_reach hr hfirst
      rw [Log.note, hpc] at hnote
      cases pc with
      | accepted id =>
        cases hnote
        exact .accept h (hok _ hcheck) ⟨c, s₁, hbegin, hr, hpc⟩
      | refused =>
        cases hnote
        exact .refuse h (hok _ hcheck) ⟨c, s₁, hbegin, hr, hpc⟩
      | _ => cases hnote
    | none =>
      rw [perform] at hp
      obtain ⟨s₁, hbegin, hp⟩ := Option.bind_eq_some_iff.1 hp
      obtain ⟨s', hfinish, hp⟩ := Option.bind_eq_some_iff.1 hp
      obtain ⟨l₁, hnote, hp⟩ := Option.bind_eq_some_iff.1 hp
      refine ih ?_ hp
      have hr := reach_of_finish hfinish
      obtain ⟨pc, hpc⟩ : ∃ pc, s'.calls c = .dequeue w pc := by
        have hfirst : s₁.calls c = .dequeue w .loadWriteTo := by
          rw [(of_step_dequeue hbegin).2]
          simp
        exact calls_dequeue_of_reach hr hfirst
      rw [Log.note, hpc] at hnote
      cases pc with
      | returned task =>
        simp only at hnote
        split_ifs at hnote with htask
        · cases hnote
          exact .miss h ⟨c, s₁, hbegin, hr, hpc⟩ htask
        · cases hnote
          exact .take h ⟨c, s₁, hbegin, hr, hpc⟩ htask
      | _ => cases hnote

end Dumboss.Tasks
