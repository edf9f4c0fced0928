import Dumboss.Lib.Ring
import Dumboss.Tasks.Sequential

/-!
# The ring of a worker as a queue

Between two calls the ring holds a queue `q` that begins at some index `a`; `read_from` is `a` or one
before it, and `write_to` is the end of the queue or one before it.

* `Queue`: this invariant, with the queue;
* `Queue.accept`, `Queue.refuse`, `Queue.take`, `Queue.miss`: what the outcomes of a call do to it;
* `Lapped`: `write_to` has gone round to the slot in front of the queue.  A task that is put there
  comes before all others; `tasks_fifo` says that otherwise the tasks come out in order;
* `FullShort`, `EmptyShort`: the states in which a search ends one slot too early; `answers_exact` says
  that a call gives the wrong answer in these only.
-/

namespace Dumboss.Tasks

/-- The id and the data of a queued task. -/
def Task.item (t : Task) : Option (ℕ × TaskData) :=
  if t.syncInfo = .queued then some (t.id, t.data) else Option.none

namespace WorkerState

variable (worker : WorkerState)

/-- What the slots hold. -/
def items (i : ℕ) : Option (ℕ × TaskData) := (worker.tasks i).item

/-- `write_to` is a whole ring after `read_from`, at an empty slot, and some task is queued. -/
def Lapped : Prop :=
  worker.writeTo = worker.readFrom + worker.taskCount ∧ worker.At .empty worker.writeTo ∧
    ∃ k, worker.At .queued k

/-- `write_to` is at a task that is the last one before `read_from` comes round, and the slot of
`read_from` is empty. -/
def FullShort : Prop :=
  worker.writeTo + 1 = worker.readFrom + worker.taskCount ∧ worker.At .queued worker.writeTo ∧
    worker.At .empty worker.readFrom

/-- `write_to` is right after `read_from`, whose slot is empty, and some task is queued. -/
def EmptyShort : Prop :=
  worker.writeTo = worker.readFrom + 1 ∧ worker.At .empty worker.readFrom ∧ ∃ k, worker.At .queued k

end WorkerState

/-- **The invariant between two calls**: the ring holds `q` from index `a` on. -/
structure Queue (worker : WorkerState) (a : ℕ) (q : List (ℕ × TaskData)) : Prop where
  pos : 0 < worker.taskCount
  read : worker.readFrom = a ∨ worker.readFrom + 1 = a
  write : worker.writeTo = a + q.length ∨ worker.writeTo + 1 = a + q.length
  le : worker.readFrom ≤ worker.writeTo
  -- an empty ring has no room for `write_to` to lag, a full one none for `read_from`
  write_of_nil : q = [] → worker.writeTo = a
  read_of_full : q.length = worker.taskCount → worker.readFrom = a
  holds : Ring.Holds worker.taskCount a worker.items q
  idle : ∀ i, (worker.tasks i).syncInfo = .empty ∨ (worker.tasks i).syncInfo = .queued
  -- in a ring of even size the indices only move by two
  even : worker.taskCount % 2 = 0 → worker.readFrom % 2 = 0 ∧ worker.writeTo % 2 = 0

variable {worker : WorkerState} {a j x : ℕ} {q : List (ℕ × TaskData)}

theorem items_put (i : ℕ) (t : Task) :
    (worker.put x i t).items = Function.update worker.items i t.item := by
  funext k
  exact Function.apply_update (fun _ => Task.item) worker.tasks i t k

theorem items_take (i : ℕ) (t : Task) :
    (worker.take x i t).items = Function.update worker.items i t.item := by
  funext k
  exact Function.apply_update (fun _ => Task.item) worker.tasks i t k

namespace Queue

theorem at_queued_iff (k : ℕ) :
    worker.At .queued k ↔ worker.items (k % worker.taskCount) ≠ none := by
  simp [WorkerState.At, WorkerState.items, Task.item]

theorem at_empty_iff (h : Queue worker a q) (k : ℕ) :
    worker.At .empty k ↔ worker.items (k % worker.taskCount) = none := by
  rcases h.idle (k % worker.taskCount) with hk | hk <;>
    simp [WorkerState.At, WorkerState.items, Task.item, hk]

theorem at_empty_end (h : Queue worker a q) (hlen : q.length < worker.taskCount) :
    worker.At .empty (a + q.length) :=
  (h.at_empty_iff _).2 (h.holds.last_eq_none hlen)

theorem at_queued_first (h : Queue worker a q) (hne : q ≠ []) : worker.At .queued a := by
  rw [at_queued_iff]
  obtain ⟨y, q, rfl⟩ := List.exists_cons_of_ne_nil hne
  rw [h.holds.head_eq]
  exact Option.some_ne_none _

theorem at_queued_last (h : Queue worker a q) (hne : q ≠ []) (hj : j + 1 = a + q.length) :
    worker.At .queued j :=
  (at_queued_iff _).2 (h.holds.getLast_ne_none hne hj)

theorem at_empty_front (h : Queue worker a q) (hr : worker.readFrom + 1 = a) :
    worker.At .empty worker.readFrom := by
  subst hr
  have hlen : q.length ≠ worker.taskCount := fun heq => absurd (h.read_of_full heq) (by omega)
  exact (h.at_empty_iff _).2 (h.holds.front_eq_none (lt_of_le_of_ne h.holds.1 hlen))

/-- A slot is not empty and queued at once. -/
theorem not_at {k : ℕ} (he : worker.At .empty k) : ¬ worker.At .queued k := fun hq => by
  unfold WorkerState.At at he hq
  rw [he] at hq
  cases hq

theorem nil_iff (h : Queue worker a q) : q = [] ↔ ∀ k, ¬ worker.At .queued k := by
  constructor
  · rintro rfl k hk
    refine (at_queued_iff k).1 hk ?_
    obtain ⟨l, hl, heq⟩ := Ring.exists_mod_add a (Nat.mod_lt k h.pos)
    rw [← heq, h.holds.2 l hl]
    rfl
  · intro hk
    by_contra hne
    exact hk a (h.at_queued_first hne)

theorem full_iff (h : Queue worker a q) :
    q.length = worker.taskCount ↔ ∀ k, worker.At .queued k := by
  constructor
  · intro hlen k
    exact (at_queued_iff k).2 (h.holds.ne_none_of_full hlen (Nat.mod_lt _ h.pos))
  · intro hk
    by_contra hne
    exact not_at (h.at_empty_end (lt_of_le_of_ne h.holds.1 hne)) (hk _)

/-! ### The outcomes of a call -/

/-- `enqueue_task` finds the slot after the queue. -/
theorem enqueueScan_eq (h : Queue worker a q) (hs : worker.EnqueueScan j x) :
    q.length < worker.taskCount ∧ j = a + q.length ∧
      (worker.writeTo = j ∧ x = j ∨
        worker.writeTo + 1 = j ∧ j < worker.readFrom + worker.taskCount ∧ x = j + 1) := by
  have hlen := h.holds.1
  have hread := h.read
  rcases h.write with hw | hw
  · -- `write_to` is the end of the queue
    have hlt : q.length < worker.taskCount := by
      refine lt_of_le_of_ne hlen fun hfull => ?_
      have hr := h.read_of_full hfull
      rcases hs.advanced with ⟨rfl, -⟩ | ⟨hlt, hlt', -⟩
      · exact not_at hs.found (h.full_iff.1 hfull _)
      · omega
    have hend : worker.At .empty worker.writeTo := hw ▸ h.at_empty_end hlt
    rcases hs.advanced with ⟨rfl, rfl⟩ | ⟨hlt', -, -⟩
    · exact ⟨hlt, hw, Or.inl ⟨rfl, rfl⟩⟩
    · exact absurd hend (hs.tried _ le_rfl hlt')
  · -- `write_to` is at the last task of the queue
    have hne : q ≠ [] := by
      rintro rfl
      have := h.write_of_nil rfl
      simp only [List.length_nil] at hw
      omega
    have hlast : ¬ worker.At .empty worker.writeTo := fun he => not_at he (h.at_queued_last hne hw)
    rcases hs.advanced with ⟨rfl, -⟩ | ⟨hlt', hbound, rfl⟩
    · exact absurd hs.found hlast
    · have hlt : q.length < worker.taskCount := by omega
      have hj : j = a + q.length := by
        refine le_antisymm (not_lt.1 fun hlt'' => ?_) (by omega)
        exact hs.tried (a + q.length) (by omega) hlt'' (h.at_empty_end hlt)
      exact ⟨hlt, hj, Or.inr ⟨by omega, hbound, rfl⟩⟩

/-- `enqueue_task` returns `true`: the task goes to the end of the queue, or in front of it if `write_to`
has lapped. -/
theorem accept (h : Queue worker a q) (hs : worker.EnqueueScan j x) (id : ℕ) (data : TaskData) :
    ∃ a' q', Queue (worker.put x (j % worker.taskCount) ⟨.queued, id, data⟩) a' q' ∧
      (worker.Lapped → q' = (id, data) :: q) ∧ (¬ worker.Lapped → q' = q ++ [(id, data)]) := by
  obtain ⟨hlt, hj, hx⟩ := h.enqueueScan_eq hs
  have hread := h.read
  have hidle : ∀ i, ((worker.put x (j % worker.taskCount) ⟨.queued, id, data⟩).tasks i).syncInfo =
      .empty ∨ ((worker.put x (j % worker.taskCount) ⟨.queued, id, data⟩).tasks i).syncInfo =
      .queued := by
    intro i
    by_cases hi : i = j % worker.taskCount
    · exact Or.inr (by rw [hi]; simp [WorkerState.put])
    · simpa [WorkerState.put, Function.update_of_ne hi] using h.idle i
  have heven : worker.taskCount % 2 = 0 → worker.readFrom % 2 = 0 ∧ x % 2 = 0 := by
    intro hn
    obtain ⟨hr, hw⟩ := h.even hn
    rcases hx with ⟨hw', rfl⟩ | ⟨hw', -, rfl⟩ <;> omega
  by_cases hfront : worker.readFrom + 1 = a ∧ q.length + 1 = worker.taskCount ∧ worker.writeTo = j
  · obtain ⟨hr, hfull, hw⟩ := hfront
    have hxj : x = j := by
      rcases hx with ⟨-, rfl⟩ | ⟨hw', -⟩ <;> omega
    have hslot : j % worker.taskCount = worker.readFrom % worker.taskCount := by
      rw [hj, ← hr, show worker.readFrom + 1 + q.length = worker.readFrom + worker.taskCount by omega,
        Nat.add_mod_right]
    refine ⟨worker.readFrom, (id, data) :: q, ⟨h.pos, Or.inl rfl, Or.inl ?_, ?_, ?_, fun _ => rfl, ?_,
      hidle, heven⟩, fun _ => rfl, fun hlap => ?_⟩
    · simp only [WorkerState.put, List.length_cons]
      omega
    · simp only [WorkerState.put]
      omega
    · exact fun hnil => absurd hnil (List.cons_ne_nil _ _)
    · rw [items_put, hslot]
      exact Ring.Holds.cons (by rw [hr]; exact h.holds) hlt
    · -- a queue in a ring of one slot: the two ends are the same
      have hnil : q = [] := by
        refine h.nil_iff.2 fun k hk => hlap ⟨by omega, ?_, k, hk⟩
        rw [hw, hj]
        exact h.at_empty_end hlt
      rw [hnil]
      rfl
  · refine ⟨a, q ++ [(id, data)], ⟨h.pos, h.read, ?_, ?_, ?_, ?_, ?_, hidle, heven⟩, fun hlap => ?_,
      fun _ => rfl⟩
    · simp only [WorkerState.put, List.length_append, List.length_singleton]
      rcases hx with ⟨-, rfl⟩ | ⟨-, -, rfl⟩ <;> omega
    · simp only [WorkerState.put]
      have := h.le
      rcases hx with ⟨hw', rfl⟩ | ⟨hw', -, rfl⟩ <;> omega
    · exact fun hnil => absurd hnil (by simp)
    · simp only [WorkerState.put, List.length_append, List.length_singleton]
      intro hfull
      rcases hx with ⟨hw', rfl⟩ | ⟨hw', hbound, rfl⟩ <;> omega
    · rw [items_put, hj]
      exact h.holds.push hlt
    · obtain ⟨hlap, hempty, k, hk⟩ := hlap
      have hw : worker.writeTo = j := by
        rcases hx with ⟨hw', -⟩ | ⟨hw', hbound, -⟩ <;> omega
      exact absurd ⟨by omega, by omega, hw⟩ hfront

/-- `enqueue_task` returns `false`: the ring is full, or the search ended one slot too early. -/
theorem refuse (h : Queue worker a q) (hf : worker.EnqueueFails) :
    Queue { worker with writeTo := max worker.writeTo (worker.readFrom + worker.taskCount) } a q ∧
      (q.length = worker.taskCount ∨ worker.FullShort) := by
  have hlen := h.holds.1
  have hread := h.read
  have hfull := h.read_of_full
  have hfirst : ¬ worker.At .empty worker.writeTo := hf _ le_rfl (by omega)
  rcases h.write with hw | hw
  · have hlen' : q.length = worker.taskCount := by
      by_contra hne
      exact hfirst (hw ▸ h.at_empty_end (lt_of_le_of_ne hlen hne))
    have hr := hfull hlen'
    refine ⟨?_, Or.inl hlen'⟩
    rw [show max worker.writeTo (worker.readFrom + worker.taskCount) = worker.writeTo by omega]
    exact h
  · have hne : q ≠ [] := by
      rintro rfl
      have := h.write_of_nil rfl
      simp only [List.length_nil] at hw
      omega
    have hbound : worker.writeTo + 1 = worker.readFrom + worker.taskCount := by
      by_contra hne'
      have hlt : q.length < worker.taskCount := by omega
      refine hf (worker.writeTo + 1) (by omega) (by omega) ?_
      rw [hw]
      exact h.at_empty_end hlt
    refine ⟨⟨h.pos, h.read, Or.inl ?_, ?_, fun hnil => absurd hnil hne, h.read_of_full, h.holds, h.idle,
      ?_⟩, ?_⟩
    · simp only
      omega
    · simp only
      omega
    · intro hn
      have hn' : worker.taskCount % 2 = 0 := hn
      obtain ⟨hr, hw'⟩ := h.even hn
      omega
    · rcases hread with hr | hr
      · exact Or.inl (by omega)
      · exact Or.inr ⟨hbound, h.at_queued_last hne hw, h.at_empty_front hr⟩

/-- `dequeue_task` finds the first task of the queue. -/
theorem dequeueScan_eq (h : Queue worker a q) (hs : worker.DequeueScan j x) :
    q ≠ [] ∧ j = a ∧ (worker.readFrom = j ∧ x = j ∨
      worker.readFrom + 1 = j ∧ j < worker.writeTo ∧ x = j + 1) := by
  have hne : q ≠ [] := fun hnil => h.nil_iff.1 hnil j hs.found
  refine ⟨hne, ?_⟩
  rcases h.read with hr | hr
  · rcases hs.advanced with ⟨rfl, rfl⟩ | ⟨hlt, -, -⟩
    · exact ⟨hr, Or.inl ⟨rfl, rfl⟩⟩
    · refine absurd ?_ (hs.tried _ le_rfl hlt)
      rw [hr]
      exact h.at_queued_first hne
  · rcases hs.advanced with ⟨rfl, -⟩ | ⟨hlt, hbound, rfl⟩
    · exact absurd hs.found (not_at (h.at_empty_front hr))
    · have hj : j = a := by
        refine le_antisymm (not_lt.1 fun hlt' => ?_) (by omega)
        exact hs.tried a (by omega) hlt' (h.at_queued_first hne)
      exact ⟨hj, Or.inr ⟨by omega, hbound, rfl⟩⟩

/-- `dequeue_task` returns a task: the first one of the queue. -/
theorem take (h : Queue worker a q) (hs : worker.DequeueScan j x) :
    ∃ y q' a', q = y :: q' ∧ worker.items (j % worker.taskCount) = some y ∧
      Queue (worker.take x (j % worker.taskCount)
        { worker.tasks (j % worker.taskCount) with syncInfo := .empty }) a' q' := by
  obtain ⟨hne, hj, hx⟩ := h.dequeueScan_eq hs
  obtain ⟨y, q, rfl⟩ := List.exists_cons_of_ne_nil hne
  have hlen : q.length + 1 ≤ worker.taskCount := h.holds.1
  have hwrite := h.write
  simp only [List.length_cons] at hwrite
  have hle := h.le
  have hpop : Ring.Holds worker.taskCount (a + 1) (worker.take x (j % worker.taskCount)
      { worker.tasks (j % worker.taskCount) with syncInfo := .empty }).items q := by
    rw [items_take, hj]
    exact h.holds.pop
  have hidle : ∀ i, ((worker.take x (j % worker.taskCount)
      { worker.tasks (j % worker.taskCount) with syncInfo := .empty }).tasks i).syncInfo = .empty ∨
      ((worker.take x (j % worker.taskCount)
      { worker.tasks (j % worker.taskCount) with syncInfo := .empty }).tasks i).syncInfo = .queued := by
    intro i
    by_cases hi : i = j % worker.taskCount
    · exact Or.inl (by rw [hi]; simp [WorkerState.take])
    · simpa [WorkerState.take, Function.update_of_ne hi] using h.idle i
  have heven : worker.taskCount % 2 = 0 → x % 2 = 0 ∧ worker.writeTo % 2 = 0 := by
    intro hn
    obtain ⟨hr, hw⟩ := h.even hn
    rcases hx with ⟨hr', rfl⟩ | ⟨hr', -, rfl⟩ <;> omega
  refine ⟨y, q, if q = [] ∧ worker.writeTo = a then a else a + 1, rfl, ?_, ?_⟩
  · rw [hj]
    exact h.holds.head_eq
  · split_ifs with hnil
    · -- the ring is empty now, and both indices are at the slot that was taken
      obtain ⟨rfl, hw⟩ := hnil
      have hxa : x = a := by
        rcases hx with ⟨-, rfl⟩ | ⟨-, hlt, -⟩ <;> omega
      exact ⟨h.pos, Or.inl hxa, Or.inl hw, by simp only [WorkerState.take]; omega, fun _ => hw,
        fun hfull => absurd hfull h.pos.ne, hpop.nil_of_nil a, hidle, heven⟩
    · refine ⟨h.pos, ?_, ?_, ?_, ?_, ?_, hpop, hidle, heven⟩
      · simp only [WorkerState.take]
        rcases hx with ⟨-, rfl⟩ | ⟨-, -, rfl⟩ <;> omega
      · simp only [WorkerState.take]
        omega
      · simp only [WorkerState.take]
        rcases hx with ⟨hr, rfl⟩ | ⟨hr, hlt, rfl⟩ <;> omega
      · rintro rfl
        simp only [List.length_nil] at hwrite
        have hw : worker.writeTo ≠ a := fun hw => hnil ⟨rfl, hw⟩
        simp only [WorkerState.take]
        omega
      · simp only [WorkerState.take]
        omega

/-- `dequeue_task` returns no task: the ring is empty, or the search ended one slot too early. -/
theorem miss (h : Queue worker a q) (hf : worker.DequeueFails) :
    Queue { worker with readFrom := max worker.readFrom worker.writeTo } a q ∧
      (q = [] ∨ worker.EmptyShort) := by
  have hlen := h.holds.1
  have hle := h.le
  have hwrite := h.write
  have hfirst : ¬ worker.At .queued worker.readFrom := hf _ le_rfl (by omega)
  rcases h.read with hr | hr
  · have hnil : q = [] := by
      by_contra hne
      exact hfirst (hr ▸ h.at_queued_first hne)
    have hw := h.write_of_nil hnil
    refine ⟨?_, Or.inl hnil⟩
    rw [show max worker.readFrom worker.writeTo = worker.readFrom by omega]
    exact h
  · have hpos : q ≠ [] → 0 < q.length := List.length_pos_iff.2
    have hbound : worker.writeTo = a := by
      by_cases hnil : q = []
      · exact h.write_of_nil hnil
      · have := hpos hnil
        by_contra hne
        exact hf a (by omega) (by omega) (h.at_queued_first hnil)
    refine ⟨⟨h.pos, Or.inl ?_, h.write, ?_, h.write_of_nil, fun _ => ?_, h.holds, h.idle, ?_⟩, ?_⟩
    · simp only
      omega
    · simp only
      omega
    · simp only
      omega
    · intro hn
      obtain ⟨hr', hw'⟩ := h.even hn
      omega
    · by_cases hnil : q = []
      · exact Or.inl hnil
      · exact Or.inr ⟨by omega, h.at_empty_front hr, a, h.at_queued_first hnil⟩

end Queue

theorem Queue.initial {n : ℕ} (hn : 0 < n) : Queue ⟨fun _ => .none, n, 0, 0⟩ 0 [] where
  pos := hn
  read := Or.inl rfl
  write := Or.inl rfl
  le := le_rfl
  write_of_nil _ := rfl
  read_of_full _ := rfl
  holds := ⟨Nat.zero_le _, fun _ _ => rfl⟩
  idle _ := Or.inl rfl
  even _ := ⟨rfl, rfl⟩

/-! ### Sequences of calls -/

variable {taskCount : ℕ → ℕ} {w : ℕ} {ok : State → Prop} {s : State}
  {accepted returned : List (ℕ × TaskData)}

theorem History.taskCount_eq (h : History taskCount w ok s accepted returned) :
    (s.workers w).taskCount = taskCount w := by
  induction h with
  | initial => rfl
  | accept _ _ hcall ih =>
    obtain ⟨j, x, -, hw, -⟩ := hcall.accepted
    rw [hw]
    exact ih
  | refuse _ _ hcall ih =>
    rw [hcall.refused.2.2]
    exact ih
  | take _ hcall _ ih =>
    rcases hcall.spec.2 with ⟨j, x, -, -, hw⟩ | ⟨-, -, hw⟩
    · rw [hw]
      exact ih
    · rw [hw]
      exact ih
  | miss _ hcall _ ih =>
    rcases hcall.spec.2 with ⟨j, x, -, -, hw⟩ | ⟨-, -, hw⟩
    · rw [hw]
      exact ih
    · rw [hw]
      exact ih

/-- The ids of the accepted tasks have been given out. -/
theorem History.id_lt (h : History taskCount w ok s accepted returned) :
    ∀ v ∈ accepted, v.1 < s.nextId := by
  induction h with
  | initial => exact fun v hv => absurd hv List.not_mem_nil
  | accept _ _ hcall ih =>
    obtain ⟨j, x, -, -, rfl, hnext⟩ := hcall.accepted
    intro v hv
    rw [hnext]
    rcases List.mem_append.1 hv with hv | hv
    · exact Nat.lt_succ_of_lt (ih v hv)
    · rw [List.mem_singleton.1 hv]
      exact Nat.lt_succ_self _
  | refuse _ _ hcall ih =>
    rw [hcall.refused.2.1]
    exact ih
  | take _ hcall _ ih =>
    rw [hcall.spec.1]
    exact ih
  | miss _ hcall _ ih =>
    rw [hcall.spec.1]
    exact ih

/-- A call of `dequeue_task` that returns a task returns the first one of the queue. -/
theorem Queue.dequeueAlone_take {a : ℕ} {q : List (ℕ × TaskData)} {s' : State} {task : Task}
    (h : Queue (s.workers w) a q) (hcall : DequeueAlone w s s' task) (htask : task.syncInfo ≠ .empty) :
    ∃ q' a', q = (task.id, task.data) :: q' ∧ Queue (s'.workers w) a' q' := by
  rcases hcall.spec.2 with ⟨j, x, hscan, rfl, hw⟩ | ⟨-, rfl, -⟩
  · obtain ⟨y, q', a', rfl, hy, hq⟩ := h.take hscan
    refine ⟨q', a', ?_, by rw [hw]; exact hq⟩
    have hqueued : (s.task w (j % (s.workers w).taskCount)).syncInfo = .queued := hscan.found
    have hitem : (s.task w (j % (s.workers w).taskCount)).item = some y := hy
    rw [Task.item, if_pos hqueued] at hitem
    rw [← Option.some.inj hitem]
  · exact absurd rfl htask

/-- A call of `dequeue_task` that returns no task leaves the queue as it is. -/
theorem Queue.dequeueAlone_miss {a : ℕ} {q : List (ℕ × TaskData)} {s' : State} {task : Task}
    (h : Queue (s.workers w) a q) (hcall : DequeueAlone w s s' task) (htask : task.syncInfo = .empty) :
    (s.workers w).DequeueFails ∧ Queue (s'.workers w) a q := by
  rcases hcall.spec.2 with ⟨j, x, hscan, rfl, hw⟩ | ⟨hfails, rfl, hw⟩
  · cases htask
  · exact ⟨hfails, by rw [hw]; exact (h.miss hfails).1⟩

/-- **Run lemma**: after any sequence of calls the ring holds a queue, and as long as no task was
accepted in front, it is what was accepted and not returned, in order. -/
theorem History.queue (hn : 0 < taskCount w) (h : History taskCount w ok s accepted returned) :
    ∃ a q, Queue (s.workers w) a q ∧
      ((∀ t, ok t → ¬ (t.workers w).Lapped) → accepted = returned ++ q) := by
  induction h with
  | initial => exact ⟨0, [], .initial hn, fun _ => rfl⟩
  | accept _ hok hcall ih =>
    obtain ⟨a, q, hq, horder⟩ := ih
    obtain ⟨j, x, hscan, hw, -⟩ := hcall.accepted
    obtain ⟨a', q', hq', -, hback⟩ := hq.accept hscan _ _
    refine ⟨a', q', by rw [hw]; exact hq', fun hlap => ?_⟩
    rw [hback (hlap _ hok), horder hlap, List.append_assoc]
  | refuse _ hok hcall ih =>
    obtain ⟨a, q, hq, horder⟩ := ih
    obtain ⟨hfails, -, hw⟩ := hcall.refused
    exact ⟨a, q, by rw [hw]; exact (hq.refuse hfails).1, horder⟩
  | take _ hcall htask ih =>
    obtain ⟨a, q, hq, horder⟩ := ih
    obtain ⟨q', a', rfl, hq'⟩ := hq.dequeueAlone_take hcall htask
    refine ⟨a', q', hq', fun hlap => ?_⟩
    rw [horder hlap, List.append_assoc, List.singleton_append]
  | miss _ hcall htask ih =>
    obtain ⟨a, q, hq, horder⟩ := ih
    exact ⟨a, q, (hq.dequeueAlone_miss hcall htask).2, horder⟩

/-- **The tasks come out in order**: in every sequence of calls in which no `enqueue_task` begins with
`write_to` lapped, the tasks returned are the first ones of those accepted, and the next one returned
is the oldest one still queued.  If `write_to` has lapped, an `enqueue_task` and a `dequeue_task` return
another one. -/
theorem tasks_fifo (taskCount : ℕ → ℕ) (w : ℕ) (hn : 0 < taskCount w) (s : State)
    (accepted returned : List (ℕ × TaskData))
    (h : History taskCount w (fun t => ¬ (t.workers w).Lapped) s accepted returned) :
    returned <+: accepted ∧
    (∀ s' task, DequeueAlone w s s' task → task.syncInfo ≠ .empty →
      accepted[returned.length]? = some (task.id, task.data)) ∧
    ((s.workers w).Lapped → ∀ data result s₁ s₂ task, EnqueueAlone w data s s₁ result →
      DequeueAlone w s₁ s₂ task → task.syncInfo ≠ .empty ∧
        ∃ v, accepted[returned.length]? = some v ∧ v ≠ (task.id, task.data)) := by
  obtain ⟨a, q, hq, horder⟩ := h.queue hn
  have hacc : accepted = returned ++ q := horder fun _ ht => ht
  refine ⟨⟨q, hacc.symm⟩, ?_, ?_⟩
  · intro s' task hcall htask
    obtain ⟨q', a', rfl, -⟩ := hq.dequeueAlone_take hcall htask
    rw [hacc, List.getElem?_append_right le_rfl, Nat.sub_self, List.getElem?_cons_zero]
  · intro hlap data result s₁ s₂ task henq hdeq
    obtain ⟨hwrap, hempty, k, hk⟩ := hlap
    cases result with
    | none => exact absurd hempty (henq.refused.1 _ le_rfl (by omega))
    | some id =>
      obtain ⟨j, x, hscan, hw, rfl, -⟩ := henq.accepted
      obtain ⟨a', q', hq', hfront, -⟩ := hq.accept hscan s.nextId data
      rw [hfront ⟨hwrap, hempty, k, hk⟩] at hq'
      rw [← hw] at hq'
      -- the new task is in the slot of `read_from`, so the next call returns it
      have hj : j = (s.workers w).writeTo := by
        rcases hscan.advanced with ⟨hj, -⟩ | ⟨hlt, hbound, -⟩ <;> omega
      have hslot : j % (s.workers w).taskCount =
          (s.workers w).readFrom % (s.workers w).taskCount := by
        rw [hj, hwrap, Nat.add_mod_right]
      have htask : task.syncInfo ≠ .empty := by
        intro htask
        refine (hq'.dequeueAlone_miss hdeq htask).1 _ le_rfl (by omega) ?_
        rw [hw, hslot]
        simp [WorkerState.At, WorkerState.put]
      refine ⟨htask, ?_⟩
      obtain ⟨q₂, a₂, heq, -⟩ := hq'.dequeueAlone_take hdeq htask
      have hne : q ≠ [] := fun hnil => hq.nil_iff.1 hnil k hk
      obtain ⟨v, q₃, rfl⟩ := List.exists_cons_of_ne_nil hne
      refine ⟨v, ?_, ?_⟩
      · rw [hacc, List.getElem?_append_right le_rfl, Nat.sub_self, List.getElem?_cons_zero]
      · rintro rfl
        have hlt := h.id_lt (task.id, task.data) (by rw [hacc]; simp)
        rw [List.cons.injEq, Prod.mk.injEq] at heq
        simp only [← heq.1.1] at hlt
        exact absurd hlt (lt_irrefl _)

/-- The log before the first call. -/
def Log.initial (taskCount : ℕ → ℕ) : Log := ⟨Tasks.initial taskCount, [], []⟩

/-- A ring of two slots is filled, emptied, and used again. -/
theorem tasks_fifo_three_tasks :
    ∃ s accepted returned,
      History (fun _ => 2) 0 (fun t => ¬ (t.workers 0).Lapped) s accepted returned ∧
      accepted.map Prod.fst = [0, 1, 2] ∧ returned.map Prod.fst = [0, 1, 2] ∧
      returned <+: accepted := by
  have hview : (perform 0
      (fun t => (t.workers 0).writeTo ≠ (t.workers 0).readFrom + (t.workers 0).taskCount) 0
      (.initial fun _ => 2) [some ⟨1#64, 0#64, 0#64⟩, some ⟨2#64, 0#64, 0#64⟩, none, none,
        some ⟨3#64, 0#64, 0#64⟩, none]).map (fun l =>
      (l.accepted.map Prod.fst, l.returned.map Prod.fst)) = some ([0, 1, 2], [0, 1, 2]) := by
    decide +kernel
  obtain ⟨l, hl, hview⟩ := Option.map_eq_some_iff.1 hview
  rw [Prod.mk.injEq] at hview
  have h : History (fun _ => 2) 0 (fun t => ¬ (t.workers 0).Lapped)
      l.state l.accepted l.returned :=
    History.of_perform (fun t ht hlap => (of_decide_eq_true ht) hlap.1) .initial hl
  exact ⟨l.state, l.accepted, l.returned, h, hview.1, hview.2,
    (tasks_fifo (fun _ => 2) 0 (by decide) l.state _ _ h).1⟩

/-- A ring of two slots: `A` and `B` are put in, `A` is taken out, `C` is put in, and `C` is taken
out before `B`. -/
theorem tasks_not_fifo :
    ∃ s accepted returned, History (fun _ => 2) 0 (fun _ => True) s accepted returned ∧
      accepted.map Prod.fst = [0, 1, 2] ∧ returned.map Prod.fst = [0, 2] ∧
      ¬ returned <+: accepted := by
  have hview : (perform 0 (fun _ => true) 0 (.initial fun _ => 2)
      [some ⟨1#64, 0#64, 0#64⟩, some ⟨2#64, 0#64, 0#64⟩, none, some ⟨3#64, 0#64, 0#64⟩, none]).map
      (fun l => (l.accepted.map Prod.fst, l.returned.map Prod.fst)) =
      some ([0, 1, 2], [0, 2]) := by
    decide +kernel
  obtain ⟨l, hl, hview⟩ := Option.map_eq_some_iff.1 hview
  rw [Prod.mk.injEq] at hview
  refine ⟨l.state, l.accepted, l.returned,
    History.of_perform (fun _ _ => trivial) .initial hl, hview.1, hview.2, fun hpre => ?_⟩
  have hmap := hpre.map Prod.fst
  rw [hview.1, hview.2] at hmap
  exact absurd hmap (by decide)

/-! ### Full and empty answers -/

theorem Queue.not_fullShort (h : Queue worker a q)
    (hn : worker.taskCount = 1 ∨ worker.taskCount % 2 = 0) : ¬ worker.FullShort := by
  rintro ⟨hw, hqueued, hempty⟩
  rcases hn with hn | hn
  · have heq : worker.writeTo = worker.readFrom := by omega
    rw [heq] at hqueued
    exact not_at hempty hqueued
  · obtain ⟨hr, hw'⟩ := h.even hn
    omega

theorem Queue.not_emptyShort (h : Queue worker a q)
    (hn : worker.taskCount = 1 ∨ worker.taskCount % 2 = 0) : ¬ worker.EmptyShort := by
  rintro ⟨hw, hempty, k, hqueued⟩
  rcases hn with hn | hn
  · unfold WorkerState.At at hempty hqueued
    rw [hn, Nat.mod_one] at hempty hqueued
    rw [hempty] at hqueued
    cases hqueued
  · obtain ⟨hr, hw'⟩ := h.even hn
    omega

/-- **When the answers are right**: after any sequence of calls, `enqueue_task` returns `false` for a ring
that is not full exactly in the states `FullShort`, and `dequeue_task` returns no task for a ring that
is not empty exactly in the states `EmptyShort`.  A ring of one slot or of an even number of slots is
never in one of these. -/
theorem answers_exact (taskCount : ℕ → ℕ) (w : ℕ) (hn : 0 < taskCount w) (s : State)
    (accepted returned : List (ℕ × TaskData))
    (h : History taskCount w (fun _ => True) s accepted returned) :
    (∀ data result s', EnqueueAlone w data s s' result →
      ((result = none → ∀ i < taskCount w, (s.task w i).syncInfo = .queued) ↔
        ¬ (s.workers w).FullShort)) ∧
    (∀ task s', DequeueAlone w s s' task →
      ((task.syncInfo = .empty → ∀ i < taskCount w, (s.task w i).syncInfo ≠ .queued) ↔
        ¬ (s.workers w).EmptyShort)) ∧
    (taskCount w = 1 ∨ taskCount w % 2 = 0 →
      ¬ (s.workers w).FullShort ∧ ¬ (s.workers w).EmptyShort) := by
  obtain ⟨a, q, hq, -⟩ := h.queue hn
  have hcount := h.taskCount_eq
  have hat : ∀ y k, (s.workers w).At y k ↔ (s.task w (k % taskCount w)).syncInfo = y := by
    intro y k
    rw [← hcount]
    rfl
  refine ⟨fun data result s' hcall => ⟨?_, ?_⟩, fun task s' hcall => ⟨?_, ?_⟩, fun hc => ?_⟩
  · rintro hfull ⟨hw, hqueued, hempty⟩
    have hnone : result = none := by
      cases result with
      | none => rfl
      | some id =>
        obtain ⟨j, x, hscan, -⟩ := hcall.accepted
        rcases hscan.advanced with ⟨rfl, -⟩ | ⟨hlt, hbound, -⟩
        · exact absurd hqueued (Queue.not_at hscan.found)
        · omega
    have hread := (hat _ _).1 hempty
    rw [hfull hnone _ (Nat.mod_lt _ hn)] at hread
    cases hread
  · rintro hshort rfl i hi
    obtain ⟨hfails, -⟩ := hcall.refused
    have hlen := (hq.refuse hfails).2.resolve_right hshort
    have hi' := (hat _ _).1 (hq.full_iff.1 hlen i)
    rwa [Nat.mod_eq_of_lt hi] at hi'
  · rintro hnone ⟨hw, hempty, k, hqueued⟩
    have htask : task.syncInfo = .empty := by
      by_contra htask
      rcases hcall.spec.2 with ⟨j, x, hscan, -⟩ | ⟨-, rfl, -⟩
      · rcases hscan.advanced with ⟨rfl, -⟩ | ⟨hlt, hbound, -⟩
        · exact absurd hscan.found (Queue.not_at hempty)
        · omega
      · exact htask rfl
    exact hnone htask _ (Nat.mod_lt _ hn) ((hat _ _).1 hqueued)
  · intro hshort htask i hi hqueued
    obtain ⟨hfails, -⟩ := hq.dequeueAlone_miss hcall htask
    have hnil := (hq.miss hfails).2.resolve_right hshort
    refine hq.nil_iff.1 hnil i ((hat _ _).2 ?_)
    rwa [Nat.mod_eq_of_lt hi]
  · rw [← hcount] at hc
    exact ⟨hq.not_fullShort hc, hq.not_emptyShort hc⟩

/-- The worker and the data of a call of `enqueue_task` that returned `false`. -/
def Call.refused : Call → Option (ℕ × TaskData)
  | .enqueue w data .refused => some (w, data)
  | _ => none

/-- The worker and the result of a call of `dequeue_task`. -/
def Call.result : Call → Option (ℕ × Task)
  | .dequeue w (.returned task) => some (w, task)
  | _ => none

theorem Call.eq_of_refused {call : Call} {data : TaskData} (h : call.refused = some (w, data)) :
    call = .enqueue w data .refused := by
  unfold Call.refused at h
  split at h
  · cases h
    rfl
  · cases h

theorem Call.eq_of_result {call : Call} {task : Task} (h : call.result = some (w, task)) :
    call = .dequeue w (.returned task) := by
  unfold Call.result at h
  split at h
  · cases h
    rfl
  · cases h

/-- A ring of two slots with two tasks: `enqueue_task` is right to return `false`, and does. -/
theorem answers_exact_two_tasks :
    ∃ s s' accepted returned, History (fun _ => 2) 0 (fun _ => True) s accepted returned ∧
      EnqueueAlone 0 ⟨3#64, 0#64, 0#64⟩ s s' none ∧
      (∀ i < 2, (s.task 0 i).syncInfo = .queued) ∧ ¬ (s.workers 0).FullShort := by
  have hview : (perform 0 (fun _ => true) 0 (.initial fun _ => 2)
      [some ⟨1#64, 0#64, 0#64⟩, some ⟨2#64, 0#64, 0#64⟩]).bind (fun l =>
      (Tasks.step l.state (.enqueue 2 0 ⟨3#64, 0#64, 0#64⟩)).bind fun s => (finish 2 32 s).map fun s' =>
        (s'.calls 2).refused) = some (some (0, ⟨3#64, 0#64, 0#64⟩)) := by
    decide +kernel
  obtain ⟨l, hl, hview⟩ := Option.bind_eq_some_iff.1 hview
  obtain ⟨s₁, hbegin, hview⟩ := Option.bind_eq_some_iff.1 hview
  obtain ⟨s', hfinish, hview⟩ := Option.map_eq_some_iff.1 hview
  have h : History (fun _ => 2) 0 (fun _ => True) l.state l.accepted l.returned :=
    History.of_perform (fun _ _ => trivial) .initial hl
  have hcall : EnqueueAlone 0 ⟨3#64, 0#64, 0#64⟩ l.state s' none := by
    exact ⟨2, s₁, hbegin, reach_of_finish hfinish, Call.eq_of_refused hview⟩
  obtain ⟨hfull, -, hnever⟩ := answers_exact (fun _ => 2) 0 (by decide) l.state _ _ h
  have hshort := (hnever (Or.inr rfl)).1
  exact ⟨l.state, s', l.accepted, l.returned, h, hcall, (hfull _ _ _ hcall).2 hshort rfl, hshort⟩

/-- A ring of three slots: after five tasks were put in, the fourth of them in vain, and three were
taken out, the last one is in slot `0` and the indices are `2` and `3`. -/
def oneLeft : List (Option TaskData) :=
  [some ⟨1#64, 0#64, 0#64⟩, some ⟨2#64, 0#64, 0#64⟩, some ⟨3#64, 0#64, 0#64⟩,
    some ⟨4#64, 0#64, 0#64⟩, none, none, some ⟨5#64, 0#64, 0#64⟩, none]

theorem perform_oneLeft : (perform 0 (fun _ => true) 0 (.initial fun _ => 3) oneLeft).bind (fun l =>
    (Tasks.step l.state (.dequeue 8 0)).bind fun s => (finish 8 32 s).map fun s' =>
      ((l.state.task 0 0).syncInfo, (s'.calls 8).result)) =
    some (.queued, some (0, .none)) := by
  decide +kernel

/-- The next `dequeue_task` stops at index `3` and returns no task. -/
theorem answers_not_exact :
    ∃ s s' accepted returned task, History (fun _ => 3) 0 (fun _ => True) s accepted returned ∧
      DequeueAlone 0 s s' task ∧ task.syncInfo = .empty ∧ (s.task 0 0).syncInfo = .queued := by
  obtain ⟨l, hl, hview⟩ := Option.bind_eq_some_iff.1 perform_oneLeft
  obtain ⟨s₁, hbegin, hview⟩ := Option.bind_eq_some_iff.1 hview
  obtain ⟨s', hfinish, hview⟩ := Option.map_eq_some_iff.1 hview
  rw [Prod.mk.injEq] at hview
  obtain ⟨hqueued, hret⟩ := hview
  exact ⟨l.state, s', l.accepted, l.returned, .none,
    History.of_perform (fun _ _ => trivial) .initial hl,
    ⟨8, s₁, hbegin, reach_of_finish hfinish, Call.eq_of_result hret⟩, rfl, hqueued⟩

end Dumboss.Tasks
