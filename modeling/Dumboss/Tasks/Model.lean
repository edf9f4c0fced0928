import Dumboss.Machine
import Dumboss.Lib.Runs

/-!
# The task rings (`kern/multitasking.c`)

Every worker has a ring of `task_count` task slots with two indices that only grow, `read_from` and
`write_to`.  Any number of calls of `enqueue_task` and `dequeue_task` run at the same time.  A call
is a little state machine: it makes one step per atomic operation and one step per plain field that
it writes or copies, and keeps its local variables in between.

* `SyncInfo`, `TaskData`, `Task`, `WorkerState`: the data of the source;
* `EnqueuePc`, `DequeuePc`: the points of the two functions between two steps, with the local
  variables that are live there;
* `step`: one step of one call, as a function of the state, the call and whether a weak
  compare-exchange fails spuriously;
* `Reachable`: the states of all interleavings, from empty rings.

A successful compare-exchange on `read_from` or `write_to` leaves the local copy of the index as it
was; a failed one refreshes it.  Indices and ids are `s64` counters that start at `0` and grow by
one; they are natural numbers here.
-/

namespace Dumboss.Tasks

/-- The values of `sync_info`: `Task__Empty`, `Task__Writing`, `Task__Queued`, `Task__Reading`. -/
inductive SyncInfo
  | empty
  | writing
  | queued
  | reading
  deriving DecidableEq, Repr

/-- `TaskData`. -/
structure TaskData where
  code : U64
  data : U64
  dataSize : U64
  deriving DecidableEq

/-- `Task`. -/
structure Task where
  syncInfo : SyncInfo
  id : ℕ
  data : TaskData
  deriving DecidableEq

/-- `(Task){.sync_info = Task__Empty}`, also the contents of a fresh slot. -/
def Task.none : Task := ⟨.empty, 0, ⟨0#64, 0#64, 0#64⟩⟩

/-- The fields of a task, those of its data included. -/
inductive Field
  | syncInfo
  | id
  | code
  | data
  | dataSize
  deriving DecidableEq

/-- `dst` with one field copied from `src`. -/
def Task.copyField (src dst : Task) : Field → Task
  | .syncInfo => { dst with syncInfo := src.syncInfo }
  | .id => { dst with id := src.id }
  | .code => { dst with data := { dst.data with code := src.data.code } }
  | .data => { dst with data := { dst.data with data := src.data.data } }
  | .dataSize => { dst with data := { dst.data with dataSize := src.data.dataSize } }

/-- `WorkerState`, as far as the two functions use it. -/
structure WorkerState where
  tasks : ℕ → Task
  taskCount : ℕ
  readFrom : ℕ
  writeTo : ℕ

/-- A point of `enqueue_task`; `slot` is the index of `target`. -/
inductive EnqueuePc
  | loadReadFrom
  | loadWriteTo (upperBound : ℕ)
  | claim (upperBound writeTo : ℕ)
  | advance (upperBound writeTo : ℕ)
  | takeId (slot : ℕ)
  | write (slot id : ℕ) (todo : List Field)
  /-- Returned `true`; `id` is the id that was taken. -/
  | accepted (id : ℕ)
  /-- Returned `false`. -/
  | refused

/-- A point of `dequeue_task`; `slot` is the index of `target`, `task` the local copy. -/
inductive DequeuePc
  | loadWriteTo
  | loadReadFrom (writeTo : ℕ)
  | claim (writeTo readFrom : ℕ)
  | advance (writeTo readFrom : ℕ)
  | copy (slot : ℕ) (task : Task) (todo : List Field)
  | returned (task : Task)

/-- A call, of no function yet or of one of the two on a worker. -/
inductive Call
  | idle
  | enqueue (worker : ℕ) (data : TaskData) (pc : EnqueuePc)
  | dequeue (worker : ℕ) (pc : DequeuePc)

/-- The shared state and all calls. -/
structure State where
  workers : ℕ → WorkerState
  nextId : ℕ
  calls : ℕ → Call

namespace State

/-- Slot `i` of worker `w`. -/
def task (s : State) (w i : ℕ) : Task := (s.workers w).tasks i

def setWorker (s : State) (w : ℕ) (worker : WorkerState) : State :=
  { s with workers := Function.update s.workers w worker }

def setTask (s : State) (w i : ℕ) (t : Task) : State :=
  s.setWorker w { s.workers w with tasks := Function.update (s.workers w).tasks i t }

/-- Write `sync_info` of slot `i` of worker `w`. -/
def setSync (s : State) (w i : ℕ) (y : SyncInfo) : State :=
  s.setTask w i { s.task w i with syncInfo := y }

def setReadFrom (s : State) (w r : ℕ) : State :=
  s.setWorker w { s.workers w with readFrom := r }

def setWriteTo (s : State) (w r : ℕ) : State :=
  s.setWorker w { s.workers w with writeTo := r }

def setCall (s : State) (c : ℕ) (call : Call) : State :=
  { s with calls := Function.update s.calls c call }

end State

/-- The fields `enqueue_task` writes, in the order of the source. -/
def enqueueFields : List Field := [.id, .code, .data, .dataSize]

/-- The fields that `task = *target` copies. -/
def dequeueFields : List Field := [.syncInfo, .id, .code, .data, .dataSize]

/-- One step of call `c`, at the point `pc` of `enqueue_task` on worker `w`. -/
def stepEnqueue (s : State) (c w : ℕ) (data : TaskData) (spurious : Bool) :
    EnqueuePc → Option State
  | .loadReadFrom =>
    let upperBound := (s.workers w).readFrom + (s.workers w).taskCount
    some (s.setCall c (.enqueue w data (.loadWriteTo upperBound)))
  | .loadWriteTo upperBound =>
    some (s.setCall c (.enqueue w data (.claim upperBound (s.workers w).writeTo)))
  | .claim upperBound writeTo =>
    let slot := writeTo % (s.workers w).taskCount
    if (s.task w slot).syncInfo = .empty then
      some ((s.setSync w slot .writing).setCall c (.enqueue w data (.takeId slot)))
    else
      some (s.setCall c (.enqueue w data (.advance upperBound writeTo)))
  | .advance upperBound writeTo =>
    if writeTo < upperBound then
      if (s.workers w).writeTo = writeTo ∧ spurious = false then
        -- the local copy is not refreshed: the same slot is tried again
        some ((s.setWriteTo w (writeTo + 1)).setCall c (.enqueue w data (.claim upperBound writeTo)))
      else
        some (s.setCall c (.enqueue w data (.advance upperBound (s.workers w).writeTo)))
    else
      some (s.setCall c (.enqueue w data .refused))
  | .takeId slot =>
    some (({ s with nextId := s.nextId + 1 } : State).setCall c
      (.enqueue w data (.write slot s.nextId enqueueFields)))
  | .write slot id (f :: todo) =>
    some ((s.setTask w slot (Task.copyField ⟨.empty, id, data⟩ (s.task w slot) f)).setCall c
      (.enqueue w data (.write slot id todo)))
  | .write slot id [] =>
    some ((s.setSync w slot .queued).setCall c (.enqueue w data (.accepted id)))
  | .accepted _ => none
  | .refused => none

/-- One step of call `c`, at the point `pc` of `dequeue_task` on worker `w`. -/
def stepDequeue (s : State) (c w : ℕ) (spurious : Bool) : DequeuePc → Option State
  | .loadWriteTo =>
    some (s.setCall c (.dequeue w (.loadReadFrom (s.workers w).writeTo)))
  | .loadReadFrom writeTo =>
    some (s.setCall c (.dequeue w (.claim writeTo (s.workers w).readFrom)))
  | .claim writeTo readFrom =>
    let slot := readFrom % (s.workers w).taskCount
    if (s.task w slot).syncInfo = .queued then
      some ((s.setSync w slot .reading).setCall c (.dequeue w (.copy slot .none dequeueFields)))
    else
      some (s.setCall c (.dequeue w (.advance writeTo readFrom)))
  | .advance writeTo readFrom =>
    if readFrom < writeTo then
      if (s.workers w).readFrom = readFrom ∧ spurious = false then
        -- the local copy is not refreshed: the same slot is tried again
        some ((s.setReadFrom w (readFrom + 1)).setCall c (.dequeue w (.claim writeTo readFrom)))
      else
        some (s.setCall c (.dequeue w (.advance writeTo (s.workers w).readFrom)))
    else
      some (s.setCall c (.dequeue w (.returned .none)))
  | .copy slot task (f :: todo) =>
    some (s.setCall c (.dequeue w (.copy slot (Task.copyField (s.task w slot) task f) todo)))
  | .copy slot task [] =>
    some ((s.setSync w slot .empty).setCall c (.dequeue w (.returned task)))
  | .returned _ => none

/-- What happens next: a call begins, or a call makes a step. -/
inductive Event
  | enqueue (c w : ℕ) (data : TaskData)
  | dequeue (c w : ℕ)
  | run (c : ℕ) (spurious : Bool)

/-- The call an event belongs to. -/
def Event.call : Event → ℕ
  | .enqueue c _ _ => c
  | .dequeue c _ => c
  | .run c _ => c

/-- The effect of an event, if it can happen. -/
def step (s : State) : Event → Option State
  | .enqueue c w data =>
    match s.calls c with
    | .idle => some (s.setCall c (.enqueue w data .loadReadFrom))
    | _ => none
  | .dequeue c w =>
    match s.calls c with
    | .idle => some (s.setCall c (.dequeue w .loadWriteTo))
    | _ => none
  | .run c spurious =>
    match s.calls c with
    | .idle => none
    | .enqueue w data pc => stepEnqueue s c w data spurious pc
    | .dequeue w pc => stepDequeue s c w spurious pc

/-- Empty rings with `taskCount w` slots, and no calls. -/
def initial (taskCount : ℕ → ℕ) : State where
  workers w := ⟨fun _ => .none, taskCount w, 0, 0⟩
  nextId := 0
  calls _ := .idle

/-- The states of all interleavings, on workers with rings of the given sizes. -/
def Reachable (taskCount : ℕ → ℕ) : State → Prop :=
  Runs.Reach step (fun _ _ => True) (initial taskCount)

/-! ### Reading an updated state -/

namespace State

variable (s : State) (c w i : ℕ)

theorem task_setTask (t : Task) (w' i' : ℕ) :
    (s.setTask w i t).task w' i' = if w' = w ∧ i' = i then t else s.task w' i' := by
  by_cases hw : w' = w
  · subst hw
    by_cases hi : i' = i
    · simp [setTask, setWorker, task, hi]
    · simp [setTask, setWorker, task, hi]
  · simp [setTask, setWorker, task, hw]

theorem task_setSync (y : SyncInfo) (w' i' : ℕ) : (s.setSync w i y).task w' i' =
    if w' = w ∧ i' = i then { s.task w i with syncInfo := y } else s.task w' i' :=
  s.task_setTask w i _ w' i'

@[simp] theorem task_setCall (call : Call) : (s.setCall c call).task w i = s.task w i := rfl

@[simp] theorem task_setReadFrom (r w' : ℕ) : (s.setReadFrom w' r).task w i = s.task w i := by
  by_cases h : w = w'
  · subst h
    simp [setReadFrom, setWorker, task]
  · simp [setReadFrom, setWorker, task, h]

@[simp] theorem task_setWriteTo (r w' : ℕ) : (s.setWriteTo w' r).task w i = s.task w i := by
  by_cases h : w = w'
  · subst h
    simp [setWriteTo, setWorker, task]
  · simp [setWriteTo, setWorker, task, h]

@[simp] theorem calls_setCall (call : Call) :
    (s.setCall c call).calls = Function.update s.calls c call := rfl

@[simp] theorem calls_setTask (t : Task) : (s.setTask w i t).calls = s.calls := rfl

@[simp] theorem calls_setSync (y : SyncInfo) : (s.setSync w i y).calls = s.calls := rfl

@[simp] theorem calls_setReadFrom (r : ℕ) : (s.setReadFrom w r).calls = s.calls := rfl

@[simp] theorem calls_setWriteTo (r : ℕ) : (s.setWriteTo w r).calls = s.calls := rfl

@[simp] theorem workers_setCall (call : Call) : (s.setCall c call).workers = s.workers := rfl

@[simp] theorem taskCount_setWorker (worker : WorkerState) (v : ℕ) :
    ((s.setWorker w worker).workers v).taskCount =
      if v = w then worker.taskCount else (s.workers v).taskCount := by
  by_cases h : v = w
  · subst h
    simp [setWorker]
  · simp [setWorker, h]

@[simp] theorem readFrom_setTask (t : Task) (v : ℕ) :
    ((s.setTask w i t).workers v).readFrom = (s.workers v).readFrom := by
  by_cases h : v = w
  · subst h
    simp [setTask, setWorker]
  · simp [setTask, setWorker, h]

@[simp] theorem writeTo_setTask (t : Task) (v : ℕ) :
    ((s.setTask w i t).workers v).writeTo = (s.workers v).writeTo := by
  by_cases h : v = w
  · subst h
    simp [setTask, setWorker]
  · simp [setTask, setWorker, h]

@[simp] theorem readFrom_setSync (y : SyncInfo) (v : ℕ) :
    ((s.setSync w i y).workers v).readFrom = (s.workers v).readFrom := by simp [setSync]

@[simp] theorem writeTo_setSync (y : SyncInfo) (v : ℕ) :
    ((s.setSync w i y).workers v).writeTo = (s.workers v).writeTo := by simp [setSync]

theorem readFrom_setReadFrom (r v : ℕ) :
    ((s.setReadFrom w r).workers v).readFrom = if v = w then r else (s.workers v).readFrom := by
  by_cases h : v = w
  · subst h
    simp [setReadFrom, setWorker]
  · simp [setReadFrom, setWorker, h]

@[simp] theorem writeTo_setReadFrom (r v : ℕ) :
    ((s.setReadFrom w r).workers v).writeTo = (s.workers v).writeTo := by
  by_cases h : v = w
  · subst h
    simp [setReadFrom, setWorker]
  · simp [setReadFrom, setWorker, h]

theorem writeTo_setWriteTo (r v : ℕ) :
    ((s.setWriteTo w r).workers v).writeTo = if v = w then r else (s.workers v).writeTo := by
  by_cases h : v = w
  · subst h
    simp [setWriteTo, setWorker]
  · simp [setWriteTo, setWorker, h]

@[simp] theorem readFrom_setWriteTo (r v : ℕ) :
    ((s.setWriteTo w r).workers v).readFrom = (s.workers v).readFrom := by
  by_cases h : v = w
  · subst h
    simp [setWriteTo, setWorker]
  · simp [setWriteTo, setWorker, h]

@[simp] theorem taskCount_setTask (t : Task) (v : ℕ) :
    ((s.setTask w i t).workers v).taskCount = (s.workers v).taskCount := by
  by_cases h : v = w
  · subst h
    simp [setTask]
  · simp [setTask, h]

@[simp] theorem nextId_setCall (call : Call) : (s.setCall c call).nextId = s.nextId := rfl

@[simp] theorem nextId_setTask (t : Task) : (s.setTask w i t).nextId = s.nextId := rfl

@[simp] theorem nextId_setSync (y : SyncInfo) : (s.setSync w i y).nextId = s.nextId := rfl

@[simp] theorem nextId_setReadFrom (r : ℕ) : (s.setReadFrom w r).nextId = s.nextId := rfl

@[simp] theorem nextId_setWriteTo (r : ℕ) : (s.setWriteTo w r).nextId = s.nextId := rfl

end State

/-- A call of `enqueue_task` begins. -/
theorem of_step_enqueue {s s' : State} {c w : ℕ} {data : TaskData}
    (hs : step s (.enqueue c w data) = some s') :
    s.calls c = .idle ∧ s' = s.setCall c (.enqueue w data .loadReadFrom) := by
  simp only [step] at hs
  split at hs
  · next hc => exact ⟨hc, (Option.some.inj hs).symm⟩
  · cases hs

/-- A call of `dequeue_task` begins. -/
theorem of_step_dequeue {s s' : State} {c w : ℕ} (hs : step s (.dequeue c w) = some s') :
    s.calls c = .idle ∧ s' = s.setCall c (.dequeue w .loadWriteTo) := by
  simp only [step] at hs
  split at hs
  · next hc => exact ⟨hc, (Option.some.inj hs).symm⟩
  · cases hs

/-- **Inversion** of `step`: a call begins, or a call of one of the two functions makes a step. -/
theorem step_cases {s s' : State} {e : Event} (hs : step s e = some s') :
    (∃ w data, s.calls e.call = .idle ∧ s' = s.setCall e.call (.enqueue w data .loadReadFrom)) ∨
    (∃ w, s.calls e.call = .idle ∧ s' = s.setCall e.call (.dequeue w .loadWriteTo)) ∨
    (∃ w data spurious pc, s.calls e.call = .enqueue w data pc ∧
      stepEnqueue s e.call w data spurious pc = some s') ∨
    ∃ w spurious pc, s.calls e.call = .dequeue w pc ∧
      stepDequeue s e.call w spurious pc = some s' := by
  cases e with
  | enqueue c w data => exact .inl ⟨w, data, of_step_enqueue hs⟩
  | dequeue c w => exact .inr (.inl ⟨w, of_step_dequeue hs⟩)
  | run c spurious =>
    simp only [step] at hs
    split at hs
    · cases hs
    · next w data pc hc => exact .inr (.inr (.inl ⟨w, data, spurious, pc, hc, hs⟩))
    · next w pc hc => exact .inr (.inr (.inr ⟨w, spurious, pc, hc, hs⟩))

/-- The sizes of the rings do not change. -/
theorem step_taskCount {s s' : State} {e : Event} (hs : step s e = some s') (v : ℕ) :
    (s'.workers v).taskCount = (s.workers v).taskCount := by
  have hset : ∀ (t : State) (w : ℕ) (worker : WorkerState),
      worker.taskCount = (t.workers w).taskCount →
      ((t.setWorker w worker).workers v).taskCount = (t.workers v).taskCount := by
    intro t w worker hw
    rw [State.taskCount_setWorker]
    split_ifs with h
    · rw [h, hw]
    · rfl
  obtain ⟨w, data, -, rfl⟩ | ⟨w, -, rfl⟩ | ⟨w, data, spurious, pc, hc, hs⟩ |
    ⟨w, spurious, pc, hc, hs⟩ := step_cases hs
  · rfl
  · rfl
  · cases pc with
    | write slot id todo => cases todo <;> (cases hs; exact hset s w _ rfl)
    | claim upperBound writeTo =>
      simp only [stepEnqueue] at hs
      split_ifs at hs <;> cases hs
      · exact hset s w _ rfl
      · rfl
    | advance upperBound writeTo =>
      simp only [stepEnqueue] at hs
      split_ifs at hs <;> cases hs
      · exact hset s w _ rfl
      · rfl
      · rfl
    | _ => cases hs <;> rfl
  · cases pc with
    | copy slot task todo =>
      cases todo <;> cases hs
      · exact hset s w _ rfl
      · rfl
    | claim writeTo readFrom =>
      simp only [stepDequeue] at hs
      split_ifs at hs <;> cases hs
      · exact hset s w _ rfl
      · rfl
    | advance writeTo readFrom =>
      simp only [stepDequeue] at hs
      split_ifs at hs <;> cases hs
      · exact hset s w _ rfl
      · rfl
      · rfl
    | _ => cases hs <;> rfl

end Dumboss.Tasks
