import Dumboss.Tasks.Conservation

/-!
# `add_task_inner` and the loop of `task_main`

Both go through the workers until a call of a ring function succeeds: `add_task_inner` offers its task
to the workers in order, `task_main` looks for a task, its own worker first.  Here they run on top of
the rings of `Dumboss.Tasks`, any number of them at the same time, with the steps of their calls
interleaved in any order.

`task_main` stores what a call returned in `running_task` of its worker, and tests it there.  Two loops
on one worker share that field, and one of them can overwrite a task the other has just found; so what
is said about the delivery of tasks is about runs in which a worker has one loop
(`System.OneLoopEach`).

* `Loop`, `Job`: the two loops and the points between two calls; the call of round `it` of job `j` is
  call `callOf j it`;
* `step`: one step of one job; a job with a call in progress makes a step of that call;
* `Rounds`, `SystemInv`: the calls a job has made, in any run;
* `Job.Answers`, `AnswersInv`: what they returned, and what is in `running_task`, where a worker has one
  loop;
* `reachable_delivery`: what is added is found once, or waits in one slot of one worker;
* `delivery_balance`: what is left in the rings when nothing runs.
-/

namespace Dumboss.Tasks.Scheduler

/-- The two loops over the workers. -/
inductive Loop
  /-- `FOR_PTR` of `add_task_inner`. -/
  | add (data : TaskData)
  /-- `RANGE` of `task_main`. -/
  | scan (selfIndex : ℕ)
  deriving DecidableEq

/-- The worker that round `it` asks. -/
def Loop.worker (workerCount : ℕ) : Loop → ℕ → ℕ
  | .add _, it => it
  | .scan selfIndex, it => (it + selfIndex) % workerCount

/-- The call of `enqueue_task` or `dequeue_task` begins. -/
def Loop.begin (w c : ℕ) : Loop → Tasks.Event
  | .add data => .enqueue c w data
  | .scan _ => .dequeue c w

/-- What a finished call returned: the value of `enqueue_task`, or whether the `sync_info` of the task
that `dequeue_task` returned is not `Task__Empty`. -/
def answer : Call → Option Bool
  | .enqueue _ _ (.accepted _) => some true
  | .enqueue _ _ .refused => some false
  | .dequeue _ (.returned task) => some (decide (task.syncInfo ≠ .empty))
  | _ => none

/-- A job. -/
inductive Job
  | idle
  | running (loop : Loop) (it : ℕ)
  /-- `task_main` has stored what round `it` returned, and tests `running_task` next. -/
  | stored (selfIndex it : ℕ)
  /-- `add_task_inner` returned `true`, or `task_main` left its loop by `break`, in round `it`. -/
  | succeeded (loop : Loop) (it : ℕ)
  /-- `add_task_inner` returned `false`, or `task_main` came to the end of its loop. -/
  | exhausted (loop : Loop)

/-- `add_task_inner`. -/
def addTaskInner (data : TaskData) : Job := .running (.add data) 0

/-- `task_main`, up to the end of its loop. -/
def taskMain (selfIndex : ℕ) : Job := .running (.scan selfIndex) 0

/-- The rings with their calls, `running_task` of the workers, and the jobs. -/
structure System where
  tasks : State
  runningTask : ℕ → Task
  jobs : ℕ → Job

/-- The number of the call that round `it` of job `j` makes. -/
def callOf (j it : ℕ) : ℕ := Nat.pair j it

/-- The call of round `it` of job `j`. -/
def System.call (s : System) (j it : ℕ) : Call := s.tasks.calls (callOf j it)

def System.setJob (s : System) (j : ℕ) (job : Job) : System :=
  { s with jobs := Function.update s.jobs j job }

@[simp] theorem jobs_setJob (s : System) (j : ℕ) (job : Job) : (s.setJob j job).jobs j = job :=
  Function.update_self _ _ _

/-- `workers[w].running_task = task`; only `sync_info` of it is read again. -/
def System.setRunning (s : System) (w : ℕ) (task : Task) : System :=
  { s with runningTask := Function.update s.runningTask w task }

/-- What happens next: a job begins, or makes a step. -/
inductive Event
  | add (j : ℕ) (data : TaskData)
  | main (j selfIndex : ℕ)
  | run (j : ℕ) (spurious : Bool)

/-- The job an event belongs to. -/
def Event.job : Event → ℕ
  | .add j _ => j
  | .main j _ => j
  | .run j _ => j

/-- One step of job `j` in round `it` of its loop. -/
def runLoop (workerCount : ℕ) (s : System) (j : ℕ) (spurious : Bool) (loop : Loop) (it : ℕ) :
    Option System :=
  if it < workerCount then
    match loop, s.call j it with
    | loop, .idle => (Tasks.step s.tasks (loop.begin (loop.worker workerCount it) (callOf j it))).map
        fun tasks => { s with tasks := tasks }
    | .add _, .enqueue _ _ (.accepted _) => some (s.setJob j (.succeeded loop it))
    | .add _, .enqueue _ _ .refused => some (s.setJob j (.running loop (it + 1)))
    | .scan selfIndex, .dequeue _ (.returned task) =>
      some ((s.setRunning selfIndex task).setJob j (.stored selfIndex it))
    | _, _ => (Tasks.step s.tasks (.run (callOf j it) spurious)).map
        fun tasks => { s with tasks := tasks }
  else some (s.setJob j (.exhausted loop))

/-- The test of `running_task` at the end of round `it`.  If the loop goes on, the next call begins;
this reads and writes nothing that is shared. -/
def testTask (workerCount : ℕ) (s : System) (j selfIndex it : ℕ) : Option System :=
  let loop := Loop.scan selfIndex
  if (s.runningTask selfIndex).syncInfo ≠ .empty then some (s.setJob j (.succeeded loop it))
  else if it + 1 < workerCount then
    (Tasks.step s.tasks (loop.begin (loop.worker workerCount (it + 1)) (callOf j (it + 1)))).map
      fun tasks => ({ s with tasks := tasks } : System).setJob j (.running loop (it + 1))
  else some (s.setJob j (.exhausted loop))

/-- The effect of an event, if it can happen. -/
def step (workerCount : ℕ) (s : System) : Event → Option System
  | .add j data =>
    match s.jobs j with
    | .idle => some (s.setJob j (addTaskInner data))
    | _ => none
  | .main j selfIndex =>
    match s.jobs j with
    | .idle => some (s.setJob j (taskMain selfIndex))
    | _ => none
  | .run j spurious =>
    match s.jobs j with
    | .running loop it => runLoop workerCount s j spurious loop it
    | .stored selfIndex it => testTask workerCount s j selfIndex it
    | _ => none

/-- Empty rings, zeroed workers, and no jobs. -/
def initial (taskCount : ℕ → ℕ) : System := ⟨Tasks.initial taskCount, fun _ => .none, fun _ => .idle⟩

/-- The states of all interleavings. -/
def Reachable (workerCount : ℕ) (taskCount : ℕ → ℕ) : System → Prop :=
  Runs.Reach (step workerCount) (fun _ _ => True) (initial taskCount)

/-- The loop a job is in, or was in. -/
def Job.loop : Job → Option Loop
  | .idle => none
  | .running loop _ => some loop
  | .stored selfIndex _ => some (.scan selfIndex)
  | .succeeded loop _ => some loop
  | .exhausted loop => some loop

/-- No worker has two loops of `task_main`.  A job stays with its loop, so this is about the whole run
that leads to `s`. -/
def System.OneLoopEach (s : System) : Prop :=
  ∀ j k selfIndex, (s.jobs j).loop = some (.scan selfIndex) →
    (s.jobs k).loop = some (.scan selfIndex) → j = k

/-- The job is not on the way through its loop. -/
def Job.ended : Job → Bool
  | .running _ _ => false
  | .stored _ _ => false
  | _ => true

/-- The round a job is in, or ended with. -/
def Job.round : Job → Option (Loop × ℕ)
  | .running loop it => some (loop, it)
  | .stored selfIndex it => some (.scan selfIndex, it)
  | .succeeded loop it => some (loop, it)
  | _ => none

/-! ### The steps -/

variable {workerCount : ℕ} {taskCount : ℕ → ℕ} {s s' : System} {j : ℕ}

/-- What a step of job `j` can do. -/
inductive Change (workerCount : ℕ) (s : System) (j : ℕ) (s' : System) : Prop
  | start (loop : Loop) (hold : s.jobs j = .idle) (hnew : s' = s.setJob j (.running loop 0))
  /-- A step of the call of this round. -/
  | call (loop : Loop) (it : ℕ) (e : Tasks.Event) (tasks : State) (hold : s.jobs j = .running loop it)
      (hit : it < workerCount) (he : e.call = callOf j it) (hs : Tasks.step s.tasks e = some tasks)
      (hbegin : s.call j it = .idle → e = loop.begin (loop.worker workerCount it) (callOf j it))
      (hnew : s' = { s with tasks := tasks })
  | succeed (data : TaskData) (it : ℕ) (hold : s.jobs j = .running (.add data) it)
      (hit : it < workerCount) (hans : answer (s.call j it) = some true)
      (hnew : s' = s.setJob j (.succeeded (.add data) it))
  | next (data : TaskData) (it : ℕ) (hold : s.jobs j = .running (.add data) it)
      (hit : it < workerCount) (hans : answer (s.call j it) = some false)
      (hnew : s' = s.setJob j (.running (.add data) (it + 1)))
  | store (selfIndex it w : ℕ) (task : Task) (hold : s.jobs j = .running (.scan selfIndex) it)
      (hit : it < workerCount) (hcall : s.call j it = .dequeue w (.returned task))
      (hnew : s' = (s.setRunning selfIndex task).setJob j (.stored selfIndex it))
  | found (selfIndex it : ℕ) (hold : s.jobs j = .stored selfIndex it)
      (htest : (s.runningTask selfIndex).syncInfo ≠ .empty)
      (hnew : s' = s.setJob j (.succeeded (.scan selfIndex) it))
  /-- The call of the next round begins. -/
  | again (selfIndex it : ℕ) (e : Tasks.Event) (tasks : State) (hold : s.jobs j = .stored selfIndex it)
      (htest : (s.runningTask selfIndex).syncInfo = .empty) (hit : it + 1 < workerCount)
      (he : e = (Loop.scan selfIndex).begin ((Loop.scan selfIndex).worker workerCount (it + 1))
        (callOf j (it + 1)))
      (hs : Tasks.step s.tasks e = some tasks)
      (hnew : s' = ({ s with tasks := tasks } : System).setJob j
        (.running (.scan selfIndex) (it + 1)))
  | last (selfIndex it : ℕ) (hold : s.jobs j = .stored selfIndex it)
      (htest : (s.runningTask selfIndex).syncInfo = .empty) (hit : ¬ it + 1 < workerCount)
      (hnew : s' = s.setJob j (.exhausted (.scan selfIndex)))
  | exhaust (loop : Loop) (it : ℕ) (hold : s.jobs j = .running loop it) (hit : ¬ it < workerCount)
      (hnew : s' = s.setJob j (.exhausted loop))

theorem Loop.call_begin (loop : Loop) (w c : ℕ) : (loop.begin w c).call = c := by cases loop <;> rfl

theorem change_of_runLoop {loop : Loop} {it : ℕ} {spurious : Bool} (hold : s.jobs j = .running loop it)
    (hs : runLoop workerCount s j spurious loop it = some s') : Change workerCount s j s' := by
  unfold runLoop at hs
  split_ifs at hs with hit
  · split at hs
    · next hidle =>
      obtain ⟨tasks, ht, rfl⟩ := Option.map_eq_some_iff.1 hs
      exact .call _ it _ tasks hold hit (Loop.call_begin _ _ _) ht (fun _ => rfl) rfl
    · next hcall =>
      exact .succeed _ it hold hit (by rw [hcall]; rfl) (Option.some.inj hs).symm
    · next hcall =>
      exact .next _ it hold hit (by rw [hcall]; rfl) (Option.some.inj hs).symm
    · next hcall => exact .store _ it _ _ hold hit hcall (Option.some.inj hs).symm
    · next hbusy _ _ _ =>
      obtain ⟨tasks, ht, rfl⟩ := Option.map_eq_some_iff.1 hs
      exact .call _ it _ tasks hold hit rfl ht (fun h => absurd h hbusy) rfl
  · exact .exhaust loop it hold hit (Option.some.inj hs).symm

theorem change_of_testTask {selfIndex it : ℕ} (hold : s.jobs j = .stored selfIndex it)
    (hs : testTask workerCount s j selfIndex it = some s') : Change workerCount s j s' := by
  simp only [testTask] at hs
  split_ifs at hs with htest hit
  · exact .found selfIndex it hold htest (Option.some.inj hs).symm
  · obtain ⟨tasks, ht, rfl⟩ := Option.map_eq_some_iff.1 hs
    exact .again selfIndex it _ tasks hold (not_not.1 htest) hit rfl ht rfl
  · exact .last selfIndex it hold (not_not.1 htest) hit (Option.some.inj hs).symm

/-- **Inversion** of `step`. -/
theorem change_of_step {e : Event} (hs : step workerCount s e = some s') :
    Change workerCount s e.job s' := by
  cases e with
  | add j data =>
    simp only [step] at hs
    split at hs
    · next hold => exact .start _ hold (Option.some.inj hs).symm
    · cases hs
  | main j selfIndex =>
    simp only [step] at hs
    split at hs
    · next hold => exact .start _ hold (Option.some.inj hs).symm
    · cases hs
  | run j spurious =>
    simp only [step] at hs
    split at hs
    · next loop it hold => exact change_of_runLoop hold hs
    · next selfIndex it hold => exact change_of_testTask hold hs
    · cases hs

/-- The rings run as they do by themselves. -/
theorem Reachable.tasks (hr : Reachable workerCount taskCount s) :
    Tasks.Reachable taskCount s.tasks := by
  have h0 : Tasks.Reachable taskCount (initial taskCount).tasks := Runs.Reach.refl
  refine hr.invariant (P := fun s => Tasks.Reachable taskCount s.tasks) h0 ?_
  intro s e s' ih _ hs
  cases change_of_step hs with
  | call loop it e tasks hold hit he hstep hbegin hnew =>
    subst hnew
    exact ih.tail trivial hstep
  | again selfIndex it e tasks hold htest hit he hstep hnew =>
    subst hnew
    exact ih.tail trivial hstep
  | _ => subst s'; exact ih

/-! ### The calls of a job -/

theorem exists_pc_of_stepEnqueue {t t' : State} {c w : ℕ} {data : TaskData} {spurious : Bool}
    {pc : EnqueuePc} (hs : stepEnqueue t c w data spurious pc = some t') :
    ∃ pc', t'.calls = Function.update t.calls c (.enqueue w data pc') := by
  cases pc with
  | claim upperBound writeTo =>
    simp only [stepEnqueue] at hs
    split_ifs at hs <;> (cases hs; exact ⟨_, rfl⟩)
  | advance upperBound writeTo =>
    simp only [stepEnqueue] at hs
    split_ifs at hs <;> (cases hs; exact ⟨_, rfl⟩)
  | write slot id todo => cases todo <;> (cases hs; exact ⟨_, rfl⟩)
  | _ => cases hs <;> exact ⟨_, rfl⟩

theorem exists_pc_of_stepDequeue {t t' : State} {c w : ℕ} {spurious : Bool} {pc : DequeuePc}
    (hs : stepDequeue t c w spurious pc = some t') :
    ∃ pc', t'.calls = Function.update t.calls c (.dequeue w pc') := by
  cases pc with
  | claim writeTo readFrom =>
    simp only [stepDequeue] at hs
    split_ifs at hs <;> (cases hs; exact ⟨_, rfl⟩)
  | advance writeTo readFrom =>
    simp only [stepDequeue] at hs
    split_ifs at hs <;> (cases hs; exact ⟨_, rfl⟩)
  | copy slot task todo => cases todo <;> (cases hs; exact ⟨_, rfl⟩)
  | _ => cases hs <;> exact ⟨_, rfl⟩

/-- The call is one that round `it` of the loop makes. -/
def Loop.Made (workerCount : ℕ) : Loop → ℕ → Call → Prop
  | .add data, it, .enqueue w d _ => w = it ∧ d = data
  | .scan selfIndex, it, .dequeue w _ => w = (it + selfIndex) % workerCount
  | _, _, _ => False

/-- The calls of the rounds before `it` have ended, those of later rounds have not begun. -/
structure Rounds (workerCount : ℕ) (loop : Loop) (calls : ℕ → Call) (it : ℕ) : Prop where
  past : ∀ i < it, loop.Made workerCount i (calls i) ∧ answer (calls i) ≠ none
  later : ∀ i, it < i → calls i = .idle

/-- The calls that go with the point a job is at. -/
def Job.Calls (workerCount : ℕ) (calls : ℕ → Call) : Job → Prop
  | .idle => ∀ i, calls i = .idle
  | .running loop it => it ≤ workerCount ∧ Rounds workerCount loop calls it ∧
      (calls it = .idle ∨ it < workerCount ∧ loop.Made workerCount it (calls it))
  | .stored selfIndex it => it < workerCount ∧ Rounds workerCount (.scan selfIndex) calls it ∧
      (Loop.scan selfIndex).Made workerCount it (calls it) ∧ answer (calls it) ≠ none
  | .succeeded loop it => it < workerCount ∧ Rounds workerCount loop calls it ∧
      loop.Made workerCount it (calls it) ∧ answer (calls it) ≠ none
  | .exhausted loop => Rounds workerCount loop calls workerCount ∧ calls workerCount = .idle

/-- **The invariant**: every job has made the calls of its rounds, and nothing else was called. -/
def SystemInv (workerCount : ℕ) (s : System) : Prop :=
  ∀ j, (s.jobs j).Calls workerCount (s.call j)

theorem callOf_inj {j k i l : ℕ} (h : callOf j i = callOf k l) : j = k ∧ i = l := Nat.pair_eq_pair.1 h

theorem callOf_unpair (c : ℕ) : callOf c.unpair.1 c.unpair.2 = c := Nat.pair_unpair c

/-- A call that has begun goes on as the call it is. -/
theorem Loop.Made.step {loop : Loop} {it : ℕ} {t t' : State} {e : Tasks.Event}
    (hs : Tasks.step t e = some t') (hm : loop.Made workerCount it (t.calls e.call)) :
    loop.Made workerCount it (t'.calls e.call) := by
  obtain ⟨w, data, hc, -⟩ | ⟨w, hc, -⟩ | ⟨w, data, spurious, pc, hc, hs⟩ |
    ⟨w, spurious, pc, hc, hs⟩ := step_cases hs
  · rw [hc] at hm
    cases loop <;> exact hm.elim
  · rw [hc] at hm
    cases loop <;> exact hm.elim
  · obtain ⟨pc', hpc⟩ := exists_pc_of_stepEnqueue hs
    rw [hc] at hm
    rw [hpc, Function.update_self]
    cases loop with
    | add d => exact hm
    | scan selfIndex => exact hm.elim
  · obtain ⟨pc', hpc⟩ := exists_pc_of_stepDequeue hs
    rw [hc] at hm
    rw [hpc, Function.update_self]
    cases loop with
    | add d => exact hm.elim
    | scan selfIndex => exact hm

/-- The call of a round begins. -/
theorem Loop.made_begin {loop : Loop} {it c : ℕ} {t t' : State}
    (hs : Tasks.step t (loop.begin (loop.worker workerCount it) c) = some t') :
    loop.Made workerCount it (t'.calls c) := by
  cases loop with
  | add data =>
    obtain ⟨-, rfl⟩ := of_step_enqueue hs
    rw [State.calls_setCall, Function.update_self]
    exact ⟨rfl, rfl⟩
  | scan selfIndex =>
    obtain ⟨-, rfl⟩ := of_step_dequeue hs
    rw [State.calls_setCall, Function.update_self]
    exact rfl

theorem ne_idle_of_answer {call : Call} (h : answer call ≠ none) : call ≠ .idle := by
  rintro rfl
  exact h rfl

/-- Only the job that makes the step changes, and only its calls. -/
theorem Change.other (h : Change workerCount s j s') {k : ℕ} (hk : k ≠ j) :
    s'.jobs k = s.jobs k ∧ s'.call k = s.call k := by
  have hset : ∀ job, (s.setJob j job).jobs k = s.jobs k ∧ (s.setJob j job).call k = s.call k :=
    fun job => ⟨Function.update_of_ne hk _ _, rfl⟩
  -- a step of one of the calls of `j`
  have hcalls : ∀ {it e tasks}, e.call = callOf j it → Tasks.step s.tasks e = some tasks →
      (fun i => tasks.calls (callOf k i)) = s.call k := by
    intro it e tasks he hs
    refine funext fun i => calls_eq_of_step hs ?_
    rw [he]
    exact fun hc => hk (callOf_inj hc).1
  cases h with
  | call loop it e tasks hold hit he hs hbegin hnew => exact hnew ▸ ⟨rfl, hcalls he hs⟩
  | again selfIndex it e tasks hold htest hit he hs hnew =>
    have hcall := hcalls (he ▸ Loop.call_begin _ _ _) hs
    exact hnew ▸ ⟨Function.update_of_ne hk _ _, hcall⟩
  | start loop hold hnew => exact hnew ▸ hset _
  | succeed data it hold hit hans hnew => exact hnew ▸ hset _
  | next data it hold hit hans hnew => exact hnew ▸ hset _
  | store selfIndex it w task hold hit hcall hnew => exact hnew ▸ ⟨Function.update_of_ne hk _ _, rfl⟩
  | found selfIndex it hold htest hnew => exact hnew ▸ hset _
  | last selfIndex it hold htest hit hnew => exact hnew ▸ hset _
  | exhaust loop it hold hit hnew => exact hnew ▸ hset _

/-- A job stays with its loop. -/
theorem Change.loop_eq (h : Change workerCount s j s') {k : ℕ} {loop : Loop}
    (hk : (s.jobs k).loop = some loop) : (s'.jobs k).loop = some loop := by
  by_cases hkj : k = j
  · subst hkj
    have hset : ∀ {t : System} {job : Job}, job.loop = (s.jobs k).loop →
        ((t.setJob k job).jobs k).loop = some loop := by
      intro t job hjob
      rw [jobs_setJob, hjob, hk]
    cases h with
    | call loop it e tasks hold hit he hs hbegin hnew => exact hnew ▸ hk
    | again selfIndex it e tasks hold htest hit he hs hnew => exact hnew ▸ hset (hold ▸ rfl)
    | start loop hold hnew =>
      rw [hold] at hk
      cases hk
    | succeed data it hold hit hans hnew => exact hnew ▸ hset (hold ▸ rfl)
    | next data it hold hit hans hnew => exact hnew ▸ hset (hold ▸ rfl)
    | store selfIndex it w task hold hit hcall hnew => exact hnew ▸ hset (hold ▸ rfl)
    | found selfIndex it hold htest hnew => exact hnew ▸ hset (hold ▸ rfl)
    | last selfIndex it hold htest hit hnew => exact hnew ▸ hset (hold ▸ rfl)
    | exhaust loop it hold hit hnew => exact hnew ▸ hset (hold ▸ rfl)
  · rw [(h.other hkj).1]
    exact hk

/-- The rounds go on by one. -/
theorem Rounds.succ {loop : Loop} {calls : ℕ → Call} {it : ℕ} (hR : Rounds workerCount loop calls it)
    (hm : loop.Made workerCount it (calls it)) (hans : answer (calls it) ≠ none) :
    Rounds workerCount loop calls (it + 1) := by
  refine ⟨?_, fun i hi => hR.later i (by omega)⟩
  intro i hi
  rcases Nat.lt_succ_iff_lt_or_eq.1 hi with hi | rfl
  · exact hR.past i hi
  · exact ⟨hm, hans⟩

/-- Only the call of the last round makes a step. -/
theorem Rounds.congr {loop : Loop} {calls calls' : ℕ → Call} {it : ℕ}
    (hR : Rounds workerCount loop calls it) (hcalls : ∀ i, i ≠ it → calls' i = calls i) :
    Rounds workerCount loop calls' it := by
  refine ⟨?_, ?_⟩
  · intro i hi
    rw [hcalls i hi.ne]
    exact hR.past i hi
  · intro i hi
    rw [hcalls i hi.ne']
    exact hR.later i hi

/-- The calls of the job that makes the step. -/
theorem Change.own (h : Change workerCount s j s')
    (hI : (s.jobs j).Calls workerCount (s.call j)) :
    (s'.jobs j).Calls workerCount (s'.call j) := by
  have hset : ∀ (t : System) {job : Job}, job.Calls workerCount (t.call j) →
      ((t.setJob j job).jobs j).Calls workerCount ((t.setJob j job).call j) := by
    intro t job hjob
    rw [jobs_setJob]
    exact hjob
  have hother : ∀ {it e tasks}, e.call = callOf j it → Tasks.step s.tasks e = some tasks →
      ∀ i, i ≠ it → tasks.calls (callOf j i) = s.call j i := by
    intro it e tasks he hs i hi
    refine calls_eq_of_step hs ?_
    rw [he]
    exact fun hc => hi (callOf_inj hc).2
  cases h with
  | start loop hold hnew =>
    rw [hold] at hI
    exact hnew ▸ hset s ⟨Nat.zero_le _, ⟨by simp, fun i _ => hI i⟩, Or.inl (hI 0)⟩
  | call loop it e tasks hold hit he hs hbegin hnew =>
    subst hnew
    rw [hold] at hI
    obtain ⟨hle, hR, hnow⟩ := hI
    change (s.jobs j).Calls workerCount _
    rw [hold]
    refine ⟨hle, hR.congr (hother he hs), Or.inr ⟨hit, ?_⟩⟩
    change loop.Made workerCount it (tasks.calls (callOf j it))
    rcases hnow with hidle | ⟨-, hm⟩
    · rw [hbegin hidle] at hs
      exact Loop.made_begin hs
    · rw [← he]
      refine Loop.Made.step hs ?_
      rw [he]
      exact hm
  | succeed data it hold hit hans hnew =>
    have hne : answer (s.call j it) ≠ none := hans ▸ Option.some_ne_none _
    rw [hold] at hI
    obtain ⟨hle, hR, hnow⟩ := hI
    exact hnew ▸ hset s ⟨hit, hR, (hnow.resolve_left (ne_idle_of_answer hne)).2, hne⟩
  | next data it hold hit hans hnew =>
    have hne : answer (s.call j it) ≠ none := hans ▸ Option.some_ne_none _
    rw [hold] at hI
    obtain ⟨hle, hR, hnow⟩ := hI
    exact hnew ▸ hset s ⟨hit, hR.succ (hnow.resolve_left (ne_idle_of_answer hne)).2 hne,
      Or.inl (hR.later _ (Nat.lt_succ_self it))⟩
  | store selfIndex it w task hold hit hcall hnew =>
    have hne : answer (s.call j it) ≠ none := hcall ▸ Option.some_ne_none _
    rw [hold] at hI
    obtain ⟨hle, hR, hnow⟩ := hI
    exact hnew ▸ hset (s.setRunning selfIndex task)
      ⟨hit, hR, (hnow.resolve_left (ne_idle_of_answer hne)).2, hne⟩
  | found selfIndex it hold htest hnew =>
    rw [hold] at hI
    exact hnew ▸ hset s hI
  | again selfIndex it e tasks hold htest hit he hs hnew =>
    rw [hold] at hI
    obtain ⟨hlt, hR, hm, hne⟩ := hI
    subst he
    refine hnew ▸ hset { s with tasks := tasks } ⟨hit.le, ?_, Or.inr ⟨hit, Loop.made_begin hs⟩⟩
    exact (hR.succ hm hne).congr (hother (Loop.call_begin _ _ _) hs)
  | last selfIndex it hold htest hit hnew =>
    rw [hold] at hI
    obtain ⟨hlt, hR, hm, hne⟩ := hI
    obtain rfl : workerCount = it + 1 := by omega
    exact hnew ▸ hset s ⟨hR.succ hm hne, hR.later _ (Nat.lt_succ_self it)⟩
  | exhaust loop it hold hit hnew =>
    rw [hold] at hI
    obtain ⟨hle, hR, hnow⟩ := hI
    obtain rfl : it = workerCount := by omega
    exact hnew ▸ hset s ⟨hR, hnow.resolve_right fun h => hit h.1⟩

/-- **Run lemma.** -/
theorem Reachable.inv (hr : Reachable workerCount taskCount s) : SystemInv workerCount s := by
  refine hr.invariant (P := SystemInv workerCount) (fun j i => rfl) ?_
  intro s e s' hI _ hs k
  by_cases hk : k = e.job
  · subst hk
    exact (change_of_step hs).own (hI _)
  · obtain ⟨hjob, hcall⟩ := (change_of_step hs).other hk
    rw [hjob, hcall]
    exact hI k

/-- **Inversion**: a call that has begun is one of a round of its job, and it has ended unless it is
the one of the round the job is in. -/
theorem Job.Calls.made {job : Job} {calls : ℕ → Call} (h : job.Calls workerCount calls) {i : ℕ}
    (hi : calls i ≠ .idle) : ∃ loop, job.loop = some loop ∧ i < workerCount ∧
      loop.Made workerCount i (calls i) ∧ (answer (calls i) ≠ none ∨ job = .running loop i) := by
  -- the rounds before the last one, and that one
  have hrounds : ∀ {loop it}, Rounds workerCount loop calls it → it ≤ workerCount →
      (i = it → i < workerCount ∧ loop.Made workerCount i (calls i)) →
      i < workerCount ∧ loop.Made workerCount i (calls i) ∧ (answer (calls i) ≠ none ∨ i = it) := by
    intro loop it hR hle hlast
    rcases lt_trichotomy i it with hlt | heq | hgt
    · obtain ⟨hm, ha⟩ := hR.past i hlt
      exact ⟨by omega, hm, Or.inl ha⟩
    · exact ⟨(hlast heq).1, (hlast heq).2, Or.inr heq⟩
    · exact absurd (hR.later i hgt) hi
  cases job with
  | idle => exact absurd (h i) hi
  | running loop it =>
    obtain ⟨hle, hR, hnow⟩ := h
    obtain ⟨hlt, hm, hans⟩ := hrounds hR hle (by rintro rfl; exact hnow.resolve_left hi)
    refine ⟨loop, rfl, hlt, hm, hans.imp_right ?_⟩
    rintro rfl
    rfl
  | stored selfIndex it =>
    obtain ⟨hit, hR, hm, ha⟩ := h
    obtain ⟨hlt, hm', hans⟩ := hrounds hR hit.le (by rintro rfl; exact ⟨hit, hm⟩)
    refine ⟨.scan selfIndex, rfl, hlt, hm', Or.inl (hans.elim id ?_)⟩
    rintro rfl
    exact ha
  | succeeded loop it =>
    obtain ⟨hit, hR, hm, ha⟩ := h
    obtain ⟨hlt, hm', hans⟩ := hrounds hR hit.le (by rintro rfl; exact ⟨hit, hm⟩)
    refine ⟨loop, rfl, hlt, hm', Or.inl (hans.elim id ?_)⟩
    rintro rfl
    exact ha
  | exhausted loop =>
    obtain ⟨hR, hidle⟩ := h
    obtain ⟨hlt, hm, hans⟩ := hrounds hR le_rfl (by rintro rfl; exact absurd hidle hi)
    exact ⟨loop, rfl, hlt, hm, Or.inl (hans.resolve_right hlt.ne)⟩

theorem Loop.Made.worker_lt {loop : Loop} {it w i : ℕ} {y : SyncInfo} {call : Call}
    (hit : it < workerCount) (hm : loop.Made workerCount it call) (ho : call.owned = some (y, w, i)) :
    w < workerCount := by
  cases loop with
  | add data =>
    cases call with
    | enqueue v d pc =>
      obtain ⟨rfl, -⟩ := hm
      cases pc <;> cases ho <;> exact hit
    | _ => exact hm.elim
  | scan selfIndex =>
    cases call with
    | dequeue v pc =>
      have hv : v < workerCount := hm ▸ Nat.mod_lt _ (by omega)
      cases pc <;> cases ho
      exact hv
    | _ => exact hm.elim

/-- Only slots of the workers there are have an owner. -/
theorem SystemInv.worker_lt (hI : SystemInv workerCount s) {c w i : ℕ} {y : SyncInfo}
    (ho : s.tasks.own c = some (y, w, i)) : w < workerCount := by
  have hcall : s.call c.unpair.1 c.unpair.2 = s.tasks.calls c := by rw [System.call, callOf_unpair]
  have ho' : (s.call c.unpair.1 c.unpair.2).owned = some (y, w, i) := by rw [hcall]; exact ho
  obtain ⟨loop, -, hlt, hm, -⟩ := (hI c.unpair.1).made (i := c.unpair.2) (by
    intro hidle
    rw [hidle] at ho'
    cases ho')
  exact hm.worker_lt hlt ho'

/-- The slots of other workers are never written. -/
theorem Reachable.task_eq_none (hr : Reachable workerCount taskCount s) {w : ℕ}
    (hw : workerCount ≤ w) (i : ℕ) : s.tasks.task w i = .none := by
  induction hr with
  | refl => rfl
  | @tail s s' e hr hg hs ih =>
    have hI : SystemInv workerCount s := Reachable.inv hr
    have hI' : SystemInv workerCount s' := Reachable.inv (hr.tail hg hs)
    cases change_of_step hs with
    | call loop it e tasks hold hit he hstep hbegin hnew =>
      subst hnew
      by_contra hne
      have hne' : tasks.task w i ≠ s.tasks.task w i := by
        rw [ih]
        exact hne
      rcases (Tasks.change_of_step hstep).writes hne' with ⟨y, hy⟩ | ⟨y, -, -, hy⟩
      · exact absurd (hI.worker_lt hy) (by omega)
      · exact absurd (hI'.worker_lt hy) (by omega)
    | again selfIndex it e tasks hold htest hit he hstep hnew =>
      subst he
      obtain ⟨-, rfl⟩ := of_step_dequeue hstep
      exact hnew ▸ ih
    | _ => subst s'; exact ih

/-! ### The answers, and `running_task` -/

/-- `running_task` of the worker holds what the call returned to `task_main`. -/
def Loop.Shows (runningTask : ℕ → Task) : Loop → Call → Prop
  | .add _, _ => True
  | .scan selfIndex, call => ∃ w, call = .dequeue w (.returned (runningTask selfIndex))

/-- The calls of the rounds before `it` have failed. -/
def Failed (calls : ℕ → Call) (it : ℕ) : Prop := ∀ i < it, answer (calls i) = some false

/-- What the calls of a job have returned, and whether `running_task` shows it. -/
def Job.Answers (workerCount : ℕ) (runningTask : ℕ → Task) (calls : ℕ → Call) : Job → Prop
  | .idle => True
  | .running loop it => Failed calls it ∧
      ∀ i, i + 1 = it → it = workerCount → loop.Shows runningTask (calls i)
  | .stored selfIndex it => Failed calls it ∧ (Loop.scan selfIndex).Shows runningTask (calls it)
  | .succeeded loop it => Failed calls it ∧ answer (calls it) = some true ∧
      loop.Shows runningTask (calls it)
  | .exhausted loop => Failed calls workerCount ∧
      ∀ i, i + 1 = workerCount → loop.Shows runningTask (calls i)

/-- **The invariant** where a worker has one loop: a job goes on to the next round when the call of the
last one has failed. -/
structure AnswersInv (workerCount : ℕ) (s : System) : Prop where
  calls : SystemInv workerCount s
  answers : ∀ j, (s.jobs j).Answers workerCount s.runningTask (s.call j)

theorem Failed.succ {calls : ℕ → Call} {it : ℕ} (hF : Failed calls it)
    (hans : answer (calls it) = some false) : Failed calls (it + 1) := by
  intro i hi
  rcases Nat.lt_succ_iff_lt_or_eq.1 hi with hi | rfl
  · exact hF i hi
  · exact hans

theorem Failed.congr {calls calls' : ℕ → Call} {it : ℕ} (hF : Failed calls it)
    (hcalls : ∀ i < it, calls' i = calls i) : Failed calls' it := by
  intro i hi
  rw [hcalls i hi]
  exact hF i hi

/-- The test of `running_task` is one of what the call returned. -/
theorem Loop.Shows.answer {runningTask : ℕ → Task} {selfIndex : ℕ} {call : Call}
    (h : (Loop.scan selfIndex).Shows runningTask call) :
    answer call = some (decide ((runningTask selfIndex).syncInfo ≠ .empty)) := by
  obtain ⟨w, rfl⟩ := h
  rfl

theorem Loop.Shows.congr {runningTask runningTask' : ℕ → Task} {loop : Loop} {call : Call}
    (h : loop.Shows runningTask call)
    (hrun : ∀ selfIndex, loop = .scan selfIndex → runningTask' selfIndex = runningTask selfIndex) :
    loop.Shows runningTask' call := by
  cases loop with
  | add data => trivial
  | scan selfIndex =>
    rw [Loop.Shows, hrun selfIndex rfl]
    exact h

/-- Only `running_task` of the job's own worker counts. -/
theorem Job.Answers.congr {runningTask runningTask' : ℕ → Task} {calls : ℕ → Call} {job : Job}
    (h : job.Answers workerCount runningTask calls)
    (hrun : ∀ selfIndex, job.loop = some (.scan selfIndex) →
      runningTask' selfIndex = runningTask selfIndex) :
    job.Answers workerCount runningTask' calls := by
  cases job with
  | idle => trivial
  | running loop it =>
    exact ⟨h.1, fun i hi hit => (h.2 i hi hit).congr fun w hw => hrun w (congrArg some hw)⟩
  | stored selfIndex it => exact ⟨h.1, h.2.congr fun w hw => hrun w (congrArg some hw)⟩
  | succeeded loop it => exact ⟨h.1, h.2.1, h.2.2.congr fun w hw => hrun w (congrArg some hw)⟩
  | exhausted loop => exact ⟨h.1, fun i hi => (h.2 i hi).congr fun w hw => hrun w (congrArg some hw)⟩

/-- The job that makes the step. -/
theorem Change.own_answers (h : Change workerCount s j s')
    (hI : (s.jobs j).Calls workerCount (s.call j))
    (hA : (s.jobs j).Answers workerCount s.runningTask (s.call j)) :
    (s'.jobs j).Answers workerCount s'.runningTask (s'.call j) := by
  have hset : ∀ (t : System) {job : Job}, job.Answers workerCount t.runningTask (t.call j) →
      ((t.setJob j job).jobs j).Answers workerCount (t.setJob j job).runningTask
        ((t.setJob j job).call j) := by
    intro t job hjob
    rw [jobs_setJob]
    exact hjob
  have hother : ∀ {it e tasks}, e.call = callOf j it → Tasks.step s.tasks e = some tasks →
      ∀ i < it, tasks.calls (callOf j i) = s.call j i := by
    intro it e tasks he hs i hi
    refine calls_eq_of_step hs ?_
    rw [he]
    exact fun hc => hi.ne (callOf_inj hc).2
  cases h with
  | start loop hold hnew => exact hnew ▸ hset s ⟨fun i hi => absurd hi (Nat.not_lt_zero i), by simp⟩
  | call loop it e tasks hold hit he hs hbegin hnew =>
    subst hnew
    rw [hold] at hA
    change (s.jobs j).Answers workerCount _ _
    rw [hold]
    exact ⟨hA.1.congr (hother he hs), fun i _ heq => absurd heq hit.ne⟩
  | succeed data it hold hit hans hnew =>
    rw [hold] at hA
    exact hnew ▸ hset s ⟨hA.1, hans, trivial⟩
  | next data it hold hit hans hnew =>
    rw [hold] at hA
    exact hnew ▸ hset s ⟨hA.1.succ hans, fun i _ _ => trivial⟩
  | store selfIndex it w task hold hit hcall hnew =>
    rw [hold] at hA
    refine hnew ▸ hset (s.setRunning selfIndex task) ⟨hA.1, w, ?_⟩
    rw [show (s.setRunning selfIndex task).runningTask selfIndex = task from Function.update_self _ _ _]
    exact hcall
  | found selfIndex it hold htest hnew =>
    rw [hold] at hA
    exact hnew ▸ hset s ⟨hA.1, hA.2.answer.trans (congrArg some (decide_eq_true htest)), hA.2⟩
  | again selfIndex it e tasks hold htest hit he hs hnew =>
    rw [hold] at hA
    have hfail : Failed (s.call j) (it + 1) :=
      hA.1.succ (hA.2.answer.trans (congrArg some (decide_eq_false (not_not.2 htest))))
    exact hnew ▸ hset { s with tasks := tasks }
      ⟨hfail.congr (hother (he ▸ Loop.call_begin _ _ _) hs), fun i _ heq => absurd heq hit.ne⟩
  | last selfIndex it hold htest hit hnew =>
    rw [hold] at hI hA
    have hlt := hI.1
    obtain rfl : workerCount = it + 1 := by omega
    have hfail : Failed (s.call j) (it + 1) :=
      hA.1.succ (hA.2.answer.trans (congrArg some (decide_eq_false (not_not.2 htest))))
    refine hnew ▸ hset s ⟨hfail, ?_⟩
    intro i hi
    obtain rfl := Nat.succ.inj hi
    exact hA.2
  | exhaust loop it hold hit hnew =>
    rw [hold] at hI hA
    have hle := hI.1
    obtain rfl : it = workerCount := by omega
    exact hnew ▸ hset s ⟨hA.1, fun i hi => hA.2 i hi rfl⟩

/-- `running_task` is written by the one loop of its worker. -/
theorem Change.runningTask_eq (h : Change workerCount s j s') (hone : s.OneLoopEach) {k selfIndex : ℕ}
    (hk : k ≠ j) (hloop : (s.jobs k).loop = some (.scan selfIndex)) :
    s'.runningTask selfIndex = s.runningTask selfIndex := by
  cases h with
  | store w it v task hold hit hcall hnew =>
    have hne : selfIndex ≠ w := by
      rintro rfl
      exact hk (hone k j selfIndex hloop (hold ▸ rfl))
    exact hnew ▸ Function.update_of_ne hne _ _
  | _ => subst s'; rfl

/-- The loops that a worker has are those it had, and the one that begins. -/
theorem Change.oneLoopEach (h : Change workerCount s j s') (hone : s'.OneLoopEach) : s.OneLoopEach :=
  fun k l selfIndex hk hl => hone k l selfIndex (h.loop_eq hk) (h.loop_eq hl)

/-- **Run lemma.** -/
theorem Reachable.answersInv (hr : Reachable workerCount taskCount s) (hone : s.OneLoopEach) :
    AnswersInv workerCount s := by
  refine hr.invariant (P := fun s => s.OneLoopEach → AnswersInv workerCount s)
    (fun _ => ⟨fun _ _ => rfl, fun _ => trivial⟩) ?_ hone
  intro s e s' ih _ hs hone'
  have hC := change_of_step hs
  have hone := hC.oneLoopEach hone'
  have hI := ih hone
  refine ⟨fun k => ?_, fun k => ?_⟩
  · by_cases hk : k = e.job
    · exact hk ▸ hC.own (hI.calls _)
    · rw [(hC.other hk).1, (hC.other hk).2]
      exact hI.calls k
  · by_cases hk : k = e.job
    · exact hk ▸ hC.own_answers (hI.calls _) (hI.answers _)
    · rw [(hC.other hk).1, (hC.other hk).2]
      exact (hI.answers k).congr fun w hw => hC.runningTask_eq hone hk hw

/-! ### Delivery -/

/-- Job `j` has stored the task `v` with `Task__Queued`. -/
def System.Stored (s : System) (j : ℕ) (v : ℕ × TaskData) : Prop :=
  ∃ it, (s.call j it).published = some v

/-- A call of job `j` has returned the task `v`. -/
def System.Found (s : System) (j : ℕ) (v : ℕ × TaskData) : Prop := ∃ it, (s.call j it).got = some v

theorem answer_of_published {call : Call} {v : ℕ × TaskData} (h : call.published = some v) :
    answer call = some true := by
  cases call with
  | enqueue w data pc =>
    cases pc <;> cases h
    rfl
  | _ => cases h

theorem answer_of_got {call : Call} {v : ℕ × TaskData} (h : call.got = some v) :
    answer call = some true := by
  cases call with
  | dequeue w pc =>
    cases pc with
    | returned task =>
      simp only [Call.got] at h
      split_ifs at h with he
      simp [answer, he]
    | _ => cases h
  | _ => cases h

/-- The call that ended the loop of `add_task_inner` has stored the task. -/
theorem exists_published {data : TaskData} {it : ℕ} {call : Call}
    (hm : (Loop.add data).Made workerCount it call) (ha : answer call = some true) :
    ∃ id, call.published = some (id, data) := by
  cases call with
  | enqueue w d pc =>
    obtain ⟨-, rfl⟩ := hm
    cases pc <;> cases ha
    exact ⟨_, rfl⟩
  | _ => exact hm.elim

/-- The call that ended the loop of `task_main` has returned a task. -/
theorem exists_got {selfIndex it : ℕ} {call : Call}
    (hm : (Loop.scan selfIndex).Made workerCount it call) (ha : answer call = some true) :
    ∃ v, call.got = some v := by
  cases call with
  | dequeue w pc =>
    cases pc with
    | returned task =>
      have he : task.syncInfo ≠ .empty := by simpa [answer] using ha
      exact ⟨(task.id, task.data), if_neg he⟩
    | _ => cases ha
  | _ => exact hm.elim

/-- The job of a call that succeeded is in its round, or has ended with it. -/
theorem AnswersInv.of_answer (hI : AnswersInv workerCount s) {it : ℕ}
    (ha : answer (s.call j it) = some true) : ∃ loop, it < workerCount ∧
      loop.Made workerCount it (s.call j it) ∧ (s.jobs j).round = some (loop, it) := by
  have hbegun : s.call j it ≠ .idle := ne_idle_of_answer (ha ▸ Option.some_ne_none _)
  have hC := hI.calls j
  have hA := hI.answers j
  obtain ⟨loop, hloop, hlt, hm, -⟩ := hC.made hbegun
  have hfailed : ∀ {it'}, Failed (s.call j) it' → ¬ it < it' := by
    intro it' hF hlt'
    have hf := hF it hlt'
    rw [ha] at hf
    cases hf
  have hround : ∀ {loop' it'}, Rounds workerCount loop' (s.call j) it' → Failed (s.call j) it' →
      it' = it := by
    intro loop' it' hR hF
    rcases lt_trichotomy it' it with hlt' | heq | hgt
    · exact absurd (hR.later it hlt') hbegun
    · exact heq
    · exact absurd hgt (hfailed hF)
  refine ⟨loop, hlt, hm, ?_⟩
  cases hj : s.jobs j with
  | idle =>
    rw [hj] at hloop
    cases hloop
  | running loop' it' =>
    rw [hj] at hC hA hloop
    obtain rfl := Option.some.inj hloop
    rw [Job.round, hround hC.2.1 hA.1]
  | stored selfIndex it' =>
    rw [hj] at hC hA hloop
    obtain rfl := Option.some.inj hloop
    rw [Job.round, hround hC.2.1 hA.1]
  | succeeded loop' it' =>
    rw [hj] at hC hA hloop
    obtain rfl := Option.some.inj hloop
    rw [Job.round, hround hC.2.1 hA.1]
  | exhausted loop' =>
    rw [hj] at hA
    exact absurd hlt (hfailed hA.1)

/-- Two calls of one job that succeeded are the same call. -/
theorem AnswersInv.round_unique (hI : AnswersInv workerCount s) {it it' : ℕ}
    (ha : answer (s.call j it) = some true) (ha' : answer (s.call j it') = some true) : it = it' := by
  obtain ⟨loop, -, -, hjob⟩ := hI.of_answer ha
  obtain ⟨loop', -, -, hjob'⟩ := hI.of_answer ha'
  exact congrArg Prod.snd (Option.some.inj (hjob.symm.trans hjob'))

/-- The rounds of `task_main` ask every worker once. -/
theorem existsUnique_round {w : ℕ} (selfIndex : ℕ) (hw : w < workerCount) :
    ∃! it, it < workerCount ∧ (it + selfIndex) % workerCount = w := by
  have h0 : 0 < workerCount := by omega
  have hr := Nat.mod_lt selfIndex h0
  have hex : ∃ it < workerCount, (it + selfIndex) % workerCount = w := by
    by_cases hle : selfIndex % workerCount ≤ w
    · refine ⟨w - selfIndex % workerCount, by omega, ?_⟩
      rw [← Nat.add_mod_mod, Nat.sub_add_cancel hle, Nat.mod_eq_of_lt hw]
    · refine ⟨w + workerCount - selfIndex % workerCount, by omega, ?_⟩
      rw [← Nat.add_mod_mod, Nat.sub_add_cancel (by omega), Nat.add_mod_right, Nat.mod_eq_of_lt hw]
  obtain ⟨it, hit, hmod⟩ := hex
  refine ⟨it, ⟨hit, hmod⟩, ?_⟩
  rintro it' ⟨hit', hmod'⟩
  have hcong : it' + selfIndex ≡ it + selfIndex [MOD workerCount] := hmod'.trans hmod.symm
  exact (Nat.ModEq.add_right_cancel' selfIndex hcong).eq_of_lt_of_lt hit' hit

/-- The failed calls of `add_task_inner`. -/
theorem Rounds.refused {data : TaskData} {calls : ℕ → Call} {it i : ℕ}
    (h : Rounds workerCount (.add data) calls it) (hF : Failed calls it) (hi : i < it) :
    calls i = .enqueue i data .refused := by
  have hm := (h.past i hi).1
  have ha := hF i hi
  generalize calls i = call at hm ha
  cases call with
  | enqueue w d pc =>
    obtain ⟨rfl, rfl⟩ := hm
    cases pc <;> cases ha
    rfl
  | _ => exact hm.elim

/-- The failed calls of `task_main`. -/
theorem Rounds.returned_empty {selfIndex : ℕ} {calls : ℕ → Call} {it i : ℕ}
    (h : Rounds workerCount (.scan selfIndex) calls it) (hF : Failed calls it) (hi : i < it) :
    ∃ task, calls i = .dequeue ((i + selfIndex) % workerCount) (.returned task) ∧
      task.syncInfo = .empty := by
  have hm := (h.past i hi).1
  have ha := hF i hi
  generalize calls i = call at hm ha
  cases call with
  | dequeue w pc =>
    cases hm
    cases pc with
    | returned task => exact ⟨task, rfl, by simpa [answer] using ha⟩
    | _ => cases ha
  | _ => exact hm.elim

/-- What the jobs achieve, where no worker has two loops of `task_main`. -/
structure Delivery (workerCount : ℕ) (taskCount : ℕ → ℕ) (s : System) : Prop where
  /-- A job stores at most one task, and only `add_task_inner` does, with its own data. -/
  stored : ∀ j v, s.Stored j v → (∀ v', s.Stored j v' → v' = v) ∧
    ∃ it < workerCount, s.jobs j = .running (.add v.2) it ∨ s.jobs j = .succeeded (.add v.2) it
  /-- `add_task_inner` that returned `true` has stored its task. -/
  added : ∀ j data it, s.jobs j = .succeeded (.add data) it → ∃ id, s.Stored j (id, data)
  /-- `add_task_inner` that returned `false` has been refused by every worker, and has stored
  nothing. -/
  refused : ∀ j data, s.jobs j = .exhausted (.add data) → (∀ v, ¬ s.Stored j v) ∧
    ∀ w < workerCount, ∃! it, s.call j it = .enqueue w data .refused
  /-- A stored task is in one slot, or was returned to one job. -/
  placed : ∀ j v, s.Stored j v → ∃! p, s.tasks.held p = some v
  /-- A slot that holds a task is one of a worker there is, and one job stored that task. -/
  slot : ∀ w i v, s.tasks.held (.slot w i) = some v →
    w < workerCount ∧ i < taskCount w ∧ ∃! j, s.Stored j v
  /-- A task that was found is one that one job stored, and nobody else finds it. -/
  found : ∀ k v, s.Found k v → (∃! j, s.Stored j v) ∧ ∀ k' v', s.Found k' v' → v'.1 = v.1 → k' = k
  /-- `task_main` that found a task has it from a worker's ring, and in `running_task`. -/
  main : ∀ k selfIndex it, s.jobs k = .succeeded (.scan selfIndex) it →
    ∃ v, s.Found k v ∧ (s.runningTask selfIndex).id = v.1 ∧ (s.runningTask selfIndex).data = v.2
  /-- `task_main` that found no tasks has asked every worker once, and has taken nothing. -/
  nothing : ∀ k selfIndex, s.jobs k = .exhausted (.scan selfIndex) → (∀ v, ¬ s.Found k v) ∧
    (0 < workerCount → (s.runningTask selfIndex).syncInfo = .empty) ∧
    ∀ w < workerCount, ∃! it, it < workerCount ∧
      ∃ task, s.call k it = .dequeue w (.returned task) ∧ task.syncInfo = .empty

/-- The jobs that stored a task, in terms of the ledger. -/
theorem existsUnique_stored (hL : Custody.Ledger Prod.fst s.tasks.published s.tasks.held)
    {p : Place} {v : ℕ × TaskData} (hp : s.tasks.held p = some v) : ∃! j, s.Stored j v := by
  obtain ⟨c, hc⟩ := hL.sourced hp
  refine ⟨c.unpair.1, ⟨c.unpair.2, ?_⟩, ?_⟩
  · rw [System.call, callOf_unpair]
    exact hc
  · rintro j ⟨it, hj⟩
    have heq : callOf j it = c := hL.src_inj hj hc rfl
    rw [← heq, callOf, Nat.unpair_pair]

/-- What `running_task` shows when it is not empty. -/
theorem Loop.Shows.got {runningTask : ℕ → Task} {selfIndex : ℕ} {call : Call}
    (h : (Loop.scan selfIndex).Shows runningTask call) (ha : Scheduler.answer call = some true) :
    call.got = some ((runningTask selfIndex).id, (runningTask selfIndex).data) := by
  rw [h.answer] at ha
  obtain ⟨w, rfl⟩ := h
  exact if_neg (of_decide_eq_true (Option.some.inj ha))

/-- **Delivery**, for any interleaving of any number of jobs. -/
theorem reachable_delivery (hn : ∀ w, 0 < taskCount w) (hr : Reachable workerCount taskCount s)
    (hone : s.OneLoopEach) : Delivery workerCount taskCount s := by
  have hI := hr.answersInv hone
  have hL := (Tasks.Reachable.inv hr.tasks).ledger
  -- a job that is through with its rounds has no call that succeeded
  have hexhausted : ∀ {j loop it}, s.jobs j = .exhausted loop → answer (s.call j it) ≠ some true := by
    intro j loop it hj ha
    obtain ⟨loop', -, -, h⟩ := hI.of_answer ha
    rw [hj] at h
    cases h
  refine ⟨?_, ?_, ?_, ?_, ?_, ?_, ?_, ?_⟩
  · rintro j v ⟨it, hv⟩
    have ha := answer_of_published hv
    refine ⟨?_, ?_⟩
    · rintro v' ⟨it', hv'⟩
      obtain rfl := hI.round_unique ha (answer_of_published hv')
      exact Option.some.inj (hv'.symm.trans hv)
    · obtain ⟨loop, hlt, hm, hjob⟩ := hI.of_answer ha
      refine ⟨it, hlt, ?_⟩
      -- the call is one of `enqueue_task`, with the data of the loop
      cases loop with
      | add data =>
        obtain ⟨id, hid⟩ := exists_published hm ha
        obtain rfl := Option.some.inj (hid.symm.trans hv)
        cases hj : s.jobs j <;> rw [hj] at hjob <;> cases hjob
        · exact Or.inl rfl
        · exact Or.inr rfl
      | scan selfIndex =>
        obtain ⟨v', hgot⟩ := exists_got hm ha
        generalize s.call j it = call at hv hgot
        cases call <;> first | cases hv | cases hgot
  · intro j data it hj
    have hC := hI.calls j
    have hA := hI.answers j
    rw [hj] at hC hA
    obtain ⟨id, hid⟩ := exists_published hC.2.2.1 hA.2.1
    exact ⟨id, it, hid⟩
  · intro j data hj
    refine ⟨?_, ?_⟩
    · rintro v ⟨it, hv⟩
      exact hexhausted hj (answer_of_published hv)
    · intro w hw
      have hC := hI.calls j
      have hA := hI.answers j
      rw [hj] at hC hA
      refine ⟨w, hC.1.refused hA.1 hw, ?_⟩
      intro it hit
      have hlt : it < workerCount := by
        by_contra hge
        rcases Nat.lt_or_ge workerCount it with hgt | hle
        · rw [hC.1.later it hgt] at hit
          cases hit
        · obtain rfl : it = workerCount := by omega
          rw [hC.2] at hit
          cases hit
      rw [hC.1.refused hA.1 hlt] at hit
      cases hit
      rfl
  · rintro j v ⟨it, hv⟩
    obtain ⟨p, hp⟩ := hL.placed (k := callOf j it) hv
    exact ⟨p, hp, fun q hq => hL.held_inj hq hp rfl⟩
  · intro w i v hv
    have hsync : (s.tasks.task w i).syncInfo ≠ .empty := by
      intro he
      rw [State.held, Task.contents, he] at hv
      cases hv
    refine ⟨?_, Tasks.Reachable.lt_taskCount hn hr.tasks hsync, existsUnique_stored hL hv⟩
    by_contra hge
    rw [Reachable.task_eq_none hr (by omega) i] at hsync
    exact hsync rfl
  · rintro k v ⟨it, hv⟩
    refine ⟨existsUnique_stored hL (p := .call (callOf k it)) hv, ?_⟩
    rintro k' v' ⟨it', hv'⟩ hkey
    have hplace : Place.call (callOf k' it') = .call (callOf k it) := hL.held_inj hv' hv hkey
    exact (callOf_inj (Place.call.inj hplace)).1
  · intro k selfIndex it hk
    have hA := hI.answers k
    rw [hk] at hA
    exact ⟨_, ⟨it, hA.2.2.got hA.2.1⟩, rfl, rfl⟩
  · intro k selfIndex hk
    have hC := hI.calls k
    have hA := hI.answers k
    rw [hk] at hC hA
    refine ⟨?_, ?_, ?_⟩
    · rintro v ⟨it, hv⟩
      exact hexhausted hk (answer_of_got hv)
    · intro hpos
      -- it shows what the last round returned
      have hlast : workerCount - 1 + 1 = workerCount := Nat.sub_add_cancel hpos
      have ha := (hA.2 (workerCount - 1) hlast).answer
      rw [hA.1 (workerCount - 1) (by omega)] at ha
      exact not_not.1 (of_decide_eq_false (Option.some.inj ha).symm)
    · intro w hw
      obtain ⟨it, ⟨hit, hmod⟩, huniq⟩ := existsUnique_round selfIndex hw
      refine ⟨it, ⟨hit, hmod ▸ hC.1.returned_empty hA.1 hit⟩, ?_⟩
      rintro it' ⟨hit', task, hcall, -⟩
      obtain ⟨task', hcall', -⟩ := hC.1.returned_empty hA.1 hit'
      rw [hcall] at hcall'
      cases hcall'
      exact huniq it' ⟨hit', rfl⟩

/-- A job whose number no event has is idle. -/
theorem idle_of_execute {n : ℕ} {es : List Event}
    (h : Runs.execute (step workerCount) (fun _ e => e.job < n) (initial taskCount) es = some s) {j : ℕ}
    (hj : n ≤ j) : s.jobs j = .idle := by
  refine (Runs.Reach.of_execute h).invariant (P := fun s => s.jobs j = .idle) rfl ?_
  intro s e s' ih hg hs
  have hne : j ≠ e.job := by
    have := of_decide_eq_true hg.1
    omega
  rw [((change_of_step hs).other hne).1]
  exact ih

/-- Job `m` is the only one that looks for a task. -/
theorem oneLoopEach_of_execute {n : ℕ} (m : ℕ) {es : List Event}
    (h : Runs.execute (step workerCount) (fun _ e => e.job < n) (initial taskCount) es = some s)
    (hadd : ∀ j < n, j ≠ m → ∃ data, (s.jobs j).loop = some (.add data)) : s.OneLoopEach := by
  have heq : ∀ {j selfIndex}, (s.jobs j).loop = some (.scan selfIndex) → j = m := by
    intro j selfIndex hj
    by_contra hne
    rcases Nat.lt_or_ge j n with hlt | hge
    · obtain ⟨data, hdata⟩ := hadd j hlt hne
      rw [hdata] at hj
      cases hj
    · rw [idle_of_execute h hge] at hj
      cases hj
  exact fun j k selfIndex hj hk => (heq hj).trans (heq hk).symm

theorem reachable_delivery_one_task : ∃ s, Reachable 2 (fun _ => 2) s ∧ s.OneLoopEach ∧
    s.Found 1 (0, ⟨7#64, 8#64, 9#64⟩) ∧ Delivery 2 (fun _ => 2) s := by
  let events : List Event := .add 0 ⟨7#64, 8#64, 9#64⟩ :: List.replicate 11 (.run 0 false) ++
    .main 1 1 :: List.replicate 18 (.run 1 false)
  have hrun : (Runs.execute (step 2) (fun _ e => e.job < 2) (initial fun _ => 2) events).map
      (fun s => ((s.jobs 0).loop, (s.jobs 1).loop, (s.call 1 1).got)) =
        some (some (.add ⟨7#64, 8#64, 9#64⟩), some (.scan 1),
          some (0, ⟨7#64, 8#64, 9#64⟩)) := by decide
  obtain ⟨s, hs, hend⟩ := Option.map_eq_some_iff.1 hrun
  simp only [Prod.mk.injEq] at hend
  obtain ⟨h0, h1, hgot⟩ := hend
  have hr : Reachable 2 (fun _ => 2) s := (Runs.Reach.of_execute hs).mono fun _ _ _ => trivial
  have hone : s.OneLoopEach := by
    refine oneLoopEach_of_execute 1 hs fun j hj hne => ?_
    obtain rfl : j = 0 := by omega
    exact ⟨_, h0⟩
  exact ⟨s, hr, hone, ⟨1, hgot⟩, reachable_delivery (fun _ => by decide) hr hone⟩

/-- Two loops on one worker lose a task: the second one stores that it has found nothing before the
first one tests what it has found. -/
example : (Runs.execute (step 1) (fun _ _ => true) (initial fun _ => 1)
    (.add 0 ⟨7#64, 8#64, 9#64⟩ :: List.replicate 11 (.run 0 false) ++
      .main 1 0 :: List.replicate 11 (.run 1 false) ++ .main 2 0 :: List.replicate 6 (.run 2 false) ++
        [.run 1 false, .run 2 false])).map
    (fun s => ([0, 1, 2].map fun j => ((s.jobs j).ended, (s.jobs j).round.isSome),
      (s.tasks.task 0 0).syncInfo)) =
    some ([(true, true), (true, false), (true, false)], .empty) := by decide

/-! ### When nothing runs -/

/-- No job is in the middle of its loop. -/
def System.AtRest (s : System) : Prop := ∀ j, (s.jobs j).ended = true

/-- At rest a job that is in a round has ended with it. -/
theorem System.AtRest.succeeded (hrest : s.AtRest) {loop : Loop} {it : ℕ}
    (h : (s.jobs j).round = some (loop, it)) : s.jobs j = .succeeded loop it := by
  have hend := hrest j
  cases hj : s.jobs j <;> rw [hj] at h hend <;> cases h <;> first | rfl | cases hend

/-- Calls that succeeded are told apart by their jobs. -/
theorem AnswersInv.encard_jobs (hI : AnswersInv workerCount s) {P : ℕ → Prop}
    (hP : ∀ c, P c → answer (s.tasks.calls c) = some true) :
    {c | P c}.encard = {j | ∃ it, P (callOf j it)}.encard := by
  have hinj : Set.InjOn (fun c => (Nat.unpair c).1) {c | P c} := by
    intro c hc d hd (heq : c.unpair.1 = d.unpair.1)
    have hac : answer (s.call c.unpair.1 c.unpair.2) = some true := by
      rw [System.call, callOf_unpair]
      exact hP c hc
    have had : answer (s.call c.unpair.1 d.unpair.2) = some true := by
      rw [heq, System.call, callOf_unpair]
      exact hP d hd
    rw [← callOf_unpair c, ← callOf_unpair d, heq, hI.round_unique hac had]
  rw [← hinj.encard_image]
  congr 1
  ext j
  constructor
  · rintro ⟨c, hc, rfl⟩
    refine ⟨c.unpair.2, ?_⟩
    rw [callOf_unpair]
    exact hc
  · rintro ⟨it, hit⟩
    exact ⟨callOf j it, hit, congrArg Prod.fst (Nat.unpair_pair j it)⟩

/-- At rest no slot is half written or half read. -/
theorem contents_of_atRest (hr : Reachable workerCount taskCount s) (hrest : s.AtRest) (w i : ℕ) :
    s.tasks.held (.slot w i) ≠ none ↔ (s.tasks.task w i).syncInfo = .queued := by
  rw [State.held, Task.contents]
  constructor
  · intro h
    by_contra hq
    have hre : (s.tasks.task w i).syncInfo = .reading := by
      by_contra hne
      rw [if_neg (by rintro (h | h) <;> contradiction)] at h
      exact h rfl
    -- the call that reads the slot belongs to a job that runs
    obtain ⟨c, hc⟩ := (Tasks.Reachable.inv hr.tasks).slots.holder (r := (w, i)) (y := .reading) (by
      rw [State.marks, Task.mark, hre]
      rfl)
    have hcall : s.call c.unpair.1 c.unpair.2 = s.tasks.calls c := by rw [System.call, callOf_unpair]
    rw [State.own, ← hcall] at hc
    obtain ⟨loop, -, -, -, hends | hjob⟩ := (Reachable.inv hr c.unpair.1).made (i := c.unpair.2) (by
      intro hidle
      rw [hidle] at hc
      cases hc)
    · refine hends ?_
      generalize s.call c.unpair.1 c.unpair.2 = call at hc
      cases call with
      | idle => cases hc
      | enqueue v d pc => cases pc <;> first | rfl | cases hc
      | dequeue v pc => cases pc <;> first | rfl | cases hc
    · have hend := hrest c.unpair.1
      rw [hjob] at hend
      cases hend
  · intro hq
    rw [if_pos (Or.inl hq)]
    exact Option.some_ne_none _

/-- **What is left**: at rest, the tasks that were added are those in the rings and those that were
found. -/
theorem delivery_balance (hn : ∀ w, 0 < taskCount w) (hr : Reachable workerCount taskCount s)
    (hone : s.OneLoopEach) (hrest : s.AtRest) :
    {j | ∃ data it, s.jobs j = .succeeded (.add data) it}.encard =
      {p : ℕ × ℕ | p.1 < workerCount ∧ p.2 < taskCount p.1 ∧
        (s.tasks.task p.1 p.2).syncInfo = .queued}.encard +
      {k | ∃ selfIndex it, s.jobs k = .succeeded (.scan selfIndex) it}.encard := by
  have hI := hr.answersInv hone
  have hD := reachable_delivery hn hr hone
  have hL := (Tasks.Reachable.inv hr.tasks).ledger
  have hadded : {j | ∃ data it, s.jobs j = .succeeded (.add data) it} =
      {j | ∃ it, s.tasks.published (callOf j it) ≠ none} := by
    ext j
    constructor
    · rintro ⟨data, it, hj⟩
      obtain ⟨id, it', hv⟩ := hD.added j data it hj
      exact ⟨it', by rw [State.published]; exact hv ▸ Option.some_ne_none _⟩
    · rintro ⟨it, hv⟩
      obtain ⟨v, hv⟩ := Option.ne_none_iff_exists'.1 hv
      obtain ⟨-, it', -, hjob⟩ := hD.stored j v ⟨it, hv⟩
      refine ⟨v.2, it', hjob.resolve_left fun hrun => ?_⟩
      have hend := hrest j
      rw [hrun] at hend
      cases hend
  have hfound : {k | ∃ selfIndex it, s.jobs k = .succeeded (.scan selfIndex) it} =
      {k | ∃ it, s.tasks.held (.call (callOf k it)) ≠ none} := by
    ext k
    constructor
    · rintro ⟨selfIndex, it, hk⟩
      obtain ⟨v, ⟨it', hv⟩, -⟩ := hD.main k selfIndex it hk
      exact ⟨it', by rw [State.held]; exact hv ▸ Option.some_ne_none _⟩
    · rintro ⟨it, hv⟩
      obtain ⟨v, hv⟩ := Option.ne_none_iff_exists'.1 hv
      obtain ⟨loop, -, hm, hjob⟩ := hI.of_answer (answer_of_got hv)
      replace hjob := hrest.succeeded hjob
      cases loop with
      | add data =>
        obtain ⟨id, hid⟩ := exists_published hm (answer_of_got hv)
        rw [State.held] at hv
        change (s.call k it).got = _ at hv
        generalize s.call k it = call at hv hid
        cases call <;> first | cases hv | cases hid
      | scan selfIndex => exact ⟨selfIndex, it, hjob⟩
  have hslots : {p | s.tasks.held p ≠ none} =
      (fun q : ℕ × ℕ => Place.slot q.1 q.2) '' {p : ℕ × ℕ | p.1 < workerCount ∧
        p.2 < taskCount p.1 ∧ (s.tasks.task p.1 p.2).syncInfo = .queued} ∪
      Place.call '' {c | s.tasks.held (.call c) ≠ none} := by
    ext p
    cases p with
    | slot w i =>
      simp only [Set.mem_ofPred_eq, Set.mem_union, Set.mem_image, Prod.exists, Place.slot.injEq,
        reduceCtorEq, and_false, exists_false, or_false, exists_eq_right_right]
      rw [contents_of_atRest hr hrest]
      constructor
      · intro hq
        obtain ⟨v, hv⟩ := Option.ne_none_iff_exists'.1 ((contents_of_atRest hr hrest w i).2 hq)
        obtain ⟨hw, hi, -⟩ := hD.slot w i v hv
        exact ⟨w, ⟨hw, hi, hq⟩, rfl⟩
      · rintro ⟨w, ⟨-, -, hq⟩, rfl⟩
        exact hq
    | call c => simp
  rw [hadded, hfound, ← hI.encard_jobs (P := fun c => s.tasks.published c ≠ none),
    ← hI.encard_jobs (P := fun c => s.tasks.held (.call c) ≠ none), hL.encard_eq, hslots,
    Set.encard_union_eq, Function.Injective.encard_image, Function.Injective.encard_image]
  · intro c d hcd
    exact Place.call.inj hcd
  · rintro ⟨w, i⟩ ⟨w', i'⟩ h
    simpa using h
  · rw [Set.disjoint_left]
    rintro _ ⟨q, -, rfl⟩ ⟨c, -, h⟩
    cases h
  · intro c hc
    obtain ⟨v, hv⟩ := Option.ne_none_iff_exists'.1 hc
    exact answer_of_got hv
  · intro c hc
    obtain ⟨v, hv⟩ := Option.ne_none_iff_exists'.1 hc
    exact answer_of_published hv

/-- Of two tasks one is found and one is left. -/
theorem delivery_balance_two_tasks : ∃ s, Reachable 2 (fun _ => 2) s ∧ s.OneLoopEach ∧ s.AtRest ∧
    (s.jobs 2).round = some (.scan 1, 1) ∧
    {j | ∃ data it, s.jobs j = .succeeded (.add data) it}.encard =
      {p : ℕ × ℕ | p.1 < 2 ∧ p.2 < 2 ∧ (s.tasks.task p.1 p.2).syncInfo = .queued}.encard +
      {k | ∃ selfIndex it, s.jobs k = .succeeded (.scan selfIndex) it}.encard := by
  let events : List Event := .add 0 ⟨7#64, 8#64, 9#64⟩ :: List.replicate 11 (.run 0 false) ++
    .add 1 ⟨1#64, 2#64, 3#64⟩ :: List.replicate 16 (.run 1 false) ++
    .main 2 1 :: List.replicate 18 (.run 2 false)
  have hrun : (Runs.execute (step 2) (fun _ e => e.job < 3) (initial fun _ => 2) events).map
      (fun s => (((s.jobs 0).loop, (s.jobs 1).loop, (s.jobs 2).round),
        (s.jobs 0).ended, (s.jobs 1).ended, (s.jobs 2).ended)) =
      some ((some (.add ⟨7#64, 8#64, 9#64⟩), some (.add ⟨1#64, 2#64, 3#64⟩), some (.scan 1, 1)),
        true, true, true) := by decide
  obtain ⟨s, hs, hend⟩ := Option.map_eq_some_iff.1 hrun
  simp only [Prod.mk.injEq] at hend
  obtain ⟨⟨hloop0, hloop1, hfound⟩, hend0, hend1, hend2⟩ := hend
  have hr : Reachable 2 (fun _ => 2) s := (Runs.Reach.of_execute hs).mono fun _ _ _ => trivial
  have hone : s.OneLoopEach := by
    refine oneLoopEach_of_execute 2 hs fun j hj hne => ?_
    interval_cases j
    · exact ⟨_, hloop0⟩
    · exact ⟨_, hloop1⟩
    · exact absurd rfl hne
  have hrest : s.AtRest := by
    intro j
    rcases Nat.lt_or_ge j 3 with hlt | hge
    · interval_cases j
      · exact hend0
      · exact hend1
      · exact hend2
    · rw [idle_of_execute hs hge]
      rfl
  exact ⟨s, hr, hone, hrest, hfound, delivery_balance (fun _ => by decide) hr hone hrest⟩

end Dumboss.Tasks.Scheduler
