import Dumboss.Tasks.Model
import Dumboss.Lib.Custody

/-!
# No task is lost, duplicated or mixed up

A slot belongs to the call that moved it to `Writing` or `Reading`, until that call moves it on.
What a call has published is in one queued slot, or with the one call that took it.

* `Call.owned`, `Call.takenId`, `Call.published`, `Call.got`: what the point of a call says about it;
* `Change` and `change_of_step`: the eight kinds of steps;
* `Inv`: the slot protocol (`Custody.Exclusive`), distinct ids, the progress of the field copies, and
  the ledger of published tasks (`Custody.Ledger`);
* `reachable_conservation` states what this means for the calls.
-/

namespace Dumboss.Tasks

open Custody

namespace Call

/-- The slot a call has moved to `Writing` or `Reading` and not moved on yet. -/
def owned : Call → Option (SyncInfo × ℕ × ℕ)
  | .enqueue w _ (.takeId slot) => some (.writing, w, slot)
  | .enqueue w _ (.write slot _ _) => some (.writing, w, slot)
  | .dequeue w (.copy slot _ _) => some (.reading, w, slot)
  | _ => none

/-- The id a call of `enqueue_task` has taken. -/
def takenId : Call → Option ℕ
  | .enqueue _ _ (.write _ id _) => some id
  | .enqueue _ _ (.accepted id) => some id
  | _ => none

/-- The id and data of a call of `enqueue_task` that has stored `Task__Queued`. -/
def published : Call → Option (ℕ × TaskData)
  | .enqueue _ data (.accepted id) => some (id, data)
  | _ => none

/-- The id and data a call of `dequeue_task` returned, if it returned a task. -/
def got : Call → Option (ℕ × TaskData)
  | .dequeue _ (.returned task) =>
    if task.syncInfo = .empty then none else some (task.id, task.data)
  | _ => none

/-- The call holds nothing, has taken no id and has returned no task. -/
structure Quiet (call : Call) : Prop where
  owned : call.owned = none
  takenId : call.takenId = none
  published : call.published = none
  got : call.got = none

theorem takenId_of_published {call : Call} {v : ℕ × TaskData} (h : call.published = some v) :
    call.takenId = some v.1 := by
  cases call with
  | idle => cases h
  | enqueue w data pc =>
    cases pc with
    | accepted id =>
      cases h
      rfl
    | _ => cases h
  | dequeue w pc => cases h

end Call

/-- What a step of call `c` can do. -/
inductive Change (s : State) (c : ℕ) (s' : State) : Prop
  /-- Loads, failed compare-exchanges, changes of the indices, returns without a task. -/
  | quiet (call : Call) (hold : (s.calls c).Quiet) (hnew : call.Quiet)
      (hcalls : s'.calls = Function.update s.calls c call)
      (htask : ∀ w i, s'.task w i = s.task w i) (hid : s'.nextId = s.nextId)
  | claim (w i : ℕ) (data : TaskData) (hold : (s.calls c).Quiet)
      (hsync : (s.task w i).syncInfo = .empty) (hi : ∃ j, i = j % (s.workers w).taskCount)
      (hcalls : s'.calls = Function.update s.calls c (.enqueue w data (.takeId i)))
      (htask : ∀ v j, s'.task v j =
        if v = w ∧ j = i then { s.task w i with syncInfo := .writing } else s.task v j)
      (hid : s'.nextId = s.nextId)
  | takeId (w i : ℕ) (data : TaskData) (hold : s.calls c = .enqueue w data (.takeId i))
      (hcalls : s'.calls =
        Function.update s.calls c (.enqueue w data (.write i s.nextId enqueueFields)))
      (htask : ∀ w i, s'.task w i = s.task w i) (hid : s'.nextId = s.nextId + 1)
  | write (w i id : ℕ) (data : TaskData) (f : Field) (todo : List Field)
      (hold : s.calls c = .enqueue w data (.write i id (f :: todo)))
      (hcalls : s'.calls = Function.update s.calls c (.enqueue w data (.write i id todo)))
      (htask : ∀ v j, s'.task v j = if v = w ∧ j = i then
        Task.copyField ⟨.empty, id, data⟩ (s.task w i) f else s.task v j)
      (hid : s'.nextId = s.nextId)
  | publish (w i id : ℕ) (data : TaskData) (hold : s.calls c = .enqueue w data (.write i id []))
      (hcalls : s'.calls = Function.update s.calls c (.enqueue w data (.accepted id)))
      (htask : ∀ v j, s'.task v j =
        if v = w ∧ j = i then { s.task w i with syncInfo := .queued } else s.task v j)
      (hid : s'.nextId = s.nextId)
  | take (w i : ℕ) (hold : (s.calls c).Quiet) (hsync : (s.task w i).syncInfo = .queued)
      (hcalls : s'.calls =
        Function.update s.calls c (.dequeue w (.copy i .none dequeueFields)))
      (htask : ∀ v j, s'.task v j =
        if v = w ∧ j = i then { s.task w i with syncInfo := .reading } else s.task v j)
      (hid : s'.nextId = s.nextId)
  | copy (w i : ℕ) (task : Task) (f : Field) (todo : List Field)
      (hold : s.calls c = .dequeue w (.copy i task (f :: todo)))
      (hcalls : s'.calls = Function.update s.calls c
        (.dequeue w (.copy i (Task.copyField (s.task w i) task f) todo)))
      (htask : ∀ w i, s'.task w i = s.task w i) (hid : s'.nextId = s.nextId)
  | release (w i : ℕ) (task : Task) (hold : s.calls c = .dequeue w (.copy i task []))
      (hcalls : s'.calls = Function.update s.calls c (.dequeue w (.returned task)))
      (htask : ∀ v j, s'.task v j =
        if v = w ∧ j = i then { s.task w i with syncInfo := .empty } else s.task v j)
      (hid : s'.nextId = s.nextId)

theorem change_of_stepEnqueue {s s' : State} {c w : ℕ} {data : TaskData} {spurious : Bool}
    {pc : EnqueuePc} (hc : s.calls c = .enqueue w data pc)
    (hs : stepEnqueue s c w data spurious pc = some s') : Change s c s' := by
  have quiet : ∀ pc', (Call.enqueue w data pc').Quiet → (Call.enqueue w data pc).Quiet →
      s' = s.setCall c (.enqueue w data pc') → Change s c s' := by
    rintro pc' hnew hold rfl
    exact .quiet _ (hc ▸ hold) hnew rfl (fun _ _ => rfl) rfl
  cases pc with
  | loadReadFrom => exact quiet _ ⟨rfl, rfl, rfl, rfl⟩ ⟨rfl, rfl, rfl, rfl⟩ (Option.some.inj hs).symm
  | loadWriteTo upperBound =>
    exact quiet _ ⟨rfl, rfl, rfl, rfl⟩ ⟨rfl, rfl, rfl, rfl⟩ (Option.some.inj hs).symm
  | claim upperBound writeTo =>
    simp only [stepEnqueue] at hs
    split_ifs at hs with hsync
    · cases hs
      exact .claim w _ data (hc ▸ ⟨rfl, rfl, rfl, rfl⟩) hsync ⟨_, rfl⟩ rfl
        (fun v j => by rw [State.task_setCall, State.task_setSync]) rfl
    · exact quiet _ ⟨rfl, rfl, rfl, rfl⟩ ⟨rfl, rfl, rfl, rfl⟩ (Option.some.inj hs).symm
  | advance upperBound writeTo =>
    simp only [stepEnqueue] at hs
    split_ifs at hs with hlt hcas
    · cases hs
      exact .quiet _ (hc ▸ ⟨rfl, rfl, rfl, rfl⟩) ⟨rfl, rfl, rfl, rfl⟩ rfl (fun _ _ => by simp) rfl
    · exact quiet _ ⟨rfl, rfl, rfl, rfl⟩ ⟨rfl, rfl, rfl, rfl⟩ (Option.some.inj hs).symm
    · exact quiet _ ⟨rfl, rfl, rfl, rfl⟩ ⟨rfl, rfl, rfl, rfl⟩ (Option.some.inj hs).symm
  | takeId slot =>
    cases hs
    exact .takeId w slot data hc rfl (fun _ _ => rfl) rfl
  | write slot id todo =>
    cases todo with
    | nil =>
      cases hs
      exact .publish w slot id data hc rfl
        (fun v j => by rw [State.task_setCall, State.task_setSync]) rfl
    | cons f todo =>
      cases hs
      exact .write w slot id data f todo hc rfl
        (fun v j => by rw [State.task_setCall, State.task_setTask]) rfl
  | accepted id => cases hs
  | refused => cases hs

theorem change_of_stepDequeue {s s' : State} {c w : ℕ} {spurious : Bool} {pc : DequeuePc}
    (hc : s.calls c = .dequeue w pc) (hs : stepDequeue s c w spurious pc = some s') :
    Change s c s' := by
  have quiet : ∀ pc', (Call.dequeue w pc').Quiet → (Call.dequeue w pc).Quiet →
      s' = s.setCall c (.dequeue w pc') → Change s c s' := by
    rintro pc' hnew hold rfl
    exact .quiet _ (hc ▸ hold) hnew rfl (fun _ _ => rfl) rfl
  cases pc with
  | loadWriteTo => exact quiet _ ⟨rfl, rfl, rfl, rfl⟩ ⟨rfl, rfl, rfl, rfl⟩ (Option.some.inj hs).symm
  | loadReadFrom writeTo =>
    exact quiet _ ⟨rfl, rfl, rfl, rfl⟩ ⟨rfl, rfl, rfl, rfl⟩ (Option.some.inj hs).symm
  | claim writeTo readFrom =>
    simp only [stepDequeue] at hs
    split_ifs at hs with hsync
    · cases hs
      exact .take w _ (hc ▸ ⟨rfl, rfl, rfl, rfl⟩) hsync rfl
        (fun v j => by rw [State.task_setCall, State.task_setSync]) rfl
    · exact quiet _ ⟨rfl, rfl, rfl, rfl⟩ ⟨rfl, rfl, rfl, rfl⟩ (Option.some.inj hs).symm
  | advance writeTo readFrom =>
    simp only [stepDequeue] at hs
    split_ifs at hs with hlt hcas
    · cases hs
      exact .quiet _ (hc ▸ ⟨rfl, rfl, rfl, rfl⟩) ⟨rfl, rfl, rfl, rfl⟩ rfl (fun _ _ => by simp) rfl
    · exact quiet _ ⟨rfl, rfl, rfl, rfl⟩ ⟨rfl, rfl, rfl, rfl⟩ (Option.some.inj hs).symm
    · exact quiet _ ⟨rfl, rfl, rfl, rfl⟩ ⟨rfl, rfl, rfl, rfl⟩ (Option.some.inj hs).symm
  | copy slot task todo =>
    cases todo with
    | nil =>
      cases hs
      exact .release w slot task hc rfl
        (fun v j => by rw [State.task_setCall, State.task_setSync]) rfl
    | cons f todo =>
      cases hs
      exact .copy w slot task f todo hc rfl (fun _ _ => rfl) rfl
  | returned task => cases hs

/-- **Inversion**: every event is one of the eight changes. -/
theorem change_of_step {s s' : State} {e : Event} (hs : step s e = some s') :
    Change s e.call s' := by
  obtain ⟨w, data, hc, rfl⟩ | ⟨w, hc, rfl⟩ | ⟨w, data, spurious, pc, hc, hs⟩ |
    ⟨w, spurious, pc, hc, hs⟩ := step_cases hs
  · exact .quiet _ (by rw [hc]; exact ⟨rfl, rfl, rfl, rfl⟩) ⟨rfl, rfl, rfl, rfl⟩ rfl
      (fun _ _ => rfl) rfl
  · exact .quiet _ (by rw [hc]; exact ⟨rfl, rfl, rfl, rfl⟩) ⟨rfl, rfl, rfl, rfl⟩ rfl
      (fun _ _ => rfl) rfl
  · exact change_of_stepEnqueue hc hs
  · exact change_of_stepDequeue hc hs

/-- A step changes the point of one call only. -/
theorem Change.calls_eq {s s' : State} {c : ℕ} (h : Change s c s') :
    ∃ call, s'.calls = Function.update s.calls c call := by
  cases h <;> exact ⟨_, by assumption⟩

theorem calls_eq_of_step {s s' : State} {e : Event} (hs : step s e = some s') {d : ℕ}
    (hd : d ≠ e.call) : s'.calls d = s.calls d := by
  obtain ⟨call, hcalls⟩ := (change_of_step hs).calls_eq
  rw [hcalls, Function.update_of_ne hd]

/-! ### The invariant -/

/-- The mark of a slot that some call holds. -/
def Task.mark (t : Task) : Option SyncInfo :=
  if t.syncInfo = .writing ∨ t.syncInfo = .reading then some t.syncInfo else Option.none

/-- The id and data of a slot that holds a task. -/
def Task.contents (t : Task) : Option (ℕ × TaskData) :=
  if t.syncInfo = .queued ∨ t.syncInfo = .reading then some (t.id, t.data) else Option.none

/-- Where a published task can be: in a slot, or returned by a call. -/
inductive Place
  | slot (w i : ℕ)
  | call (c : ℕ)
  deriving DecidableEq

namespace State

def own (s : State) (c : ℕ) : Option (SyncInfo × ℕ × ℕ) := (s.calls c).owned

def marks (s : State) (r : ℕ × ℕ) : Option SyncInfo := (s.task r.1 r.2).mark

def published (s : State) (c : ℕ) : Option (ℕ × TaskData) := (s.calls c).published

def held (s : State) : Place → Option (ℕ × TaskData)
  | .slot w i => (s.task w i).contents
  | .call c => (s.calls c).got

end State

/-- Ids below `next_id`, each taken by at most one call. -/
structure DistinctIds (s : State) : Prop where
  lt : ∀ {c x}, (s.calls c).takenId = some x → x < s.nextId
  inj : ∀ {c d x}, (s.calls c).takenId = some x → (s.calls d).takenId = some x → c = d

/-- Finishing the copies under way gives complete tasks. -/
structure Copies (s : State) : Prop where
  writing : ∀ {c w data i id todo}, s.calls c = .enqueue w data (.write i id todo) →
    Field.syncInfo ∉ todo ∧
      (todo.foldl (Task.copyField ⟨.empty, id, data⟩) (s.task w i)).id = id ∧
      (todo.foldl (Task.copyField ⟨.empty, id, data⟩) (s.task w i)).data = data
  reading : ∀ {c w i task todo}, s.calls c = .dequeue w (.copy i task todo) →
    todo.foldl (Task.copyField (s.task w i)) task = s.task w i

/-- **The invariant** of the task rings. -/
structure Inv (s : State) : Prop where
  slots : Exclusive s.own s.marks
  ids : DistinctIds s
  copies : Copies s
  ledger : Ledger Prod.fst s.published s.held

/-! ### The views after a change -/

section views

variable {s s' : State} {c w i : ℕ} {call : Call} {t : Task}

theorem own_eq (hcalls : s'.calls = Function.update s.calls c call) :
    s'.own = Function.update s.own c call.owned := by
  funext d
  rw [State.own, hcalls]
  by_cases hd : d = c
  · rw [hd, Function.update_self, Function.update_self]
  · rw [Function.update_of_ne hd, Function.update_of_ne hd, State.own]

theorem published_eq (hcalls : s'.calls = Function.update s.calls c call) :
    s'.published = Function.update s.published c call.published := by
  funext d
  rw [State.published, hcalls]
  by_cases hd : d = c
  · rw [hd, Function.update_self, Function.update_self]
  · rw [Function.update_of_ne hd, Function.update_of_ne hd, State.published]

theorem takenId_eq (hcalls : s'.calls = Function.update s.calls c call)
    (hsame : call.takenId = (s.calls c).takenId) (d : ℕ) :
    (s'.calls d).takenId = (s.calls d).takenId := by
  rw [hcalls]
  by_cases hd : d = c
  · rw [hd, Function.update_self, hsame]
  · rw [Function.update_of_ne hd]

theorem marks_eq (htask : ∀ w i, s'.task w i = s.task w i) : s'.marks = s.marks := by
  funext r
  rw [State.marks, htask, State.marks]

theorem marks_set
    (htask : ∀ v j, s'.task v j = if v = w ∧ j = i then t else s.task v j) :
    s'.marks = Function.update s.marks (w, i) t.mark := by
  funext r
  rw [State.marks, htask]
  by_cases hr : r = (w, i)
  · rw [hr, Function.update_self, if_pos ⟨rfl, rfl⟩]
  · rw [Function.update_of_ne hr, if_neg fun hc => hr (Prod.ext hc.1 hc.2), State.marks]

theorem held_eq (hcalls : s'.calls = Function.update s.calls c call)
    (htask : ∀ w i, s'.task w i = s.task w i) :
    s'.held = Function.update s.held (.call c) call.got := by
  funext p
  cases p with
  | slot w i =>
    rw [Function.update_of_ne (by simp), State.held, htask, State.held]
  | call d =>
    rw [State.held, hcalls]
    by_cases hd : d = c
    · rw [hd, Function.update_self, Function.update_self]
    · rw [Function.update_of_ne hd, Function.update_of_ne (by simpa using hd), State.held]

theorem held_set (hcalls : s'.calls = Function.update s.calls c call)
    (htask : ∀ v j, s'.task v j = if v = w ∧ j = i then t else s.task v j) :
    s'.held = Function.update (Function.update s.held (.slot w i) t.contents) (.call c) call.got := by
  funext p
  cases p with
  | slot v j =>
    rw [Function.update_of_ne (by simp), State.held, htask]
    by_cases h : v = w ∧ j = i
    · rw [if_pos h, h.1, h.2, Function.update_self]
    · rw [if_neg h, Function.update_of_ne (by simpa using h), State.held]
  | call d =>
    rw [State.held, hcalls]
    by_cases hd : d = c
    · rw [hd, Function.update_self, Function.update_self]
    · rw [Function.update_of_ne hd, Function.update_of_ne (by simpa using hd),
        Function.update_of_ne (by simp), State.held]

end views

theorem Task.copyField_syncInfo {src dst : Task} {f : Field} (hf : f ≠ .syncInfo) :
    (Task.copyField src dst f).syncInfo = dst.syncInfo := by
  cases f with
  | syncInfo => exact absurd rfl hf
  | _ => rfl

theorem foldl_enqueueFields (src dst : Task) :
    (enqueueFields.foldl (Task.copyField src) dst).id = src.id ∧
      (enqueueFields.foldl (Task.copyField src) dst).data = src.data := ⟨rfl, rfl⟩

theorem foldl_dequeueFields (src dst : Task) :
    dequeueFields.foldl (Task.copyField src) dst = src := rfl

/-! ### The step lemmas -/

variable {s s' : State} {c : ℕ}

/-- The field being written is not `sync_info`. -/
theorem Copies.write_ne {w i id : ℕ} {data : TaskData} {f : Field} {todo : List Field}
    (hC : Copies s) (hc : s.calls c = .enqueue w data (.write i id (f :: todo))) :
    f ≠ .syncInfo := by
  rintro rfl
  exact (hC.writing hc).1 (by simp)

theorem Inv.syncInfo_of_own (hI : Inv s) {w i : ℕ} {y : SyncInfo} (hc : s.own c = some (y, w, i)) :
    (s.task w i).syncInfo = y := by
  have hmark : (s.task w i).mark = some y := hI.slots.marked hc
  rw [Task.mark] at hmark
  split_ifs at hmark
  exact Option.some.inj hmark

theorem Change.slots (h : Change s c s') (hI : Inv s) : Exclusive s'.own s'.marks := by
  have hmark : ∀ w i y, (s.task w i).syncInfo = y → y ≠ .writing → y ≠ .reading →
      s.marks (w, i) = none := by
    intro w i y hy h1 h2
    rw [State.marks, Task.mark, hy, if_neg (by simp [h1, h2])]
  -- the changes after which everybody holds what they held before
  have keep : ∀ call, s'.calls = Function.update s.calls c call → call.owned = s.own c →
      s'.marks = s.marks → Exclusive s'.own s'.marks := by
    intro call hcalls howned hmarks
    rw [own_eq hcalls, howned, hmarks, Function.update_eq_self]
    exact hI.slots
  cases h with
  | quiet call hold hnew hcalls htask hid =>
    exact keep call hcalls (hnew.owned.trans hold.owned.symm) (marks_eq htask)
  | claim w i data hold hsync hi hcalls htask hid =>
    rw [own_eq hcalls, marks_set htask]
    exact hI.slots.acquire hold.owned (hmark w i _ hsync (by decide) (by decide))
  | takeId w i data hold hcalls htask hid =>
    refine keep _ hcalls ?_ (marks_eq htask)
    rw [State.own, hold]
    rfl
  | write w i id data f todo hold hcalls htask hid =>
    refine keep _ hcalls ?_ ?_
    · rw [State.own, hold]
      rfl
    · rw [marks_set htask, Task.mark, Task.copyField_syncInfo (hI.copies.write_ne hold)]
      exact Function.update_eq_self (w, i) s.marks
  | publish w i id data hold hcalls htask hid =>
    rw [own_eq hcalls, marks_set htask]
    refine hI.slots.drop (y := .writing) ?_
    rw [State.own, hold]
    rfl
  | take w i hold hsync hcalls htask hid =>
    rw [own_eq hcalls, marks_set htask]
    exact hI.slots.acquire hold.owned (hmark w i _ hsync (by decide) (by decide))
  | copy w i task f todo hold hcalls htask hid =>
    refine keep _ hcalls ?_ (marks_eq htask)
    rw [State.own, hold]
    rfl
  | release w i task hold hcalls htask hid =>
    rw [own_eq hcalls, marks_set htask]
    refine hI.slots.drop (y := .reading) ?_
    rw [State.own, hold]
    rfl

theorem Change.ids (h : Change s c s') (hI : Inv s) : DistinctIds s' := by
  have keep : (∀ d, (s'.calls d).takenId = (s.calls d).takenId) → s'.nextId = s.nextId →
      DistinctIds s' := by
    intro htaken hid
    refine ⟨fun hx => ?_, fun hx hy => ?_⟩
    · rw [hid]
      exact hI.ids.lt (by rwa [htaken] at hx)
    · exact hI.ids.inj (by rwa [htaken] at hx) (by rwa [htaken] at hy)
  cases h with
  | quiet call hold hnew hcalls htask hid =>
    exact keep (takenId_eq hcalls (hnew.takenId.trans hold.takenId.symm)) hid
  | claim w i data hold hsync hi hcalls htask hid =>
    exact keep (takenId_eq hcalls hold.takenId.symm) hid
  | takeId w i data hold hcalls htask hid =>
    have hnew : ∀ d x, (s'.calls d).takenId = some x →
        (d = c ∧ x = s.nextId) ∨ (d ≠ c ∧ (s.calls d).takenId = some x) := by
      intro d x hx
      rw [hcalls] at hx
      by_cases hd : d = c
      · subst hd
        rw [Function.update_self] at hx
        exact Or.inl ⟨rfl, (Option.some.inj hx).symm⟩
      · rw [Function.update_of_ne hd] at hx
        exact Or.inr ⟨hd, hx⟩
    refine ⟨fun {d x} hx => ?_, fun {d d' x} hx hy => ?_⟩
    · rw [hid]
      rcases hnew d x hx with ⟨-, rfl⟩ | ⟨-, hx⟩
      · exact Nat.lt_succ_self _
      · exact (hI.ids.lt hx).trans (Nat.lt_succ_self _)
    · rcases hnew d x hx with ⟨rfl, rfl⟩ | ⟨-, hx'⟩
      · rcases hnew d' s.nextId hy with ⟨rfl, -⟩ | ⟨-, hy'⟩
        · rfl
        · exact absurd (hI.ids.lt hy') (lt_irrefl _)
      · rcases hnew d' x hy with ⟨rfl, rfl⟩ | ⟨-, hy'⟩
        · exact absurd (hI.ids.lt hx') (lt_irrefl _)
        · exact hI.ids.inj hx' hy'
  | write w i id data f todo hold hcalls htask hid =>
    exact keep (takenId_eq hcalls (by rw [hold]; rfl)) hid
  | publish w i id data hold hcalls htask hid =>
    exact keep (takenId_eq hcalls (by rw [hold]; rfl)) hid
  | take w i hold hsync hcalls htask hid => exact keep (takenId_eq hcalls hold.takenId.symm) hid
  | copy w i task f todo hold hcalls htask hid =>
    exact keep (takenId_eq hcalls (by rw [hold]; rfl)) hid
  | release w i task hold hcalls htask hid =>
    exact keep (takenId_eq hcalls (by rw [hold]; rfl)) hid

/-- A step of `c` leaves the slots of the other calls alone. -/
theorem Change.task_eq (h : Change s c s') (hI : Inv s) {d w i : ℕ} {y : SyncInfo} (hne : d ≠ c)
    (hd : s.own d = some (y, w, i)) : s'.task w i = s.task w i := by
  have hmarked := hI.slots.marked hd
  -- the slot that was changed is free or belongs to `c`
  have free : ∀ w' i' t, (∀ v j, s'.task v j = if v = w' ∧ j = i' then t else s.task v j) →
      s.marks (w', i') = none → s'.task w i = s.task w i := by
    intro w' i' t htask hnone
    rw [htask, if_neg]
    rintro ⟨rfl, rfl⟩
    rw [hmarked] at hnone
    cases hnone
  have mine : ∀ w' i' t y', (∀ v j, s'.task v j = if v = w' ∧ j = i' then t else s.task v j) →
      s.own c = some (y', w', i') → s'.task w i = s.task w i := by
    intro w' i' t y' htask hown
    rw [htask, if_neg]
    rintro ⟨rfl, rfl⟩
    exact hne (hI.slots.unique hd hown)
  cases h with
  | quiet call hold hnew hcalls htask hid => exact htask w i
  | claim w' i' data hold hsync hi hcalls htask hid =>
    exact free w' i' _ htask (by rw [State.marks, Task.mark, hsync]; rfl)
  | takeId w' i' data hold hcalls htask hid => exact htask w i
  | write w' i' id data f todo hold hcalls htask hid =>
    exact mine w' i' _ .writing htask (by rw [State.own, hold]; rfl)
  | publish w' i' id data hold hcalls htask hid =>
    exact mine w' i' _ .writing htask (by rw [State.own, hold]; rfl)
  | take w' i' hold hsync hcalls htask hid =>
    exact free w' i' _ htask (by rw [State.marks, Task.mark, hsync]; rfl)
  | copy w' i' task f todo hold hcalls htask hid => exact htask w i
  | release w' i' task hold hcalls htask hid =>
    exact mine w' i' _ .reading htask (by rw [State.own, hold]; rfl)

theorem Change.copies (h : Change s c s') (hI : Inv s) : Copies s' := by
  have hslot : ∀ d w i y, d ≠ c → s.own d = some (y, w, i) → s'.task w i = s.task w i :=
    fun d w i y hne hd => h.task_eq hI hne hd
  -- it is enough to look at the call that made the step
  have step : ∀ call, s'.calls = Function.update s.calls c call →
      (∀ w data i id todo, call = .enqueue w data (.write i id todo) → Field.syncInfo ∉ todo ∧
        (todo.foldl (Task.copyField ⟨.empty, id, data⟩) (s'.task w i)).id = id ∧
        (todo.foldl (Task.copyField ⟨.empty, id, data⟩) (s'.task w i)).data = data) →
      (∀ w i task todo, call = .dequeue w (.copy i task todo) →
        todo.foldl (Task.copyField (s'.task w i)) task = s'.task w i) → Copies s' := by
    intro call hcalls hwrite hread
    refine ⟨fun {d w data i id todo} hd => ?_, fun {d w i task todo} hd => ?_⟩
    · by_cases hdc : d = c
      · rw [hcalls, hdc, Function.update_self] at hd
        exact hwrite w data i id todo hd
      · rw [hcalls, Function.update_of_ne hdc] at hd
        rw [hslot d w i .writing hdc (by rw [State.own, hd]; rfl)]
        exact hI.copies.writing hd
    · by_cases hdc : d = c
      · rw [hcalls, hdc, Function.update_self] at hd
        exact hread w i task todo hd
      · rw [hcalls, Function.update_of_ne hdc] at hd
        rw [hslot d w i .reading hdc (by rw [State.own, hd]; rfl)]
        exact hI.copies.reading hd
  cases h with
  | quiet call hold hnew hcalls htask hid =>
    refine step call hcalls ?_ ?_
    · rintro w data i id todo rfl
      exact absurd hnew.owned (by simp [Call.owned])
    · rintro w i task todo rfl
      exact absurd hnew.owned (by simp [Call.owned])
  | claim w i data hold hsync hi hcalls htask hid =>
    exact step _ hcalls (by simp) (by simp)
  | takeId w i data hold hcalls htask hid =>
    refine step _ hcalls ?_ (by simp)
    intro w' data' i' id todo heq
    cases heq
    exact ⟨by decide, foldl_enqueueFields _ _⟩
  | write w i id data f todo hold hcalls htask hid =>
    refine step _ hcalls ?_ (by simp)
    intro w' data' i' id' todo' heq
    cases heq
    obtain ⟨hmem, hdone⟩ := hI.copies.writing hold
    rw [htask, if_pos ⟨rfl, rfl⟩]
    exact ⟨fun hin => hmem (List.mem_cons_of_mem _ hin), hdone⟩
  | publish w i id data hold hcalls htask hid => exact step _ hcalls (by simp) (by simp)
  | take w i hold hsync hcalls htask hid =>
    refine step _ hcalls (by simp) ?_
    intro w' i' task todo heq
    cases heq
    exact foldl_dequeueFields _ _
  | copy w i task f todo hold hcalls htask hid =>
    refine step _ hcalls (by simp) ?_
    intro w' i' task' todo' heq
    cases heq
    rw [htask]
    have hdone := hI.copies.reading hold
    exact hdone
  | release w i task hold hcalls htask hid => exact step _ hcalls (by simp) (by simp)

/-- A task is published: it is held by its slot from now on. -/
theorem Inv.ledger_publish (hI : Inv s) {w i id : ℕ} {data : TaskData}
    (hold : s.calls c = .enqueue w data (.write i id []))
    (hcalls : s'.calls = Function.update s.calls c (.enqueue w data (.accepted id)))
    (htask : ∀ v j, s'.task v j =
      if v = w ∧ j = i then { s.task w i with syncInfo := .queued } else s.task v j) :
    Ledger Prod.fst s'.published s'.held := by
  have hw : (s.task w i).syncInfo = .writing :=
    hI.syncInfo_of_own (show s.own c = some (.writing, w, i) by rw [State.own, hold]; rfl)
  obtain ⟨-, hid', hdata⟩ := hI.copies.writing hold
  have hid'' : (s.task w i).id = id := hid'
  have hdata' : (s.task w i).data = data := hdata
  have hcont : (Task.mk .queued (s.task w i).id (s.task w i).data).contents = some (id, data) := by
    rw [Task.contents, hid'', hdata']
    rfl
  have hgot : s.held (.call c) = none := by rw [State.held, hold]; rfl
  have hheld : s'.held = Function.update s.held (.slot w i) (some (id, data)) := by
    rw [held_set hcalls htask, hcont]
    funext p
    by_cases hp : p = .call c
    · rw [hp, Function.update_self, Function.update_of_ne (by simp), hgot]
      rfl
    · rw [Function.update_of_ne hp]
  rw [published_eq hcalls, hheld]
  refine hI.ledger.publish (v := (id, data)) ?_ ?_ ?_
  · rw [State.published, hold]
    rfl
  · rw [State.held, Task.contents, hw]
    rfl
  · intro l v hl heq
    have hlc : l = c := by
      refine hI.ids.inj (Call.takenId_of_published hl) ?_
      rw [hold, heq]
      rfl
    rw [State.published, hlc, hold] at hl
    cases hl

/-- A task is handed over from its slot to the call that took it. -/
theorem Inv.ledger_release (hI : Inv s) {w i : ℕ} {task : Task}
    (hold : s.calls c = .dequeue w (.copy i task []))
    (hcalls : s'.calls = Function.update s.calls c (.dequeue w (.returned task)))
    (htask : ∀ v j, s'.task v j =
      if v = w ∧ j = i then { s.task w i with syncInfo := .empty } else s.task v j) :
    Ledger Prod.fst s'.published s'.held := by
  have hr : (s.task w i).syncInfo = .reading :=
    hI.syncInfo_of_own (show s.own c = some (.reading, w, i) by rw [State.own, hold]; rfl)
  have htask' : task = s.task w i := hI.copies.reading hold
  have hpub : s'.published = s.published := by
    rw [published_eq hcalls, show (Call.dequeue w (.returned task)).published = s.published c by
      rw [State.published, hold]; rfl, Function.update_eq_self]
  rw [hpub, held_set hcalls htask]
  have hgot : (Call.dequeue w (.returned task)).got =
      some ((s.task w i).id, (s.task w i).data) := by
    rw [Call.got, htask', hr]
    rfl
  rw [hgot]
  refine hI.ledger.move ?_ ?_
  · rw [State.held, Task.contents, hr]
    rfl
  · rw [State.held, hold]
    rfl

theorem Change.ledger (h : Change s c s') (hI : Inv s) :
    Ledger Prod.fst s'.published s'.held := by
  -- the changes that neither publish nor hand over
  have keep : ∀ call, s'.calls = Function.update s.calls c call →
      call.published = s.published c → s'.held = s.held →
      Ledger Prod.fst s'.published s'.held := by
    intro call hcalls hpub hheld
    rw [published_eq hcalls, hpub, hheld, Function.update_eq_self]
    exact hI.ledger
  have same : ∀ call, s'.calls = Function.update s.calls c call →
      (∀ w i, s'.task w i = s.task w i) → call.got = s.held (.call c) → s'.held = s.held := by
    intro call hcalls htask hgot
    rw [held_eq hcalls htask, hgot, Function.update_eq_self]
  have sameSlot : ∀ call w i t, s'.calls = Function.update s.calls c call →
      (∀ v j, s'.task v j = if v = w ∧ j = i then t else s.task v j) →
      t.contents = s.held (.slot w i) → call.got = s.held (.call c) → s'.held = s.held := by
    intro call w i t hcalls htask hcont hgot
    rw [held_set hcalls htask, hcont, hgot, Function.update_eq_self, Function.update_eq_self]
  cases h with
  | quiet call hold hnew hcalls htask hid =>
    exact keep call hcalls (hnew.published.trans hold.published.symm)
      (same call hcalls htask (hnew.got.trans hold.got.symm))
  | claim w i data hold hsync hi hcalls htask hid =>
    refine keep _ hcalls hold.published.symm (sameSlot _ w i _ hcalls htask ?_ hold.got.symm)
    rw [State.held, Task.contents, Task.contents, hsync]
    rfl
  | takeId w i data hold hcalls htask hid =>
    refine keep _ hcalls ?_ (same _ hcalls htask ?_)
    · rw [State.published, hold]
      rfl
    · rw [State.held, hold]
      rfl
  | write w i id data f todo hold hcalls htask hid =>
    have hw : (s.task w i).syncInfo = .writing :=
      hI.syncInfo_of_own (show s.own c = some (.writing, w, i) by rw [State.own, hold]; rfl)
    refine keep _ hcalls ?_ (sameSlot _ w i _ hcalls htask ?_ ?_)
    · rw [State.published, hold]
      rfl
    · rw [State.held, Task.contents, Task.contents,
        Task.copyField_syncInfo (hI.copies.write_ne hold), hw]
      rfl
    · rw [State.held, hold]
      rfl
  | publish w i id data hold hcalls htask hid => exact hI.ledger_publish hold hcalls htask
  | take w i hold hsync hcalls htask hid =>
    refine keep _ hcalls hold.published.symm (sameSlot _ w i _ hcalls htask ?_ hold.got.symm)
    rw [State.held, Task.contents, Task.contents, hsync]
    rfl
  | copy w i task f todo hold hcalls htask hid =>
    refine keep _ hcalls ?_ (same _ hcalls htask ?_)
    · rw [State.published, hold]
      rfl
    · rw [State.held, hold]
      rfl
  | release w i task hold hcalls htask hid => exact hI.ledger_release hold hcalls htask

/-- **The invariant holds in every reachable state.** -/
theorem Reachable.inv {taskCount : ℕ → ℕ} (hr : Reachable taskCount s) : Inv s := by
  refine Runs.Reach.invariant hr ?_ fun s e s' hI _ hs => ?_
  · refine ⟨⟨?_, ?_, ?_⟩, ⟨?_, ?_⟩, ⟨?_, ?_⟩, ⟨?_, ?_, ?_, ?_⟩⟩
    · intro c y r hc
      cases hc
    · intro c d y z r hc
      cases hc
    · intro y r hy
      cases hy
    · intro c x hc
      cases hc
    · intro c d x hc
      cases hc
    · intro c w data i id todo hc
      cases hc
    · intro c w i task todo hc
      cases hc
    · intro k v hk
      cases hk
    · intro p v hp
      cases p <;> cases hp
    · intro p q v w hp
      cases p <;> cases hp
    · intro k l v w hk
      cases hk
  · have h := change_of_step hs
    exact ⟨h.slots hI, h.ids hI, h.copies hI, h.ledger hI⟩

theorem Reachable.taskCount_eq {taskCount : ℕ → ℕ} (hr : Reachable taskCount s) (w : ℕ) :
    (s.workers w).taskCount = taskCount w := by
  refine Runs.Reach.invariant (P := fun s => (s.workers w).taskCount = taskCount w) hr rfl ?_
  intro s e s' hP _ hs
  rw [step_taskCount hs, hP]

/-- Only the slots of the ring are ever used. -/
theorem Reachable.lt_taskCount {taskCount : ℕ → ℕ} (hn : ∀ w, 0 < taskCount w)
    (hr : Reachable taskCount s) {w i : ℕ} (hi : (s.task w i).syncInfo ≠ .empty) :
    i < taskCount w := by
  induction hr generalizing w i with
  | refl => exact absurd rfl hi
  | @tail s s' e hr hg hs ih =>
    have hI := Reachable.inv hr
    -- a slot that is set was in use before, or has just been claimed
    have set : ∀ w' i' t, (∀ v j, s'.task v j = if v = w' ∧ j = i' then t else s.task v j) →
        i' < taskCount w' → i < taskCount w := by
      intro w' i' t htask hlt
      rw [htask] at hi
      split_ifs at hi with h
      · rw [h.1, h.2]
        exact hlt
      · exact ih hi
    have used : ∀ c w' i' y, y ≠ .empty → s.own c = some (y, w', i') → i' < taskCount w' := by
      intro c w' i' y hy hown
      refine ih ?_
      rw [hI.syncInfo_of_own hown]
      exact hy
    cases change_of_step hs with
    | quiet call hold hnew hcalls htask hid => exact ih (by rwa [htask] at hi)
    | claim w' i' data hold hsync hmod hcalls htask hid =>
      obtain ⟨j, rfl⟩ := hmod
      refine set w' _ _ htask ?_
      rw [Reachable.taskCount_eq hr w']
      exact Nat.mod_lt _ (hn w')
    | takeId w' i' data hold hcalls htask hid => exact ih (by rwa [htask] at hi)
    | write w' i' id data f todo hold hcalls htask hid =>
      exact set w' i' _ htask (used _ w' i' .writing (by decide) (by rw [State.own, hold]; rfl))
    | publish w' i' id data hold hcalls htask hid =>
      exact set w' i' _ htask (used _ w' i' .writing (by decide) (by rw [State.own, hold]; rfl))
    | take w' i' hold hsync hcalls htask hid =>
      refine set w' i' _ htask (ih ?_)
      rw [hsync]
      decide
    | copy w' i' task f todo hold hcalls htask hid => exact ih (by rwa [htask] at hi)
    | release w' i' task hold hcalls htask hid =>
      exact set w' i' _ htask (used _ w' i' .reading (by decide) (by rw [State.own, hold]; rfl))

/-! ### Conservation -/

/-- The published task `v` is accounted for: by a queued slot that holds it, or by a call of
`dequeue_task` that moved such a slot to `Reading`, and copies it or has returned it. -/
def State.Accounts (s : State) (v : ℕ × TaskData) : Place → Prop
  | .slot w i => i < (s.workers w).taskCount ∧ (s.task w i).syncInfo = .queued ∧
      ((s.task w i).id, (s.task w i).data) = v
  | .call c => (∃ w i task todo, s.calls c = .dequeue w (.copy i task todo) ∧
      ((s.task w i).id, (s.task w i).data) = v) ∨ (s.calls c).got = some v

/-- What the slot protocol is for. -/
structure Conserved (s : State) : Prop where
  /-- Whatever was published is accounted for in exactly one way. -/
  accounted : ∀ c v, (s.calls c).published = some v → ∃! p, s.Accounts v p
  /-- A returned task is what one call published, and no other call returned it. -/
  returned : ∀ c v, (s.calls c).got = some v → (∃! e, (s.calls e).published = some v) ∧
    ∀ d v', (s.calls d).got = some v' → v'.1 = v.1 → d = c
  /-- A slot that is `Writing` or `Reading` belongs to one call. -/
  owner : ∀ w i, (s.task w i).syncInfo = .writing ∨ (s.task w i).syncInfo = .reading →
    ∃! c, (s.calls c).owned = some ((s.task w i).syncInfo, w, i)
  /-- Only the owner changes such a slot; the other slots change only by getting an owner. -/
  writes : ∀ e s', step s e = some s' → ∀ w i, s'.task w i ≠ s.task w i →
    (∃ y, (s.calls e.call).owned = some (y, w, i)) ∨
      ∃ y, (s.task w i).mark = none ∧ s'.task w i = { s.task w i with syncInfo := y } ∧
        (s'.calls e.call).owned = some (y, w, i)
  /-- Only the owner reads the id and the data of a slot: what another call does next is the same
  whatever they are. -/
  reads : ∀ c spurious w i id data, (∀ y, (s.calls c).owned ≠ some (y, w, i)) →
    (step (s.setTask w i ⟨(s.task w i).syncInfo, id, data⟩) (.run c spurious)).map (·.calls c) =
      (step s (.run c spurious)).map (·.calls c)
  /-- No two calls take the same id. -/
  ids : ∀ c d x, (s.calls c).takenId = some x → (s.calls d).takenId = some x → c = d

/-- The next step of a call does not look at the id and data of a slot the call does not own. -/
theorem step_setTask {w i : ℕ} (spurious : Bool) (t : Task)
    (ht : t.syncInfo = (s.task w i).syncInfo) (hown : ∀ y, (s.calls c).owned ≠ some (y, w, i)) :
    (step (s.setTask w i t) (.run c spurious)).map (·.calls c) =
      (step s (.run c spurious)).map (·.calls c) := by
  have hsync : ∀ v j, ((s.setTask w i t).task v j).syncInfo = (s.task v j).syncInfo := by
    intro v j
    rw [State.task_setTask]
    split_ifs with h
    · rw [ht, h.1, h.2]
    · rfl
  simp only [step, State.calls_setTask]
  cases hc : s.calls c with
  | idle => rfl
  | enqueue v data pc =>
    cases pc with
    | claim upperBound writeTo =>
      simp only [stepEnqueue, State.taskCount_setTask, hsync]
      split_ifs <;> simp
    | advance upperBound writeTo =>
      simp only [stepEnqueue, State.writeTo_setTask]
      split_ifs <;> simp
    | write slot id todo => cases todo <;> simp [stepEnqueue]
    | _ => simp [stepEnqueue]
  | dequeue v pc =>
    cases pc with
    | claim writeTo readFrom =>
      simp only [stepDequeue, State.taskCount_setTask, hsync]
      split_ifs <;> simp
    | advance writeTo readFrom =>
      simp only [stepDequeue, State.readFrom_setTask]
      split_ifs <;> simp
    | copy slot task todo =>
      have hne : ¬ (v = w ∧ slot = i) := by
        rintro ⟨rfl, rfl⟩
        exact hown .reading (by rw [hc]; rfl)
      cases todo with
      | nil => simp [stepDequeue]
      | cons f todo => simp [stepDequeue, State.task_setTask, hne]
    | _ => simp [stepDequeue]

theorem Change.writes (h : Change s c s') {w i : ℕ} (hne : s'.task w i ≠ s.task w i) :
    (∃ y, (s.calls c).owned = some (y, w, i)) ∨
      ∃ y, (s.task w i).mark = none ∧ s'.task w i = { s.task w i with syncInfo := y } ∧
        (s'.calls c).owned = some (y, w, i) := by
  -- the slot that changed is the one that was set
  have set : ∀ w' i' t, (∀ v j, s'.task v j = if v = w' ∧ j = i' then t else s.task v j) →
      w = w' ∧ i = i' ∧ s'.task w i = t := by
    intro w' i' t htask
    have h := htask w i
    split_ifs at h with heq
    · exact ⟨heq.1, heq.2, h⟩
    · exact absurd h hne
  cases h with
  | quiet call hold hnew hcalls htask hid => exact absurd (htask w i) hne
  | claim w' i' data hold hsync hi hcalls htask hid =>
    obtain ⟨rfl, rfl, ht⟩ := set w' i' _ htask
    refine Or.inr ⟨.writing, by rw [Task.mark, hsync]; rfl, ht, ?_⟩
    rw [hcalls, Function.update_self]
    rfl
  | takeId w' i' data hold hcalls htask hid => exact absurd (htask w i) hne
  | write w' i' id data f todo hold hcalls htask hid =>
    obtain ⟨rfl, rfl, -⟩ := set w' i' _ htask
    exact Or.inl ⟨.writing, by rw [hold]; rfl⟩
  | publish w' i' id data hold hcalls htask hid =>
    obtain ⟨rfl, rfl, -⟩ := set w' i' _ htask
    exact Or.inl ⟨.writing, by rw [hold]; rfl⟩
  | take w' i' hold hsync hcalls htask hid =>
    obtain ⟨rfl, rfl, ht⟩ := set w' i' _ htask
    refine Or.inr ⟨.reading, by rw [Task.mark, hsync]; rfl, ht, ?_⟩
    rw [hcalls, Function.update_self]
    rfl
  | copy w' i' task f todo hold hcalls htask hid => exact absurd (htask w i) hne
  | release w' i' task hold hcalls htask hid =>
    obtain ⟨rfl, rfl, -⟩ := set w' i' _ htask
    exact Or.inl ⟨.reading, by rw [hold]; rfl⟩

/-- A call that copies a task is the one place of that task. -/
theorem Inv.held_of_copy (hI : Inv s) {w i : ℕ} {task : Task} {todo : List Field}
    (hc : s.calls c = .dequeue w (.copy i task todo)) :
    s.held (.slot w i) = some ((s.task w i).id, (s.task w i).data) := by
  have hr : (s.task w i).syncInfo = .reading :=
    hI.syncInfo_of_own (show s.own c = some (.reading, w, i) by rw [State.own, hc]; rfl)
  rw [State.held, Task.contents, hr]
  rfl

/-- The place in the sense of the ledger of whatever accounts for a task. -/
theorem Inv.held_of_accounts (hI : Inv s) {v : ℕ × TaskData} {p : Place} (hp : s.Accounts v p) :
    ∃ q, s.held q = some v ∧ ((q = p ∧ ∀ w i, p = .slot w i → (s.task w i).syncInfo = .queued) ∨
      ∃ w i c, q = .slot w i ∧ p = .call c ∧ s.own c = some (.reading, w, i)) := by
  cases p with
  | slot w i =>
    obtain ⟨-, hq, hv⟩ := hp
    refine ⟨.slot w i, ?_, Or.inl ⟨rfl, ?_⟩⟩
    · rw [State.held, Task.contents, hq, hv]
      rfl
    · rintro w' i' heq
      cases heq
      exact hq
  | call c =>
    rcases hp with ⟨w, i, task, todo, hc, hv⟩ | hgot
    · refine ⟨.slot w i, by rw [hI.held_of_copy hc, hv], Or.inr ⟨w, i, c, rfl, rfl, ?_⟩⟩
      rw [State.own, hc]
      rfl
    · exact ⟨.call c, hgot, Or.inl ⟨rfl, fun w i heq => by cases heq⟩⟩

theorem Inv.accounts_unique (hI : Inv s) {v : ℕ × TaskData} {p p' : Place}
    (hp : s.Accounts v p) (hp' : s.Accounts v p') : p = p' := by
  obtain ⟨q, hq, hcase⟩ := hI.held_of_accounts hp
  obtain ⟨q', hq', hcase'⟩ := hI.held_of_accounts hp'
  have hqq : q = q' := hI.ledger.held_inj hq hq' rfl
  subst hqq
  have hclash : ∀ w i c, s.own c = some (.reading, w, i) → (s.task w i).syncInfo ≠ .queued := by
    intro w i c hown hqu
    rw [hI.syncInfo_of_own hown] at hqu
    cases hqu
  rcases hcase with ⟨rfl, hqu⟩ | ⟨w, i, c, rfl, rfl, hown⟩
  · rcases hcase' with ⟨rfl, -⟩ | ⟨w, i, c, rfl, -, hown⟩
    · rfl
    · exact absurd (hqu w i rfl) (hclash w i c hown)
  · rcases hcase' with ⟨rfl, hqu⟩ | ⟨w', i', c', hslot, rfl, hown'⟩
    · exact absurd (hqu w i rfl) (hclash w i c hown)
    · cases hslot
      rw [hI.slots.unique hown hown']

/-- **Conservation of tasks**, for any interleaving of any number of calls on any workers. -/
theorem reachable_conserved {taskCount : ℕ → ℕ} (hn : ∀ w, 0 < taskCount w)
    (hr : Reachable taskCount s) : Conserved s := by
  have hI := Reachable.inv hr
  refine ⟨?_, ?_, ?_, ?_, ?_, ?_⟩
  · intro c v hv
    obtain ⟨q, hq⟩ := hI.ledger.placed (show s.published c = some v from hv)
    suffices hex : ∃ p, s.Accounts v p by
      obtain ⟨p, hp⟩ := hex
      exact ⟨p, hp, fun p' hp' => hI.accounts_unique hp' hp⟩
    cases q with
    | call d => exact ⟨.call d, Or.inr hq⟩
    | slot w i =>
      rw [State.held, Task.contents] at hq
      split_ifs at hq with hsync
      rcases hsync with hqu | hre
      · refine ⟨.slot w i, ?_, hqu, Option.some.inj hq⟩
        rw [Reachable.taskCount_eq hr w]
        refine Reachable.lt_taskCount hn hr ?_
        rw [hqu]
        decide
      · obtain ⟨d, hd⟩ := hI.slots.holder (r := (w, i)) (y := .reading) (by
          rw [State.marks, Task.mark, hre]; rfl)
        refine ⟨.call d, Or.inl ?_⟩
        -- a call that owns a slot in `Reading` is copying
        cases hc : s.calls d with
        | idle => rw [State.own, hc] at hd; cases hd
        | enqueue v data pc => rw [State.own, hc] at hd; cases pc <;> cases hd
        | dequeue v pc =>
          rw [State.own, hc] at hd
          cases pc with
          | copy slot task todo =>
            cases hd
            exact ⟨_, _, task, todo, rfl, Option.some.inj hq⟩
          | _ => cases hd
  · intro c v hv
    obtain ⟨e, he⟩ := hI.ledger.sourced (show s.held (.call c) = some v from hv)
    refine ⟨⟨e, he, fun e' he' => hI.ledger.src_inj he' he rfl⟩, fun d v' hd hkey => ?_⟩
    have hplace := hI.ledger.held_inj (show s.held (.call d) = some v' from hd)
      (show s.held (.call c) = some v from hv) hkey
    cases hplace
    rfl
  · intro w i hsync
    obtain ⟨c, hc⟩ := hI.slots.holder (r := (w, i)) (y := (s.task w i).syncInfo) (by
      rw [State.marks, Task.mark, if_pos hsync])
    exact ⟨c, hc, fun d hd => hI.slots.unique hd hc⟩
  · exact fun e s' hs w i hne => (change_of_step hs).writes hne
  · exact fun c spurious w i id data hown => step_setTask spurious _ rfl hown
  · exact fun c d x hc hd => hI.ids.inj hc hd

/-- One call enqueues, another one dequeues. -/
theorem reachable_conserved_one_task : ∃ s, Reachable (fun _ => 2) s ∧
    (s.calls 1).got = some (0, ⟨7#64, 8#64, 9#64⟩) ∧ Conserved s := by
  let events : List Event := .enqueue 0 3 ⟨7#64, 8#64, 9#64⟩ ::
    List.replicate 9 (.run 0 false) ++ .dequeue 1 3 :: List.replicate 9 (.run 1 false)
  have hrun : (Runs.execute step (fun _ _ => true) (initial fun _ => 2) events).map
      (fun s => (s.calls 1).got) = some (some (0, ⟨7#64, 8#64, 9#64⟩)) := by decide
  obtain ⟨s, hs, hgot⟩ := Option.map_eq_some_iff.1 hrun
  have hr : Reachable (fun _ => 2) s := (Runs.Reach.of_execute hs).mono fun _ _ _ => trivial
  exact ⟨s, hr, hgot, reachable_conserved (fun _ => by decide) hr⟩

end Dumboss.Tasks
