import Dumboss.Descriptors
import Dumboss.Lib.Runs

/-!
# Cores and their workers (`task_begin` in `kern/multitasking.c`)

Every core claims the next worker with a fetch-and-add on `init_count`, writes its id there, and then
looks itself up: `get_worker_index` returns the first worker that holds the id.  The workers are zeroed
at first, so a worker that is claimed and not written yet looks like that of the core with id `0`.

* `Pc`, `State`, `step`: the points of `task_begin` and `task_main` between two accesses to the shared
  state; a core is named by its id;
* `Written s j`: the core that claimed worker `j` has written its id;
* `ReadsWritten`: the condition on the steps, which is about the core with id `0` only;
* `OwnWorkers`: every core has the worker it claimed, and no two have the same worker or the same task
  state segment; the selector of a segment has 16 bits, and wraps around at 4096 workers;
* `BeginInv`: the invariant, `BeginInv.step` the step lemma; there are no more claims than ids;
* `workers_distinct`: in a run under the condition every core gets the worker it claimed; the first step
  against the condition gives a core the wrong one.
-/

namespace Dumboss.Begin

/-- A point of `task_begin` and `task_main`; `index` is the worker that was claimed. -/
inductive Pc
  | idle
  | claimed (index : ℕ)
  /-- In the loop of `get_worker_index`, called by `task_begin`, at worker `i`. -/
  | scan (index i : ℕ)
  /-- `task_begin` goes on with `self_index`: it loads the TSS segment of that index. -/
  | begun (index selfIndex : ℕ)
  /-- In the loop of `get_worker_index`, called by `task_main`. -/
  | scanMain (index selfIndex i : ℕ)
  | main (index selfIndex mainIndex : ℕ)
  /-- `get_worker_index` found nothing, and the core stops. -/
  | lost (index : ℕ)
  deriving DecidableEq

/-- The shared state, and the cores by their ids. -/
structure State where
  initCount : ℕ
  initFinishCount : ℕ
  /-- `workers[i].core_id`. -/
  coreId : ℕ → ℕ
  cores : ℕ → Pc

def State.setCore (s : State) (id : ℕ) (pc : Pc) : State :=
  { s with cores := Function.update s.cores id pc }

@[simp] theorem State.setCore_cores (s : State) (id : ℕ) (pc : Pc) :
    (s.setCore id pc).cores = Function.update s.cores id pc := rfl

@[simp] theorem State.setCore_coreId (s : State) (id : ℕ) (pc : Pc) :
    (s.setCore id pc).coreId = s.coreId := rfl

@[simp] theorem State.setCore_initCount (s : State) (id : ℕ) (pc : Pc) :
    (s.setCore id pc).initCount = s.initCount := rfl

/-- One read of `get_worker_index`: the loop ends, or the worker is the one, or the next one is looked
at. -/
def scanStep (workerCount : ℕ) (s : State) (id index i : ℕ) (found : ℕ → Pc) (next : ℕ → Pc) : State :=
  if i = workerCount then s.setCore id (.lost index)
  else if s.coreId i = id then s.setCore id (found i)
  else s.setCore id (next (i + 1))

/-- What happens next: a core enters `task_begin`, or a core makes a step. -/
inductive Event
  | begin' (id : ℕ)
  | run (id : ℕ)

/-- The core an event belongs to. -/
def Event.core : Event → ℕ
  | .begin' id => id
  | .run id => id

/-- The effect of an event, if it can happen.  `init_count` and `init_finish_count` are `u16`. -/
def step (workerCount : ℕ) (s : State) : Event → Option State
  | .begin' id =>
    match s.cores id with
    | .idle =>
      some (({ s with initCount := (s.initCount + 1) % 2 ^ 16 } : State).setCore id
        (.claimed s.initCount))
    | _ => none
  | .run id =>
    match s.cores id with
    | .idle => none
    | .claimed index =>
      some (({ s with coreId := Function.update s.coreId index id } : State).setCore id
        (.scan index 0))
    | .scan index i => some (scanStep workerCount s id index i (.begun index) (.scan index))
    | .begun index selfIndex =>
      some (({ s with initFinishCount := (s.initFinishCount + 1) % 2 ^ 16 } : State).setCore id
        (.scanMain index selfIndex 0))
    | .scanMain index selfIndex i =>
      some (scanStep workerCount s id index i (.main index selfIndex) (.scanMain index selfIndex))
    | .main _ _ _ => none
    | .lost _ => none

/-- Zeroed workers. -/
def initial : State := ⟨0, 0, fun _ => 0, fun _ => .idle⟩

/-! ### The invariant -/

namespace Pc

/-- The worker that was claimed. -/
def claim : Pc → Option ℕ
  | .idle => none
  | .claimed index => some index
  | .scan index _ => some index
  | .begun index _ => some index
  | .scanMain index _ _ => some index
  | .main index _ _ => some index
  | .lost index => some index

/-- The worker that the core has written its id to. -/
def written : Pc → Option ℕ
  | .claimed _ => none
  | pc => pc.claim

/-- The core has no wrong index, and has not looked past its own worker. -/
def Own : Pc → Prop
  | .idle => True
  | .claimed _ => True
  | .scan index i => i ≤ index
  | .begun index selfIndex => selfIndex = index
  | .scanMain index selfIndex i => selfIndex = index ∧ i ≤ index
  | .main index selfIndex mainIndex => selfIndex = index ∧ mainIndex = index
  | .lost _ => False

/-- The indices that the core got from `get_worker_index` and uses. -/
def obtained : Pc → List ℕ
  | .begun _ selfIndex => [selfIndex]
  | .scanMain _ selfIndex _ => [selfIndex]
  | .main _ selfIndex mainIndex => [selfIndex, mainIndex]
  | _ => []

/-- The selector that the core loads with `ltr`. -/
def segment : Pc → Option Descriptors.U16
  | .begun _ selfIndex => some (Descriptors.tssSegment selfIndex)
  | .scanMain _ selfIndex _ => some (Descriptors.tssSegment selfIndex)
  | .main _ selfIndex _ => some (Descriptors.tssSegment selfIndex)
  | _ => none

/-- The worker that a core in `get_worker_index` looks at next. -/
def looksAt : Pc → Option ℕ
  | .scan _ i => some i
  | .scanMain _ _ i => some i
  | _ => none

end Pc

/-- The core that claimed worker `j` has written its id. -/
def Written (s : State) (j : ℕ) : Prop := ∃ id, (s.cores id).written = some j

/-- There are at most `workerCount` cores, with ids of type `u8`. -/
def Admitted (workerCount : ℕ) (s : State) : Event → Prop
  | .begin' id => id < 2 ^ 8 ∧ s.initCount < workerCount
  | .run _ => True

/-- The core with id `0` reads workers only whose core has written its id. -/
def ReadsWritten (s : State) : Event → Prop
  | .begin' _ => True
  | .run id => id = 0 → ∀ j, (s.cores id).looksAt = some j → Written s j

/-- Every index a core got is the one it claimed, no core got none, and no two cores got the same index
or the same task state segment. -/
structure OwnWorkers (s : State) : Prop where
  claimed : ∀ {id j}, j ∈ (s.cores id).obtained → (s.cores id).claim = some j
  found : ∀ {id index}, s.cores id ≠ .lost index
  distinct : ∀ {id id' j}, j ∈ (s.cores id).obtained → j ∈ (s.cores id').obtained → id = id'
  segments : ∀ {id id' x}, (s.cores id).segment = some x → (s.cores id').segment = some x → id = id'

variable {workerCount : ℕ} {s s' : State}

/-- **The invariant.** -/
structure BeginInv (workerCount : ℕ) (s : State) : Prop where
  le : s.initCount ≤ workerCount
  lt : ∀ {id i}, (s.cores id).claim = some i → i < s.initCount
  inj : ∀ {id id' i}, (s.cores id).claim = some i → (s.cores id').claim = some i → id = id'
  claimant : ∀ i < s.initCount, ∃ id < 2 ^ 8, (s.cores id).claim = some i
  coreId_of_written : ∀ {id i}, (s.cores id).written = some i → s.coreId i = id
  coreId_of_not : ∀ {i}, ¬ Written s i → s.coreId i = 0

/-! ### The steps -/

/-- What a step can do: a core claims a worker, writes its id there, or goes on with the worker it has
written to. -/
theorem step_cases {e : Event} (hs : step workerCount s e = some s') :
    (∃ id, e = .begin' id ∧ s.cores id = .idle ∧
      s' = ({ s with initCount := (s.initCount + 1) % 2 ^ 16 } : State).setCore id
        (.claimed s.initCount)) ∨
    (∃ id index, e = .run id ∧ s.cores id = .claimed index ∧
      s' = ({ s with coreId := Function.update s.coreId index id } : State).setCore id
        (.scan index 0)) ∨
    (∃ id index pc, e = .run id ∧ (s.cores id).written = some index ∧ pc.written = some index ∧
      s'.cores = Function.update s.cores id pc ∧ s'.coreId = s.coreId ∧
      s'.initCount = s.initCount) := by
  have hscan : ∀ id index i (found next : ℕ → Pc), (∀ j, (found j).written = some index) →
      (∀ j, (next j).written = some index) → ∃ pc, pc.written = some index ∧
      scanStep workerCount s id index i found next = s.setCore id pc := by
    intro id index i found next hfound hnext
    unfold scanStep
    split_ifs
    · exact ⟨.lost index, rfl, rfl⟩
    · exact ⟨found i, hfound i, rfl⟩
    · exact ⟨next (i + 1), hnext _, rfl⟩
  cases e with
  | begin' id =>
    left
    simp only [step] at hs
    split at hs
    · next hc => exact ⟨id, rfl, hc, (Option.some.inj hs).symm⟩
    · cases hs
  | run id =>
    right
    simp only [step] at hs
    split at hs
    · cases hs
    · next index hc => exact Or.inl ⟨id, index, rfl, hc, (Option.some.inj hs).symm⟩
    · next index i hc =>
      obtain ⟨pc, hpc, heq⟩ := hscan id index i (.begun index) (.scan index) (fun _ => rfl)
        (fun _ => rfl)
      rw [heq] at hs
      cases hs
      exact Or.inr ⟨id, index, pc, rfl, by rw [hc]; rfl, hpc, rfl, rfl, rfl⟩
    · next index selfIndex hc =>
      cases hs
      exact Or.inr ⟨id, index, _, rfl, by rw [hc]; rfl, rfl, rfl, rfl, rfl⟩
    · next index selfIndex i hc =>
      obtain ⟨pc, hpc, heq⟩ := hscan id index i (.main index selfIndex) (.scanMain index selfIndex)
        (fun _ => rfl) (fun _ => rfl)
      rw [heq] at hs
      cases hs
      exact Or.inr ⟨id, index, pc, rfl, by rw [hc]; rfl, hpc, rfl, rfl, rfl⟩
    · cases hs
    · cases hs

theorem Pc.claim_of_written {pc : Pc} {i : ℕ} (h : pc.written = some i) : pc.claim = some i := by
  cases pc with
  | claimed index => cases h
  | _ => exact h

/-- A function of the points of the cores does not change when one core goes on to a point with the same
value. -/
theorem update_congr {α : Type} {f : Pc → α} {cores : ℕ → Pc} {id : ℕ} {pc : Pc}
    (h : f pc = f (cores id)) (k : ℕ) : f (Function.update cores id pc k) = f (cores k) := by
  rcases eq_or_ne k id with rfl | hk
  · rw [Function.update_self, h]
  · rw [Function.update_of_ne hk]

/-- The invariant depends on the claims, the ids written and the ids of the workers. -/
theorem BeginInv.congr (h : BeginInv workerCount s) (hcount : s'.initCount = s.initCount)
    (hid : s'.coreId = s.coreId) (hclaim : ∀ k, (s'.cores k).claim = (s.cores k).claim)
    (hwritten : ∀ k, (s'.cores k).written = (s.cores k).written) : BeginInv workerCount s' where
  le := by rw [hcount]; exact h.le
  lt hc := by
    rw [hclaim] at hc
    rw [hcount]
    exact h.lt hc
  inj hc hc' := by
    rw [hclaim] at hc hc'
    exact h.inj hc hc'
  claimant i hi := by
    rw [hcount] at hi
    obtain ⟨id, hlt, hc⟩ := h.claimant i hi
    exact ⟨id, hlt, by rw [hclaim, hc]⟩
  coreId_of_written hw := by
    rw [hwritten] at hw
    rw [hid]
    exact h.coreId_of_written hw
  coreId_of_not hw := by
    rw [hid]
    refine h.coreId_of_not fun hw' => hw ?_
    obtain ⟨k, hk⟩ := hw'
    exact ⟨k, by rw [hwritten, hk]⟩

/-- A core claims the next worker. -/
theorem BeginInv.claim {id : ℕ} (hn : workerCount < 2 ^ 16) (h : BeginInv workerCount s)
    (hc : s.cores id = .idle) (hid : id < 2 ^ 8) (hlt : s.initCount < workerCount) :
    BeginInv workerCount (({ s with initCount := (s.initCount + 1) % 2 ^ 16 } : State).setCore id
      (.claimed s.initCount)) := by
  have hcount : (s.initCount + 1) % 2 ^ 16 = s.initCount + 1 := Nat.mod_eq_of_lt (by omega)
  have hclaim : ∀ k i, (Function.update s.cores id (.claimed s.initCount) k).claim = some i →
      k = id ∧ i = s.initCount ∨ (s.cores k).claim = some i := by
    intro k i hk
    rcases eq_or_ne k id with rfl | hne
    · rw [Function.update_self] at hk
      exact Or.inl ⟨rfl, (Option.some.inj hk).symm⟩
    · rw [Function.update_of_ne hne] at hk
      exact Or.inr hk
  have hwritten : ∀ k, (Function.update s.cores id (.claimed s.initCount) k).written =
      (s.cores k).written := update_congr (by rw [hc]; rfl)
  refine ⟨?_, ?_, ?_, ?_, ?_, ?_⟩
  · simp only [State.setCore_initCount, hcount]
    omega
  · intro k i hk
    simp only [State.setCore_initCount, hcount]
    rcases hclaim k i hk with ⟨-, rfl⟩ | hk
    · exact Nat.lt_succ_self _
    · exact Nat.lt_succ_of_lt (h.lt hk)
  · intro k k' i hk hk'
    rcases hclaim k i hk with ⟨rfl, rfl⟩ | hold <;> rcases hclaim k' _ hk' with ⟨rfl, hi⟩ | hold'
    · rfl
    · exact absurd (h.lt hold') (lt_irrefl _)
    · exact absurd (h.lt hold) (by rw [hi]; exact lt_irrefl _)
    · exact h.inj hold hold'
  · intro i hi
    simp only [State.setCore_initCount, hcount] at hi
    simp only [State.setCore_cores]
    rcases Nat.lt_succ_iff_lt_or_eq.1 hi with hi | rfl
    · obtain ⟨k, hk, hclaimed⟩ := h.claimant i hi
      refine ⟨k, hk, ?_⟩
      rw [Function.update_of_ne, hclaimed]
      rintro rfl
      rw [hc] at hclaimed
      cases hclaimed
    · exact ⟨id, hid, by rw [Function.update_self]; rfl⟩
  · intro k i hk
    exact h.coreId_of_written ((hwritten k).symm.trans hk)
  · intro i hi
    refine h.coreId_of_not fun hw => hi ?_
    obtain ⟨k, hk⟩ := hw
    exact ⟨k, (hwritten k).trans hk⟩

/-- A core writes its id to the worker it claimed. -/
theorem BeginInv.write {id index : ℕ} (h : BeginInv workerCount s) (hc : s.cores id = .claimed index) :
    BeginInv workerCount (({ s with coreId := Function.update s.coreId index id } : State).setCore id
      (.scan index 0)) := by
  have hown : (s.cores id).claim = some index := by rw [hc]; rfl
  have hclaim : ∀ k, (Function.update s.cores id (.scan index 0) k).claim = (s.cores k).claim :=
    update_congr (by rw [hc]; rfl)
  refine ⟨h.le, ?_, ?_, ?_, ?_, ?_⟩
  · intro k i hk
    exact h.lt ((hclaim k).symm.trans hk)
  · intro k k' i hk hk'
    exact h.inj ((hclaim k).symm.trans hk) ((hclaim k').symm.trans hk')
  · intro i hi
    obtain ⟨k, hk, hclaimed⟩ := h.claimant i hi
    exact ⟨k, hk, (hclaim k).trans hclaimed⟩
  · intro k i hk
    simp only [State.setCore_cores] at hk
    simp only [State.setCore_coreId]
    rcases eq_or_ne k id with rfl | hne
    · rw [Function.update_self] at hk
      cases hk
      rw [Function.update_self]
    · rw [Function.update_of_ne hne] at hk
      have hi : i ≠ index := by
        rintro rfl
        exact hne (h.inj (Pc.claim_of_written hk) hown)
      rw [Function.update_of_ne hi]
      exact h.coreId_of_written hk
  · intro i hi
    have hne : i ≠ index := by
      rintro rfl
      exact hi ⟨id, by simp only [State.setCore_cores, Function.update_self]; rfl⟩
    simp only [State.setCore_coreId, Function.update_of_ne hne]
    refine h.coreId_of_not fun hw => hi ?_
    obtain ⟨k, hk⟩ := hw
    have hk' : k ≠ id := by
      rintro rfl
      rw [hc] at hk
      cases hk
    exact ⟨k, by simp only [State.setCore_cores, Function.update_of_ne hk', hk]⟩

/-- **Step lemma**: every step keeps the invariant, with or without the condition. -/
theorem BeginInv.step {e : Event} (hn : workerCount < 2 ^ 16) (h : BeginInv workerCount s)
    (ha : Admitted workerCount s e) (hs : step workerCount s e = some s') :
    BeginInv workerCount s' := by
  obtain ⟨id, rfl, hc, rfl⟩ | ⟨id, index, rfl, hc, rfl⟩ |
    ⟨id, index, pc, rfl, hw, hpc, hcores, hid, hcount⟩ := step_cases hs
  · exact h.claim hn hc ha.1 ha.2
  · exact h.write hc
  · refine h.congr hcount hid (fun k => ?_) (fun k => ?_)
    · rw [hcores]
      exact update_congr ((Pc.claim_of_written hpc).trans (Pc.claim_of_written hw).symm) k
    · rw [hcores]
      exact update_congr (hpc.trans hw.symm) k

theorem BeginInv.initial : BeginInv workerCount initial where
  le := Nat.zero_le _
  lt hc := by cases hc
  inj hc _ := by cases hc
  claimant i hi := absurd hi (Nat.not_lt_zero i)
  coreId_of_written hw := by cases hw
  coreId_of_not _ := rfl

/-- Every claim is that of another id, and there are 256 ids. -/
theorem BeginInv.initCount_le (h : BeginInv workerCount s) : s.initCount ≤ 2 ^ 8 := by
  choose! core hlt hclaim using h.claimant
  have hmaps : ∀ i ∈ Finset.range s.initCount, core i ∈ Finset.range (2 ^ 8) := by
    intro i hi
    exact Finset.mem_range.2 (hlt i (Finset.mem_range.1 hi))
  have hinj : Set.InjOn core (Finset.range s.initCount) := by
    intro i hi j hj heq
    have hi := hclaim i (Finset.mem_range.1 hi)
    rw [heq, hclaim j (Finset.mem_range.1 hj)] at hi
    exact (Option.some.inj hi).symm
  simpa using Finset.card_le_card_of_injOn core hmaps hinj

/-- The first 4096 selectors are distinct. -/
theorem tssSegment_inj {i j : ℕ} (hi : i < 2 ^ 12) (hj : j < 2 ^ 12)
    (h : Descriptors.tssSegment i = Descriptors.tssSegment j) : i = j := by
  have htwo : (2#16).toNat = 2 := rfl
  have h := congrArg BitVec.toNat h
  simp only [Descriptors.tssSegment, BitVec.toNat_shiftLeft, BitVec.toNat_add, BitVec.toNat_mul,
    BitVec.ofInt_natCast, BitVec.toNat_ofNat, htwo, Nat.shiftLeft_eq] at h
  omega

/-! ### The scan -/

/-- A core finds its id exactly in its own worker, the core with id `0` at least where it reads an id
that was written. -/
theorem BeginInv.coreId_eq_iff {id index i : ℕ} (h : BeginInv workerCount s)
    (hw : (s.cores id).written = some index) (hi : id = 0 → Written s i) :
    s.coreId i = id ↔ i = index := by
  constructor
  · intro heq
    by_cases hwi : Written s i
    · obtain ⟨k, hk⟩ := hwi
      obtain rfl : k = id := (h.coreId_of_written hk).symm.trans heq
      exact Option.some.inj (hk.symm.trans hw)
    · exact absurd (hi (heq.symm.trans (h.coreId_of_not hwi))) hwi
  · rintro rfl
    exact h.coreId_of_written hw

/-- A read of a core that has not looked past its own worker. -/
theorem BeginInv.scanStep_eq {id index i : ℕ} {found next : ℕ → Pc} (h : BeginInv workerCount s)
    (hw : (s.cores id).written = some index) (hle : i ≤ index) :
    scanStep workerCount s id index i found next =
      s.setCore id (if s.coreId i = id then found i else next (i + 1)) := by
  have hlt : index < s.initCount := h.lt (Pc.claim_of_written hw)
  have hi : i ≠ workerCount := by
    have := h.le
    omega
  rw [scanStep, if_neg hi]
  split_ifs <;> rfl

/-- The core with id `0` takes a worker that is claimed and not written for its own. -/
theorem BeginInv.coreId_of_unwritten {index i : ℕ} (h : BeginInv workerCount s)
    (hw : (s.cores 0).written = some index) (hi : ¬ Written s i) : s.coreId i = 0 ∧ i ≠ index := by
  refine ⟨h.coreId_of_not hi, ?_⟩
  rintro rfl
  exact hi ⟨0, hw⟩

/-- **Step lemma**: under the condition no core gets a wrong index or looks past its worker. -/
theorem BeginInv.own_step {e : Event} (h : BeginInv workerCount s) (ho : ∀ id, (s.cores id).Own)
    (hg : ReadsWritten s e) (hs : Begin.step workerCount s e = some s') : ∀ id, (s'.cores id).Own := by
  have keep : ∀ (id : ℕ) (pc : Pc), pc.Own → ∀ k, (Function.update s.cores id pc k).Own := by
    intro id pc hpc k
    rcases eq_or_ne k id with rfl | hk
    · rwa [Function.update_self]
    · rw [Function.update_of_ne hk]
      exact ho k
  cases e with
  | begin' id =>
    simp only [Begin.step] at hs
    split at hs
    · cases hs
      exact keep id _ trivial
    · cases hs
  | run id =>
    have hid := ho id
    simp only [Begin.step] at hs
    split at hs
    · cases hs
    · cases hs
      exact keep id _ (Nat.zero_le _)
    · next index i hc =>
      rw [hc] at hid
      have hw : (s.cores id).written = some index := by rw [hc]; rfl
      have hiff := h.coreId_eq_iff hw fun h0 => hg h0 i (by rw [hc]; rfl)
      rw [h.scanStep_eq hw hid] at hs
      cases hs
      refine keep id _ ?_
      split_ifs with hfound
      · exact hiff.1 hfound
      · exact lt_of_le_of_ne hid fun heq => hfound (hiff.2 heq)
    · next index selfIndex hc =>
      rw [hc] at hid
      cases hs
      exact keep id _ ⟨hid, Nat.zero_le _⟩
    · next index selfIndex i hc =>
      rw [hc] at hid
      have hw : (s.cores id).written = some index := by rw [hc]; rfl
      have hiff := h.coreId_eq_iff hw fun h0 => hg h0 i (by rw [hc]; rfl)
      rw [h.scanStep_eq hw hid.2] at hs
      cases hs
      refine keep id _ ?_
      split_ifs with hfound
      · exact ⟨hid.1, hiff.1 hfound⟩
      · exact ⟨hid.1, lt_of_le_of_ne hid.2 fun heq => hfound (hiff.2 heq)⟩
    · cases hs
    · cases hs

theorem not_ownWorkers_setCore {id j : ℕ} {pc : Pc} (hj : j ∈ pc.obtained) (hne : pc.claim ≠ some j) :
    ¬ OwnWorkers (s.setCore id pc) := by
  intro hown
  have hself : (s.setCore id pc).cores id = pc := by
    rw [State.setCore_cores, Function.update_self]
  refine hne ?_
  rw [← hself]
  exact hown.claimed (by rwa [hself])

/-- A step against the condition gives the core with id `0` a worker that it has not claimed. -/
theorem BeginInv.wrong_step {e : Event} (h : BeginInv workerCount s) (ho : ∀ id, (s.cores id).Own)
    (hg : ¬ ReadsWritten s e) (hs : Begin.step workerCount s e = some s') : ¬ OwnWorkers s' := by
  cases e with
  | begin' id => exact absurd trivial hg
  | run id =>
    simp only [ReadsWritten, not_forall] at hg
    obtain ⟨rfl, i, hlook, hi⟩ := hg
    have hid := ho 0
    simp only [Begin.step] at hs
    split at hs
    · cases hs
    · next index hc => rw [hc] at hlook; cases hlook
    · next index j hc =>
      rw [hc] at hid hlook
      obtain rfl : j = i := Option.some.inj hlook
      have hw : (s.cores 0).written = some index := by rw [hc]; rfl
      obtain ⟨hzero, hne⟩ := h.coreId_of_unwritten hw hi
      rw [h.scanStep_eq hw hid, if_pos hzero] at hs
      cases hs
      exact not_ownWorkers_setCore (List.mem_singleton_self j) fun heq => hne (Option.some.inj heq).symm
    · next index selfIndex hc => rw [hc] at hlook; cases hlook
    · next index selfIndex j hc =>
      rw [hc] at hid hlook
      obtain rfl : j = i := Option.some.inj hlook
      have hw : (s.cores 0).written = some index := by rw [hc]; rfl
      obtain ⟨hzero, hne⟩ := h.coreId_of_unwritten hw hi
      rw [h.scanStep_eq hw hid.2, if_pos hzero] at hs
      cases hs
      exact not_ownWorkers_setCore (List.mem_cons_of_mem _ (List.mem_singleton_self j))
        fun heq => hne (Option.some.inj heq).symm
    · cases hs
    · cases hs

/-- The selector of a core is that of an index it got. -/
theorem Pc.exists_obtained {pc : Pc} {x : Descriptors.U16} (h : pc.segment = some x) :
    ∃ j ∈ pc.obtained, x = Descriptors.tssSegment j := by
  cases pc with
  | begun index selfIndex => exact ⟨selfIndex, List.mem_cons_self, (Option.some.inj h).symm⟩
  | scanMain index selfIndex i => exact ⟨selfIndex, List.mem_cons_self, (Option.some.inj h).symm⟩
  | main index selfIndex mainIndex =>
    exact ⟨selfIndex, List.mem_cons_self, (Option.some.inj h).symm⟩
  | _ => cases h

/-- Cores without a wrong index have distinct ones. -/
theorem BeginInv.ownWorkers (h : BeginInv workerCount s) (ho : ∀ id, (s.cores id).Own) :
    OwnWorkers s := by
  have hclaimed : ∀ id j, j ∈ (s.cores id).obtained → (s.cores id).claim = some j := by
    intro id j hj
    have hid := ho id
    cases hc : s.cores id with
    | begun index selfIndex =>
      rw [hc] at hj hid
      obtain rfl : j = selfIndex := List.mem_singleton.1 hj
      exact congrArg some hid.symm
    | scanMain index selfIndex i =>
      rw [hc] at hj hid
      obtain rfl : j = selfIndex := List.mem_singleton.1 hj
      exact congrArg some hid.1.symm
    | main index selfIndex mainIndex =>
      rw [hc] at hj hid
      obtain ⟨rfl, rfl⟩ := hid
      simp only [Pc.obtained, List.mem_cons, List.not_mem_nil, or_false, or_self] at hj
      rw [hj]
      rfl
    | _ =>
      rw [hc] at hj
      cases hj
  have hdistinct : ∀ id id' j, j ∈ (s.cores id).obtained → j ∈ (s.cores id').obtained → id = id' :=
    fun _ _ _ hj hj' => h.inj (hclaimed _ _ hj) (hclaimed _ _ hj')
  have hlt : ∀ id j, j ∈ (s.cores id).obtained → j < 2 ^ 12 := by
    intro id j hj
    have := h.lt (hclaimed id j hj)
    have := h.initCount_le
    omega
  refine ⟨fun hj => hclaimed _ _ hj, ?_, hdistinct _ _ _, ?_⟩
  · intro id index hc
    have hid := ho id
    rw [hc] at hid
    exact hid
  · intro id id' x hx hx'
    obtain ⟨j, hj, rfl⟩ := Pc.exists_obtained hx
    obtain ⟨k, hk, heq⟩ := Pc.exists_obtained hx'
    obtain rfl := tssSegment_inj (hlt id j hj) (hlt id' k hk) heq
    exact hdistinct id id' j hj hk

/-- **Cores get distinct workers**: in every run of at most `workerCount` cores whose steps meet the
condition, every index that a core got from `get_worker_index` is the one that it claimed, no two cores
use the same worker or the same task state segment, and the next step keeps it so exactly if it meets
the condition too. -/
theorem workers_distinct (workerCount : ℕ) (hn : workerCount < 2 ^ 16) (s : State)
    (hr : Runs.Reach (step workerCount)
      (fun s e => Admitted workerCount s e ∧ ReadsWritten s e) initial s) :
    OwnWorkers s ∧ ∀ e s', Admitted workerCount s e → step workerCount s e = some s' →
      (OwnWorkers s' ↔ ReadsWritten s e) := by
  have hinv : BeginInv workerCount s ∧ ∀ id, (s.cores id).Own := by
    refine hr.invariant (P := fun s => BeginInv workerCount s ∧ ∀ id, (s.cores id).Own)
      ⟨.initial, fun _ => trivial⟩ ?_
    rintro s e s' ⟨h, ho⟩ ⟨ha, hg⟩ hs
    exact ⟨h.step hn ha hs, h.own_step ho hg hs⟩
  obtain ⟨h, ho⟩ := hinv
  refine ⟨h.ownWorkers ho, fun e s' ha hs => ⟨fun hown => ?_, fun hg => ?_⟩⟩
  · by_contra hg
    exact h.wrong_step ho hg hs hown
  · exact (h.step hn ha hs).ownWorkers (h.own_step ho hg hs)

/-- The cores with ids `5` and `0` begin one after the other, and the second one looks at the worker of
the first when its id is there. -/
theorem workers_distinct_two_cores :
    ∃ s, Runs.Reach (step 2) (fun s e => Admitted 2 s e ∧ ReadsWritten s e) initial s ∧
      s.cores 5 = .begun 0 0 ∧ s.cores 0 = .begun 1 1 ∧ OwnWorkers s := by
  have hr : Runs.Reach (step 2) (fun s e => Admitted 2 s e ∧ ReadsWritten s e) initial _ :=
    ((((((Runs.Reach.refl
      |>.tail (e := .begin' 5) ⟨⟨by decide, by decide⟩, trivial⟩ rfl)
      |>.tail (e := .begin' 0) ⟨⟨by decide, by decide⟩, trivial⟩ rfl)
      |>.tail (e := .run 5) ⟨trivial, fun h => absurd h (by decide)⟩ rfl)
      |>.tail (e := .run 0) ⟨trivial, fun _ j hj => by cases hj⟩ rfl)
      |>.tail (e := .run 0) ⟨trivial, fun _ j hj => ⟨5, hj⟩⟩ rfl)
      |>.tail (e := .run 0) ⟨trivial, fun _ j hj => ⟨0, hj⟩⟩ rfl)
      |>.tail (e := .run 5) ⟨trivial, fun h => absurd h (by decide)⟩ rfl
  exact ⟨_, hr, rfl, rfl, (workers_distinct 2 (by decide) _ hr).1⟩

/-- The core with id `5` claims worker `0`, the one with id `0` claims worker `1`, looks at worker `0`
before there is an id in it, and takes it for its own.  Both go on with worker `0`. -/
theorem workers_not_distinct :
    ∃ s, Runs.Reach (step 2) (Admitted 2) initial s ∧
      s.cores 5 = .begun 0 0 ∧ s.cores 0 = .begun 1 0 ∧ ¬ OwnWorkers s := by
  have hr : Runs.Reach (step 2) (Admitted 2) initial _ :=
    (((((Runs.Reach.refl
      |>.tail (e := .begin' 5) ⟨by decide, by decide⟩ rfl)
      |>.tail (e := .begin' 0) ⟨by decide, by decide⟩ rfl)
      |>.tail (e := .run 0) trivial rfl)
      |>.tail (e := .run 0) trivial rfl)
      |>.tail (e := .run 5) trivial rfl)
      |>.tail (e := .run 5) trivial rfl
  refine ⟨_, hr, rfl, rfl, fun hown => ?_⟩
  have h5 : 0 ∈ (Pc.begun 0 0).obtained := List.mem_cons_self
  have h0 : 0 ∈ (Pc.begun 1 0).obtained := List.mem_cons_self
  have h : (5 : ℕ) = 0 := hown.distinct h5 h0
  exact absurd h (by decide)

end Dumboss.Begin
