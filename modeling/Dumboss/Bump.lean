import Dumboss.Machine
import Dumboss.Lib.Runs

/-!
# The bump allocator (`lib/basics.h`)

A `Bump` hands out parts of a run of pages in order.  Any number of calls of `Bump__bump_impl` run at the
same time; they share `index`, which each of them moves up with a weak compare-exchange.

* `Bump`: the fields that do not change, with what `Bump__new` guarantees of them;
* `Call`, `step`: a call makes one step per access to `index`; a failed compare-exchange refreshes its
  copy `bump_index`;
* `NoOverflow`: the events of a run in which no `s64` operation overflows;
* `BumpInv`: the invariant, `step_inv` the step lemma;
* `bump_disjoint`: what was handed out in the states of a run.
-/

namespace Dumboss

/-- `Bump`, without `index`: `pages` pages at `begin`. -/
structure Bump where
  begin' : U64
  pages : ℕ
  ne_null : begin' ≠ 0#64
  aligned : 4096 ∣ begin'.toNat
  /-- One past the end is an address. -/
  fits : begin'.toNat + 4096 * pages < 2 ^ 64
  count_lt : 4096 * pages < 2 ^ 63

namespace Bump

/-- The result of an `s64` operation. -/
def wrap64 (x : ℤ) : ℤ := Int.bmod x (2 ^ 64)

theorem wrap64_eq {x : ℤ} (h0 : 0 ≤ x) (hx : x < 2 ^ 63) : wrap64 x = x := by
  unfold wrap64
  exact Int.bmod_eq_of_le (by omega) (by omega)

/-- `count`. -/
def count (b : Bump) : ℤ := 4096 * b.pages

/-- `align_up(bump_index, align)`, for a power of two. -/
def alignedIndex (bumpIndex align : ℤ) : ℤ := wrap64 (bumpIndex + (align - 1)) / align * align

/-- A call of `Bump__bump_impl`. -/
inductive Call
  | idle
  | load (size align : ℤ)
  /-- At the top of the loop. -/
  | attempt (size align bumpIndex : ℤ)
  | returned (size align bumpIndex : ℤ) (ptr : U64)

/-- The shared `index`, and all calls. -/
structure State where
  index : ℤ
  calls : ℕ → Call

def State.setCall (s : State) (c : ℕ) (call : Call) : State :=
  { s with calls := Function.update s.calls c call }

@[simp] theorem State.setCall_index (s : State) (c : ℕ) (call : Call) :
    (s.setCall c call).index = s.index := rfl

@[simp] theorem State.setCall_calls (s : State) (c : ℕ) (call : Call) :
    (s.setCall c call).calls = Function.update s.calls c call := rfl

/-- One step of `Bump__bump_impl` in call `c`. -/
def stepCall (b : Bump) (s : State) (c : ℕ) (spurious : Bool) : Call → Option State
  | .idle => none
  | .load size align => some (s.setCall c (.attempt size align s.index))
  | .attempt size align bumpIndex =>
    let aligned := alignedIndex bumpIndex align
    let endIndex := wrap64 (aligned + size)
    if endIndex ≤ b.count then
      if s.index = bumpIndex ∧ spurious = false then
        let ptr := b.begin' + BitVec.ofInt 64 aligned
        some (({ s with index := endIndex } : State).setCall c (.returned size align bumpIndex ptr))
      else
        some (s.setCall c (.attempt size align s.index))
    else
      some (s.setCall c (.returned size align bumpIndex 0#64))
  | .returned _ _ _ _ => none

/-- What happens next: a call begins, or a call makes a step. -/
inductive Event
  | bump (c : ℕ) (size align : ℤ)
  | run (c : ℕ) (spurious : Bool)

/-- The call an event belongs to. -/
def Event.call : Event → ℕ
  | .bump c _ _ => c
  | .run c _ => c

/-- The effect of an event, if it can happen. -/
def step (b : Bump) (s : State) : Event → Option State
  | .bump c size align =>
    match s.calls c with
    | .idle => some (s.setCall c (.load size align))
    | _ => none
  | .run c spurious => stepCall b s c spurious (s.calls c)

/-- The state after `Bump__new`. -/
def initial : State := ⟨0, fun _ => .idle⟩

/-- Requests are for `size ≥ 0` bytes and a power of two up to the page size, and no operation
overflows. -/
def NoOverflow (s : State) : Event → Prop
  | .bump _ size align => 0 ≤ size ∧ ∃ k ≤ 12, align = 2 ^ k
  | .run c _ => ∀ size align bumpIndex, s.calls c = .attempt size align bumpIndex →
      bumpIndex + align + size < 2 ^ 63

/-! ### The invariant -/

variable {b : Bump} {s s' : State}

/-- Rounding up to a power of two. -/
theorem alignedIndex_spec {bumpIndex align size : ℤ} {k : ℕ} (hk : align = 2 ^ k)
    (h0 : 0 ≤ bumpIndex) (hsize : 0 ≤ size) (hlt : bumpIndex + align + size < 2 ^ 63) :
    bumpIndex ≤ alignedIndex bumpIndex align ∧ align ∣ alignedIndex bumpIndex align ∧
      wrap64 (alignedIndex bumpIndex align + size) = alignedIndex bumpIndex align + size := by
  have hpos : 0 < align := by
    rw [hk]
    positivity
  have hwrap : wrap64 (bumpIndex + (align - 1)) = bumpIndex + (align - 1) :=
    wrap64_eq (by omega) (by omega)
  have hdiv := Int.mul_ediv_add_emod (bumpIndex + (align - 1)) align
  have hmod := Int.emod_nonneg (bumpIndex + (align - 1)) hpos.ne'
  have hmod' := Int.emod_lt_of_pos (bumpIndex + (align - 1)) hpos
  rw [alignedIndex, hwrap, mul_comm]
  refine ⟨by omega, Dvd.intro _ rfl, wrap64_eq (by omega) (by omega)⟩

/-- How far a pointer is from the beginning. -/
def offset (b : Bump) (ptr : U64) : ℤ := (ptr - b.begin').toNat

theorem offset_nonneg (b : Bump) (ptr : U64) : 0 ≤ b.offset ptr := Int.natCast_nonneg _

/-- The pointer that a successful call returns. -/
theorem offset_add {index : ℤ} (h0 : 0 ≤ index) (hle : index ≤ b.count) :
    b.offset (b.begin' + BitVec.ofInt 64 index) = index ∧
      b.begin' + BitVec.ofInt 64 index ≠ 0#64 := by
  obtain ⟨i, rfl⟩ := Int.eq_ofNat_of_zero_le h0
  have hfits := b.fits
  have hi : i ≤ 4096 * b.pages := by
    unfold count at hle
    omega
  have hword : (BitVec.ofNat 64 i).toNat = i := by
    rw [BitVec.toNat_ofNat]
    omega
  rw [BitVec.ofInt_natCast]
  constructor
  · rw [offset, BitVec.add_comm, BitVec.add_sub_cancel, hword]
  · intro hzero
    have hne : b.begin'.toNat ≠ 0 := fun h => b.ne_null (BitVec.eq_of_toNat_eq h)
    have := congrArg BitVec.toNat hzero
    rw [BitVec.toNat_add, hword, BitVec.toNat_ofNat] at this
    omega

/-- What holds of a call. -/
inductive Sound (b : Bump) (index : ℤ) : Call → Prop
  | idle : Sound b index .idle
  | load {size align : ℤ} (hsize : 0 ≤ size) (halign : ∃ k ≤ 12, align = 2 ^ k) :
      Sound b index (.load size align)
  | attempt {size align bumpIndex : ℤ} (hsize : 0 ≤ size) (halign : ∃ k ≤ 12, align = 2 ^ k)
      (h0 : 0 ≤ bumpIndex) : Sound b index (.attempt size align bumpIndex)
  /-- The request did not fit at the index that was observed last. -/
  | null {size align bumpIndex : ℤ} (hfit : b.count < alignedIndex bumpIndex align + size) :
      Sound b index (.returned size align bumpIndex 0#64)
  /-- The request was met. -/
  | met {size align bumpIndex : ℤ} {ptr : U64} (hsize : 0 ≤ size)
      (halign : ∃ k ≤ 12, align = 2 ^ k) (hne : ptr ≠ 0#64) (hdvd : align ∣ b.offset ptr)
      (hle : b.offset ptr + size ≤ index) : Sound b index (.returned size align bumpIndex ptr)

/-- A call stays sound when the index grows. -/
theorem Sound.mono {index index' : ℤ} {call : Call} (h : Sound b index call) (hle : index ≤ index') :
    Sound b index' call := by
  cases h with
  | idle => exact .idle
  | load hsize halign => exact .load hsize halign
  | attempt hsize halign h0 => exact .attempt hsize halign h0
  | null hfit => exact .null hfit
  | met hsize halign hne hdvd hmet => exact .met hsize halign hne hdvd (hmet.trans hle)

/-- Two calls, if they returned pointers, got different bytes. -/
def Apart (b : Bump) (call call' : Call) : Prop :=
  ∀ size align bumpIndex ptr size' align' bumpIndex' ptr',
    call = .returned size align bumpIndex ptr → call' = .returned size' align' bumpIndex' ptr' →
    ptr ≠ 0#64 → ptr' ≠ 0#64 →
    b.offset ptr + size ≤ b.offset ptr' ∨ b.offset ptr' + size' ≤ b.offset ptr

theorem Apart.symm {call call' : Call} (h : Apart b call call') : Apart b call' call :=
  fun _ _ _ _ _ _ _ _ h1 h2 hne hne' => (h _ _ _ _ _ _ _ _ h2 h1 hne' hne).symm

/-- **The invariant.** -/
structure BumpInv (b : Bump) (s : State) : Prop where
  nonneg : 0 ≤ s.index
  le : s.index ≤ b.count
  sound : ∀ c, Sound b s.index (s.calls c)
  apart : ∀ c c', c ≠ c' → Apart b (s.calls c) (s.calls c')

theorem initial_inv (b : Bump) : BumpInv b initial where
  nonneg := le_rfl
  le := by
    unfold initial count
    positivity
  sound _ := .idle
  apart _ _ _ := by
    rintro _ _ _ _ _ _ _ _ ⟨⟩

/-- What a step can do: only a call that returns a pointer moves the index. -/
theorem step_cases {e : Event} (hI : BumpInv b s) (hg : NoOverflow s e)
    (hs : step b s e = some s') :
    (∃ call, s' = s.setCall e.call call ∧ Sound b s.index call ∧
      ∀ size align bumpIndex ptr, call = .returned size align bumpIndex ptr → ptr = 0#64) ∨
    ∃ size align ptr, s' = ({ s with index := b.offset ptr + size } : State).setCall e.call
        (.returned size align s.index ptr) ∧ 0 ≤ size ∧ (∃ k ≤ 12, align = 2 ^ k) ∧ ptr ≠ 0#64 ∧
      align ∣ b.offset ptr ∧ s.index ≤ b.offset ptr ∧ b.offset ptr + size ≤ b.count := by
  cases e with
  | bump c size align =>
    simp only [step] at hs
    split at hs
    · cases hs
      refine Or.inl ⟨_, rfl, .load hg.1 hg.2, ?_⟩
      rintro _ _ _ _ ⟨⟩
    · cases hs
  | run c spurious =>
    have hsound := hI.sound c
    simp only [step] at hs
    cases hcall : s.calls c with
    | idle =>
      rw [hcall] at hs
      cases hs
    | load size align =>
      rw [hcall] at hs hsound
      cases hsound with
      | load hsize halign =>
        cases hs
        refine Or.inl ⟨_, rfl, .attempt hsize halign hI.nonneg, ?_⟩
        rintro _ _ _ _ ⟨⟩
    | attempt size align bumpIndex =>
      rw [hcall] at hs hsound
      cases hsound with
      | attempt hsize halign h0 =>
        have hpow := halign
        obtain ⟨k, -, hk⟩ := hpow
        obtain ⟨hup, hdvd, hend⟩ := alignedIndex_spec hk h0 hsize (hg _ _ _ hcall)
        simp only [stepCall, hend] at hs
        split_ifs at hs with hfit hcx
        · -- the compare-exchange succeeds: the copy is the index itself
          cases hs
          obtain ⟨hoff, hne⟩ := offset_add (b := b) (h0.trans hup) (by omega)
          refine Or.inr ⟨size, align, b.begin' + BitVec.ofInt 64 (alignedIndex bumpIndex align), ?_,
            hsize, halign, hne, ?_⟩
          · rw [hoff, hcx.1]
            rfl
          · rw [hoff, hcx.1]
            exact ⟨hdvd, hup, hfit⟩
        · cases hs
          refine Or.inl ⟨_, rfl, .attempt hsize halign hI.nonneg, ?_⟩
          rintro _ _ _ _ ⟨⟩
        · cases hs
          refine Or.inl ⟨_, rfl, .null (by omega), ?_⟩
          rintro _ _ _ _ ⟨⟩
          rfl
    | returned size align bumpIndex ptr =>
      rw [hcall] at hs
      cases hs

/-- A call that is replaced keeps apart from the others, if its new state does. -/
theorem apart_update {calls : ℕ → Call} {c : ℕ} {call : Call}
    (h : ∀ d d', d ≠ d' → Apart b (calls d) (calls d')) (hc : ∀ d, d ≠ c → Apart b (calls d) call) :
    ∀ d d', d ≠ d' → Apart b (Function.update calls c call d) (Function.update calls c call d') := by
  intro d d' hne
  by_cases hd : d = c
  · subst hd
    rw [Function.update_self, Function.update_of_ne (Ne.symm hne)]
    exact (hc d' (Ne.symm hne)).symm
  · rw [Function.update_of_ne hd]
    by_cases hd' : d' = c
    · subst hd'
      rw [Function.update_self]
      exact hc d hd
    · rw [Function.update_of_ne hd']
      exact h d d' hne

theorem sound_update {calls : ℕ → Call} {c : ℕ} {call : Call} {index : ℤ}
    (h : ∀ d, Sound b index (calls d)) (hc : Sound b index call) :
    ∀ d, Sound b index (Function.update calls c call d) := by
  intro d
  by_cases hd : d = c
  · subst hd
    rwa [Function.update_self]
  · rw [Function.update_of_ne hd]
    exact h d

/-- **Step lemma.** -/
theorem step_inv {e : Event} (hI : BumpInv b s) (hg : NoOverflow s e) (hs : step b s e = some s') :
    BumpInv b s' := by
  rcases step_cases hI hg hs with ⟨call, rfl, hsound, hnull⟩ |
    ⟨size, align, ptr, rfl, hsize, halign, hne, hdvd, hle, hfit⟩
  · refine ⟨hI.nonneg, hI.le, sound_update hI.sound hsound, apart_update hI.apart ?_⟩
    intro d _ _ _ _ _ _ _ _ _ _ hret _ hne
    exact absurd (hnull _ _ _ _ hret) hne
  · refine ⟨?_, hfit, sound_update ?_ (.met hsize halign hne hdvd le_rfl), apart_update hI.apart ?_⟩
    · show 0 ≤ b.offset ptr + size
      have := b.offset_nonneg ptr
      omega
    · exact fun d => (hI.sound d).mono (hle.trans (show b.offset ptr ≤ b.offset ptr + size by omega))
    · -- what was handed out before lies below the old index
      intro d _ size' align' bumpIndex' ptr' _ _ _ _ hcall hret hne' _
      cases hret
      refine Or.inl ?_
      have hd := hI.sound d
      rw [hcall] at hd
      cases hd with
      | null => exact absurd rfl hne'
      | met _ _ _ _ hmet => exact hmet.trans hle

theorem bumpInv_of_reach (hr : Runs.Reach (step b) NoOverflow initial s) : BumpInv b s :=
  hr.invariant (initial_inv b) fun _ _ _ hI hg hs => step_inv hI hg hs

/-! ### What the calls return -/

/-- The bytes that a call which returned `ptr` got. -/
def region (ptr : U64) (size : ℤ) : Set ℕ := Set.Ico ptr.toNat (ptr.toNat + size.toNat)

/-- The address of a pointer that was handed out. -/
theorem toNat_eq_offset {ptr : U64} (hle : b.offset ptr ≤ b.count) :
    (ptr.toNat : ℤ) = b.begin'.toNat + b.offset ptr := by
  have hfits := b.fits
  have hptr : b.begin' + (ptr - b.begin') = ptr := by
    rw [BitVec.add_comm, BitVec.sub_add_cancel]
  unfold offset count at *
  have hadd := congrArg BitVec.toNat hptr
  rw [BitVec.toNat_add, Nat.mod_eq_of_lt (by omega)] at hadd
  omega

/-- The region of a request that was met: inside the pages, aligned, and below the index. -/
theorem region_of_sound {size align bumpIndex : ℤ} {ptr : U64} (hI : BumpInv b s) {c : ℕ}
    (hc : s.calls c = .returned size align bumpIndex ptr) (hne : ptr ≠ 0#64) :
    (ptr.toNat : ℤ) = b.begin'.toNat + b.offset ptr ∧ 0 ≤ size ∧
      b.offset ptr + size ≤ b.count ∧ align ∣ ptr.toNat := by
  have hsound := hI.sound c
  rw [hc] at hsound
  cases hsound with
  | null => exact absurd rfl hne
  | met hsize halign _ hdvd hmet =>
    have hle : b.offset ptr + size ≤ b.count := hmet.trans hI.le
    have hoff : b.offset ptr ≤ b.count := by omega
    have haddr := toNat_eq_offset hoff
    refine ⟨haddr, hsize, hle, ?_⟩
    rw [haddr]
    refine dvd_add ?_ hdvd
    obtain ⟨k, hk, rfl⟩ := halign
    have hpage : ((4096 : ℕ) : ℤ) ∣ b.begin'.toNat := Int.natCast_dvd_natCast.2 b.aligned
    refine Dvd.dvd.trans ?_ hpage
    exact pow_dvd_pow (2 : ℤ) hk

/-- **Bump allocation under concurrency.**  In every state of a run the regions that were handed out are
disjoint, inside the pages and aligned; the index is between `0` and `count` and never decreases; and a
call returns `NULL` only if its request does not fit at the index it observed last, without having
changed the index. -/
theorem bump_disjoint (hr : Runs.Reach (step b) NoOverflow initial s) :
    (∀ c c' size align bumpIndex ptr size' align' bumpIndex' ptr', c ≠ c' →
      s.calls c = .returned size align bumpIndex ptr →
      s.calls c' = .returned size' align' bumpIndex' ptr' → ptr ≠ 0#64 → ptr' ≠ 0#64 →
      Disjoint (region ptr size) (region ptr' size')) ∧
    (∀ c size align bumpIndex ptr, s.calls c = .returned size align bumpIndex ptr → ptr ≠ 0#64 →
      region ptr size ⊆ Set.Ico b.begin'.toNat (b.begin'.toNat + 4096 * b.pages) ∧
      b.begin'.toNat ≤ ptr.toNat ∧ ptr.toNat + size.toNat ≤ b.begin'.toNat + 4096 * b.pages ∧
      align ∣ ptr.toNat) ∧
    (∀ c size align bumpIndex, s.calls c = .returned size align bumpIndex 0#64 →
      b.count < alignedIndex bumpIndex align + size) ∧
    (0 ≤ s.index ∧ s.index ≤ b.count) ∧
    ∀ e s', NoOverflow s e → step b s e = some s' → s.index ≤ s'.index ∧
      (s'.index ≠ s.index → ∃ size align bumpIndex ptr,
        s'.calls e.call = .returned size align bumpIndex ptr ∧ ptr ≠ 0#64) := by
  have hI := bumpInv_of_reach hr
  refine ⟨?_, ?_, ?_, ⟨hI.nonneg, hI.le⟩, ?_⟩
  · intro c c' size align bumpIndex ptr size' align' bumpIndex' ptr' hcc hc hc' hne hne'
    obtain ⟨haddr, hsize, hle, -⟩ := region_of_sound hI hc hne
    obtain ⟨haddr', hsize', hle', -⟩ := region_of_sound hI hc' hne'
    have hapart := hI.apart c c' hcc _ _ _ _ _ _ _ _ hc hc' hne hne'
    rw [Set.disjoint_left]
    intro a ha ha'
    simp only [region, Set.mem_Ico] at ha ha'
    omega
  · intro c size align bumpIndex ptr hc hne
    obtain ⟨haddr, hsize, hle, hdvd⟩ := region_of_sound hI hc hne
    have hoff := b.offset_nonneg ptr
    unfold count at hle
    refine ⟨fun a ha => ?_, by omega, by omega, hdvd⟩
    simp only [region, Set.mem_Ico] at ha ⊢
    omega
  · intro c size align bumpIndex hc
    have hsound := hI.sound c
    rw [hc] at hsound
    cases hsound with
    | null hfit => exact hfit
    | met _ _ hne => exact absurd rfl hne
  · intro e s' hg hs
    rcases step_cases hI hg hs with ⟨call, rfl, -, -⟩ |
      ⟨size, align, ptr, rfl, hsize, -, hne, -, hle, -⟩
    · exact ⟨le_rfl, fun h => absurd rfl h⟩
    · refine ⟨?_, fun _ => ⟨size, align, s.index, ptr, by simp, hne⟩⟩
      show s.index ≤ b.offset ptr + size
      omega

/-- Two pages at page 1 of the kernel window. -/
def twoPages : Bump := ⟨pagePtr 1, 2, by decide, by decide, by decide, by decide⟩

/-- A check that is enough for `NoOverflow`. -/
def noOverflow (s : State) : Event → Bool
  | .bump _ size align => 0 ≤ size && (List.range 13).any fun k => align = 2 ^ k
  | .run c _ =>
    match s.calls c with
    | .attempt size align bumpIndex => bumpIndex + align + size < 2 ^ 63
    | _ => true

theorem noOverflow_of_check {e : Event} (h : noOverflow s e = true) : NoOverflow s e := by
  cases e with
  | bump c size align =>
    simp only [noOverflow, Bool.and_eq_true, decide_eq_true_eq, List.any_eq_true, List.mem_range] at h
    obtain ⟨h0, k, hk, halign⟩ := h
    exact ⟨h0, k, by omega, halign⟩
  | run c spurious =>
    intro size align bumpIndex hc
    simp only [noOverflow, hc, decide_eq_true_eq] at h
    exact h

/-- Two calls that read the same index: the second one fails its first compare-exchange, and its
request is met behind that of the first, at the next multiple of 16. -/
theorem bump_disjoint_two_calls : ∃ s, Runs.Reach (step twoPages) NoOverflow initial s ∧
    s.index = 136 ∧ s.calls 0 = .returned 100 8 0 (pagePtr 1) ∧
    s.calls 1 = .returned 24 16 100 (pagePtr 1 + 112#64) ∧
    Disjoint (region (pagePtr 1) 100) (region (pagePtr 1 + 112#64) 24) := by
  have hrun : Runs.execute (step twoPages) noOverflow initial [.bump 0 100 8, .bump 1 24 16,
      .run 0 false, .run 1 false, .run 0 false, .run 1 false, .run 1 false] = some ⟨136,
        Function.update (Function.update (Function.update (Function.update (Function.update
          (Function.update (Function.update (fun _ => .idle) 0 (.load 100 8)) 1 (.load 24 16))
          0 (.attempt 100 8 0)) 1 (.attempt 24 16 0)) 0 (.returned 100 8 0 (pagePtr 1)))
          1 (.attempt 24 16 100)) 1 (.returned 24 16 100 (pagePtr 1 + 112#64))⟩ := rfl
  have hr := (Runs.Reach.of_execute hrun).mono fun _ _ h => noOverflow_of_check h.1
  refine ⟨_, hr, rfl, rfl, rfl, ?_⟩
  exact (bump_disjoint hr).1 0 1 100 8 0 (pagePtr 1) 24 16 100 (pagePtr 1 + 112#64) (by decide) rfl
    rfl (by decide) (by decide)

end Bump

end Dumboss
