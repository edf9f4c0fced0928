import Dumboss.Allocator.Canonical

/-!
# What an allocation returns

`alloc_raw` looks only at which freelists are empty.  In a reachable state these say which aligned runs
of pages are free, so its result is determined by the set of free pages.

* `FreeRun h k`: some aligned run of `2 ^ k` pages is free; `freeRun_iff` says so in terms of the lists;
* `allocRaw_result`: the results of `raw_pages` and `try_raw_pages`;
* `RefusesCleanly`, `refusesCleanly_iff`: what becomes of requests that no block can meet.
-/

namespace Dumboss

open Prog Buddy

variable {N : ℕ} {h h' : Heap} {L : ℕ → List ℕ}

/-- Some aligned run of `2 ^ k` pages is entirely free. -/
def FreeRun (h : Heap) (k : ℕ) : Prop :=
  ∃ b, 2 ^ k ∣ b ∧ ∀ q ∈ Set.Ico b (b + 2 ^ k), h.globals.freePages.test q = true

theorem FreeRun.mono {k l : ℕ} (hf : FreeRun h k) (hl : l ≤ k) : FreeRun h l := by
  obtain ⟨b, hdvd, hfree⟩ := hf
  have hpow : 2 ^ l ≤ 2 ^ k := Nat.pow_le_pow_right (by omega) hl
  refine ⟨b, (pow_dvd_pow 2 hl).trans hdvd, ?_⟩
  rintro q ⟨hbq, hq⟩
  exact hfree q ⟨hbq, by omega⟩

/-- A single page is free exactly if some page is. -/
theorem freeRun_zero_iff : FreeRun h 0 ↔ h.globals.freeSet ≠ ∅ := by
  rw [← Set.nonempty_iff_ne_empty]
  constructor
  · rintro ⟨b, -, hfree⟩
    exact ⟨b, hfree b ⟨le_rfl, by simp⟩⟩
  · rintro ⟨b, hb⟩
    refine ⟨b, by simp, ?_⟩
    rintro q ⟨hbq, hq⟩
    obtain rfl : q = b := by
      rw [pow_zero] at hq
      omega
    exact hb

/-- The free runs in terms of the freelists. -/
theorem freeRun_iff (hc : Core N h.globals.freeSet L h) {k : ℕ} (hk : k < classCount) :
    FreeRun h k ↔ ∃ l, k ≤ l ∧ l < classCount ∧ L l ≠ [] := by
  constructor
  · rintro ⟨b, hdvd, hfree⟩
    have hF : block k (b / 2 ^ k) ⊆ h.globals.freeSet := by
      rw [block_subset_iff, Nat.div_mul_cancel hdvd]
      exact hfree
    obtain ⟨l, i, hkl, hi⟩ :=
      hc.blocks.decomp.exists_mem_of_subset (by unfold classCount at *; omega) hF
    have hmem : i * 2 ^ l ∈ L l := hi
    exact ⟨l, hkl, hc.blocks.class_lt hmem, List.ne_nil_of_mem hmem⟩
  · rintro ⟨l, hkl, hl, hne⟩
    obtain ⟨b, hb⟩ := List.exists_mem_of_ne_nil _ hne
    obtain ⟨hdvd, hfree, -⟩ := (hc.mem_iff hl).1 hb
    exact FreeRun.mono ⟨b, hdvd, hfree⟩ hkl

/-- The greatest class of a free run, if it is below `m`. -/
theorem greatest_freeRun (hc : Core N h.globals.freeSet L h) {k m : ℕ} (hm : m < classCount)
    (hnil : ∀ l, m ≤ l → l < classCount → L l = []) (hkm : k < m) (hne : L k ≠ [])
    (hmax : ∀ l, k < l → l < m → L l = []) : IsGreatest {j | FreeRun h j} k := by
  refine ⟨(freeRun_iff hc (by omega)).2 ⟨k, le_rfl, by omega, hne⟩, fun j hj => ?_⟩
  by_contra hlt
  obtain ⟨l, hkl, hl, hnel⟩ :=
    (freeRun_iff hc (show k + 1 < classCount by omega)).1 (FreeRun.mono hj (by omega))
  by_cases hlm : l < m
  · exact hnel (hmax l hkl hlm)
  · exact hnel (hnil l (by omega) hl)

/-- With a free run of the class that is needed, the request is met. -/
theorem Outcome.of_freeRun {count m : ℕ} {exact : Bool} {buf : Buffer}
    (ho : Outcome N L h count m exact buf h') (hc : Core N h.globals.freeSet L h)
    (hm : m < classCount) (hfree : FreeRun h m) :
    ∃ b, buf = ⟨pagePtr b, count * 4096⟩ ∧ b < N ∧ Allocated N b count h h' := by
  obtain ⟨l, hml, hl, hne⟩ := (freeRun_iff hc hm).1 hfree
  cases ho with
  | found hmk hk hne' hb hA => exact ⟨_, rfl, hb, hA⟩
  | fallback hexact hnil => exact absurd (hnil l hml hl) hne
  | null hnil hno => exact absurd (hnil l hml hl) hne

/-- Without one, the largest free run is handed out or nothing is. -/
theorem Outcome.of_not_freeRun {count m : ℕ} {exact : Bool} {buf : Buffer}
    (ho : Outcome N L h count m exact buf h') (hc : Core N h.globals.freeSet L h)
    (hm : m < classCount) (hfree : ¬ FreeRun h m) :
    (exact = false ∧ ∃ j b, IsGreatest {j | FreeRun h j} j ∧ buf = ⟨pagePtr b, 2 ^ j * 4096⟩ ∧
      b < N ∧ Allocated N b (2 ^ j) h h') ∨
    (buf = ⟨0#64, 0⟩ ∧ h' = h ∧ (exact = true ∨ h.globals.freeSet = ∅)) := by
  cases ho with
  | found hmk hk hne hb hA => exact absurd ((freeRun_iff hc hm).2 ⟨_, hmk, hk, hne⟩) hfree
  | fallback hexact hnil hkm hne hmax hb hA =>
    refine Or.inl ⟨hexact, _, _, greatest_freeRun hc hm hnil hkm hne hmax, ?_, hb, hA⟩
    push_cast
    rfl
  | null hnil hno =>
    refine Or.inr ⟨rfl, rfl, hno.imp id fun hall => hc.blocks.eq_empty fun l hl => ?_⟩
    by_cases hlm : l < m
    · exact hall l hlm
    · exact hnil l (by omega) hl

theorem rawPages_of_allocRaw {count : ℤ} {buf : Buffer}
    (hrun : allocRaw count true h = Except.ok (buf, h')) :
    rawPages count h = Except.ok (buf.data, h') := by
  apply eq_ok_of_wp
  simp only [rawPages, wp_bind, wp_pure]
  exact wp_of_run hrun ⟨rfl, rfl⟩

/-- **The result of an allocation** of `count ≤ 2048` pages, where `2 ^ m` is the least power of two
that is at least `count`.  If an aligned run of `2 ^ m` pages is free, both functions hand out `count`
pages.  If not, `raw_pages` returns `NULL`, and `try_raw_pages` hands out `2 ^ j` pages for the largest
free run there is, or returns `NULL` if no page is free. -/
theorem allocRaw_result (hr : Reachable N h) {count m : ℕ} (hpos : 1 ≤ count)
    (hcount : count ≤ 2048) (hm : IsLeast {i | count ≤ 2 ^ i} m) :
    (FreeRun h m →
      (∃ b h', rawPages count h = Except.ok (pagePtr b, h') ∧ b < N ∧ Allocated N b count h h') ∧
      ∃ b h', tryRawPages count h = Except.ok (⟨pagePtr b, count * 4096⟩, h') ∧ b < N ∧
        Allocated N b count h h') ∧
    (¬ FreeRun h m →
      rawPages count h = Except.ok (0#64, h) ∧
      (h.globals.freeSet ≠ ∅ → ∃ j b h', IsGreatest {j | FreeRun h j} j ∧
        tryRawPages count h = Except.ok (⟨pagePtr b, 2 ^ j * 4096⟩, h') ∧ b < N ∧
        Allocated N b (2 ^ j) h h') ∧
      (tryRawPages count h = Except.ok (⟨0#64, 0⟩, h) ↔ h.globals.freeSet = ∅)) := by
  have hI := hr.inv
  obtain ⟨L, hc⟩ := hI.core
  have hmlt : m < classCount := by
    have : m ≤ 11 := hm.2 (show count ≤ 2 ^ 11 by omega)
    unfold classCount
    omega
  have hwp := wp_allocRaw_outcome hI hc hpos (by omega) hm.1 fun i hi => hm.2 hi
  obtain ⟨raw, h1, hraw, hout1⟩ := hwp true
  obtain ⟨buf, h2, htry, hout2⟩ := hwp false
  have hrawPages : rawPages count h = Except.ok (raw.data, h1) := rawPages_of_allocRaw hraw
  have htryPages : tryRawPages count h = Except.ok (buf, h2) := htry
  constructor
  · intro hfree
    obtain ⟨b, rfl, hb, hA⟩ := hout1.of_freeRun hc hmlt hfree
    obtain ⟨b', rfl, hb', hA'⟩ := hout2.of_freeRun hc hmlt hfree
    exact ⟨⟨b, h1, hrawPages, hb, hA⟩, b', h2, htryPages, hb', hA'⟩
  · intro hfree
    have hnull : raw.data = 0#64 ∧ h1 = h := by
      rcases hout1.of_not_freeRun hc hmlt hfree with ⟨hexact, -⟩ | ⟨rfl, rfl, -⟩
      · cases hexact
      · exact ⟨rfl, rfl⟩
    rw [hnull.1, hnull.2] at hrawPages
    refine ⟨hrawPages, ?_⟩
    rcases hout2.of_not_freeRun hc hmlt hfree with ⟨-, j, b, hj, rfl, hb, hA⟩ | ⟨rfl, rfl, hno⟩
    · refine ⟨fun _ => ⟨j, b, h2, hj, htryPages, hb, hA⟩, fun hnull => ?_, fun hempty => ?_⟩
      · rw [htryPages] at hnull
        have hptr := congrArg (fun r => r.1.data) (Except.ok.inj hnull)
        exact absurd hptr (pagePtr_ne_zero (hb.trans_le hI.le_window))
      · exact absurd hempty (freeRun_zero_iff.1 (FreeRun.mono hj.1 (Nat.zero_le j)))
    · have hempty : h2.globals.freeSet = ∅ := hno.resolve_left (by simp)
      exact ⟨fun hne => absurd hempty hne, fun _ => hempty, fun _ => htryPages⟩

/-- The five free pages 3 to 7: a request for four pages is met, a request for eight is not, and
`try_raw_pages` then hands out four. -/
theorem allocRaw_result_five_pages : ∃ h, Reachable 4096 h ∧ h.globals.freeSet = Set.Ico 3 8 ∧
    (∃ b h', rawPages 4 h = Except.ok (pagePtr b, h')) ∧ rawPages 8 h = Except.ok (0#64, h) ∧
    ∃ b h', tryRawPages 8 h = Except.ok (⟨pagePtr b, 2 ^ 2 * 4096⟩, h') := by
  obtain ⟨h, hr, hF, -⟩ := exists_reachable_released (p := 3) (c := 5) (N := 4096) (by decide)
    (by decide) (by decide) (by decide) ⟨fun _ => 0#64, []⟩
  have hfree : ∀ q, h.globals.freePages.test q = true ↔ q ∈ Set.Ico 3 8 := Set.ext_iff.1 hF
  have hrun2 : FreeRun h 2 := by
    refine ⟨4, by decide, fun q hq => ?_⟩
    rw [hfree]
    simp only [Set.mem_Ico] at *
    omega
  have hrun3 : ¬ FreeRun h 3 := by
    rintro ⟨b, ⟨c, rfl⟩, hall⟩
    have h0 := (hfree _).1 (hall (2 ^ 3 * c) ⟨le_rfl, by omega⟩)
    have h7 := (hfree _).1 (hall (2 ^ 3 * c + 7) ⟨by omega, by omega⟩)
    simp only [Set.mem_Ico] at h0 h7
    omega
  have hleast2 : IsLeast {i | 4 ≤ 2 ^ i} 2 := by
    refine ⟨by decide, fun i hi => ?_⟩
    by_contra hlt
    obtain rfl | rfl : i = 0 ∨ i = 1 := by omega
    · exact absurd hi (by decide)
    · exact absurd hi (by decide)
  have hleast3 : IsLeast {i | 8 ≤ 2 ^ i} 3 := by
    refine ⟨by decide, fun i hi => ?_⟩
    by_contra hlt
    obtain rfl | rfl | rfl : i = 0 ∨ i = 1 ∨ i = 2 := by omega
    · exact absurd hi (by decide)
    · exact absurd hi (by decide)
    · exact absurd hi (by decide)
  obtain ⟨⟨b, h', hraw, -⟩, -⟩ := (allocRaw_result hr (by decide) (by decide) hleast2).1 hrun2
  obtain ⟨hnull, htry, -⟩ := (allocRaw_result hr (by decide) (by decide) hleast3).2 hrun3
  refine ⟨h, hr, hF, ⟨b, h', hraw⟩, hnull, ?_⟩
  obtain ⟨j, b', h2, hj, hrun, -⟩ := htry (freeRun_zero_iff.1 (hrun2.mono (by decide)))
  have hj2 : j = 2 := by
    have h2j : 2 ≤ j := hj.2 hrun2
    by_contra hne
    exact hrun3 (FreeRun.mono hj.1 (by omega))
  subst hj2
  exact ⟨b', h2, hrun⟩

/-! ### Requests of any size -/

/-- The three functions return; a request for no page or for more than the largest block is refused by
`raw_pages` and `zeroed_pages`, which leave the state as it is, and `try_raw_pages` answers a request for
more than the largest block with the largest block there is. -/
structure RefusesCleanly (N : ℕ) (h : Heap) (count : ℤ) : Prop where
  raw_returns : ∃ ptr h', rawPages count h = Except.ok (ptr, h')
  zeroed_returns : ∃ ptr h', zeroedPages count h = Except.ok (ptr, h')
  try_returns : ∃ buf h', tryRawPages count h = Except.ok (buf, h')
  raw_refuses : count ≤ 0 ∨ 2048 < count → rawPages count h = Except.ok (0#64, h)
  zeroed_refuses : count ≤ 0 ∨ 2048 < count → zeroedPages count h = Except.ok (0#64, h)
  try_largest : 2048 < count → h.globals.freeSet ≠ ∅ → ∃ j b h',
    IsGreatest {j | j < classCount ∧ FreeRun h j} j ∧
    tryRawPages count h = Except.ok (⟨pagePtr b, 2 ^ j * 4096⟩, h') ∧ b < N ∧
    Allocated N b (2 ^ j) h h'
  try_null : 2048 < count → h.globals.freeSet = ∅ → tryRawPages count h = Except.ok (⟨0#64, 0⟩, h)

theorem zeroedPages_of_null {count : ℤ} (hrun : allocRaw count true h = Except.ok (⟨0#64, 0⟩, h')) :
    zeroedPages count h = Except.ok (0#64, h') := by
  apply eq_ok_of_wp
  simp only [zeroedPages, wp_bind]
  refine wp_of_run hrun ?_
  rw [wp_ite, if_pos rfl, wp_pure]
  exact ⟨rfl, rfl⟩

theorem allocRaw_nonpos {count : ℤ} (hcount : count ≤ 0) (exact : Bool) :
    allocRaw count exact h = Except.ok (⟨0#64, 0⟩, h) := by
  rw [allocRaw, if_pos hcount]
  rfl

/-- A request that only the class behind the last one could meet. -/
theorem allocRaw_oversized (hI : Inv N h) {count : ℤ} (hlow : 2048 < count) (hcount : count ≤ 4096) :
    allocRaw count true h = Except.ok (⟨0#64, 0⟩, h) ∧
    ((h.globals.freeSet ≠ ∅ ∧ ∃ j b h', IsGreatest {j | j < classCount ∧ FreeRun h j} j ∧
      allocRaw count false h = Except.ok (⟨pagePtr b, 2 ^ j * 4096⟩, h') ∧ b < N ∧
      Allocated N b (2 ^ j) h h') ∨
    (h.globals.freeSet = ∅ ∧ allocRaw count false h = Except.ok (⟨0#64, 0⟩, h))) := by
  obtain ⟨L, hc⟩ := hI.core
  obtain ⟨c, rfl⟩ := Int.eq_ofNat_of_zero_le (show 0 ≤ count by omega)
  have hmin : ∀ i, c ≤ 2 ^ i → classCount ≤ i := by
    intro i hi
    by_contra hlt
    have hpow : 2 ^ i ≤ 2 ^ 11 := Nat.pow_le_pow_right (by omega) (by unfold classCount at hlt; omega)
    omega
  have hpos : 0 < c := by omega
  have hle : c ≤ 2 ^ classCount := by
    unfold classCount
    omega
  have hwp := wp_allocRaw_outcome hI hc hpos (by omega) hle hmin
  constructor
  · obtain ⟨buf, h', hrun, hout⟩ := hwp true
    cases hout with
    | found hmk hk => omega
    | fallback hexact => cases hexact
    | null => exact hrun
  · obtain ⟨buf, h', hrun, hout⟩ := hwp false
    cases hout with
    | found hmk hk => omega
    | @fallback k b _ hexact hnil hkm hne hmax hb hA =>
      have hfree : FreeRun h k := (freeRun_iff hc hkm).2 ⟨k, le_rfl, hkm, hne⟩
      refine Or.inl ⟨freeRun_zero_iff.1 (hfree.mono (Nat.zero_le k)), k, b, h', ⟨⟨hkm, hfree⟩, ?_⟩, ?_,
        hb, hA⟩
      · rintro j ⟨hj, hrunj⟩
        by_contra hlt
        obtain ⟨l, hjl, hl, hnel⟩ := (freeRun_iff hc hj).1 hrunj
        exact hnel (hmax l (by omega) hl)
      · rw [hrun]
        push_cast
        rfl
    | null hnil hno =>
      refine Or.inr ⟨hc.blocks.eq_empty ?_, hrun⟩
      exact hno.resolve_left (by simp)

/-- The upward search of a larger request begins behind the class behind the last one, and leaves the
array. -/
theorem allocRaw_outOfBounds {count : ℤ} (hcount : 4096 < count) (hlt : count < 2 ^ 63)
    (exact : Bool) : allocRaw count exact h = Except.error (.outOfBounds "MemGlobals.classes") := by
  obtain ⟨c, rfl⟩ := Int.eq_ofNat_of_zero_le (show 0 ≤ count by omega)
  obtain ⟨m, s, hpow, rfl, hle, -⟩ :=
    wp_smallestGreaterPower2 (s := h) (show 0 < c by omega) (by omega)
  have hm : classCount < m := by
    by_contra hge
    have hpow' : 2 ^ m ≤ 2 ^ 12 := Nat.pow_le_pow_right (by omega) (by unfold classCount at hge; omega)
    omega
  have hinfo : classInfo m s = Except.error (.outOfBounds "MemGlobals.classes") := by
    rw [classInfo, if_neg (by omega)]
    rfl
  have habove : findAbove (classCount - m) m s = Except.error (.outOfBounds "MemGlobals.classes") := by
    rw [show classCount - m = 0 by omega, findAbove, if_pos (by omega)]
    exact bind_eq_error hinfo
  rw [allocRaw, if_neg (by omega), bind_eq_run hpow]
  exact bind_eq_error habove

/-- **Requests are refused cleanly** up to twice the largest block, and no further. -/
theorem refusesCleanly_iff (hr : Reachable N h) (count : ℤ) (hlt : count < 2 ^ 63) :
    RefusesCleanly N h count ↔ count ≤ 4096 := by
  have hI := hr.inv
  constructor
  · intro hclean
    by_contra hgt
    obtain ⟨buf, h', hrun⟩ := hclean.try_returns
    rw [tryRawPages, allocRaw_outOfBounds (by omega) hlt] at hrun
    cases hrun
  · intro hle
    have hnull : count ≤ 0 ∨ 2048 < count → allocRaw count true h = Except.ok (⟨0#64, 0⟩, h) := by
      rintro (hcount | hcount)
      · exact allocRaw_nonpos hcount true
      · exact (allocRaw_oversized hI hcount hle).1
    obtain ⟨raw, h1, hraw, -⟩ := wp_allocRaw hI hle true
    obtain ⟨buf, h2, htry, -⟩ := wp_allocRaw hI hle false
    obtain ⟨ptr, h3, hzeroed, -⟩ := wp_zeroedPages hI hle
    refine ⟨⟨_, h1, rawPages_of_allocRaw hraw⟩, ⟨ptr, h3, hzeroed⟩, ⟨buf, h2, htry⟩,
      fun hcount => rawPages_of_allocRaw (hnull hcount), fun hcount => zeroedPages_of_null (hnull hcount),
      fun hcount hne => ?_, fun hcount hempty => ?_⟩
    · rcases (allocRaw_oversized hI hcount hle).2 with ⟨-, hlargest⟩ | ⟨hempty, -⟩
      · exact hlargest
      · exact absurd hempty hne
    · rcases (allocRaw_oversized hI hcount hle).2 with ⟨hne, -⟩ | ⟨-, hrun⟩
      · exact absurd hempty hne
      · exact hrun

/-- Five free pages: a request for 3000 pages gets the block of four from `try_raw_pages`. -/
theorem refusesCleanly_five_pages : ∃ h, Reachable 4096 h ∧ h.globals.freeSet = Set.Ico 3 8 ∧
    RefusesCleanly 4096 h 3000 := by
  obtain ⟨h, hr, hF, -⟩ := exists_reachable_released (p := 3) (c := 5) (N := 4096) (by decide)
    (by decide) (by decide) (by decide) ⟨fun _ => 0#64, []⟩
  exact ⟨h, hr, hF, (refusesCleanly_iff hr 3000 (by decide)).2 (by decide)⟩

/-- A request for 4097 pages, in any state of the allocator, here the one after its start. -/
theorem not_refusesCleanly : ∃ h, Reachable 4096 h ∧
    rawPages 4097 h = Except.error (.outOfBounds "MemGlobals.classes") ∧
    ¬ RefusesCleanly 4096 h 4097 := by
  have hrun : rawPages 4097 (zeroedHeap 4096 (fun _ => 0#64) ⟨fun _ => 0#64, []⟩) =
      Except.error (.outOfBounds "MemGlobals.classes") :=
    bind_eq_error (allocRaw_outOfBounds (by decide) (by decide) true)
  refine ⟨_, .init (by decide) (by decide) (fun _ => 0#64) ⟨fun _ => 0#64, []⟩, hrun, fun hclean => ?_⟩
  obtain ⟨ptr, h', hreturns⟩ := hclean.raw_returns
  rw [hrun] at hreturns
  cases hreturns

end Dumboss
