import Dumboss.PageTable.Run

/-!
# Mapping over an existing mapping

`map_2MB_page` refuses a range with a mapped page.  `map_page` refuses a mapped page, except for one
case: it does not look at `PTE_HUGE_PAGE`, so for a page of a 2MB page it takes a word of the data in
the 2MB page for the p1 entry, and if that word is zero it overwrites it and returns `true`.

* `Call.Guarded`: the condition on a call;
* `reachable_guarded_built`: the invariant, over runs of calls that meet the condition;
* `overlap_refused`: in the states of such runs, when a call on a mapped page is refused without any
  change;
* `mapPage_overwrites`: a run that ends with the overwriting call.
-/

namespace Dumboss.PageTable

open Prog Runs

variable {ρ : Type} {src : PageSource ρ} {root : ℕ} {s s' s₀ : Kernel ρ}

/-- Whenever the call makes `map_page` go into a 2MB page, the word that is taken for the p1 entry is
not zero. -/
def Call.Guarded (src : PageSource ρ) (root : ℕ) (s : Kernel ρ) : Call → Prop
  | page v k _ => Accepted (2 ^ 12) v k → PageTable.Guarded s.memory root (pageNo v)
  | page2MB _ _ _ => True
  | region v k count flags => ∀ j s',
      Visits src (pagePtr root) v k flags (regionPages count) s j s' → j < regionPages count →
      pageOf k + j < windowPages →
      ¬ Use2MB (pagesAfter v j) (pagesAfter k j) (4096 * (regionPages count : ℤ) - 4096 * j) →
      Accepted (2 ^ 12) (pagesAfter v j) (pagesAfter k j) →
      PageTable.Guarded s'.memory root ((pageNo v + j) % 2 ^ 36)

theorem Call.Guarded.guard {c : Call} (h : c.Guarded src root s) : c.Guard src root s := by
  cases c with
  | page v k flags => exact h
  | page2MB v k flags => trivial
  | region v k count flags => exact fun j s' _ hvis _ => h j s' hvis

/-- The events of a run of guarded calls. -/
def GuardedCalls (src : PageSource ρ) (root : ℕ) (s : Kernel ρ) : Event ρ → Prop
  | .call c => c.Legal ∧ c.Guarded src root s
  | .other s' => Elsewhere src root s s'

theorem reachable_guarded_built (h0 : Start src root s₀)
    (hr : Reach (step src (pagePtr root)) (GuardedCalls src root) s₀ s) : Built src root s :=
  built_of_reach (fun h => ⟨h.1, h.2.guard⟩) (fun h => h) h0.built hr

/-- A call of `map_page` on a mapped page leaves everything as it is exactly if it is guarded. -/
theorem mapPage_mapped (hB : Built src root s) {v k flags : U64} (hk : kernelSpaceBegin ≤ k)
    (hf : FlagsOk flags) (hmapped : frames s.memory root (pageNo v) ≠ none) :
    ∃ r s', mapPage src (pagePtr root) v k flags s = Except.ok (r, s') ∧
      ((r = false ∧ s' = s) ↔ (Accepted (2 ^ 12) v k → Guarded s.memory root (pageNo v))) := by
  by_cases hguard : Accepted (2 ^ 12) v k → Guarded s.memory root (pageNo v)
  · obtain ⟨r, s', hrun, hmap⟩ := wp_mapPage hB hk hf hguard
    refine ⟨r, s', hrun, ?_⟩
    cases hmap with
    | refused => exact ⟨fun _ => hguard, fun _ => ⟨rfl, rfl⟩⟩
    | exhausted h => exact absurd ((free_one (pageNo_lt v)).1 h.2) hmapped
    | mapped h => exact absurd ((free_one (pageNo_lt v)).1 h.2) hmapped
  · have hacc : Accepted (2 ^ 12) v k := by
      by_contra hacc
      exact hguard fun h => absurd h hacc
    obtain ⟨g, hg, h0⟩ : ∃ g, hugeLeaf s.memory root (pageNo v / 512) = some g ∧
        s.memory.word g (pageNo v % 512) = 0#64 := by
      by_contra hnone
      refine hguard fun _ g hg h0 => hnone ⟨g, hg, h0⟩
    obtain ⟨r, s', hrun, hr⟩ := wp_mapPage_of_hugeLeaf hB hk hf hacc hg
      (Q := fun r _ => r = true) (fun h => absurd h0 h) (fun _ => rfl)
    refine ⟨r, s', hrun, fun h => ?_, fun h => absurd h hguard⟩
    rw [hr] at h
    cases h.1

/-- A call of `map_2MB_page` on a range with a mapped page leaves everything as it is. -/
theorem map2MBPage_mapped (hB : Built src root s) {v k flags : U64} (hk : kernelSpaceBegin ≤ k)
    (hf : FlagsOk flags) (hmapped : ¬ Free s.memory root (pageNo v) 512) :
    map2MBPage src (pagePtr root) v k flags s = Except.ok (false, s) := by
  obtain ⟨r, s', hrun, hmap⟩ := wp_map2MBPage hB hk hf
  cases hmap with
  | refused => exact hrun
  | exhausted h => exact absurd h.2 hmapped
  | mapped h => exact absurd h.2 hmapped

/-- A guarded call of `map_page` that returns `true` mapped the page. -/
theorem mapPage_true (hB : Built src root s) {v k flags : U64} (hk : kernelSpaceBegin ≤ k)
    (hf : FlagsOk flags) (hguard : Accepted (2 ^ 12) v k → Guarded s.memory root (pageNo v))
    (hrun : mapPage src (pagePtr root) v k flags s = Except.ok (true, s')) :
    translate (pagePtr root) v s' = Except.ok (k, s') := by
  have hmap := wp_run hrun (wp_mapPage hB hk hf hguard)
  cases hmap with
  | mapped h hadd =>
    obtain ⟨-, hkeq⟩ := eq_pagePtr_pageOf hk h.1.2.2
    have hframe : frames s'.memory root (pageNo v) = some (pageOf k) := by
      rw [hadd.frames_eq _ (pageNo_lt v), placed_one (pageNo_lt v) (pageNo_lt v), if_pos rfl]
    rw [translate_eq hadd.built.tree.readable, translation_of_aligned h.1.2.1, hframe, ptrOf_some,
      ← hkeq]

/-- **Mapping over an existing mapping** after a run of guarded calls.  On a mapped page `map_page`
returns `false` and changes nothing exactly if it is guarded; on a range with a mapped page
`map_2MB_page` returns `false` and changes nothing; and if a guarded call of `map_page` returns
`true`, then `translate` returns its pointer. -/
theorem overlap_refused (h0 : Start src root s₀)
    (hr : Reach (step src (pagePtr root)) (GuardedCalls src root) s₀ s) {v k flags : U64}
    (hv : v ≠ 0#64) (hk : kernelSpaceBegin ≤ k) (hf : FlagsOk flags) :
    (v.toNat % 4096 = 0 → translate (pagePtr root) v s ≠ Except.ok (0#64, s) →
      ∃ r s', mapPage src (pagePtr root) v k flags s = Except.ok (r, s') ∧
        ((r = false ∧ s' = s) ↔ (k.toNat % 4096 = 0 → Guarded s.memory root (pageNo v)))) ∧
      (v.toNat % 2 ^ 21 = 0 →
        (∃ i < 512, translate (pagePtr root) (pagesAfter v i) s ≠ Except.ok (0#64, s)) →
        map2MBPage src (pagePtr root) v k flags s = Except.ok (false, s)) ∧
      ((k.toNat % 4096 = 0 → Guarded s.memory root (pageNo v)) → ∀ s',
        mapPage src (pagePtr root) v k flags s = Except.ok (true, s') →
        translate (pagePtr root) v s' = Except.ok (k, s')) := by
  have hB := reachable_guarded_built h0 hr
  have hR := hB.tree.readable
  refine ⟨?_, ?_, ?_⟩
  · intro hv' hmapped
    rw [Ne, ← frames_eq_none_iff hR hv'] at hmapped
    obtain ⟨r, s', hrun, hiff⟩ := mapPage_mapped hB hk hf hmapped
    refine ⟨r, s', hrun, hiff.trans ⟨fun h hk' => h ⟨hv, hv', hk'⟩, fun h hacc => h hacc.2.2⟩⟩
  · rintro hv' ⟨i, hi, hmapped⟩
    have hal : v.toNat % 4096 = 0 := by omega
    rw [Ne, ← frames_eq_none_iff hR (pagesAfter_mod hal i), pageNo_pagesAfter] at hmapped
    exact map2MBPage_mapped hB hk hf fun hfree => hmapped (hfree i hi)
  · intro hguard s' hrun
    exact mapPage_true hB hk hf (fun hacc => hguard hacc.2.2) hrun

/-! ### Runs with a 2MB page -/

/-- Two zeroed pages in stock, and a zeroed p4 table in page 0; all words are zero. -/
def blank : Kernel (List ℕ) := ⟨⟨fun _ => 0#64, []⟩, [1, 2], [], []⟩

/-- `blank` after the 2MB page at `0x200000` was mapped to the frames from 512 on. -/
def one2MB : Kernel (List ℕ) :=
  ⟨⟨fun _ => 0#64, [(cell 2 1, pte 512 0x81#64), (cell 1 0, pte 2 1#64), (cell 0 0, pte 1 1#64)]⟩,
    [], [pagePtr 2, pagePtr 1], []⟩

theorem blank_start : Start stock 0 blank where
  lt := by decide
  used := by
    show (0 : ℕ) ∉ [1, 2]
    decide
  zero _ _ := rfl
  valid := by
    refine ⟨by decide, fun q hq => ⟨?_, fun _ _ => rfl⟩⟩
    have hq' : q = 1 ∨ q = 2 := by simpa [blank] using hq
    rcases hq' with rfl | rfl <;> decide

theorem one2MB_reach : Reach (step stock (pagePtr 0)) (GuardedCalls stock 0) blank one2MB := by
  refine .tail .refl (e := .call (.page2MB 0x200000#64 (pagePtr 512) 1#64)) ?_ rfl
  exact ⟨⟨kernelSpaceBegin_le_pagePtr (by decide), by decide, by decide, by decide⟩, trivial⟩

theorem overlap_refused_one2MB :
    map2MBPage stock (pagePtr 0) 0x200000#64 (pagePtr 1024) 1#64 one2MB =
      Except.ok (false, one2MB) := by
  have hflags : FlagsOk 1#64 := ⟨by decide, by decide, by decide⟩
  have h := overlap_refused blank_start one2MB_reach (v := 0x200000#64) (by decide)
    (kernelSpaceBegin_le_pagePtr (f := 1024) (by decide)) hflags
  refine h.2.1 (by decide) ⟨0, by decide, ?_⟩
  intro h0
  have hrun : translate (pagePtr 0) (pagesAfter 0x200000#64 0) one2MB =
      Except.ok (pagePtr 512, one2MB) := rfl
  rw [hrun] at h0
  exact pagePtr_ne_zero (by decide) (congrArg Prod.fst (Except.ok.inj h0))

/-- The page at `0x200000` lies in a 2MB page and is mapped to frame 512; `map_page` of that page to
frame 9 returns `true`, the translation stays, and the first word of frame 512 is overwritten. -/
theorem mapPage_overwrites : ∃ s s' : Kernel (List ℕ), Start stock 0 blank ∧
    Reach (step stock (pagePtr 0)) (fun _ e => ∃ c : Call, e = .call c ∧ c.Legal) blank s ∧
    translate (pagePtr 0) 0x200000#64 s = Except.ok (pagePtr 512, s) ∧
    mapPage stock (pagePtr 0) 0x200000#64 (pagePtr 9) 1#64 s = Except.ok (true, s') ∧
    translate (pagePtr 0) 0x200000#64 s' = Except.ok (pagePtr 512, s') ∧
    s.memory.word 512 0 = 0#64 ∧ s'.memory.word 512 0 = pte 9 1#64 := by
  refine ⟨one2MB, { one2MB with memory := one2MB.memory.store (cell 512 0) (pte 9 1#64) },
    blank_start, ?_, rfl, rfl, rfl, rfl, rfl⟩
  refine .tail .refl (e := .call (.page2MB 0x200000#64 (pagePtr 512) 1#64)) ?_ rfl
  exact ⟨_, rfl, kernelSpaceBegin_le_pagePtr (by decide), by decide, by decide, by decide⟩

end Dumboss.PageTable
