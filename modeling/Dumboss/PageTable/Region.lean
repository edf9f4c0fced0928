import Dumboss.PageTable.Map

/-!
# `map_region`

The loop maps the range from its first page on; after `j` pages its variables are `v + 4096 * j`,
`k + 4096 * j` and `4096 * j`.

* `wp_mapRegionLoop`: the invariant rule of the loop;
* `Visits`: the states in which the loop starts a round;
* `wp_mapRegion`: whatever the arguments are, a part of the range from its first page on gets mapped;
* `wp_mapRegion_free`: a range that is not mapped gets mapped, as far as the tables for it can be
  made.
-/

namespace Dumboss.PageTable

open Prog

variable {ρ : Type} {src : PageSource ρ} {root : ℕ} {s s' s'' : Kernel ρ}

/-- The address `j` pages after `a`. -/
def pagesAfter (a : U64) (j : ℕ) : U64 := a + BitVec.ofNat 64 (4096 * j)

theorem pagesAfter_zero (a : U64) : pagesAfter a 0 = a := BitVec.add_zero a

theorem pagesAfter_add (a : U64) (i j : ℕ) :
    pagesAfter a i + BitVec.ofNat 64 (4096 * j) = pagesAfter a (i + j) := by
  rw [pagesAfter, pagesAfter, BitVec.add_assoc, ← BitVec.ofNat_add, Nat.mul_add]

theorem pageNo_pagesAfter (v : U64) (j : ℕ) :
    pageNo (pagesAfter v j) = (pageNo v + j) % 2 ^ 36 := by
  simp only [pageNo, pagesAfter, BitVec.toNat_add, BitVec.toNat_ofNat]
  omega

theorem toNat_pagesAfter {a : U64} {j : ℕ} (h : a.toNat + 4096 * j < 2 ^ 64) :
    (pagesAfter a j).toNat = a.toNat + 4096 * j := by
  rw [pagesAfter, BitVec.toNat_add, BitVec.toNat_ofNat]
  omega

theorem pagesAfter_mod {a : U64} (ha : a.toNat % 4096 = 0) (j : ℕ) :
    (pagesAfter a j).toNat % 4096 = 0 := by
  rw [pagesAfter, BitVec.toNat_add, BitVec.toNat_ofNat]
  omega

theorem pagesAfter_pagePtr (f j : ℕ) : pagesAfter (pagePtr f) j = pagePtr (f + j) := by
  rw [pagesAfter, pagePtr, pagePtr, ← BitVec.ofNat_add, Nat.mul_add, Nat.add_assoc]

theorem pagesAfter_eq_pagePtr {k : U64} (hk : kernelSpaceBegin ≤ k) (hk' : k.toNat % 4096 = 0)
    (j : ℕ) : pagesAfter k j = pagePtr (pageOf k + j) := by
  obtain ⟨-, hkeq⟩ := eq_pagePtr_pageOf hk hk'
  rw [hkeq, pagesAfter_pagePtr, ← hkeq]

theorem kernelSpaceBegin_le_pagePtr {f : ℕ} (hf : f < windowPages) :
    kernelSpaceBegin ≤ pagePtr f := by
  rw [BitVec.le_def, pagePtr_toNat hf, kernelSpaceBegin_toNat]
  omega

/-! ### The loop -/

/-- **The rule of the loop of `map_region`** for `c` pages: `I j` holds before the round that starts
after `j` pages. -/
theorem wp_mapRegionLoop {p4 flags v k : U64} {c : ℕ} {I : ℕ → Kernel ρ → Prop}
    {F : Kernel ρ → Prop}
    (hround : ∀ j s, j < c → I j s →
      wp (mapRegionStep src p4 (pagesAfter v j) (pagesAfter k j) flags (4096 * (c : ℤ) - 4096 * j))
        (fun res s' => (res.1 = false → F s') ∧
          (res.1 = true → ∃ i, 0 < i ∧ j + i ≤ c ∧ res.2 = 4096 * i ∧ I (j + i) s')) s)
    (fuel j : ℕ) (s : Kernel ρ) (hfuel : c < j + fuel) (hj : j ≤ c) (hI : I j s) :
    wp (mapRegionLoop src p4 flags (4096 * (c : ℤ)) fuel (pagesAfter v j) (pagesAfter k j)
      (4096 * (j : ℤ))) (fun res s' => (res = true ∧ I c s') ∨ (res = false ∧ F s')) s := by
  induction fuel generalizing j s with
  | zero => omega
  | succ fuel ih =>
    rw [mapRegionLoop]
    simp only [wp_ite, wp_bind, wp_pure]
    split_ifs with hlt
    · refine wp_mono (hround j s (by omega) hI) ?_
      rintro ⟨res, diff⟩ s₁ ⟨hF, hT⟩
      cases res with
      | false =>
        simp only [if_true]
        exact Or.inr ⟨trivial, hF rfl⟩
      | true =>
        obtain ⟨i, hi, hji, hdiff, hI'⟩ := hT rfl
        have hdiff' : diff = 4096 * i := hdiff
        simp only [Bool.true_eq_false, if_false]
        rw [hdiff', pagesAfter_add, pagesAfter_add,
          show 4096 * (j : ℤ) + ((4096 * i : ℕ) : ℤ) = 4096 * ((j + i : ℕ) : ℤ) by push_cast; ring]
        exact ih (j + i) s₁ (by omega) hji hI'
    · obtain rfl : j = c := by omega
      exact Or.inl ⟨trivial, hI⟩

/-- The round maps a 2MB page. -/
def Use2MB (virt ptr : U64) (left : ℤ) : Prop :=
  virt.toNat % 2 ^ 21 = 0 ∧ ptr.toNat % 2 ^ 21 = 0 ∧ 2 ^ 21 ≤ left

instance (virt ptr : U64) (left : ℤ) : Decidable (Use2MB virt ptr left) :=
  inferInstanceAs (Decidable (_ ∧ _ ∧ _))

theorem mapRegionStep_eq (p4 virt ptr flags : U64) (left : ℤ) :
    mapRegionStep src p4 virt ptr flags left =
      if Use2MB virt ptr left then (fun r => (r, 2 ^ 21)) <$> map2MBPage src p4 virt ptr flags
      else (fun r => (r, 2 ^ 12)) <$> mapPage src p4 virt ptr flags := by
  simp only [mapRegionStep, isAligned_eq (show 21 < 64 by decide), pure_bind, decide_eq_true_eq,
    bind_pure_comp]
  by_cases huse : Use2MB virt ptr left
  · rw [if_pos huse]
    exact if_pos huse
  · rw [if_neg huse]
    exact if_neg huse

/-- Both functions refuse `NULL`. -/
theorem mapPage_null (hroot : root < windowPages) (v flags : U64) :
    mapPage src (pagePtr root) v 0#64 flags = pure false := by
  unfold mapPage
  simp only [isAligned_eq (show 12 < 64 by decide), pure_bind, pagePtr_aligned hroot,
    pagePtr_ne_zero hroot, decide_true, ne_eq, not_true_eq_false, not_false_eq_true, false_and,
    and_self, if_false, if_true]

theorem map2MBPage_null (hroot : root < windowPages) (v flags : U64) :
    map2MBPage src (pagePtr root) v 0#64 flags = pure false := by
  unfold map2MBPage
  simp only [isAligned_eq (show 12 < 64 by decide), isAligned_eq (show 21 < 64 by decide),
    pure_bind, pagePtr_aligned hroot, pagePtr_ne_zero hroot, decide_true, ne_eq, not_true_eq_false,
    not_false_eq_true, false_and, and_self, if_false, if_true]

/-- One round, with a kernel pointer. -/
theorem wp_mapRegionStep (hB : Built src root s) {virt ptr flags : U64} {left : ℤ}
    (hptr : kernelSpaceBegin ≤ ptr) (hf : FlagsOk flags)
    (hguard : ¬ Use2MB virt ptr left → Accepted (2 ^ 12) virt ptr →
      Guarded s.memory root (pageNo virt)) :
    wp (mapRegionStep src (pagePtr root) virt ptr flags left)
      (fun res s' => ∃ i, (i = 1 ∨ i = 512 ∧ Use2MB virt ptr left) ∧ res.2 = 4096 * i ∧
        Mapping src root s (Accepted (2 ^ 12) virt ptr) (pageNo virt) (pageOf ptr) i res.1 s')
      s := by
  rw [mapRegionStep_eq]
  split_ifs with huse
  · rw [wp_map]
    refine wp_mono (wp_map2MBPage hB hptr hf) ?_
    intro r s' h
    have hacc : Accepted (2 ^ 21) virt ptr ↔ Accepted (2 ^ 12) virt ptr := by
      obtain ⟨hvirt, hptr', -⟩ := huse
      have h1 : virt.toNat % 2 ^ 12 = 0 := by omega
      have h2 : ptr.toNat % 2 ^ 12 = 0 := by omega
      simp only [Accepted, hvirt, hptr', h1, h2]
    rw [propext hacc] at h
    exact ⟨512, Or.inr ⟨rfl, huse⟩, rfl, h⟩
  · rw [wp_map]
    refine wp_mono (wp_mapPage hB hptr hf (hguard huse)) ?_
    intro r s' h
    exact ⟨1, Or.inl rfl, rfl, h⟩

/-- One round, with `NULL`. -/
theorem wp_mapRegionStep_null (hroot : root < windowPages) {virt flags : U64} {left : ℤ} :
    wp (mapRegionStep src (pagePtr root) virt 0#64 flags left)
      (fun res s' => res.1 = false ∧ s' = s) s := by
  rw [mapRegionStep_eq, mapPage_null hroot, map2MBPage_null hroot]
  split_ifs <;> simp

/-! ### The states of the loop -/

theorem offset_mod (n k : ℕ) : offset (n % 2 ^ 36) k = offset n k := by
  rw [offset, offset, Nat.mod_mod]

theorem Added.of_mod {got : List U64} {n f c : ℕ}
    (h : Added src root s s' got (n % 2 ^ 36) f c) : Added src root s s' got n f c where
  grown := h.grown
  lively := h.lively
  frames_eq k hk := by rw [h.frames_eq k hk, placed, placed, offset_mod]
  hugeLeaf_cases z hz := by
    have hl := h.hugeLeaf_cases z hz
    simp only [offset_mod] at hl
    exact hl

/-- The loop of `map_region` for `c` pages, started in `s`, starts a round in `s'` after `j`
pages. -/
inductive Visits (src : PageSource ρ) (p4 v k flags : U64) (c : ℕ) (s : Kernel ρ) :
    ℕ → Kernel ρ → Prop
  | start : Visits src p4 v k flags c s 0 s
  | round {j i : ℕ} {s' s'' : Kernel ρ} (hr : Visits src p4 v k flags c s j s') (hj : j < c)
      (hs : mapRegionStep src p4 (pagesAfter v j) (pagesAfter k j) flags (4096 * (c : ℤ) - 4096 * j)
        s' = Except.ok ((true, 4096 * i), s'')) : Visits src p4 v k flags c s (j + i) s''

/-- The pages that `map_region` is to map, from the product of `count` and `_4KB`. -/
def regionPages (count : ℤ) : ℕ := (wrap64 (count * 4096) / 4096).toNat

theorem regionPages_eq {c : ℕ} (hc : c < 2 ^ 51) : regionPages c = c := by
  have hw : wrap64 ((c : ℤ) * 4096) = c * 4096 := by
    rw [wrap64]
    apply Int.bmod_eq_of_le <;> omega
  rw [regionPages, hw]
  omega

theorem mapRegion_eq (hroot : root < windowPages) {v k : U64} (hk : kernelSpaceBegin ≤ k)
    (count : ℤ) (flags : U64) : mapRegion src (pagePtr root) v k count flags =
      if Accepted (2 ^ 12) v k then
        mapRegionLoop src (pagePtr root) flags (wrap64 (count * 4096)) (regionPages count + 1) v k 0
      else pure false := by
  unfold mapRegion
  simp only [isAligned_eq (show 12 < 64 by decide), pure_bind, pagePtr_aligned hroot,
    ne_zero_of_kernelSpaceBegin_le hk, pagePtr_ne_zero hroot, decide_true, decide_eq_true_eq, ne_eq,
    not_false_eq_true, true_and, not_true_eq_false, if_false]
  rw [ite_accepted]
  rfl

/-- The loop runs for `regionPages count` pages. -/
theorem wp_mapRegion_loop (hroot : root < windowPages) {v k flags : U64} {count : ℤ}
    (hk : kernelSpaceBegin ≤ k) (hacc : Accepted (2 ^ 12) v k) {I : ℕ → Kernel ρ → Prop}
    {F : Kernel ρ → Prop} (hI : I 0 s)
    (hround : ∀ j s', j < regionPages count → I j s' →
      wp (mapRegionStep src (pagePtr root) (pagesAfter v j) (pagesAfter k j) flags
          (4096 * (regionPages count : ℤ) - 4096 * j))
        (fun res s'' => (res.1 = false → F s'') ∧
          (res.1 = true → ∃ i, 0 < i ∧ j + i ≤ regionPages count ∧ res.2 = 4096 * i ∧
            I (j + i) s'')) s') :
    wp (mapRegion src (pagePtr root) v k count flags)
      (fun res s' => (res = true ∧ I (regionPages count) s') ∨ (res = false ∧ F s')) s := by
  have hdvd : (4096 : ℤ) ∣ wrap64 (count * 4096) := by
    rw [wrap64, Int.dvd_iff_emod_eq_zero, Int.bmod_def]
    split_ifs <;> omega
  rw [mapRegion_eq hroot hk, if_pos hacc]
  by_cases hpos : 0 < wrap64 (count * 4096)
  · have hsize : wrap64 (count * 4096) = 4096 * (regionPages count : ℤ) := by
      unfold regionPages
      omega
    have hloop := wp_mapRegionLoop hround (regionPages count + 1) 0 s (by omega) (by omega) hI
    rw [pagesAfter_zero, pagesAfter_zero] at hloop
    rw [hsize]
    exact hloop
  · have hzero : regionPages count = 0 := by
      unfold regionPages
      omega
    rw [mapRegionLoop, if_neg hpos, wp_pure, hzero]
    exact Or.inl ⟨rfl, hI⟩

/-- The pages behind the mapped ones are as before. -/
theorem Added.hugeLeaf_eq_none {got : List U64} {n f j : ℕ}
    (h : Added src root s s' got n f j) (hj : j < 2 ^ 36)
    (hnone : hugeLeaf s.memory root ((n + j) % 2 ^ 36 / 512) = none) :
    hugeLeaf s'.memory root ((n + j) % 2 ^ 36 / 512) = none := by
  rcases h.hugeLeaf_cases ((n + j) % 2 ^ 36 / 512) (by omega) with heq | hlt
  · rw [heq, hnone]
  · have := hlt ((n + j) % 2 ^ 36) rfl
    rw [offset_add hj] at this
    omega

theorem Added.free {got : List U64} {n f j i c : ℕ} (h : Added src root s s' got n f j)
    (hji : j + i ≤ c) (hc : c ≤ 2 ^ 36) (hfree : Free s.memory root n c) :
    Free s'.memory root (n + j) i := by
  intro l hl
  rw [h.frames_eq _ (Nat.mod_lt _ (by decide)), Nat.add_assoc, placed,
    offset_add (by omega), if_neg (by omega)]
  exact hfree (j + l) (by omega)

theorem Free.hugeLeaf_eq_none {m : Memory} {n c j : ℕ} (hfree : Free m root n c) (hj : j < c) :
    hugeLeaf m root ((n + j) % 2 ^ 36 / 512) = none := by
  cases hl : hugeLeaf m root ((n + j) % 2 ^ 36 / 512) with
  | none => rfl
  | some g =>
    have h := hfree j hj
    rw [frames_of_hugeLeaf hl] at h
    cases h

theorem guarded_of_hugeLeaf_eq_none {m : Memory} {n : ℕ} (h : hugeLeaf m root (n / 512) = none) :
    Guarded m root n := by
  intro g hg
  rw [h] at hg
  cases hg

/-- A round of the loop starts at page `n + j`, with frame `f + j`. -/
theorem wp_round (hB : Built src root s) {v k flags : U64} {c j : ℕ} (hk : kernelSpaceBegin ≤ k)
    (hk' : k.toNat % 4096 = 0) (hj : j < c) (hw : pageOf k + j < windowPages)
    (hf : FlagsOk flags)
    (hguard : ¬ Use2MB (pagesAfter v j) (pagesAfter k j) (4096 * (c : ℤ) - 4096 * j) →
      Accepted (2 ^ 12) (pagesAfter v j) (pagesAfter k j) →
      Guarded s.memory root ((pageNo v + j) % 2 ^ 36)) :
    wp (mapRegionStep src (pagePtr root) (pagesAfter v j) (pagesAfter k j) flags
        (4096 * (c : ℤ) - 4096 * j))
      (fun res s' => ∃ i, 0 < i ∧ j + i ≤ c ∧ pageOf k + (j + i) ≤ windowPages ∧
        res.2 = 4096 * i ∧
        Mapping src root s (Accepted (2 ^ 12) (pagesAfter v j) (pagesAfter k j))
          ((pageNo v + j) % 2 ^ 36) (pageOf k + j) i res.1 s') s := by
  have hptr := pagesAfter_eq_pagePtr hk hk' j
  have hle : kernelSpaceBegin ≤ pagesAfter k j := by
    rw [hptr]
    exact kernelSpaceBegin_le_pagePtr hw
  have hpage : pageOf (pagesAfter k j) = pageOf k + j := by
    rw [hptr, pageOf_pagePtr hw]
  rw [← pageNo_pagesAfter] at hguard
  refine wp_mono (wp_mapRegionStep hB hle hf hguard) ?_
  rintro res s' ⟨i, hi, hdiff, hmap⟩
  rw [pageNo_pagesAfter, hpage] at hmap
  rcases hi with rfl | ⟨rfl, -, hal, hleft⟩
  · exact ⟨1, by omega, by omega, by omega, hdiff, hmap⟩
  · refine ⟨512, by omega, by omega, ?_, hdiff, hmap⟩
    rw [hptr, pagePtr_toNat hw] at hal
    unfold windowPages at *
    omega

/-- A round behind the window: the pointer is `NULL` there. -/
theorem wp_round_end (hroot : root < windowPages) {v k flags : U64} {j : ℕ} {left : ℤ}
    (hk : kernelSpaceBegin ≤ k) (hk' : k.toNat % 4096 = 0) (hend : pageOf k + j = windowPages) :
    wp (mapRegionStep src (pagePtr root) (pagesAfter v j) (pagesAfter k j) flags left)
      (fun res s' => res.1 = false ∧ s' = s) s := by
  rw [pagesAfter_eq_pagePtr hk hk', hend, pagePtr_windowPages]
  exact wp_mapRegionStep_null hroot

/-- **`map_region`**, with any arguments: it maps pages of the range from the first one on. -/
theorem wp_mapRegion (hB : Built src root s) {v k flags : U64} {count : ℤ}
    (hk : kernelSpaceBegin ≤ k) (hf : FlagsOk flags)
    (hguard : ∀ j s' got, Visits src (pagePtr root) v k flags (regionPages count) s j s' →
      Added src root s s' got (pageNo v) (pageOf k) j → j < regionPages count →
      pageOf k + j < windowPages →
      ¬ Use2MB (pagesAfter v j) (pagesAfter k j) (4096 * (regionPages count : ℤ) - 4096 * j) →
      Accepted (2 ^ 12) (pagesAfter v j) (pagesAfter k j) →
      Guarded s'.memory root ((pageNo v + j) % 2 ^ 36)) :
    wp (mapRegion src (pagePtr root) v k count flags)
      (fun _ s' => ∃ got j, Added src root s s' got (pageNo v) (pageOf k) j) s := by
  have hroot := hB.tree.table_lt isTable_root
  by_cases hacc : Accepted (2 ^ 12) v k
  · have hk' : k.toNat % 4096 = 0 := hacc.2.2
    have hlt := (eq_pagePtr_pageOf hk hk').1
    refine wp_mono (wp_mapRegion_loop hroot hk hacc
      (I := fun j s' => pageOf k + j ≤ windowPages ∧
        Visits src (pagePtr root) v k flags (regionPages count) s j s' ∧
        ∃ got, Added src root s s' got (pageNo v) (pageOf k) j)
      (F := fun s' => ∃ got j, Added src root s s' got (pageNo v) (pageOf k) j)
      ⟨by omega, .start, [], Added.refl hB _ _⟩ ?_) ?_
    · rintro j s' hj ⟨hle, hvis, got, hadd⟩
      by_cases hend : pageOf k + j = windowPages
      · refine wp_mono (wp_round_end hroot hk hk' hend) ?_
        rintro res s'' ⟨hres, rfl⟩
        refine ⟨fun _ => ⟨got, j, hadd⟩, fun ht => ?_⟩
        rw [hres] at ht
        cases ht
      · obtain ⟨⟨r, diff⟩, s'', hrun, i, hi, hji, hw, hdiff, hmap⟩ :=
          wp_round hadd.built hk hk' hj (by omega) hf (hguard j s' got hvis hadd hj (by omega))
        obtain rfl : diff = 4096 * i := hdiff
        refine ⟨_, s'', hrun, ?_⟩
        have hij : j + i ≤ 2 ^ 36 := by
          unfold windowPages at hw
          omega
        cases hmap with
        | refused =>
          refine ⟨fun _ => ⟨got, j, hadd⟩, ?_⟩
          rintro ⟨⟩
        | exhausted _ hadd' =>
          refine ⟨fun _ => ⟨_, _, hadd.trans (by omega) hadd'.of_mod⟩, ?_⟩
          rintro ⟨⟩
        | mapped _ hadd' =>
          refine ⟨?_, fun _ => ⟨i, hi, hji, rfl, hw, hvis.round hj hrun, _,
            hadd.trans hij hadd'.of_mod⟩⟩
          rintro ⟨⟩
    · rintro r s' (⟨-, -, -, got, hadd⟩ | ⟨-, h⟩)
      · exact ⟨got, _, hadd⟩
      · exact h
  · rw [mapRegion_eq hroot hk, if_neg hacc, wp_pure]
    exact ⟨[], 0, Added.refl hB _ _⟩

/-- **`map_region`** on a range that is not mapped: it maps the range, or the pages before the one for
which `zeroed_pages(1)` failed. -/
theorem wp_mapRegion_free (hB : Built src root s) {v k flags : U64} {c : ℕ}
    (hk : kernelSpaceBegin ≤ k) (hacc : Accepted (2 ^ 12) v k) (hf : FlagsOk flags)
    (hvc : v.toNat + 4096 * c ≤ 2 ^ 64) (hkc : pageOf k + c ≤ windowPages)
    (hfree : Free s.memory root (pageNo v) c) :
    wp (mapRegion src (pagePtr root) v k c flags)
      (fun r s' => ∃ got m, Added src root s s' got (pageNo v) (pageOf k) m ∧
        ((r = true ∧ m = c ∧ 0#64 ∉ got) ∨ (r = false ∧ m < c ∧ 0#64 ∈ got))) s := by
  have hc36 : c ≤ 2 ^ 36 := by
    unfold windowPages at hkc
    omega
  have hpages : regionPages c = c := regionPages_eq (by omega)
  have hk' : k.toNat % 4096 = 0 := hacc.2.2
  refine wp_mono (wp_mapRegion_loop (hB.tree.table_lt isTable_root) hk hacc
    (I := fun j s' => ∃ got, Added src root s s' got (pageNo v) (pageOf k) j ∧ 0#64 ∉ got)
    (F := fun s' => ∃ got m, m < c ∧ Added src root s s' got (pageNo v) (pageOf k) m ∧ 0#64 ∈ got)
    ⟨[], Added.refl hB _ _, by simp⟩ ?_) ?_
  · rw [hpages]
    rintro j s' hj ⟨got, hadd, hgot⟩
    have hnone := hadd.hugeLeaf_eq_none (by omega) (hfree.hugeLeaf_eq_none hj)
    refine wp_mono (wp_round hadd.built hk hk' hj (by omega) hf
      fun _ _ => guarded_of_hugeLeaf_eq_none hnone) ?_
    rintro ⟨r, diff⟩ s'' ⟨i, hi, hji, -, hdiff, hmap⟩
    have hfree' := hadd.free hji hc36 hfree
    cases hmap with
    | refused h =>
      refine absurd ⟨⟨?_, pagesAfter_mod hacc.2.1 j, pagesAfter_mod hk' j⟩, ?_⟩ h
      · intro h0
        have hnat := congrArg BitVec.toNat h0
        rw [toNat_pagesAfter (by omega), BitVec.toNat_zero] at hnat
        exact hacc.1 (BitVec.eq_of_toNat_eq (by rw [BitVec.toNat_zero]; omega))
      · intro l hl
        rw [Nat.mod_add_mod]
        exact hfree' l hl
    | exhausted _ hadd' hgot' =>
      refine ⟨fun _ => ⟨_, j, hj, hadd.trans (by omega) hadd'.of_mod, ?_⟩, ?_⟩
      · exact List.mem_append_left _ hgot'
      · rintro ⟨⟩
    | mapped _ hadd' hgot' =>
      refine ⟨?_, fun _ => ⟨i, hi, hji, hdiff, _, hadd.trans (by omega) hadd'.of_mod, ?_⟩⟩
      · rintro ⟨⟩
      · exact fun h => (List.mem_append.1 h).elim hgot' hgot
  · rintro r s' (⟨hr, got, hadd, hgot⟩ | ⟨hr, got, m, hm, hadd, hgot⟩)
    · rw [hpages] at hadd
      exact ⟨got, c, hadd, Or.inl ⟨hr, rfl, hgot⟩⟩
    · exact ⟨got, m, hadd, Or.inr ⟨hr, hm, hgot⟩⟩

end Dumboss.PageTable
