import Dumboss.PageTable.Overlap

/-!
# `copy_mapping`

`copy_mapping` finds the run of contiguous pages at `virt` in the source table with `region_size`, maps
it in the destination table, and takes its length off `count`.  It does not move `virt` on, so every
further round looks at the first run again: the function copies what it should if the whole range is
one run, and only then.

* `Run`, `wp_regionSize`: `region_size` returns the length of the longest run;
* `Settled`: the state after the first round, up to words of the first frame of the run.  A second round
  on a 2MB page may write there, as `map_page` on a page of a 2MB page does;
* `copyMapping_copies_iff`: `copy_mapping` copies a contiguous range; if the first frame is a page of
  data, no other range is copied.
-/

namespace Dumboss.PageTable

open Prog Runs

variable {ρ : Type} {src : PageSource ρ} {root d r : ℕ} {s s' s₁ : Kernel ρ}

/-- The `c` virtual pages from `n` on are mapped to the `c` frames from `f` on. -/
def Run (m : Memory) (root n f c : ℕ) : Prop :=
  ∀ i < c, frames m root ((n + i) % 2 ^ 36) = some (f + i)

/-- The length of the longest run is determined by the mapping. -/
theorem Run.length_unique {m m' : Memory} {n f c c' : ℕ} (hrun : Run m root n f c)
    (hend : frames m root ((n + c) % 2 ^ 36) ≠ some (f + c)) (hrun' : Run m' root n f c')
    (hend' : frames m' root ((n + c') % 2 ^ 36) ≠ some (f + c'))
    (heq : ∀ k < 2 ^ 36, frames m' root k = frames m root k) : c' = c := by
  have hmod : ∀ k : ℕ, k % 2 ^ 36 < 2 ^ 36 := fun k => Nat.mod_lt k (by decide)
  rcases Nat.lt_trichotomy c' c with hlt | h | hlt
  · refine absurd ?_ hend'
    rw [heq _ (hmod _)]
    exact hrun c' hlt
  · exact h
  · refine absurd ?_ hend
    rw [← heq _ (hmod _)]
    exact hrun' c hlt

/-! ### `region_size` -/

theorem wp_regionSizeLoop (hR : Readable s.memory root) {v : U64} (hv : v.toNat % 4096 = 0) {f : ℕ}
    (fuel j : ℕ) (hj : f + j ≤ windowPages) (hfuel : windowPages < f + j + fuel)
    (hrun : Run s.memory root (pageNo v) f j) :
    wp (regionSizeLoop (pagePtr root) fuel (pagesAfter v j) (pagePtr (f + j)) j)
      (fun size s' => s' = s ∧ j ≤ size ∧ f + size ≤ windowPages ∧
        Run s.memory root (pageNo v) f size ∧
        frames s.memory root ((pageNo v + size) % 2 ^ 36) ≠ some (f + size)) s := by
  induction fuel generalizing j with
  | zero => omega
  | succ fuel ih =>
    have hlt : ∀ g, frames s.memory root ((pageNo v + j) % 2 ^ 36) = some g → g < windowPages :=
      fun g hg => hR.frames_lt (Nat.mod_lt _ (by decide)) hg
    rw [regionSizeLoop]
    simp only [wp_bind, wp_translate hR, wp_ite, wp_pure,
      translation_of_aligned (pagesAfter_mod hv j), pageNo_pagesAfter]
    cases hg : frames s.memory root ((pageNo v + j) % 2 ^ 36) with
    | none =>
      rw [if_pos (show ptrOf none = 0#64 from rfl)]
      exact ⟨trivial, le_rfl, hj, hrun, by simp⟩
    | some g =>
      have hgw := hlt g hg
      rw [ptrOf_some, if_neg (pagePtr_ne_zero hgw)]
      by_cases heq : pagePtr g = pagePtr (f + j)
      · have hne : f + j ≠ windowPages := by
          intro hc
          rw [hc, pagePtr_windowPages] at heq
          exact pagePtr_ne_zero hgw heq
        obtain rfl := pagePtr_inj hgw (by omega) heq
        have hstep : pagePtr (f + j) + 4096#64 = pagePtr (f + (j + 1)) := by
          have := pagesAfter_pagePtr (f + j) 1
          rwa [pagesAfter] at this
        have hstep' : pagesAfter v j + 4096#64 = pagesAfter v (j + 1) := pagesAfter_add v j 1
        rw [if_neg (not_not_intro rfl), hstep, hstep']
        refine wp_mono (ih (j + 1) (by omega) (by omega) ?_) ?_
        · intro i hi
          rcases Nat.lt_succ_iff_lt_or_eq.1 hi with h | rfl
          · exact hrun i h
          · exact hg
        · rintro size s' ⟨hs, hle, h⟩
          exact ⟨hs, by omega, h⟩
      · rw [if_pos heq]
        refine ⟨trivial, le_rfl, hj, hrun, ?_⟩
        intro hgf
        exact heq (congrArg pagePtr (Option.some.inj hgf))

/-- **`region_size`** returns the length of the longest run. -/
theorem wp_regionSize (hR : Readable s.memory root) {v : U64} (hv : v.toNat % 4096 = 0) {f : ℕ}
    (hf : frames s.memory root (pageNo v) = some f) :
    wp (regionSize (pagePtr root) v)
      (fun size s' => s' = s ∧ 0 < size ∧ f + size ≤ windowPages ∧
        Run s.memory root (pageNo v) f size ∧
        frames s.memory root ((pageNo v + size) % 2 ^ 36) ≠ some (f + size)) s := by
  have hlt := hR.frames_lt (pageNo_lt_pow v) hf
  simp only [regionSize, wp_bind, wp_translate hR, wp_ite, wp_pure, translation_of_aligned hv]
  rw [hf, ptrOf_some, if_neg (pagePtr_ne_zero hlt)]
  have hloop := wp_regionSizeLoop hR hv (windowPages + 1) 0 (f := f) (by omega) (by omega)
    (fun i hi => by omega)
  rw [pagesAfter_zero, Nat.add_zero] at hloop
  refine wp_mono hloop ?_
  rintro size s' ⟨hs, -, hle, hrun, hend⟩
  refine ⟨hs, ?_, hle, hrun, hend⟩
  by_contra h0
  obtain rfl : size = 0 := by omega
  rw [Nat.add_zero, Nat.mod_eq_of_lt (pageNo_lt v)] at hend
  exact hend hf

/-! ### One round -/

/-- The source is a tree of its own: its tables are in use, and none of them is a table of `d`. -/
def Separate (src : PageSource ρ) (d r : ℕ) (s : Kernel ρ) : Prop :=
  ∀ t, IsTable s.memory r t → t ∈ src.used s.source ∧ ¬ IsTable s.memory d t

/-- Mapping in `d` leaves the tables of the source alone. -/
theorem Separate.agree {got : List U64} (hsep : Separate src d r s) (hR : Readable s.memory r)
    (hg : Grown src d s s' got) : Agree s.memory s'.memory r :=
  fun t ht i hi => hg.word t (hsep t ht).1 (hR.table_lt ht) (hsep t ht).2 i hi

/-- A round of the loop, up to the call of `map_region`. -/
theorem wp_copyMappingLoop_succ (hR : Readable s.memory r) {dest v flags : U64}
    (hv : v.toNat % 4096 = 0) {f fuel : ℕ} (hf : frames s.memory r (pageNo v) = some f) {count : ℤ}
    (hpos : 0 < count) {Q : Bool → Kernel ρ → Prop}
    (hround : ∀ size : ℕ, 0 < size → f + size ≤ windowPages → Run s.memory r (pageNo v) f size →
      frames s.memory r ((pageNo v + size) % 2 ^ 36) ≠ some (f + size) →
      wp (mapRegion src dest v (pagePtr f) (min size count) flags)
        (fun res s' => if res = false then Q false s'
          else wp (copyMappingLoop src dest (pagePtr r) v flags fuel (count - size)) Q s') s) :
    wp (copyMappingLoop src dest (pagePtr r) v flags (fuel + 1) count) Q s := by
  have hlt := hR.frames_lt (pageNo_lt_pow v) hf
  rw [copyMappingLoop, if_pos hpos]
  simp only [wp_bind, wp_translate hR, translation_of_aligned hv, wp_ite, wp_pure]
  rw [hf, ptrOf_some, if_neg (pagePtr_ne_zero hlt)]
  refine wp_mono (wp_regionSize hR hv hf) ?_
  rintro size s' ⟨rfl, hsize, hle, hrun, hend⟩
  rw [if_neg (by omega)]
  exact hround size hsize hle hrun hend

theorem kernelSpaceBegin_aligned_pagePtr {f : ℕ} (hf : f < windowPages) :
    (pagePtr f).toNat % 4096 = 0 := by
  rw [pagePtr_toNat hf]
  omega

/-- **One run**: the whole range is mapped in the first round. -/
theorem wp_copyMappingLoop_run (hB : Built src d s) (hR : Readable s.memory r) {v flags : U64}
    (hv : v ≠ 0#64) (hv' : v.toNat % 4096 = 0) (hflags : FlagsOk flags) {f count fuel : ℕ}
    (hpos : 0 < count) (hvc : v.toNat + 4096 * count ≤ 2 ^ 64)
    (hrun : Run s.memory r (pageNo v) f count) (hfree : Free s.memory d (pageNo v) count) :
    wp (copyMappingLoop src (pagePtr d) (pagePtr r) v flags (fuel + 2) count)
      (fun res s' => ∃ got m, Added src d s s' got (pageNo v) f m ∧
        ((res = true ∧ m = count ∧ 0#64 ∉ got) ∨ (res = false ∧ m < count ∧ 0#64 ∈ got))) s := by
  have hf : frames s.memory r (pageNo v) = some f := by
    have h := hrun 0 hpos
    rwa [Nat.add_zero, Nat.mod_eq_of_lt (pageNo_lt v)] at h
  have hlt : ∀ i < count, f + i < windowPages :=
    fun i hi => hR.frames_lt (Nat.mod_lt _ (by decide)) (hrun i hi)
  have hflt := hlt 0 hpos
  have hlast := hlt (count - 1) (by omega)
  refine wp_copyMappingLoop_succ hR hv' hf (by omega) ?_
  intro size hsize hle hsrun hend
  have hcs : count ≤ size := by
    by_contra hc
    exact hend (hrun size (by omega))
  rw [min_eq_right (by exact_mod_cast hcs)]
  have hmap := wp_mapRegion_free hB (kernelSpaceBegin_le_pagePtr (show f < windowPages by omega))
    ⟨hv, hv', kernelSpaceBegin_aligned_pagePtr (show f < windowPages by omega)⟩ hflags hvc
    (by rw [pageOf_pagePtr (by omega)]; omega) hfree
  rw [pageOf_pagePtr (by omega)] at hmap
  refine wp_mono hmap ?_
  rintro res s' ⟨got, m, hadd, ⟨rfl, rfl, hgot⟩ | ⟨rfl, hm, hgot⟩⟩
  · rw [if_neg (by simp), copyMappingLoop, if_neg (by omega), wp_pure]
    exact ⟨got, _, hadd, Or.inl ⟨rfl, rfl, hgot⟩⟩
  · rw [if_pos rfl]
    exact ⟨got, m, hadd, Or.inr ⟨rfl, hm, hgot⟩⟩

/-! ### Further rounds -/

/-- The state after the first round, up to words of frame `f`. -/
structure Settled (src : PageSource ρ) (f : ℕ) (s₁ s : Kernel ρ) : Prop where
  source : s.source = s₁.source
  valid : src.Valid s.memory s.source
  word : ∀ p, p ≠ f → p < windowPages → ∀ i < 512, s.memory.word p i = s₁.memory.word p i

namespace Settled

variable {f : ℕ}

theorem agree (h : Settled src f s₁ s) (hR : Readable s₁.memory root)
    (hf : ¬ IsTable s₁.memory root f) : Agree s₁.memory s.memory root := by
  intro t ht i hi
  refine h.word t ?_ (hR.table_lt ht) i hi
  rintro rfl
  exact hf ht

theorem built (h : Settled src f s₁ s) (hB : Built src d s₁) (hf : ¬ IsTable s₁.memory d f) :
    Built src d s := by
  refine hB.other ⟨h.agree hB.tree.readable hf, ?_, h.valid⟩
  intro t ht
  rw [h.source]
  exact hB.tree.mem_used ht

theorem store (h : Settled src f s₁ s) (hu : f ∈ src.used s₁.source) (hlt : f < windowPages)
    {i : ℕ} (hi : i < 512) (e : U64) :
    Settled src f s₁ { s with memory := s.memory.store (cell f i) e } where
  source := h.source
  valid := src.valid_store _ _ _ _ _ h.valid (by rw [h.source]; exact hu) hlt hi
  word := by
    intro p hp hpw j hj
    change (s.memory.store (cell f i) e).word p j = _
    rw [Memory.word_store _ _ hlt hpw hi hj, if_neg fun hc => hp hc.1]
    exact h.word p hp hpw j hj

end Settled

/-- The first round has mapped the run of `size` pages at `v`, and its first frame `f` is a page of
data. -/
structure FirstRound (src : PageSource ρ) (d r : ℕ) (v : U64) (f size : ℕ) (s₁ : Kernel ρ) :
    Prop where
  built : Built src d s₁
  readable : Readable s₁.memory r
  used : f ∈ src.used s₁.source
  lt : f < windowPages
  not_dest : ¬ IsTable s₁.memory d f
  not_source : ¬ IsTable s₁.memory r f
  ne_zero : v ≠ 0#64
  aligned : v.toNat % 4096 = 0
  dest : Run s₁.memory d (pageNo v) f size
  source : Run s₁.memory r (pageNo v) f size
  source_end : frames s₁.memory r ((pageNo v + size) % 2 ^ 36) ≠ some (f + size)
  /-- If the first page lies in a 2MB page, it is the first one there. -/
  first : ∀ g, hugeLeaf s₁.memory d (pageNo v / 512) = some g → pageNo v % 512 = 0

namespace FirstRound

variable {v flags : U64} {f size : ℕ}

/-- The 2MB page of the first page starts at frame `f`. -/
theorem hugeLeaf_eq (h : FirstRound src d r v f size s₁) (hsize : 0 < size) {g : ℕ}
    (hg : hugeLeaf s₁.memory d (pageNo v / 512) = some g) : g = f := by
  have hframe := h.dest 0 hsize
  rw [Nat.add_zero, Nat.mod_eq_of_lt (pageNo_lt v), frames_of_hugeLeaf hg, h.first g hg] at hframe
  exact Option.some.inj hframe

/-- `map_page` on a page of the run: nothing happens, or a word of frame `f` is overwritten.  The
second case needs a 2MB page at the start of the range and a rest of less than 2MB. -/
theorem wp_mapPage_settled (h : FirstRound src d r v f size s₁) (hs : Settled src f s₁ s)
    (hflags : FlagsOk flags) {j c : ℕ} (hj : j < c) (hc : c ≤ size)
    (huse : ¬ Use2MB (pagesAfter v j) (pagesAfter (pagePtr f) j) (4096 * (c : ℤ) - 4096 * j))
    (hw : f + j < windowPages)
    (hbefore : 0 < j → hugeLeaf s₁.memory d (pageNo v / 512) = some f ∧ c < 512) :
    wp (mapPage src (pagePtr d) (pagesAfter v j) (pagesAfter (pagePtr f) j) flags)
      (fun res s' => Settled src f s₁ s' ∧
        (res = true → hugeLeaf s₁.memory d (pageNo v / 512) = some f ∧ c < 512)) s := by
  have hB := hs.built h.built h.not_dest
  have hagree := hs.agree h.built.tree.readable h.not_dest
  have hk : kernelSpaceBegin ≤ pagesAfter (pagePtr f) j := by
    rw [pagesAfter_pagePtr]
    exact kernelSpaceBegin_le_pagePtr hw
  have hmapped : ¬ Free s.memory d (pageNo (pagesAfter v j)) 1 := by
    rw [free_one (pageNo_lt _), hagree.frames_eq (pageNo_lt_pow _), pageNo_pagesAfter,
      h.dest j (by omega)]
    simp
  by_cases hguard : Accepted (2 ^ 12) (pagesAfter v j) (pagesAfter (pagePtr f) j) →
      Guarded s.memory d (pageNo (pagesAfter v j))
  · refine wp_mono (wp_mapPage hB hk hflags hguard) ?_
    intro res s' hmap
    cases hmap with
    | refused => exact ⟨hs, by simp⟩
    | exhausted hfree => exact absurd hfree.2 hmapped
    | mapped hfree => exact absurd hfree.2 hmapped
  · push Not at hguard
    obtain ⟨hacc, hnot⟩ := hguard
    unfold Guarded at hnot
    push Not at hnot
    obtain ⟨g, hg, h0⟩ := hnot
    have hn := pageNo_lt v
    have hhead : hugeLeaf s₁.memory d (pageNo v / 512) = some f ∧ c < 512 ∧ g = f := by
      rw [hagree.hugeLeaf_eq (Radix.div_lt_pow (by decide) (pageNo_lt_pow _)),
        pageNo_pagesAfter] at hg
      by_cases hj0 : j = 0
      · subst hj0
        rw [Nat.add_zero, Nat.mod_eq_of_lt hn] at hg
        obtain rfl := h.hugeLeaf_eq (by omega) hg
        refine ⟨hg, ?_, rfl⟩
        -- a rest of 2MB or more would be mapped as a 2MB page
        have hdvd := h.built.tree.dvd (Radix.div_lt_pow (by decide) (pageNo_lt_pow v)) hg
        have hfirst := h.first g hg
        have hal := h.aligned
        by_contra hc512
        refine huse ⟨?_, ?_, by omega⟩
        · rw [pagesAfter_zero]
          unfold pageNo at hfirst
          omega
        · rw [pagesAfter_zero, pagePtr_toNat h.lt]
          omega
      · obtain ⟨hleaf, hc512⟩ := hbefore (by omega)
        have hfirst := h.first f hleaf
        rw [show (pageNo v + j) % 2 ^ 36 / 512 = pageNo v / 512 by omega, hleaf] at hg
        exact ⟨hleaf, hc512, (Option.some.inj hg).symm⟩
    obtain ⟨hleaf, hc512, rfl⟩ := hhead
    refine wp_mapPage_of_hugeLeaf hB hk hflags hacc hg (fun hne => absurd h0 hne) ?_
    intro _
    exact ⟨hs.store h.used h.lt (Nat.mod_lt _ (by decide)) _, fun _ => ⟨hleaf, hc512⟩⟩

/-- `map_region` on pages of the run. -/
theorem wp_mapRegion_settled (h : FirstRound src d r v f size s₁) (hs : Settled src f s₁ s)
    (hflags : FlagsOk flags) {c : ℕ} (hc : c ≤ size) (hw : f + size ≤ windowPages) :
    wp (mapRegion src (pagePtr d) v (pagePtr f) c flags) (fun _ s' => Settled src f s₁ s') s := by
  have hpages : regionPages c = c := by
    refine regionPages_eq ?_
    unfold windowPages at hw
    omega
  refine wp_mono (wp_mapRegion_loop (h.built.tree.table_lt isTable_root)
    (kernelSpaceBegin_le_pagePtr h.lt)
    ⟨h.ne_zero, h.aligned, kernelSpaceBegin_aligned_pagePtr h.lt⟩
    (I := fun j s' => Settled src f s₁ s' ∧
      (0 < j → hugeLeaf s₁.memory d (pageNo v / 512) = some f ∧ c < 512))
    (F := fun s' => Settled src f s₁ s') ⟨hs, fun h0 => absurd h0 (lt_irrefl 0)⟩ ?_) ?_
  · rw [hpages]
    rintro j s' hj ⟨hs', hbefore⟩
    have hB := hs'.built h.built h.not_dest
    rw [mapRegionStep_eq]
    split_ifs with huse
    · -- the range has a mapped page
      have hk : kernelSpaceBegin ≤ pagesAfter (pagePtr f) j := by
        rw [pagesAfter_pagePtr]
        exact kernelSpaceBegin_le_pagePtr (by omega)
      have hmapped : ¬ Free s'.memory d (pageNo (pagesAfter v j)) 512 := by
        intro hfree
        have h0 := hfree 0 (by omega)
        rw [Nat.add_zero, Nat.mod_eq_of_lt (pageNo_lt _),
          (hs'.agree h.built.tree.readable h.not_dest).frames_eq (pageNo_lt_pow _),
          pageNo_pagesAfter, h.dest j (by omega)] at h0
        cases h0
      rw [wp_map]
      refine wp_of_run (map2MBPage_mapped hB hk hflags hmapped) ⟨fun _ => hs', ?_⟩
      rintro ⟨⟩
    · rw [wp_map]
      refine wp_mono (h.wp_mapPage_settled hs' hflags hj hc huse (by omega) hbefore) ?_
      rintro res s'' ⟨hs'', htrue⟩
      exact ⟨fun _ => hs'', fun hres => ⟨1, by omega, by omega, rfl, hs'', fun _ => htrue hres⟩⟩
  · rintro res s' (⟨-, hs', -⟩ | ⟨-, hs'⟩)
    · exact hs'
    · exact hs'

/-- **The further rounds** look at the first run again. -/
theorem wp_copyMappingLoop_settled (h : FirstRound src d r v f size s₁) (hflags : FlagsOk flags)
    (hsize : 0 < size) (fuel : ℕ) (count : ℤ) (hs : Settled src f s₁ s) (hfuel : count < fuel)
    (hfuel0 : 0 < fuel) :
    wp (copyMappingLoop src (pagePtr d) (pagePtr r) v flags fuel count)
      (fun _ s' => Settled src f s₁ s') s := by
  induction fuel generalizing count s with
  | zero => omega
  | succ fuel ih =>
    by_cases hpos : 0 < count
    · have hagree := hs.agree h.readable h.not_source
      have hframes : ∀ k < 2 ^ 36, frames s.memory r k = frames s₁.memory r k :=
        fun k hk => hagree.frames_eq hk
      have hf : frames s.memory r (pageNo v) = some f := by
        have hrun := h.source 0 hsize
        rw [Nat.add_zero, Nat.mod_eq_of_lt (pageNo_lt v)] at hrun
        rwa [hframes _ (pageNo_lt v)]
      refine wp_copyMappingLoop_succ (hagree.readable h.readable) h.aligned hf hpos ?_
      intro size' _ hle hrun hend
      obtain rfl := Run.length_unique h.source h.source_end hrun hend hframes
      obtain ⟨c, hc⟩ := Int.eq_ofNat_of_zero_le (show 0 ≤ min (size' : ℤ) count by omega)
      rw [hc]
      refine wp_mono (h.wp_mapRegion_settled hs hflags (by omega) hle) ?_
      intro res s' hs'
      split_ifs
      · exact hs'
      · exact ih (count - size') hs' (by omega) (by omega)
    · rw [copyMappingLoop, if_neg hpos, wp_pure]
      exact hs

end FirstRound

/-! ### The whole call -/

/-- `align_down(virt, _4KB)`. -/
def pageBase (virt : U64) : U64 := BitVec.ofNat 64 (virt.toNat / 2 ^ 12 * 2 ^ 12)

theorem pageBase_mod (virt : U64) : (pageBase virt).toNat % 4096 = 0 := by
  rw [pageBase, BitVec.toNat_ofNat]
  omega

theorem copyMapping_eq (dest source virt : U64) (count : ℕ) (flags : U64) :
    copyMapping src dest source virt count flags =
      copyMappingLoop src dest source (pageBase virt) flags (count + 1) count := by
  have hdown : (alignDown virt.toNat (2 ^ 12) : Kern (Kernel ρ) ℕ) =
      pure (virt.toNat / 2 ^ 12 * 2 ^ 12) := by
    rw [alignDown, assertAlign, assert, if_pos (popcountl_two_pow 12 (by decide))]
    rfl
  rw [copyMapping, hdown, pure_bind, Int.toNat_natCast]
  rfl

/-- In the table `p4` the `count` pages from `v` on are physically contiguous. -/
def Contiguous (p4 v : U64) (count : ℕ) (s : Kernel ρ) : Prop :=
  ∃ a, ∀ i < count, translate p4 (pagesAfter v i) s = Except.ok (pagesAfter a i, s)

/-- Both tables translate every address of the `count` pages from `v` on to the same address. -/
def SameTranslation (p4 p4' v : U64) (count : ℕ) (s : Kernel ρ) : Prop :=
  ∀ i < 4096 * count, ∃ a, translate p4 (v + BitVec.ofNat 64 i) s = Except.ok (a, s) ∧
    translate p4' (v + BitVec.ofNat 64 i) s = Except.ok (a, s)

/-- The page that `p4` translates `v` to is in use and is a table of neither tree. -/
def DataFrame (src : PageSource ρ) (d r : ℕ) (v : U64) (s : Kernel ρ) : Prop :=
  ∃ f, f < windowPages ∧ translate (pagePtr r) v s = Except.ok (pagePtr f, s) ∧
    f ∈ src.used s.source ∧ ¬ IsTable s.memory d f ∧ ¬ IsTable s.memory r f

/-- Contiguous mapped pages are a run. -/
theorem contiguous_iff (hR : Readable s.memory r) {v : U64} (hv : v.toNat % 4096 = 0) {f count : ℕ}
    (hf : frames s.memory r (pageNo v) = some f)
    (hmapped : ∀ i < count, frames s.memory r ((pageNo v + i) % 2 ^ 36) ≠ none) :
    Contiguous (pagePtr r) v count s ↔ Run s.memory r (pageNo v) f count := by
  have htr : ∀ i, translate (pagePtr r) (pagesAfter v i) s =
      Except.ok (ptrOf (frames s.memory r ((pageNo v + i) % 2 ^ 36)), s) := by
    intro i
    rw [translate_eq hR, translation_of_aligned (pagesAfter_mod hv i), pageNo_pagesAfter]
  have hlt : ∀ {k g}, frames s.memory r (k % 2 ^ 36) = some g → g < windowPages :=
    fun hg => hR.frames_lt (Nat.mod_lt _ (by decide)) hg
  constructor
  · rintro ⟨a, ha⟩ i
    induction i with
    | zero =>
      intro _
      rwa [Nat.add_zero, Nat.mod_eq_of_lt (pageNo_lt v)]
    | succ i ih =>
      -- the frame after `f + i`, unless the window ends there
      intro hi
      have ha0 := ha 0 (by omega)
      have hai := ha (i + 1) hi
      have hfi := hlt (ih (by omega))
      obtain ⟨g, hg⟩ := Option.ne_none_iff_exists'.1 (hmapped (i + 1) hi)
      rw [htr, Nat.add_zero, Nat.mod_eq_of_lt (pageNo_lt v), hf] at ha0
      obtain rfl : pagePtr f = a := by
        have h := congrArg Prod.fst (Except.ok.inj ha0)
        rwa [pagesAfter_zero] at h
      rw [htr, hg, pagesAfter_pagePtr] at hai
      have hptr : pagePtr g = pagePtr (f + (i + 1)) := congrArg Prod.fst (Except.ok.inj hai)
      have hend : f + (i + 1) ≠ windowPages := by
        intro hc
        rw [hc, pagePtr_windowPages] at hptr
        exact pagePtr_ne_zero (hlt hg) hptr
      rw [hg, pagePtr_inj (hlt hg) (by omega) hptr]
  · intro hrun
    refine ⟨pagePtr f, fun i hi => ?_⟩
    rw [htr, hrun i hi, pagesAfter_pagePtr, ptrOf_some]

/-- The state after the first round. -/
theorem firstRound_of_added (hR : Readable s.memory r) (hsep : Separate src d r s)
    {v : U64} (hv : v ≠ 0#64) (hv' : v.toNat % 4096 = 0)
    {f size : ℕ} (hlt : f < windowPages) (hw : f + size ≤ windowPages) (hsize : 0 < size)
    (hu : f ∈ src.used s.source) (hnd : ¬ IsTable s.memory d f) (hnr : ¬ IsTable s.memory r f)
    (hrun : Run s.memory r (pageNo v) f size)
    (hend : frames s.memory r ((pageNo v + size) % 2 ^ 36) ≠ some (f + size))
    (hfree : Free s.memory d (pageNo v) size) {got : List U64}
    (hadd : Added src d s s₁ got (pageNo v) f size) : FirstRound src d r v f size s₁ := by
  have hagree := hsep.agree hR hadd.grown
  have hmod : ∀ k : ℕ, k % 2 ^ 36 < 2 ^ 36 := fun k => Nat.mod_lt k (by decide)
  have hn := pageNo_lt v
  have hsize36 : size < 2 ^ 36 := by
    unfold windowPages at hw
    omega
  refine ⟨hadd.built, hagree.readable hR, (hadd.grown.used f).2 (Or.inl hu), hlt, ?_, ?_, hv, hv', ?_,
    ?_, ?_, ?_⟩
  · rw [hadd.grown.isTable]
    rintro (h | h)
    · exact hnd h
    · exact hadd.grown.fresh f h hu
  · rwa [hagree.isTable_iff]
  · intro i hi
    rw [hadd.frames_eq _ (hmod _), placed, offset_add (by omega), if_pos hi]
  · intro i hi
    rw [hagree.frames_eq (hmod _)]
    exact hrun i hi
  · rwa [hagree.frames_eq (hmod _)]
  · intro g hg
    rcases hadd.hugeLeaf_cases (pageNo v / 512) (by omega) with heq | hoff
    · -- no 2MB page was there before
      have hnone := hfree.hugeLeaf_eq_none hsize
      rw [Nat.add_zero, Nat.mod_eq_of_lt hn, ← heq, hg] at hnone
      cases hnone
    · by_contra hne
      have := hoff (pageNo v - 1) (by omega)
      unfold offset at this
      omega

/-- If the range is not one run, the page after the first run is not mapped in the end. -/
theorem wp_copyMappingLoop_stuck (hB : Built src d s) (hR : Readable s.memory r)
    (hsep : Separate src d r s) {v flags : U64} (hv : v ≠ 0#64) (hv' : v.toNat % 4096 = 0)
    (hflags : FlagsOk flags) {f count : ℕ} (hpos : 0 < count)
    (hvc : v.toNat + 4096 * count ≤ 2 ^ 64) (hf : frames s.memory r (pageNo v) = some f)
    (hu : f ∈ src.used s.source) (hnd : ¬ IsTable s.memory d f) (hnr : ¬ IsTable s.memory r f)
    (hnot : ¬ Run s.memory r (pageNo v) f count) (hfree : Free s.memory d (pageNo v) count) :
    wp (copyMappingLoop src (pagePtr d) (pagePtr r) v flags (count + 1) count)
      (fun res s' => res = true → ∃ i < count, Agree s.memory s'.memory r ∧
        Readable s'.memory d ∧ frames s'.memory d ((pageNo v + i) % 2 ^ 36) = none) s := by
  have hflt := hR.frames_lt (pageNo_lt_pow v) hf
  refine wp_copyMappingLoop_succ hR hv' hf (by omega) ?_
  intro size hsize hle hrun hend
  have hsc : size < count := by
    by_contra hc
    exact hnot fun i hi => hrun i (by omega)
  have hfree' : Free s.memory d (pageNo v) size := fun i hi => hfree i (by omega)
  have hkey : pageOf (pagePtr f) = f := pageOf_pagePtr hflt
  rw [min_eq_left (by exact_mod_cast hsc.le)]
  have hmap := wp_mapRegion_free hB (kernelSpaceBegin_le_pagePtr hflt)
    ⟨hv, hv', kernelSpaceBegin_aligned_pagePtr hflt⟩ hflags (by omega : v.toNat + 4096 * size ≤ _)
    (by rw [hkey]; exact hle) hfree'
  rw [hkey] at hmap
  refine wp_mono hmap ?_
  rintro res s₁ ⟨got, m, hadd, ⟨rfl, rfl, -⟩ | ⟨rfl, -⟩⟩
  · rw [if_neg (by simp)]
    have hfirst := firstRound_of_added hR hsep hv hv' hflt hle hsize hu hnd hnr hrun hend hfree' hadd
    have hs₁ : Settled src f s₁ s₁ := ⟨rfl, hadd.built.valid, fun _ _ _ _ _ => rfl⟩
    refine wp_mono (hfirst.wp_copyMappingLoop_settled hflags hsize count (count - m) hs₁ (by omega)
      hpos) ?_
    intro _ s' hs' _
    have hagree := hs'.agree hadd.built.tree.readable hfirst.not_dest
    have hagree' := hs'.agree hfirst.readable hfirst.not_source
    have hsrc := hsep.agree hR hadd.grown
    refine ⟨m, hsc, ?_, hagree.readable hadd.built.tree.readable, ?_⟩
    · intro t ht i hi
      rw [hagree' t ((hsrc.isTable_iff t).2 ht) i hi, hsrc t ht i hi]
    · have hm36 : m < 2 ^ 36 := by
        unfold windowPages at hle
        omega
      have hmod : (pageNo v + m) % 2 ^ 36 < 2 ^ 36 := Nat.mod_lt _ (by decide)
      rw [hagree.frames_eq hmod, hadd.frames_eq _ hmod, placed, offset_add hm36,
        if_neg (lt_irrefl m)]
      exact hfree m hsc
  · rw [if_pos rfl]
    rintro ⟨⟩

/-- If the range is one run and has been mapped, then both tables translate it alike. -/
theorem sameTranslation_of_added (hR : Readable s.memory r) (hsep : Separate src d r s) {v : U64}
    (hv : v.toNat % 4096 = 0) {f count : ℕ} (hc : count ≤ 2 ^ 36)
    (hrun : Run s.memory r (pageNo v) f count) {got : List U64}
    (hadd : Added src d s s' got (pageNo v) f count) :
    SameTranslation (pagePtr d) (pagePtr r) v count s' := by
  intro i hi
  have hagree := hsep.agree hR hadd.grown
  have hmod : (pageNo v + i / 4096) % 2 ^ 36 < 2 ^ 36 := Nat.mod_lt _ (by decide)
  obtain ⟨hno, -⟩ := pageNo_add hv i
  have hdest : frames s'.memory d (pageNo (v + BitVec.ofNat 64 i)) = some (f + i / 4096) := by
    rw [hno, hadd.frames_eq _ hmod, placed, offset_add (by omega), if_pos (by omega)]
  have hsource : frames s'.memory r (pageNo (v + BitVec.ofNat 64 i)) = some (f + i / 4096) := by
    rw [hno, hagree.frames_eq hmod]
    exact hrun (i / 4096) (by omega)
  refine ⟨_, translate_eq hadd.built.tree.readable _, ?_⟩
  rw [translate_eq (hagree.readable hR), translation_of_frames hdest, translation_of_frames hsource]

/-- **`copy_mapping` copies a range that is physically contiguous in the source**, if no call of
`zeroed_pages` fails; and a range whose first frame is a page of data it copies only then. -/
theorem copyMapping_copies_iff (hB : Built src d s) (hR : Readable s.memory r)
    (hsep : Separate src d r s) {virt flags : U64} {count : ℕ} (hpos : 0 < count)
    (hv : pageBase virt ≠ 0#64) (hvc : (pageBase virt).toNat + 4096 * count ≤ 2 ^ 64)
    (hflags : FlagsOk flags)
    (hmapped : ∀ i < count,
      translate (pagePtr r) (pagesAfter (pageBase virt) i) s ≠ Except.ok (0#64, s))
    (hfree : ∀ i < count,
      translate (pagePtr d) (pagesAfter (pageBase virt) i) s = Except.ok (0#64, s)) :
    (Contiguous (pagePtr r) (pageBase virt) count s →
      ∃ res s' got, copyMapping src (pagePtr d) (pagePtr r) virt count flags s =
          Except.ok (res, s') ∧ s'.obtained = got ++ s.obtained ∧
        (0#64 ∉ got → res = true ∧
          SameTranslation (pagePtr d) (pagePtr r) (pageBase virt) count s')) ∧
      (DataFrame src d r (pageBase virt) s →
        ∀ s', copyMapping src (pagePtr d) (pagePtr r) virt count flags s = Except.ok (true, s') →
          SameTranslation (pagePtr d) (pagePtr r) (pageBase virt) count s' →
          Contiguous (pagePtr r) (pageBase virt) count s) := by
  have hv' := pageBase_mod virt
  have hRd := hB.tree.readable
  have hmapped' : ∀ i < count, frames s.memory r ((pageNo (pageBase virt) + i) % 2 ^ 36) ≠ none := by
    intro i hi hnone
    rw [← pageNo_pagesAfter, frames_eq_none_iff hR (pagesAfter_mod hv' i)] at hnone
    exact hmapped i hi hnone
  have hfree' : Free s.memory d (pageNo (pageBase virt)) count := by
    intro i hi
    rw [← pageNo_pagesAfter, frames_eq_none_iff hRd (pagesAfter_mod hv' i)]
    exact hfree i hi
  obtain ⟨f, hf⟩ : ∃ f, frames s.memory r (pageNo (pageBase virt)) = some f := by
    have h0 := hmapped' 0 hpos
    rw [Nat.add_zero, Nat.mod_eq_of_lt (pageNo_lt _)] at h0
    exact Option.ne_none_iff_exists'.1 h0
  have hcont := contiguous_iff hR hv' hf hmapped'
  rw [copyMapping_eq]
  constructor
  · intro hc
    have hrun := hcont.1 hc
    have hc36 : count ≤ 2 ^ 36 := by
      have hlast := hR.frames_lt (Nat.mod_lt _ (by decide)) (hrun (count - 1) (by omega))
      unfold windowPages at hlast
      omega
    obtain ⟨fuel, rfl⟩ : ∃ fuel, count = fuel + 1 := ⟨count - 1, by omega⟩
    obtain ⟨res, s', hexec, got, m, hadd, hres⟩ :=
      wp_copyMappingLoop_run hB hR hv hv' hflags hpos hvc hrun hfree'
    refine ⟨res, s', got, hexec, hadd.grown.obtained, fun hgot => ?_⟩
    rcases hres with ⟨rfl, rfl, -⟩ | ⟨-, -, hnull⟩
    · exact ⟨rfl, sameTranslation_of_added hR hsep hv' hc36 hrun hadd⟩
    · exact absurd hnull hgot
  · rintro ⟨g, hg, htr, hu, hnd, hnr⟩ s' hexec hsame
    obtain rfl : f = g := by
      have hflt := hR.frames_lt (pageNo_lt_pow _) hf
      rw [translate_eq hR, translation_of_aligned hv', hf, ptrOf_some] at htr
      exact pagePtr_inj hflt hg (congrArg Prod.fst (Except.ok.inj htr))
    by_contra hnc
    obtain ⟨i, hi, hagree, hRd', hnone⟩ := wp_run hexec (wp_copyMappingLoop_stuck hB hR hsep hv hv'
      hflags hpos hvc hf hu hnd hnr (fun hrun => hnc (hcont.2 hrun)) hfree') rfl
    -- at the first byte of the missing page the source has a frame and the destination none
    obtain ⟨a, had, har⟩ := hsame (4096 * i) (by omega)
    rw [← pageNo_pagesAfter, frames_eq_none_iff hRd' (pagesAfter_mod hv' i)] at hnone
    have hptr : pageBase virt + BitVec.ofNat 64 (4096 * i) = pagesAfter (pageBase virt) i := rfl
    rw [hptr] at had har
    rw [hnone] at had
    obtain rfl : 0#64 = a := congrArg Prod.fst (Except.ok.inj had)
    refine hmapped' i hi ?_
    have hmod : (pageNo (pageBase virt) + i) % 2 ^ 36 < 2 ^ 36 := Nat.mod_lt _ (by decide)
    rw [← hagree.frames_eq hmod, ← pageNo_pagesAfter,
      frames_eq_none_iff (hagree.readable hR) (pagesAfter_mod hv' i)]
    exact har

/-! ### Two source pages -/

/-- Zeroed pages, among them the p4 tables 0 and 4; six of them are in stock. -/
def bench : Kernel (List ℕ) := ⟨⟨fun _ => 0#64, []⟩, [5, 6, 7, 1, 2, 3], [], []⟩

/-- `bench` after the pages at `0x1000` and `0x2000` of table 4 were mapped to frames 20 and `g`. -/
def twoPages (g : ℕ) : Kernel (List ℕ) :=
  ⟨⟨fun _ => 0#64, [(cell 7 2, pte g 1#64), (cell 7 1, pte 20 1#64), (cell 6 0, pte 7 1#64),
    (cell 5 0, pte 6 1#64), (cell 4 0, pte 5 1#64)]⟩, [1, 2, 3],
    [pagePtr 7, pagePtr 6, pagePtr 5], []⟩

theorem bench_start : Start stock 4 bench where
  lt := by decide
  used := by
    show (4 : ℕ) ∉ [5, 6, 7, 1, 2, 3]
    decide
  zero _ _ := rfl
  valid := by
    refine ⟨by decide, fun q hq => ⟨?_, fun _ _ => rfl⟩⟩
    have hq' : q = 5 ∨ q = 6 ∨ q = 7 ∨ q = 1 ∨ q = 2 ∨ q = 3 := by simpa [bench] using hq
    rcases hq' with rfl | rfl | rfl | rfl | rfl | rfl <;> decide

/-- `bench` after the first of the two calls. -/
def onePage : Kernel (List ℕ) :=
  ⟨⟨fun _ => 0#64, [(cell 7 1, pte 20 1#64), (cell 6 0, pte 7 1#64), (cell 5 0, pte 6 1#64),
    (cell 4 0, pte 5 1#64)]⟩, [1, 2, 3], [pagePtr 7, pagePtr 6, pagePtr 5], []⟩

theorem twoPages_built {g : ℕ} (hg : g = 21 ∨ g = 30) : Built stock 4 (twoPages g) := by
  have hlegal : ∀ f < windowPages, kernelSpaceBegin ≤ pagePtr f ∧ FlagsOk 1#64 :=
    fun f hf => ⟨kernelSpaceBegin_le_pagePtr hf, by decide, by decide, by decide⟩
  have hone : Reach (step stock (pagePtr 4)) (GuardedCalls stock 4) bench onePage := by
    refine .tail .refl (e := .call (.page 0x1000#64 (pagePtr 20) 1#64)) ?_ rfl
    exact ⟨hlegal 20 (by decide), fun _ => guarded_of_hugeLeaf_eq_none rfl⟩
  refine reachable_guarded_built bench_start
    (.tail hone (e := .call (.page 0x2000#64 (pagePtr g) 1#64)) ⟨hlegal g ?_, fun _ => ?_⟩ ?_)
  · unfold windowPages
    omega
  · exact guarded_of_hugeLeaf_eq_none rfl
  · rcases hg with rfl | rfl <;> rfl

/-- The words that are not zero lie in the tables of the source and lead to pages other than 0. -/
theorem twoPages_word {g p i : ℕ} (hp : p < windowPages) (hi : i < 512) :
    (twoPages g).memory.word p i = 0#64 ∨
      p ≠ 0 ∧ ∃ q, (q = 5 ∨ q = 6 ∨ q = 7 ∨ q = 20 ∨ q = g) ∧
        (twoPages g).memory.word p i = pte q 1#64 := by
  have hmem : (twoPages g).memory = ((((Memory.store ⟨fun _ => 0#64, []⟩ (cell 4 0) (pte 5 1#64)).store
    (cell 5 0) (pte 6 1#64)).store (cell 6 0) (pte 7 1#64)).store (cell 7 1) (pte 20 1#64)).store
    (cell 7 2) (pte g 1#64) := rfl
  have h4 : 4 < windowPages := by decide
  have h5 : 5 < windowPages := by decide
  have h6 : 6 < windowPages := by decide
  have h7 : 7 < windowPages := by decide
  rw [hmem, Memory.word_store _ _ h7 hp (by omega) hi, Memory.word_store _ _ h7 hp (by omega) hi,
    Memory.word_store _ _ h6 hp (by omega) hi, Memory.word_store _ _ h5 hp (by omega) hi,
    Memory.word_store _ _ h4 hp (by omega) hi]
  split_ifs with c1 c2 c3 c4 c5
  · exact Or.inr ⟨by omega, g, by simp, rfl⟩
  · exact Or.inr ⟨by omega, 20, by simp, rfl⟩
  · exact Or.inr ⟨by omega, 7, by simp, rfl⟩
  · exact Or.inr ⟨by omega, 6, by simp, rfl⟩
  · exact Or.inr ⟨by omega, 5, by simp, rfl⟩
  · exact Or.inl rfl

theorem twoPages_start {g : ℕ} (hg : g = 21 ∨ g = 30) : Start stock 0 (twoPages g) where
  lt := by decide
  used := by
    show (0 : ℕ) ∉ [1, 2, 3]
    decide
  zero i hi := by
    rcases twoPages_word (g := g) (show 0 < windowPages by decide) hi with h | ⟨h, -⟩
    · exact h
    · exact absurd rfl h
  valid := (twoPages_built hg).valid

theorem twoPages_separate {g : ℕ} (hg : g = 21 ∨ g = 30) : Separate stock 0 4 (twoPages g) := by
  intro t ht
  have hT := (twoPages_built hg).tree
  refine ⟨hT.mem_used ht, ?_⟩
  rw [isTable_of_zero (twoPages_start hg).zero]
  rintro rfl
  obtain ⟨d, x, hd, hx, hnode⟩ := ht
  cases d with
  | zero => cases hnode
  | succ d =>
    -- an entry of a table of the source that leads to page 0
    rw [Radix.node_succ] at hnode
    obtain ⟨p, hp, hnext⟩ := Option.bind_eq_some_iff.1 hnode
    have hpt : IsTable (twoPages g).memory 4 p :=
      isTable_of_table (by omega) (Radix.div_lt_pow (by decide) hx) hp
    have hx512 : x % 512 < 512 := Nat.mod_lt x (by decide)
    rcases twoPages_word (g := g) (hT.table_lt hpt) hx512 with h | ⟨-, q, hq, h⟩
    · rw [h, next, if_pos (Or.inl rfl)] at hnext
      cases hnext
    · have hq0 : 0 < q ∧ q < windowPages := by
        unfold windowPages
        omega
      rw [h, next] at hnext
      split_ifs at hnext
      have := Option.some.inj hnext
      rw [frame_pte hq0.2 (by decide)] at this
      omega

theorem twoPages_translate {g : ℕ} (hg : g = 21 ∨ g = 30) {i : ℕ} (hi : i < 2) :
    translate (pagePtr 4) (pagesAfter (pageBase 0x1000#64) i) (twoPages g) =
      Except.ok (pagePtr (if i = 0 then 20 else g), twoPages g) := by
  obtain rfl | rfl : i = 0 ∨ i = 1 := by omega
  · rcases hg with rfl | rfl <;> rfl
  · rcases hg with rfl | rfl <;> rfl

theorem twoPages_mapped {g : ℕ} (hg : g = 21 ∨ g = 30) : ∀ i < 2,
    translate (pagePtr 4) (pagesAfter (pageBase 0x1000#64) i) (twoPages g) ≠
      Except.ok (0#64, twoPages g) := by
  intro i hi h0
  rw [twoPages_translate hg hi] at h0
  have hlt : (if i = 0 then 20 else g) < windowPages := by
    unfold windowPages
    split_ifs
    · decide
    · omega
  exact pagePtr_ne_zero hlt (congrArg Prod.fst (Except.ok.inj h0))

theorem twoPages_free {g : ℕ} : ∀ i < 2,
    translate (pagePtr 0) (pagesAfter (pageBase 0x1000#64) i) (twoPages g) =
      Except.ok (0#64, twoPages g) := by
  intro i hi
  obtain rfl | rfl : i = 0 ∨ i = 1 := by omega
  · rfl
  · rfl

/-- Frames 20 and 21 are contiguous. -/
theorem copyMapping_copies_two_pages :
    ∃ s', copyMapping stock (pagePtr 0) (pagePtr 4) 0x1000#64 2 1#64 (twoPages 21) =
        Except.ok (true, s') ∧ 0#64 ∉ s'.obtained ∧
      SameTranslation (pagePtr 0) (pagePtr 4) (pageBase 0x1000#64) 2 s' := by
  have hg : 21 = 21 ∨ 21 = 30 := Or.inl rfl
  have hcont : Contiguous (pagePtr 4) (pageBase 0x1000#64) 2 (twoPages 21) := by
    refine ⟨pagePtr 20, fun i hi => ?_⟩
    rw [twoPages_translate hg hi, pagesAfter_pagePtr]
    obtain rfl | rfl : i = 0 ∨ i = 1 := by omega
    · rfl
    · rfl
  have hflags : FlagsOk 1#64 := ⟨by decide, by decide, by decide⟩
  obtain ⟨res, s', got, hexec, hgot, hres⟩ := (copyMapping_copies_iff (twoPages_start hg).built
    (twoPages_built hg).tree.readable (twoPages_separate hg) (by decide) (by decide) (by decide)
    hflags (twoPages_mapped hg) twoPages_free).1 hcont
  have hnull : 0#64 ∉ s'.obtained := by
    -- the three tables of the copy are pages 1, 2 and 3
    have hobtained : (copyMapping stock (pagePtr 0) (pagePtr 4) 0x1000#64 (2 : ℕ) 1#64
        (twoPages 21)).toOption.map (fun r => r.2.obtained) =
        some [pagePtr 3, pagePtr 2, pagePtr 1, pagePtr 7, pagePtr 6, pagePtr 5] := rfl
    rw [hexec] at hobtained
    have hpages : s'.obtained = _ := Option.some.inj hobtained
    rw [hpages]
    decide
  obtain ⟨rfl, hsame⟩ := hres fun hmem => hnull (hgot ▸ List.mem_append_left _ hmem)
  exact ⟨s', hexec, hnull, hsame⟩

/-- Frames 20 and 30 are not: the second round looks at the page at `0x1000` again, finds it mapped in
the destination, and `copy_mapping` returns `false`. -/
theorem copyMapping_not_contiguous : ∃ s s' : Kernel (List ℕ), Start stock 0 s ∧ Built stock 4 s ∧
    Separate stock 0 4 s ∧ FlagsOk 1#64 ∧
    (∀ i < 2, translate (pagePtr 4) (pagesAfter (pageBase 0x1000#64) i) s ≠
      Except.ok (0#64, s)) ∧
    (∀ i < 2, translate (pagePtr 0) (pagesAfter (pageBase 0x1000#64) i) s =
      Except.ok (0#64, s)) ∧
    copyMapping stock (pagePtr 0) (pagePtr 4) 0x1000#64 2 1#64 s = Except.ok (false, s') ∧
    0#64 ∉ s'.obtained ∧
    translate (pagePtr 4) 0x2000#64 s' = Except.ok (pagePtr 30, s') ∧
    translate (pagePtr 0) 0x2000#64 s' = Except.ok (0#64, s') := by
  have hg : 30 = 21 ∨ 30 = 30 := Or.inr rfl
  refine ⟨twoPages 30, _, twoPages_start hg, twoPages_built hg, twoPages_separate hg,
    ⟨by decide, by decide, by decide⟩, twoPages_mapped hg, twoPages_free, rfl, by decide, rfl, rfl⟩

end Dumboss.PageTable
