import Dumboss.PageTable.Copy
import Dumboss.PageTable.Rights

/-!
# What `map_region` writes

A map function writes three kinds of entries, all of them on the way to a page of its range: an empty
entry is linked to a new table, or it becomes the leaf of a 4KB or of a 2MB page.  A relation on memories
that each of these writes satisfies holds for a whole call.

* `Closed`: such a relation; `wp_mapRegion_closed`: the rule;
* `StampedOn`: entries that change have been empty, get the rights of the flags, and lie on the way to a
  page of the range; `closed_stampedOn`;
* `wp_copyMappingLoop_closed`: the rule for `copy_mapping` on a range that is one run.
-/

namespace Dumboss.PageTable

open Prog

variable {ρ : Type} {src : PageSource ρ} {m m' m'' : Memory} {root : ℕ} {flags : U64} {K : Set ℕ}
  {R : Memory → Memory → Prop} {s s' s'' : Kernel ρ}

/-- `R` holds for all that a map function with the flags `flags` writes on the ways to the pages `K`. -/
structure Closed (root : ℕ) (flags : U64) (K : Set ℕ) (R : Memory → Memory → Prop) : Prop where
  refl : ∀ m, R m m
  trans : ∀ {m m' m''}, R m m' → R m' m'' → R m m''
  agree : ∀ {m m'}, Agree m m' root → R m m'
  linked : ∀ {m m' used n d t q}, n ∈ K → n < 2 ^ 36 → d < 3 → Tree m root used →
    Linked m m' root d (key n d / 512) (key n d % 512) t q → m'.word t (key n d % 512) = pte q flags →
      R m m'
  page : ∀ {m used n t f}, n ∈ K → n < 2 ^ 36 → Tree m root used → table m root 3 (n / 512) = some t →
    m.word t (n % 512) = 0#64 → f < windowPages → R m (m.store (cell t (n % 512)) (pte f flags))
  page2MB : ∀ {m used n t f}, n ∈ K → n < 2 ^ 36 → Tree m root used →
    table m root 2 (n / 512 / 512) = some t → m.word t (n / 512 % 512) = 0#64 → f < windowPages →
      512 ∣ f → R m (m.store (cell t (n / 512 % 512)) (pte f (flags ||| pteHugePage)))

/-! ### The map functions -/

section Calls

variable (hR : Closed root flags K R) (hf : FlagsOk flags)

include hR hf

/-- One step down, from a table that is there. -/
theorem wp_nextTable_closed (hT : Tree s.memory root (src.used s.source))
    (hv : src.Valid s.memory s.source) {n d t : ℕ} (hK : n ∈ K) (hn : n < 2 ^ 36) (hd : d < 3)
    (ht : table s.memory root d (key n d / 512) = some t)
    (hleaf : d = 2 → hugeLeaf s.memory root (key n d) = none) :
    wp (nextTable src (pagePtr t) (key n d % 512) flags) (fun _ s' => R s.memory s'.memory) s := by
  refine wp_nextTable_written hT hv hf hd (key_lt hn d hd.le) ht hleaf ?_ ?_ ?_
  · exact fun _ _ => hR.refl _
  · exact fun _ _ _ hagree => hR.agree hagree
  · exact fun _ _ _ _ hl hword => hR.linked hK hn hd hT hl hword

/-- One step down. -/
theorem Descent.wp_closed (hB : Built src root s) {n : ℕ} (hK : n ∈ K) (hn : n < 2 ^ 36) (d : ℕ)
    (hd : d < 3) (hleaf : d = 2 → hugeLeaf s.memory root (key n d) = none) {ptr : U64}
    (hdesc : Descent src root s d (key n d / 512) ptr s') (hptr : ptr ≠ 0#64)
    (hst : R s.memory s'.memory) :
    wp (nextTable src ptr (key n d % 512) flags) (fun p s'' =>
      Descent src root s (d + 1) (key n d) p s'' ∧ R s.memory s''.memory) s' := by
  have hy := key_lt hn d hd.le
  refine wp_and (wp_nextTable hB.tree hB.valid hf hd hy hleaf hdesc hptr) ?_
  have hnext : ∀ t, ptr = pagePtr t → Tree s'.memory root (src.used s'.source) →
      src.Valid s'.memory s'.source → table s'.memory root d (key n d / 512) = some t →
      (d = 2 → hugeLeaf s'.memory root (key n d) = none) →
      wp (nextTable src ptr (key n d % 512) flags) (fun _ s'' => R s.memory s''.memory) s' := by
    rintro t rfl hT hv ht hleaf'
    exact wp_mono (wp_nextTable_closed hR hf hT hv hK hn hd ht hleaf') fun _ _ h => hR.trans hst h
  cases hdesc with
  | failed => exact absurd rfl hptr
  | found ht => exact hnext _ rfl hB.tree hB.valid ht hleaf
  | made hnone hext hgot ht hzero =>
    refine hnext _ rfl hext.grown.tree hext.grown.valid ht ?_
    rintro rfl
    rw [hext.hugeLeaf_eq _ hy]
    exact hleaf rfl

theorem wp_withP2_closed (hB : Built src root s) {n : ℕ} (hK : n ∈ K) (hn : n < 2 ^ 36)
    {rest : U64 → Kern (Kernel ρ) Bool} {Q : Bool → Kernel ρ → Prop}
    (hfailed : ∀ s', R s.memory s'.memory → Q false s')
    (hrest : ∀ p2 s', Descent src root s 2 (n / 512 / 512) p2 s' → p2 ≠ 0#64 →
      R s.memory s'.memory → wp (rest p2) Q s') :
    wp (withP2 src (pagePtr root) n flags rest) Q s := by
  have hroot := pagePtr_ne_zero (hB.tree.table_lt isTable_root)
  unfold withP2
  simp only [wp_bind, wp_ite, wp_pure]
  refine wp_mono (Descent.wp_closed hR hf hB hK hn 0 (by omega) (by omega) (.found (table_zero _))
    hroot (hR.refl _)) ?_
  rintro p3 s₁ ⟨hdesc, hst⟩
  split_ifs with h3
  · exact hfailed s₁ hst
  · refine wp_mono (hdesc.wp_closed hR hf hB hK hn 1 (by omega) (by omega) h3 hst) ?_
    rintro p2 s₂ ⟨hdesc₂, hst₂⟩
    split_ifs with h2
    · exact hfailed s₂ hst₂
    · exact hrest p2 s₂ hdesc₂ h2 hst₂

theorem wp_mapPage_closed (hB : Built src root s) {v k : U64} (hk : kernelSpaceBegin ≤ k)
    (hK : pageNo v ∈ K) (hg : hugeLeaf s.memory root (pageNo v / 512) = none) :
    wp (mapPage src (pagePtr root) v k flags) (fun _ s' => R s.memory s'.memory) s := by
  have hn := pageNo_lt v
  rw [mapPage_eq (hB.tree.table_lt isTable_root) hk]
  split_ifs with hacc
  · obtain ⟨hlt, hkeq⟩ := eq_pagePtr_pageOf hk hacc.2.2
    refine wp_withP2_closed hR hf hB hK hn (fun _ h => h) ?_
    intro p2 s₁ hdesc h2 hst
    simp only [mapPageRest, wp_bind, wp_ite, wp_pure]
    refine wp_mono (hdesc.wp_closed hR hf hB hK hn 2 (by omega) (fun _ => hg) h2 hst) ?_
    rintro p1 s₂ ⟨hdesc₁, hst₁⟩
    split_ifs with h1
    · exact hst₁
    · obtain ⟨t, rfl, ht, hT⟩ := hdesc₁.exists_table hB h1
      rw [wp_loadEntry]
      split_ifs with he
      · exact hst₁
      · rw [hkeq, wp_makePte hlt, wp_storeEntry]
        exact hR.trans hst₁ (hR.page hK hn hT ht (not_not.1 he) hlt)
  · rw [wp_pure]
    exact hR.refl _

theorem wp_map2MBPage_closed (hB : Built src root s) {v k : U64} (hk : kernelSpaceBegin ≤ k)
    (hK : pageNo v ∈ K) :
    wp (map2MBPage src (pagePtr root) v k flags) (fun _ s' => R s.memory s'.memory) s := by
  have hn := pageNo_lt v
  rw [map2MBPage_eq (hB.tree.table_lt isTable_root) hk]
  split_ifs with hacc
  · obtain ⟨hlt, hkeq⟩ := eq_pagePtr_pageOf hk (by have := hacc.2.2; omega)
    refine wp_withP2_closed hR hf hB hK hn (fun _ h => h) ?_
    intro p2 s₁ hdesc h2 hst
    obtain ⟨t, rfl, ht, hT⟩ := hdesc.exists_table hB h2
    simp only [map2MBPageRest, wp_bind, wp_ite, wp_pure]
    rw [wp_loadEntry]
    split_ifs with he
    · exact hst
    · rw [hkeq, wp_makePte hlt, wp_storeEntry]
      exact hR.trans hst (hR.page2MB hK hn hT ht (not_not.1 he) hlt (dvd_pageOf hacc.2.2))
  · rw [wp_pure]
    exact hR.refl _

theorem wp_mapRegionStep_closed (hB : Built src root s) {virt ptr : U64} {left : ℤ}
    (hptr : kernelSpaceBegin ≤ ptr) (hK : pageNo virt ∈ K)
    (hg : hugeLeaf s.memory root (pageNo virt / 512) = none) :
    wp (mapRegionStep src (pagePtr root) virt ptr flags left)
      (fun _ s' => R s.memory s'.memory) s := by
  rw [mapRegionStep_eq]
  split_ifs
  · rw [wp_map]
    exact wp_map2MBPage_closed hR hf hB hptr hK
  · rw [wp_map]
    exact wp_mapPage_closed hR hf hB hptr hK hg

/-- **The rule** for `map_region` on a range that is not mapped. -/
theorem wp_mapRegion_closed (hB : Built src root s) {v k : U64} {count : ℤ} (hk : kernelSpaceBegin ≤ k)
    (hK : ∀ j < regionPages count, (pageNo v + j) % 2 ^ 36 ∈ K)
    (hfree : Free s.memory root (pageNo v) (regionPages count)) :
    wp (mapRegion src (pagePtr root) v k count flags) (fun _ s' => R s.memory s'.memory) s := by
  have hroot := hB.tree.table_lt isTable_root
  by_cases hacc : Accepted (2 ^ 12) v k
  · have hk' : k.toNat % 4096 = 0 := hacc.2.2
    have hlt := (eq_pagePtr_pageOf hk hk').1
    refine wp_mono (wp_mapRegion_loop hroot hk hacc
      (I := fun j s' => pageOf k + j ≤ windowPages ∧ R s.memory s'.memory ∧
        ∃ got, Added src root s s' got (pageNo v) (pageOf k) j)
      (F := fun s' => R s.memory s'.memory)
      ⟨by omega, hR.refl _, [], Added.refl hB _ _⟩ ?_) ?_
    · rintro j s' hj ⟨hle, hst, got, hadd⟩
      by_cases hend : pageOf k + j = windowPages
      · refine wp_mono (wp_round_end hroot hk hk' hend) ?_
        rintro res s'' ⟨hres, rfl⟩
        refine ⟨fun _ => hst, fun ht => ?_⟩
        rw [hres] at ht
        cases ht
      · have hptr : kernelSpaceBegin ≤ pagesAfter k j := by
          rw [pagesAfter_eq_pagePtr hk hk']
          exact kernelSpaceBegin_le_pagePtr (by omega)
        have hnone : hugeLeaf s'.memory root ((pageNo v + j) % 2 ^ 36 / 512) = none := by
          refine hadd.hugeLeaf_eq_none ?_ (hfree.hugeLeaf_eq_none hj)
          unfold windowPages at hle
          omega
        have hstep : wp (mapRegionStep src (pagePtr root) (pagesAfter v j) (pagesAfter k j) flags
            (4096 * (regionPages count : ℤ) - 4096 * j)) (fun _ s'' => R s'.memory s''.memory) s' :=
          wp_mapRegionStep_closed hR hf hadd.built hptr (by rw [pageNo_pagesAfter]; exact hK j hj)
            (by rwa [pageNo_pagesAfter])
        refine wp_mono (wp_and
          (wp_round hadd.built hk hk' hj (by omega) hf fun _ _ => guarded_of_hugeLeaf_eq_none hnone)
          hstep) ?_
        rintro ⟨r, diff⟩ s'' ⟨⟨i, hi, hji, hw, hdiff, hmap⟩, hst'⟩
        refine ⟨fun _ => hR.trans hst hst', fun hr => ⟨i, hi, hji, hdiff, hw, hR.trans hst hst', ?_⟩⟩
        have hij : j + i ≤ 2 ^ 36 := by
          unfold windowPages at hw
          omega
        cases hmap with
        | refused => cases hr
        | exhausted => cases hr
        | mapped _ hadd' => exact ⟨_, hadd.trans hij hadd'.of_mod⟩
    · rintro r s' (⟨-, -, hst, -⟩ | ⟨-, hst⟩)
      · exact hst
      · exact hst
  · rw [mapRegion_eq hroot hk, if_neg hacc, wp_pure]
    exact hR.refl _

end Calls

/-! ### Stamps on the way -/

/-- The entries that change have been empty, get the rights of `flags`, and are on the way to a page of
`K`. -/
def StampedOn (flags : U64) (K : Set ℕ) (root : ℕ) (m m' : Memory) : Prop :=
  ∀ d ≤ 3, ∀ x < 512 ^ (d + 1), entry m' root d x = entry m root d x ∨
    entry m root d x = 0#64 ∧ rightsOf (entry m' root d x) = rightsOf flags ∧ ∃ n ∈ K, key n d = x

theorem Agree.entry_eq (h : Agree m m' root) {d x : ℕ} (hd : d ≤ 3) (hx : x < 512 ^ (d + 1)) :
    entry m' root d x = entry m root d x := by
  have hx' := Radix.div_lt_pow (by decide) hx
  unfold entry
  rw [h.table_eq hd hx']
  cases ht : table m root d (x / 512) with
  | none => rfl
  | some t => exact h t (isTable_of_table hd hx' ht) _ (Nat.mod_lt _ (by decide))

theorem StampedOn.stamped (h : StampedOn flags K root m m') : Stamped flags root m m' :=
  fun d hd x hx => (h d hd x hx).imp_right fun h => ⟨h.1, h.2.1⟩

/-- An entry that is not on the way stays as it is. -/
theorem StampedOn.entry_eq (h : StampedOn flags K root m m') {d x : ℕ} (hd : d ≤ 3)
    (hx : x < 512 ^ (d + 1)) (hK : ∀ n ∈ K, key n d ≠ x) : entry m' root d x = entry m root d x := by
  rcases h d hd x hx with heq | ⟨-, -, n, hn, hkey⟩
  · exact heq
  · exact absurd hkey (hK n hn)

theorem StampedOn.trans (h : StampedOn flags K root m m') (h' : StampedOn flags K root m' m'') :
    StampedOn flags K root m m'' := by
  intro d hd x hx
  rcases h d hd x hx with heq | ⟨h0, hr, hn⟩
  · rcases h' d hd x hx with heq' | ⟨h0', hr', hn'⟩
    · exact Or.inl (heq'.trans heq)
    · exact Or.inr ⟨heq ▸ h0', hr', hn'⟩
  · rcases h' d hd x hx with heq' | ⟨-, hr', hn'⟩
    · exact Or.inr ⟨h0, heq' ▸ hr, hn⟩
    · exact Or.inr ⟨h0, hr', hn'⟩

/-- If one entry at most is written, what is stamped is that entry. -/
theorem Stamped.on {used : Set ℕ} {n d t : ℕ} (hT : Tree m root used) (h : Stamped flags root m m')
    (hK : n ∈ K) (hn : n < 2 ^ 36) (hd : d ≤ 3) (ht : table m root d (key n d / 512) = some t)
    (hother : ∀ p, IsTable m root p → ∀ j < 512, ¬ (p = t ∧ j = key n d % 512) →
      m'.word p j = m.word p j)
    (htable : ∀ l ≤ 3, ∀ x < 512 ^ l, table m' root l x = table m root l x ∨
      table m root l x = none ∧ ∀ q, table m' root l x = some q → ∀ j < 512, m'.word q j = 0#64) :
    StampedOn flags K root m m' := by
  intro l hl x hx
  have hx' := Radix.div_lt_pow (by decide) hx
  have hmod : x % 512 < 512 := Nat.mod_lt _ (by decide)
  cases hp : table m root l (x / 512) with
  | none =>
    left
    rw [entry_of_table_none hp]
    cases hq : table m' root l (x / 512) with
    | none => exact entry_of_table_none hq
    | some q =>
      have hzero := ((htable l hl _ hx').resolve_left (by simp [hp, hq])).2 q hq
      rw [entry_of_table hq, hzero _ hmod]
  | some p =>
    have hp' : table m' root l (x / 512) = some p :=
      ((htable l hl _ hx').resolve_right (by simp [hp])).trans hp
    by_cases hcell : p = t ∧ x % 512 = key n d % 512
    · obtain ⟨rfl, hi⟩ := hcell
      have hkey := key_lt hn d hd
      obtain ⟨rfl, hdiv⟩ := hT.inj _ _ _ _ _ hl hx' hd (Radix.div_lt_pow (by decide) hkey) hp ht
      exact (h l hl x hx).imp_right fun h => ⟨h.1, h.2, n, hK, by omega⟩
    · left
      rw [entry_of_table hp, entry_of_table hp',
        hother p (isTable_of_table hl hx' hp) _ hmod hcell]

theorem closed_stampedOn (hf : FlagsOk flags) : Closed root flags K (StampedOn flags K root) where
  refl _ _ _ _ _ := Or.inl rfl
  trans := StampedOn.trans
  agree ha _ hd _ hx := Or.inl (ha.entry_eq hd hx)
  linked := by
    intro m m' used n d t q hK hn hd hT hl hword
    refine Stamped.on hT (hl.stamped hT hword) hK hn hd.le hl.parent hl.other ?_
    intro l hl' x hx
    rw [hl.table_eq hT hl' hx]
    split_ifs with hnew
    · obtain ⟨rfl, rfl⟩ := hnew
      refine Or.inr ⟨hl.table_old, fun p hp => ?_⟩
      rw [← Option.some.inj hp]
      exact hl.zero
    · exact Or.inl rfl
  page := by
    intro m used n t f hK hn hT ht hempty hlt
    have hfill := filled4KB_store hT hn ht hlt hf
    exact Stamped.on (d := 3) hT (stamped_page hT hn ht hempty hlt hf) hK hn le_rfl ht hfill.other
      fun l hl x hx => Or.inl (hfill.table_eq hT hl hx)
  page2MB := by
    intro m used n t f hK hn hT ht hempty hlt hdvd
    have hfill := filled2MB_store hT hn ht hempty hlt hdvd hf
    exact Stamped.on (d := 2) hT (stamped_page2MB hT hn ht hempty hlt hdvd hf) hK hn (by omega) ht
      hfill.other fun l hl x hx => Or.inl (hfill.table_eq hT hl hx)

/-! ### `copy_mapping` -/

/-- **The rule** for `copy_mapping` on a range that is one run of the source: it is mapped by one call of
`map_region`. -/
theorem wp_copyMappingLoop_closed {d r : ℕ} (hR : Closed d flags K R) (hflags : FlagsOk flags)
    (hB : Built src d s) (hread : Readable s.memory r) {v : U64} (hv : v.toNat % 4096 = 0)
    {f count fuel : ℕ} (hpos : 0 < count)
    (hvc : v.toNat + 4096 * count ≤ 2 ^ 64) (hrun : Run s.memory r (pageNo v) f count)
    (hfree : Free s.memory d (pageNo v) count) (hK : ∀ j < count, (pageNo v + j) % 2 ^ 36 ∈ K) :
    wp (copyMappingLoop src (pagePtr d) (pagePtr r) v flags (fuel + 2) count)
      (fun _ s' => R s.memory s'.memory) s := by
  have hf : frames s.memory r (pageNo v) = some f := by
    have h := hrun 0 hpos
    rwa [Nat.add_zero, Nat.mod_eq_of_lt (pageNo_lt v)] at h
  have hlt : f < windowPages := hread.frames_lt (pageNo_lt v) hf
  refine wp_copyMappingLoop_succ hread hv hf (by omega) ?_
  intro size hsize hle hsrun hend
  have hcs : count ≤ size := by
    by_contra hc
    exact hend (hrun size (by omega))
  rw [min_eq_right (by exact_mod_cast hcs)]
  have hpages : regionPages (count : ℤ) = count := by
    unfold windowPages at hle
    exact regionPages_eq (by omega)
  refine wp_mono (wp_mapRegion_closed hR hflags hB (kernelSpaceBegin_le_pagePtr hlt)
    (by rwa [hpages]) (by rwa [hpages])) ?_
  intro res s' h
  cases res with
  | true =>
    rw [if_neg (by simp), copyMappingLoop, if_neg (by omega), wp_pure]
    exact h
  | false =>
    rw [if_pos rfl]
    exact h

end Dumboss.PageTable
