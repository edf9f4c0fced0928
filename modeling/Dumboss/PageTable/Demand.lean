import Dumboss.Allocator.Account
import Dumboss.Lib.Effects
import Dumboss.PageTable.Copy

/-!
# How many pages the map functions ask for

A call of one of the map functions fails on a free range only if `zeroed_pages(1)` fails.  Here is how
often they make that call, at most, whatever they find in the tables; and the allocator, once it has
failed, has nothing left.  Together: with that many free pages they succeed.

* `Asked`: the calls of `zeroed_pages(1)` between two states, counted;
* `regionDemand`: the bound for `map_region`, 2 for each 2MB page that it takes and 3 for each page;
* `within_mapRegion`, `within_copyMapping`;
* `dries_allocator`: when `zeroed_pages(1)` returns `NULL`, all free lists are empty.
-/

namespace Dumboss.PageTable

open Prog

variable {ρ : Type} {src : PageSource ρ} {E : ρ → Prop} {s s' : Kernel ρ} {k : ℕ}

/-- A source that has failed once fails from there on; `E` says that it is empty. -/
structure Dries (src : PageSource ρ) (E : ρ → Prop) : Prop where
  null : ∀ {t t'}, src.zeroedPage t = Except.ok (0#64, t') → E t'.2
  keep : ∀ {t t' ptr}, src.zeroedPage t = Except.ok (ptr, t') → E t.2 → E t'.2

/-- From `s` to `s'` there were at most `k` calls of `zeroed_pages(1)`, and the source is empty if one of
them failed. -/
def Asked (E : ρ → Prop) (k : ℕ) (s s' : Kernel ρ) : Prop :=
  ∃ got : List U64, s'.obtained = got ++ s.obtained ∧ got.length ≤ k ∧
    (E s.source → E s'.source) ∧ (0#64 ∈ got → E s'.source)

theorem graded_asked : Graded (Asked E) where
  refl s := ⟨[], rfl, le_rfl, fun h => h, by simp⟩
  trans := by
    rintro j k s s' s'' ⟨got, hobt, hle, hkeep, hnull⟩ ⟨got', hobt', hle', hkeep', hnull'⟩
    refine ⟨got' ++ got, ?_, ?_, fun h => hkeep' (hkeep h), ?_⟩
    · rw [hobt', hobt, List.append_assoc]
    · rw [List.length_append]
      omega
    · intro h
      rcases List.mem_append.1 h with h | h
      · exact hnull' h
      · exact hkeep' (hnull h)
  mono := by
    rintro j k s s' hjk ⟨got, hobt, hle, h⟩
    exact ⟨got, hobt, hle.trans hjk, h⟩

/-! ### Reading -/

section Reading

variable {σ : Type}

theorem reads_assertAlign (align : ℕ) : Reads (assertAlign align : Kern σ Unit) := by
  unfold assertAlign
  exact .assert _ _

theorem reads_isAligned (value align : ℕ) : Reads (isAligned value align : Kern σ Bool) :=
  .bind (reads_assertAlign align) fun _ => .pure _

theorem reads_makePte (ptr flags : U64) : Reads (makePte ptr flags : Kern σ U64) :=
  .ite (.pure _) (.bind (.bind (.assert _ _) fun _ => .pure _) fun _ => .pure _)

theorem reads_pteAddress (entry : U64) : Reads (pteAddress entry : Kern σ U64) :=
  .ite (.pure _) (.bind (.assert _ _) fun _ => .pure _)

theorem reads_loadEntry (table : U64) (index : ℕ) : Reads (loadEntry table index : Kern (Kernel ρ) U64) :=
  .bind .get fun _ => .pure _

theorem reads_translate (p4 virt : U64) : Reads (translate p4 virt : Kern (Kernel ρ) U64) := by
  refine .ite (.pure _) (.bind (reads_loadEntry _ _) fun _ => .bind (reads_pteAddress _) fun _ =>
    .ite (.pure _) ?_)
  refine .bind (reads_loadEntry _ _) fun _ => .bind (reads_pteAddress _) fun _ => .ite (.pure _) ?_
  refine .bind (reads_loadEntry _ _) fun _ => .bind (reads_pteAddress _) fun _ => .ite (.pure _) ?_
  exact .ite (.pure _) (.bind (reads_loadEntry _ _) fun _ => .bind (reads_pteAddress _) fun _ =>
    .pure _)

theorem reads_regionSizeLoop (p4 : U64) (fuel : ℕ) (virt expected : U64) (count : ℕ) :
    Reads (regionSizeLoop p4 fuel virt expected count : Kern (Kernel ρ) ℕ) := by
  induction fuel generalizing virt expected count with
  | zero => exact .throw _
  | succ fuel ih =>
    exact .bind (reads_translate _ _) fun _ => .ite (.pure _) (.ite (.pure _) (ih _ _ _))

theorem reads_regionSize (p4 virt : U64) : Reads (regionSize p4 virt : Kern (Kernel ρ) ℕ) :=
  .bind (reads_translate _ _) fun _ => .ite (.pure _) (reads_regionSizeLoop _ _ _ _ _)

end Reading

/-! ### Mapping -/

section Mapping

variable (hD : Dries src E)

theorem within_storeEntry (table : U64) (index : ℕ) (entry : U64) :
    Within (Asked E) k (storeEntry table index entry : Kern (Kernel ρ) Unit) := by
  intro s a s' hrun
  cases hrun
  exact ⟨[], rfl, Nat.zero_le k, fun h => h, by simp⟩

include hD in
theorem within_zeroedPage : Within (Asked E) 1 (zeroedPage src) := by
  intro s ptr s' hrun
  unfold zeroedPage at hrun
  cases hsrc : src.zeroedPage (s.memory, s.source) with
  | error e =>
    rw [hsrc] at hrun
    cases hrun
  | ok p =>
    obtain ⟨q, m, r⟩ := p
    rw [hsrc] at hrun
    cases hrun
    refine ⟨[ptr], rfl, le_rfl, hD.keep hsrc, fun h => ?_⟩
    obtain rfl : 0#64 = ptr := List.mem_singleton.1 h
    exact hD.null hsrc

include hD in
theorem within_nextTable (table : U64) (index : ℕ) (flags : U64) :
    Within (Asked E) 1 (nextTable src table index flags) := by
  have hG := graded_asked (E := E)
  refine .reads_bind hG (reads_loadEntry _ _) fun e => .reads_bind hG (reads_pteAddress _) fun next => ?_
  refine .ite (fun _ => .pure hG _) fun _ => ?_
  refine Within.bind hG (j := 1) (k := 0) (within_zeroedPage hD) fun page => ?_
  refine .ite (fun _ => .pure hG _) fun _ => .reads_bind hG (reads_makePte _ _) fun e => ?_
  exact Within.bind hG (j := 0) (k := 0) (within_storeEntry _ _ _) fun _ => .pure hG _

/-- The checks at the head of the map functions. -/
theorem within_checks {p4 virt kernel : U64} {a b c : ℕ} {f : Kern (Kernel ρ) Bool}
    (hf : Within (Asked E) k f) : Within (Asked E) k (do
      if ¬ (p4 ≠ 0#64 ∧ (← isAligned p4.toNat a) = true) then return false
      if ¬ (kernel ≠ 0#64 ∧ (← isAligned kernel.toNat b) = true) then return false
      if ¬ (virt ≠ 0#64 ∧ (← isAligned virt.toNat c) = true) then return false
      f) := by
  have hG := graded_asked (E := E)
  refine .reads_bind hG (reads_isAligned _ _) fun _ => .ite (fun _ => .pure hG _) fun _ => ?_
  refine .reads_bind hG (reads_isAligned _ _) fun _ => .ite (fun _ => .pure hG _) fun _ => ?_
  exact .reads_bind hG (reads_isAligned _ _) fun _ => .ite (fun _ => .pure hG _) fun _ => hf

include hD in
/-- One step down. -/
theorem within_descend {table : U64} {index : ℕ} {flags : U64} {f : U64 → Kern (Kernel ρ) Bool}
    (hf : ∀ t, Within (Asked E) k (f t)) : Within (Asked E) (k + 1) (do
      let next ← nextTable src table index flags
      if next = 0#64 then return false
      f next) := by
  have hG := graded_asked (E := E)
  rw [Nat.add_comm]
  exact .bind hG (within_nextTable hD _ _ _) fun t => .ite (fun _ => .pure hG _) fun _ => hf t

/-- The entry is filled in, if it is empty. -/
theorem within_fill {table : U64} {index : ℕ} {kernel flags : U64} : Within (Asked E) k (do
      if (← loadEntry table index) ≠ 0#64 then return false
      storeEntry table index (← makePte kernel flags)
      return true : Kern (Kernel ρ) Bool) := by
  have hG := graded_asked (E := E)
  refine .reads_bind hG (reads_loadEntry _ _) fun _ => .ite (fun _ => .pure hG _) fun _ => ?_
  refine .reads_bind hG (reads_makePte _ _) fun _ => ?_
  exact Within.bind hG (j := k) (k := 0) (within_storeEntry _ _ _) fun _ => .pure hG _

include hD in
theorem within_mapPage (p4 virt kernel flags : U64) :
    Within (Asked E) 3 (mapPage src p4 virt kernel flags) :=
  within_checks (within_descend hD fun _ => within_descend hD fun _ => within_descend hD fun _ =>
    within_fill)

include hD in
theorem within_map2MBPage (p4 virt kernel flags : U64) :
    Within (Asked E) 2 (map2MBPage src p4 virt kernel flags) :=
  within_checks (within_descend hD fun _ => within_descend hD fun _ => within_fill)

/-- The bound for a region of `c` pages: two tables where the loop takes a 2MB page, three where it takes
a page. -/
def regionDemand (virt ptr : U64) (c : ℕ) : ℕ :=
  if c = 0 then 0
  else if virt.toNat % 2 ^ 21 = 0 ∧ ptr.toNat % 2 ^ 21 = 0 ∧ 512 ≤ c then
    2 + regionDemand (virt + BitVec.ofNat 64 (2 ^ 21)) (ptr + BitVec.ofNat 64 (2 ^ 21)) (c - 512)
  else 3 + regionDemand (virt + BitVec.ofNat 64 (2 ^ 12)) (ptr + BitVec.ofNat 64 (2 ^ 12)) (c - 1)
termination_by c
decreasing_by all_goals omega

@[simp] theorem regionDemand_zero (virt ptr : U64) : regionDemand virt ptr 0 = 0 := by
  rw [regionDemand, if_pos rfl]

theorem regionDemand_2MB {virt ptr : U64} {c : ℕ} (hv : virt.toNat % 2 ^ 21 = 0)
    (hp : ptr.toNat % 2 ^ 21 = 0) (hc : 512 ≤ c) : regionDemand virt ptr c =
      2 + regionDemand (virt + BitVec.ofNat 64 (2 ^ 21)) (ptr + BitVec.ofNat 64 (2 ^ 21)) (c - 512) := by
  rw [regionDemand, if_neg (by omega), if_pos ⟨hv, hp, hc⟩]

theorem regionDemand_page {virt ptr : U64} {c : ℕ} (hc : 0 < c)
    (h2MB : ¬ (virt.toNat % 2 ^ 21 = 0 ∧ ptr.toNat % 2 ^ 21 = 0 ∧ 512 ≤ c)) : regionDemand virt ptr c =
      3 + regionDemand (virt + BitVec.ofNat 64 (2 ^ 12)) (ptr + BitVec.ofNat 64 (2 ^ 12)) (c - 1) := by
  rw [regionDemand, if_neg (by omega), if_neg h2MB]

theorem regionDemand_le (virt ptr : U64) (c : ℕ) : regionDemand virt ptr c ≤ 3 * c := by
  fun_induction regionDemand virt ptr c <;> omega

/-- Less than a 2MB page. -/
theorem regionDemand_of_lt {c : ℕ} (hc : c < 512) (virt ptr : U64) :
    regionDemand virt ptr c = 3 * c := by
  induction c generalizing virt ptr with
  | zero => rw [regionDemand_zero]
  | succ c ih =>
    rw [regionDemand_page (Nat.succ_pos c) (fun h => by omega), Nat.succ_sub_one, ih (by omega)]
    omega

/-- Where both addresses begin with a 2MB page. -/
theorem regionDemand_aligned {virt ptr : U64} (hv : virt.toNat % 2 ^ 21 = 0)
    (hp : ptr.toNat % 2 ^ 21 = 0) (c : ℕ) : regionDemand virt ptr c = 2 * (c / 512) + 3 * (c % 512) := by
  have hadd : ∀ a : U64, a.toNat % 2 ^ 21 = 0 → (a + BitVec.ofNat 64 (2 ^ 21)).toNat % 2 ^ 21 = 0 := by
    intro a ha
    rw [BitVec.toNat_add, BitVec.toNat_ofNat]
    omega
  induction c using Nat.strong_induction_on generalizing virt ptr with
  | _ c ih =>
    by_cases hc : 512 ≤ c
    · rw [regionDemand_2MB hv hp hc, ih (c - 512) (by omega) (hadd _ hv) (hadd _ hp)]
      omega
    · rw [regionDemand_of_lt (by omega)]
      omega

/-- A page before a 2MB page. -/
example : regionDemand 0x1FF000#64 0xFFFF8000001FF000#64 513 = 5 := by
  rw [regionDemand_page (by decide) (by decide), regionDemand_aligned (by decide) (by decide)]

include hD in
/-- The rounds that are left when `c` pages are left. -/
theorem within_mapRegionLoop (p4 flags : U64) (size : ℤ) (fuel : ℕ) (virt ptr : U64) (mapped : ℤ)
    {c : ℕ} (hdvd : 4096 ∣ size - mapped) (hc : c = ((size - mapped) / 4096).toNat) :
    Within (Asked E) (regionDemand virt ptr c)
      (mapRegionLoop src p4 flags size fuel virt ptr mapped) := by
  have hG := graded_asked (E := E)
  induction fuel generalizing virt ptr mapped c with
  | zero => exact .throw _
  | succ fuel ih =>
    rw [mapRegionLoop]
    refine .ite (fun hlt => ?_) fun _ => .pure hG _
    rw [mapRegionStep_eq]
    by_cases huse : Use2MB virt ptr (size - mapped)
    · obtain ⟨hv, hp, hleft⟩ := huse
      rw [if_pos ⟨hv, hp, hleft⟩, bind_map_left, regionDemand_2MB hv hp (by omega)]
      refine .bind hG (within_map2MBPage hD _ _ _ _) fun r => .ite (fun _ => .pure hG _) fun _ => ?_
      exact ih _ _ _ (by push_cast; omega) (by push_cast; omega)
    · have hpage : ¬ (virt.toNat % 2 ^ 21 = 0 ∧ ptr.toNat % 2 ^ 21 = 0 ∧ 512 ≤ c) := by
        rintro ⟨hv, hp, hc512⟩
        exact huse ⟨hv, hp, by omega⟩
      rw [if_neg huse, bind_map_left, regionDemand_page (by omega) hpage]
      refine .bind hG (within_mapPage hD _ _ _ _) fun r => .ite (fun _ => .pure hG _) fun _ => ?_
      exact ih _ _ _ (by push_cast; omega) (by push_cast; omega)

include hD in
theorem within_mapRegion (p4 virt kernel : U64) (count : ℤ) (flags : U64) :
    Within (Asked E) (regionDemand virt kernel (regionPages count))
      (mapRegion src p4 virt kernel count flags) := by
  have hdvd : (4096 : ℤ) ∣ wrap64 (count * 4096) := by
    rw [wrap64, Int.dvd_iff_emod_eq_zero, Int.bmod_def]
    split_ifs <;> omega
  refine within_checks (within_mapRegionLoop hD _ _ _ _ _ _ _ ?_ ?_)
  · rwa [sub_zero]
  · rw [sub_zero, regionPages]

theorem regionPages_le {count : ℤ} (hcount : 0 ≤ count) : regionPages count ≤ count.toNat := by
  rw [regionPages, wrap64, Int.bmod_def]
  split_ifs <;> omega

include hD in
/-- Whatever the source table looks like, a page copied costs at most three tables. -/
theorem within_copyMappingLoop (dest srcTable virt flags : U64) (fuel : ℕ) (count : ℤ) :
    Within (Asked E) (3 * count.toNat) (copyMappingLoop src dest srcTable virt flags fuel count) := by
  have hG := graded_asked (E := E)
  induction fuel generalizing count with
  | zero => exact .throw _
  | succ fuel ih =>
    rw [copyMappingLoop]
    refine .ite (fun hpos => ?_) fun _ => .pure hG _
    refine .reads_bind hG (reads_translate _ _) fun ptr => .ite (fun _ => .pure hG _) fun _ => ?_
    refine .reads_bind hG (reads_regionSize _ _) fun size => .ite (fun _ => .pure hG _) fun hsize => ?_
    have hround : regionDemand virt ptr (regionPages (min size count)) +
        3 * (count - size).toNat ≤ 3 * count.toNat := by
      have hle := regionDemand_le virt ptr (regionPages (min size count))
      have hpages : regionPages (min (size : ℤ) count) ≤ _ := regionPages_le (by omega)
      omega
    exact Within.mono hG (.bind hG (within_mapRegion hD _ _ _ _ _) fun r =>
      .ite (fun _ => .pure hG _) fun _ => ih _) hround

include hD in
theorem within_copyMapping (dest srcTable virt : U64) (count : ℤ) (flags : U64) :
    Within (Asked E) (3 * count.toNat) (copyMapping src dest srcTable virt count flags) := by
  have hG := graded_asked (E := E)
  have halign : Reads (alignDown virt.toNat (2 ^ 12) : Kern (Kernel ρ) ℕ) :=
    .bind (reads_assertAlign _) fun _ => .pure _
  exact .reads_bind hG halign fun _ => within_copyMappingLoop hD _ _ _ _ _ _

end Mapping

/-! ### The allocator -/

section Allocator

variable {N : ℕ} {U : BitSet} {h h' : Heap}

/-- No class has a free block. -/
def AllNull (g : MemGlobals) : Prop := ∀ k < classCount, (g.classes k).freelist = 0#64

/-- The search for a class, from `current` on. -/
theorem findAbove_eq {left current : ℕ} (hsum : current + left = classCount) {r : Option ℕ}
    (hrun : findAbove left current h = Except.ok (r, h')) :
    h' = h ∧ (r = none → ∀ k, current ≤ k → k < classCount →
      (h.globals.classes k).freelist = 0#64) := by
  induction left generalizing current with
  | zero =>
    rw [findAbove, if_neg (by omega)] at hrun
    cases hrun
    exact ⟨rfl, fun _ k hk hk' => absurd hk (by omega)⟩
  | succ left ih =>
    have hlt : current < classCount := by omega
    have hinfo : classInfo current h = Except.ok (h.globals.classes current, h) := by
      rw [classInfo, if_pos hlt]
      rfl
    rw [findAbove, bind_eq_run hinfo] at hrun
    by_cases hnull : (h.globals.classes current).freelist = 0#64
    · rw [if_neg (not_not_intro hnull)] at hrun
      obtain ⟨rfl, hnone⟩ := ih (by omega) hrun
      refine ⟨rfl, fun hr k hk hk' => ?_⟩
      rcases Nat.eq_or_lt_of_le hk with rfl | hlt'
      · exact hnull
      · exact hnone hr k hlt' hk'
    · rw [if_pos hnull] at hrun
      cases hrun
      exact ⟨rfl, by simp⟩

theorem findAbove_of_allNull (hnull : AllNull h.globals) {left current : ℕ}
    (hsum : current + left = classCount) : findAbove left current h = Except.ok (none, h) := by
  induction left generalizing current with
  | zero =>
    rw [findAbove, if_neg (by omega)]
    rfl
  | succ left ih =>
    have hinfo : classInfo current h = Except.ok (h.globals.classes current, h) := by
      rw [classInfo, if_pos (by omega)]
      rfl
    rw [findAbove, bind_eq_run hinfo, if_neg (not_not_intro (hnull current (by omega)))]
    exact ih (by omega)

/-- A block that was popped is not `NULL`. -/
theorem gives_allocFrom (count k : ℕ) : Gives (fun buf => buf.data ≠ 0#64) (allocFrom count k) := by
  have hphys : ∀ data : U64, Gives (fun _ => data ≠ 0#64) (physicalAddress data : Kern Heap U64) := by
    rintro data h addr h' hrun rfl
    cases hrun
  refine .last fun _ => .last fun data => .bind (hphys data) fun addr hdata => .last fun _ => ?_
  refine .last fun _ => .last fun _ => .last fun _ => .last fun _ => .last fun _ => ?_
  have hdone : ∀ page : ℕ, Gives (fun buf : Buffer => buf.data ≠ 0#64) (do
      splitBlock k count page
      return { data := data, count := (count : ℤ) * 4096 }) := fun _ => .last fun _ => .pure hdata
  exact .ite (.last fun _ => .last fun _ => .last fun _ => .last fun _ => hdone _) (hdone _)

/-- For one page, the search begins in class 0. -/
theorem allocRaw_one : allocRaw 1 true = findAbove classCount 0 >>= fun
    | some k => allocFrom 1 k
    | none => return { data := 0#64, count := 0 } := rfl

theorem zeroedPages_of_allNull (hnull : AllNull h.globals) :
    zeroedPages 1 h = Except.ok (0#64, h) := by
  have hraw : allocRaw 1 true h = Except.ok (⟨0#64, 0⟩, h) := by
    rw [allocRaw_one, bind_eq_run (findAbove_of_allNull hnull (Nat.zero_add _))]
    rfl
  rw [zeroedPages, bind_eq_run hraw]
  rfl

theorem allNull_of_zeroedPages (hrun : zeroedPages 1 h = Except.ok (0#64, h')) :
    AllNull h'.globals := by
  obtain ⟨buf, h₁, hraw, hrest⟩ := of_bind_eq_ok hrun
  rw [allocRaw_one] at hraw
  obtain ⟨r, h₂, hfind, hfrom⟩ := of_bind_eq_ok hraw
  obtain ⟨rfl, hnone⟩ := findAbove_eq (Nat.zero_add _) hfind
  cases r with
  | none =>
    cases hfrom
    cases hrest
    exact fun k hk => hnone rfl k (Nat.zero_le k) hk
  | some k =>
    have hdata : buf.data ≠ 0#64 := gives_allocFrom 1 k hfrom
    rw [if_neg hdata] at hrest
    obtain ⟨_, h₃, -, hlast⟩ := of_bind_eq_ok hrest
    exact absurd (Prod.mk.inj (Except.ok.inj hlast)).1 hdata

theorem of_onHeap {α : Type} {f : Kern Heap α} {t t' : Memory × MemGlobals} {a : α}
    (hrun : onHeap f t = Except.ok (a, t')) :
    ∃ h', f ⟨t.1, t.2⟩ = Except.ok (a, h') ∧ t' = (h'.memory, h'.globals) := by
  unfold onHeap at hrun
  cases hf : f ⟨t.1, t.2⟩ with
  | error e =>
    rw [hf] at hrun
    cases hrun
  | ok p =>
    rw [hf] at hrun
    cases hrun
    exact ⟨p.2, rfl, rfl⟩

/-- When `zeroed_pages(1)` returns `NULL`, all free lists are empty, and they stay so. -/
theorem dries_allocator : Dries (allocator N U) AllNull where
  null := by
    intro t t' hrun
    obtain ⟨h', hrun', ht⟩ : ∃ h', zeroedPages 1 ⟨t.1, t.2⟩ = Except.ok (0#64, h') ∧
        t' = (h'.memory, h'.globals) := of_onHeap hrun
    rw [ht]
    exact allNull_of_zeroedPages hrun'
  keep := by
    intro t t' ptr hrun hnull
    change onHeap (zeroedPages 1) t = _ at hrun
    rw [onHeap, zeroedPages_of_allNull (h := ⟨t.1, t.2⟩) hnull] at hrun
    cases hrun
    exact hnull

theorem freeSet_eq_empty {m : Memory} {g : MemGlobals} (hI : Inv N ⟨m, g⟩) (hnull : AllNull g) :
    g.freeSet = ∅ := by
  obtain ⟨L, hc⟩ := hI.core
  exact hc.blocks.eq_empty fun k hk => (hc.freelist_eq_zero_iff hI.le_window hk).1 (hnull k hk)

variable {root n f c : ℕ} {s s' : Kernel MemGlobals} {t t' : Kernel ρ}

/-- If the pages asked for are there, no call of `zeroed_pages(1)` fails. -/
theorem not_mem_null {got : List U64} (hg : Grown (allocator N U) root s s' got)
    (hask : Asked AllNull k s s') (hmem : k ≤ s.source.freeSet.ncard) :
    0#64 ∉ got ∧ got.length ≤ k := by
  obtain ⟨got', hobt, hle, -, hnull⟩ := hask
  obtain rfl : got = got' := List.append_cancel_right (hg.obtained.symm.trans hobt)
  refine ⟨fun h0 => ?_, hle⟩
  have hempty : s'.source.freeSet = ∅ := freeSet_eq_empty hg.valid.inv (hnull h0)
  -- all free pages were handed out, and one of the calls handed out none
  have hsub : s.source.freeSet ⊆ ((pagesOf got).toFinset : Set ℕ) := by
    intro p hp
    have hused : p ∈ (allocator N U).used s'.source := by
      change p ∉ s'.source.freeSet
      rw [hempty]
      exact Set.notMem_empty p
    rw [Finset.mem_coe, List.mem_toFinset]
    exact ((hg.used p).1 hused).resolve_left fun h => h hp
  have hlt : (pagesOf got).length < got.length := by
    rw [pagesOf, List.length_map]
    exact List.length_filter_lt_length_iff_exists.2 ⟨0#64, h0, by simp⟩
  have hcard := Set.ncard_le_ncard hsub (Finset.finite_toSet _)
  rw [Set.ncard_coe_finset] at hcard
  have := List.toFinset_card_le (pagesOf got)
  omega

/-- With enough memory, the pages of the range are mapped. -/
theorem wp_enough {m : Kern (Kernel MemGlobals) Bool}
    (hm : wp m (fun r s' => ∃ got j, Added (allocator N U) root s s' got n f j ∧
      ((r = true ∧ j = c ∧ 0#64 ∉ got) ∨ (r = false ∧ j < c ∧ 0#64 ∈ got))) s)
    (hask : Within (Asked AllNull) k m) (hmem : k ≤ s.source.freeSet.ncard) :
    wp m (fun r s' => r = true ∧ ∃ got, Added (allocator N U) root s s' got n f c ∧
      0#64 ∉ got ∧ got.length ≤ k) s := by
  obtain ⟨r, s', hrun, got, j, hadd, hres⟩ := hm
  obtain ⟨hgot, hle⟩ := not_mem_null hadd.grown (hask hrun) hmem
  refine ⟨r, s', hrun, ?_⟩
  rcases hres with ⟨rfl, rfl, -⟩ | ⟨-, -, h0⟩
  · exact ⟨rfl, got, hadd, hgot, hle⟩
  · exact absurd h0 hgot

/-- The pages that are left. -/
theorem Grown.ncard_le {got : List U64} (hg : Grown (allocator N U) root s s' got)
    (hle : got.length ≤ k) : s.source.freeSet.ncard ≤ s'.source.freeSet.ncard + k := by
  obtain ⟨-, hfin⟩ := Inv.freeMemory_eq_ncard hg.valid.inv
  have hsub : s.source.freeSet ⊆ s'.source.freeSet ∪ ((pagesOf got).toFinset : Set ℕ) := by
    intro p hp
    by_contra h
    rw [Set.mem_union, not_or, Finset.mem_coe, List.mem_toFinset] at h
    exact ((hg.used p).1 h.1).elim (fun hu => hu hp) h.2
  have hcard := Set.ncard_le_ncard hsub (hfin.union (Finset.finite_toSet _))
  have hunion := Set.ncard_union_le s'.source.freeSet ((pagesOf got).toFinset : Set ℕ)
  rw [Set.ncard_coe_finset] at hunion
  have hpages := List.toFinset_card_le (pagesOf got)
  have hlen : (pagesOf got).length ≤ got.length := by
    rw [pagesOf, List.length_map]
    exact List.length_filter_le _ _
  omega

/-- The bytes of the range are translated as asked for. -/
theorem Added.translate_eq {got : List U64} {v : U64} (hadd : Added src root t t' got (pageNo v) f c)
    (hv : v.toNat % 4096 = 0) (hc : c ≤ 2 ^ 36) {i : ℕ} (hi : i < 4096 * c) :
    translate (pagePtr root) (v + BitVec.ofNat 64 i) t' =
      Except.ok (pagePtr f + BitVec.ofNat 64 i, t') := by
  obtain ⟨hno, hoff⟩ := pageNo_add hv i
  have hframe : frames t'.memory root (pageNo (v + BitVec.ofNat 64 i)) = some (f + i / 4096) := by
    rw [hno, hadd.frames_eq _ (Nat.mod_lt _ (by decide)), placed, offset_add (by omega),
      if_pos (by omega)]
  rw [PageTable.translate_eq hadd.built.tree.readable, translation_of_frames hframe, hoff, pagePtr_add]

open Runs in
/-- **`map_region` succeeds** on a range that is not mapped if there are enough free pages for the tables:
two for each 2MB page that it takes, and three for each other page. -/
theorem mapRegion_succeeds {s₀ : Kernel MemGlobals} (h0 : Start (allocator N U) root s₀)
    (hr : Reach (step (allocator N U) (pagePtr root)) (NoOverlap (allocator N U) root) s₀ s)
    {v ptr flags : U64} (hv : v ≠ 0#64) (hv' : v.toNat % 4096 = 0) (hp : kernelSpaceBegin ≤ ptr)
    (hp' : ptr.toNat % 4096 = 0) (hvc : v.toNat + 4096 * c ≤ 2 ^ 64)
    (hpc : ptr.toNat + 4096 * c ≤ 2 ^ 64) (hf : FlagsOk flags)
    (hfree : ∀ i < c, translate (pagePtr root) (pagesAfter v i) s = Except.ok (0#64, s))
    (hmem : regionDemand v ptr c ≤ s.source.freeSet.ncard) :
    ∃ s', mapRegion (allocator N U) (pagePtr root) v ptr c flags s = Except.ok (true, s') ∧
      (∀ i < 4096 * c, translate (pagePtr root) (v + BitVec.ofNat 64 i) s' =
        Except.ok (ptr + BitVec.ofNat 64 i, s')) ∧
      s'.source.freeSet ⊆ s.source.freeSet ∧
      s.source.freeSet.ncard ≤ s'.source.freeSet.ncard + regionDemand v ptr c := by
  have hB := reachable_built h0 hr
  obtain ⟨hlt, hptr⟩ := eq_pagePtr_pageOf hp hp'
  have hpc' : pageOf ptr + c ≤ windowPages := by
    rw [BitVec.le_def, kernelSpaceBegin_toNat] at hp
    rw [pageOf, kernelSpaceBegin_toNat, windowPages]
    omega
  have hpages : regionPages c = c := regionPages_eq (by unfold windowPages at hpc'; omega)
  have hfree' : Free s.memory root (pageNo v) c := by
    intro i hi
    rw [← pageNo_pagesAfter, frames_eq_none_iff hB.tree.readable (pagesAfter_mod hv' i)]
    exact hfree i hi
  have hask := within_mapRegion (dries_allocator (N := N) (U := U)) (pagePtr root) v ptr c flags
  rw [hpages] at hask
  obtain ⟨r, s', hrun, rfl, got, hadd, -, hle⟩ := wp_enough
    (wp_mapRegion_free hB hp ⟨hv, hv', hp'⟩ hf hvc hpc' hfree') hask hmem
  refine ⟨s', hrun, fun i hi => ?_, fun p hpfree => ?_, hadd.grown.ncard_le hle⟩
  · rw [hadd.translate_eq hv' (by unfold windowPages at hpc'; omega) hi, ← hptr]
  · by_contra h
    exact (hadd.grown.used p).2 (Or.inl h) hpfree

/-- With five free pages, a page and the 2MB page after it. -/
theorem mapRegion_succeeds_two_leaves : ∃ (U : BitSet) (s s' : Kernel MemGlobals),
    Start (allocator 4096 U) 0 s ∧ s.source.freeSet.ncard = 5 ∧
      mapRegion (allocator 4096 U) (pagePtr 0) 0x1FF000#64 (pagePtr 511) 513 1#64 s =
        Except.ok (true, s') ∧
      translate (pagePtr 0) 0x1FF004#64 s' = Except.ok (pagePtr 511 + 4#64, s') ∧
      translate (pagePtr 0) 0x3FFFFF#64 s' = Except.ok (pagePtr 511 + 0x200FFF#64, s') := by
  obtain ⟨U, s, h0, hF⟩ := exists_start
  have hcard : s.source.freeSet.ncard = 5 := by
    rw [hF, Set.ncard_eq_toFinset_card']
    decide
  have hflags : FlagsOk 1#64 := ⟨by decide, by decide, by decide⟩
  have hdem : regionDemand 0x1FF000#64 (pagePtr 511) 513 = 5 := by
    rw [regionDemand_page (by decide) (by decide), regionDemand_aligned (by decide) (by decide)]
  have hfree : ∀ i < 513,
      translate (pagePtr 0) (pagesAfter 0x1FF000#64 i) s = Except.ok (0#64, s) := by
    intro i hi
    rw [← frames_eq_none_iff h0.built.tree.readable (pagesAfter_mod (by decide) i)]
    exact frames_of_zero h0.zero _
  obtain ⟨s', hrun, htr, -⟩ := mapRegion_succeeds h0 .refl (by decide) (by decide)
    (kernelSpaceBegin_le_pagePtr (f := 511) (by decide)) (by decide) (by decide) (by decide) hflags hfree
    (by rw [hdem, hcard])
  exact ⟨U, s, s', h0, hcard, hrun, htr 4 (by decide), htr 0x200FFF (by decide)⟩

end Allocator

end Dumboss.PageTable
