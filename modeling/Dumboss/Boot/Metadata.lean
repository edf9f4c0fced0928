import Dumboss.Boot.Seed

/-!
# The arrays of the bit sets

`memory__init` asks `alloc_from_entries` for `(end_page - 1) / 8 + 1` bytes for each of the two page bit
sets, but gives them `buddy_end_page` bits, which is `end_page` rounded up to a multiple of 4096.  The
arrays fit exactly if the memory ends in the last 256KB of a 16MB block or at its end; if not, their
last words lie behind the range they were given.

* `Tidy`: what holds of the entries while they are carved up;
* `Created`, `CreatedAll`: the effect of creating one array, and a list of them;
* `MetadataOk`: every array lies in its range, and with that the arrays lie apart from each other and
  from the pages that are released later;
* `metadata_ok_iff`: when this holds.
-/

namespace Dumboss.Boot

open Prog

variable {σ : Type} {s s' : State} {mmap es : List MMapEnt}

/-! ### The memory map -/

/-- The bytes of an entry of the boot loader's map. -/
def MMapEnt.region (e : MMapEnt) : Set ℕ := Set.Ico e.ptr.toNat (e.ptr.toNat + e.byteSize.toNat)

/-- A memory map: the entries are disjoint, the last one ends highest, and free ones consist of
pages. -/
structure WellFormed (mmap : List MMapEnt) : Prop where
  disjoint : mmap.Pairwise fun e f => Disjoint e.region f.region
  fits : ∀ e ∈ mmap, e.ptr.toNat + e.byteSize.toNat ≤ 2 ^ 64
  last : ∀ e ∈ mmap, ∀ l ∈ mmap.getLast?,
    e.ptr.toNat + e.byteSize.toNat ≤ l.ptr.toNat + l.byteSize.toNat
  aligned : ∀ e ∈ mmap, e.isFree = true → 4096 ∣ e.ptr.toNat ∧ 4096 ∣ e.byteSize.toNat

theorem sortPass_perm (n : ℕ) (es : List MMapEnt) : (sortPass n es).Perm es := by
  induction n generalizing es with
  | zero => cases es <;> exact List.Perm.refl _
  | succ n ih =>
    match es with
    | [] => exact List.Perm.refl _
    | [e] => exact List.Perm.refl _
    | left :: right :: rest =>
      rw [sortPass]
      split_ifs with hswap
      · exact ((ih (left :: rest)).cons right).trans (List.Perm.swap left right rest)
      · exact (ih (right :: rest)).cons left

/-- `SLOW_SORT` permutes the entries. -/
theorem slowSort_perm (n : ℕ) (es : List MMapEnt) : (slowSort n es).Perm es := by
  induction n generalizing es with
  | zero => exact List.Perm.refl _
  | succ n ih => exact (ih _).trans (sortPass_perm (n + 1) es)

theorem mem_takeFree {f : MMapEnt} (hf : f ∈ takeFree es) :
    ∃ e ∈ es, e.isFree = true ∧ f = ⟨e.ptr, e.byteSize⟩ := by
  induction es with
  | nil => cases hf
  | cons e es ih =>
    rw [takeFree] at hf
    split_ifs at hf with hfree
    · rcases List.mem_cons.1 hf with rfl | hf
      · exact ⟨e, by simp, hfree, rfl⟩
      · obtain ⟨e', he', h⟩ := ih hf
        exact ⟨e', by simp [he'], h⟩
    · cases hf

theorem takeFree_pairwise (h : es.Pairwise fun e f => Disjoint e.region f.region) :
    (takeFree es).Pairwise fun e f => Disjoint e.bytes f.bytes := by
  induction es with
  | nil => exact List.Pairwise.nil
  | cons e es ih =>
    rw [List.pairwise_cons] at h
    rw [takeFree]
    split_ifs with hfree
    · refine List.pairwise_cons.2 ⟨fun f hf => ?_, ih h.2⟩
      obtain ⟨e', he', -, rfl⟩ := mem_takeFree hf
      exact h.1 e' he'
    · exact List.Pairwise.nil

/-- The free entries, while they are carved up. -/
structure Tidy (es : List MMapEnt) : Prop where
  aligned : ∀ e ∈ es, 8 ∣ e.ptr.toNat
  fits : ∀ e ∈ es, e.ptr.toNat + e.size.toNat ≤ 2 ^ 64
  disjoint : es.Pairwise fun e f => Disjoint e.bytes f.bytes

/-- The bytes of all entries. -/
def available (es : List MMapEnt) : Set ℕ := {a | ∃ e ∈ es, a ∈ e.bytes}

theorem WellFormed.tidy (hw : WellFormed mmap) (n : ℕ) : Tidy (takeFree (slowSort n mmap)) where
  aligned f hf := by
    obtain ⟨e, he, hfree, rfl⟩ := mem_takeFree hf
    have := (hw.aligned e ((slowSort_perm n mmap).mem_iff.1 he) hfree).1
    exact (show 8 ∣ 4096 by decide).trans this
  fits f hf := by
    obtain ⟨e, he, -, rfl⟩ := mem_takeFree hf
    exact hw.fits e ((slowSort_perm n mmap).mem_iff.1 he)
  disjoint := by
    refine takeFree_pairwise ((List.Perm.pairwise_iff ?_ (slowSort_perm n mmap)).2 hw.disjoint)
    exact fun h => h.symm

/-! ### Carving -/

/-- The entries `es'` are `es` without the `size` bytes from `ptr` on. -/
structure Carving (es : List MMapEnt) (ptr size : ℕ) (es' : List MMapEnt) : Prop where
  tidy : Tidy es'
  subset : ∃ e ∈ es, Set.Ico ptr (ptr + size) ⊆ e.bytes
  available_eq : available es' = available es \ Set.Ico ptr (ptr + size)
  le : ptr + size ≤ 2 ^ 64
  within : ∀ f ∈ es', ∃ e ∈ es, f.bytes ⊆ e.bytes

theorem bytes_subset_available {e : MMapEnt} (he : e ∈ es) : e.bytes ⊆ available es :=
  fun _ ha => ⟨e, he, ha⟩

theorem available_mono {es' : List MMapEnt} (h : ∀ f ∈ es', ∃ e ∈ es, f.bytes ⊆ e.bytes) :
    available es' ⊆ available es := by
  rintro a ⟨f, hf, ha⟩
  obtain ⟨e, he, hsub⟩ := h f hf
  exact ⟨e, he, hsub ha⟩

theorem available_cons (e : MMapEnt) (es : List MMapEnt) :
    available (e :: es) = e.bytes ∪ available es := by
  ext a
  simp [available]

/-- The entry at the front is carved. -/
theorem Tidy.carve_head {e : MMapEnt} {size : U64} (ht : Tidy (e :: es)) (h8 : 8 ∣ size.toNat)
    (hle : size.toNat ≤ e.size.toNat) :
    Carving (e :: es) e.ptr.toNat size.toNat (⟨e.ptr + size, e.size - size⟩ :: es) := by
  have hfits := ht.fits e (by simp)
  have haligned := ht.aligned e (by simp)
  have hdis := List.pairwise_cons.1 ht.disjoint
  have hsize : (e.size - size).toNat = e.size.toNat - size.toNat := by
    rw [BitVec.toNat_sub]
    omega
  have hptr : (e.ptr + size).toNat = (e.ptr.toNat + size.toNat) % 2 ^ 64 := BitVec.toNat_add _ _
  have hbytes : (MMapEnt.mk (e.ptr + size) (e.size - size)).bytes =
      e.bytes \ Set.Ico e.ptr.toNat (e.ptr.toNat + size.toNat) := by
    ext a
    simp only [MMapEnt.bytes, hsize, hptr, Set.mem_sdiff, Set.mem_Ico]
    omega
  have hsub : (MMapEnt.mk (e.ptr + size) (e.size - size)).bytes ⊆ e.bytes := by
    rw [hbytes]
    exact Set.sdiff_subset
  refine ⟨⟨?_, ?_, ?_⟩, ?_, ?_, by omega, ?_⟩
  · intro f hf
    rcases List.mem_cons.1 hf with rfl | hf
    · show 8 ∣ (e.ptr + size).toNat
      rw [hptr]
      omega
    · exact ht.aligned f (by simp [hf])
  · intro f hf
    rcases List.mem_cons.1 hf with rfl | hf
    · show (e.ptr + size).toNat + (e.size - size).toNat ≤ _
      rw [hptr, hsize]
      omega
    · exact ht.fits f (by simp [hf])
  · exact List.pairwise_cons.2 ⟨fun f hf => (hdis.1 f hf).mono_left hsub, hdis.2⟩
  · refine ⟨e, by simp, fun a ha => ⟨ha.1, ?_⟩⟩
    have := ha.2
    omega
  · rw [available_cons, available_cons, hbytes, Set.union_sdiff_distrib]
    congr 1
    rw [eq_comm, sdiff_eq_left]
    refine Set.disjoint_left.2 ?_
    rintro a ⟨f, hf, haf⟩ ⟨h1, h2⟩
    refine Set.disjoint_left.1 (hdis.1 f hf) ⟨h1, ?_⟩ haf
    omega
  · intro f hf
    rcases List.mem_cons.1 hf with rfl | hf
    · exact ⟨e, by simp, hsub⟩
    · exact ⟨f, by simp [hf], subset_rfl⟩

/-- A later entry is carved. -/
theorem Carving.cons {e : MMapEnt} {es' : List MMapEnt} {ptr size : ℕ} (ht : Tidy (e :: es))
    (hc : Carving es ptr size es') : Carving (e :: es) ptr size (e :: es') := by
  have hdis := List.pairwise_cons.1 ht.disjoint
  have hapart : Disjoint e.bytes (available es) := by
    refine Set.disjoint_left.2 ?_
    rintro a ha ⟨f, hf, haf⟩
    exact Set.disjoint_left.1 (hdis.1 f hf) ha haf
  refine ⟨⟨?_, ?_, ?_⟩, ?_, ?_, hc.le, ?_⟩
  · intro f hf
    rcases List.mem_cons.1 hf with rfl | hf
    · exact ht.aligned f (by simp)
    · exact hc.tidy.aligned f hf
  · intro f hf
    rcases List.mem_cons.1 hf with rfl | hf
    · exact ht.fits f (by simp)
    · exact hc.tidy.fits f hf
  · refine List.pairwise_cons.2 ⟨fun f hf => ?_, hc.tidy.disjoint⟩
    obtain ⟨g, hg, hsub⟩ := hc.within f hf
    exact (hdis.1 g hg).mono_right hsub
  · obtain ⟨f, hf, hsub⟩ := hc.subset
    exact ⟨f, by simp [hf], hsub⟩
  · obtain ⟨f, hf, hsub⟩ := hc.subset
    rw [available_cons, available_cons, hc.available_eq, Set.union_sdiff_distrib]
    congr 1
    rw [eq_comm, sdiff_eq_left]
    exact hapart.mono_right (hsub.trans (bytes_subset_available hf))
  · intro f hf
    rcases List.mem_cons.1 hf with rfl | hf
    · exact ⟨f, by simp, subset_rfl⟩
    · obtain ⟨g, hg, hsub⟩ := hc.within f hf
      exact ⟨g, by simp [hg], hsub⟩

theorem Tidy.tail {e : MMapEnt} (ht : Tidy (e :: es)) : Tidy es :=
  ⟨fun f hf => ht.aligned f (by simp [hf]), fun f hf => ht.fits f (by simp [hf]),
    (List.pairwise_cons.1 ht.disjoint).2⟩

/-- Where `alloc_from_entries` starts in an entry, for the alignment `2 ^ k`. -/
def MMapEnt.alignedPtr (e : MMapEnt) (k : ℕ) : U64 :=
  BitVec.ofNat 64 ((e.ptr.toNat + (2 ^ k - 1)) % 2 ^ 64 / 2 ^ k * 2 ^ k)

/-- **The rule of the loop of `alloc_from_entries`**: an entry is skipped or carved, by the size that
the padding leaves, and `R es ptr es'` holds of what is carved from `es`. -/
theorem wp_carve_rule {size : U64} {k : ℕ} (hk : k < 64)
    {R : List MMapEnt → U64 → List MMapEnt → Prop}
    (hskip : ∀ e es ptr es', e.size + e.ptr - e.alignedPtr k < size → R es ptr es' →
      R (e :: es) ptr (e :: es'))
    (hcarve : ∀ e es, ¬ e.size + e.ptr - e.alignedPtr k < size → R (e :: es) (e.alignedPtr k)
      (⟨e.alignedPtr k + size, e.size + e.ptr - e.alignedPtr k - size⟩ :: es)) (t : σ) :
    wp (carve size (2 ^ k) es) (fun r t' => t' = t ∧
      ∀ ptr es', r = some (ptr, es') → R es ptr es') t := by
  induction es with
  | nil =>
    rw [carve, wp_pure]
    refine ⟨rfl, ?_⟩
    rintro ptr es' ⟨⟩
  | cons e es ih =>
    rw [carve, wp_bind, wp_alignUp64 hk, ← MMapEnt.alignedPtr]
    simp only [wp_bind, wp_ite, wp_pure]
    split_ifs with hsmall
    · refine wp_mono ih ?_
      rintro r t' ⟨rfl, hr⟩
      refine ⟨rfl, ?_⟩
      intro ptr es' heq
      obtain ⟨⟨ptr', es''⟩, hr', hpair⟩ := Option.map_eq_some_iff.1 heq
      cases hpair
      exact hskip e es _ _ hsmall (hr _ _ hr')
    · refine ⟨trivial, ?_⟩
      rintro ptr es' ⟨⟩
      exact hcarve e es hsmall

/-- The loop of `alloc_from_entries` carves an entry, if there is one that is large enough. -/
theorem wp_carve {size : U64} (ht : Tidy es) (h8 : 8 ∣ size.toNat) (t : σ) :
    wp (carve size 8 es) (fun r t' => t' = t ∧
      ∀ ptr es', r = some (ptr, es') → Carving es ptr.toNat size.toNat es') t := by
  refine wp_mono (wp_carve_rule (k := 3) (by decide)
    (R := fun es ptr es' => Tidy es → Carving es ptr.toNat size.toNat es') ?_ ?_ t) ?_
  · intro e es ptr es' _ hc ht
    exact (hc ht.tail).cons ht
  · intro e es hlarge ht
    have haligned := ht.aligned e (by simp)
    have hlt := e.ptr.isLt
    have hptr : e.alignedPtr 3 = e.ptr := by
      apply BitVec.eq_of_toNat_eq
      rw [MMapEnt.alignedPtr, BitVec.toNat_ofNat]
      omega
    have hsize : e.size + e.ptr - e.ptr = e.size := BitVec.add_sub_cancel _ _
    rw [hptr, hsize] at hlarge ⊢
    rw [BitVec.lt_def, not_lt] at hlarge
    exact ht.carve_head h8 hlarge
  · rintro r t' ⟨rfl, hr⟩
    exact ⟨rfl, fun ptr es' heq => hr ptr es' heq ht⟩

/-! ### Creating the arrays -/

namespace MetadataArray

/-- The physical address of the array. -/
def address (a : MetadataArray) : ℕ := (a.data - kernelSpaceBegin).toNat

/-- The bytes that `alloc_from_entries` set aside. -/
def range (a : MetadataArray) : Set ℕ := Set.Ico a.address (a.address + a.size.toNat)

/-- The bytes of the words that the bits take. -/
def wordRange (a : MetadataArray) : Set ℕ := Set.Ico a.address (a.address + 8 * a.words)

/-- The address of one of the words. -/
def IsWord (a : MetadataArray) (x : U64) : Prop := ∃ i < a.words, x = a.data + BitVec.ofNat 64 (8 * i)

end MetadataArray

/-- The physical address of a word that lies before the end of the address space. -/
theorem MetadataArray.word_toNat (a : MetadataArray) {i : ℕ} (hi : a.address + 8 * i < 2 ^ 64) :
    (a.data + BitVec.ofNat 64 (8 * i) - kernelSpaceBegin).toNat = a.address + 8 * i := by
  have hcomm : a.data + BitVec.ofNat 64 (8 * i) - kernelSpaceBegin =
      a.data - kernelSpaceBegin + BitVec.ofNat 64 (8 * i) := by
    rw [BitVec.sub_eq_add_neg, BitVec.sub_eq_add_neg, BitVec.add_assoc,
      BitVec.add_comm (BitVec.ofNat 64 (8 * i)), ← BitVec.add_assoc]
  rw [hcomm, BitVec.toNat_add, BitVec.toNat_ofNat, ← MetadataArray.address]
  omega

theorem wp_setAllWords {data : U64} {value : Bool} (n i : ℕ) {P : U64 → Prop}
    (hP : ∀ j, i ≤ j → j < i + n → P (data + BitVec.ofNat 64 (8 * j))) :
    wp (setAllWords data value n i)
      (fun _ s' => s'.mmap = s.mmap ∧ Memory.StoresIn P s.memory s'.memory) s := by
  induction n generalizing i s with
  | zero =>
    rw [setAllWords, wp_pure]
    exact ⟨rfl, Memory.StoresIn.refl _ _⟩
  | succ n ih =>
    have hi : P (data + BitVec.ofNat 64 (8 * i)) := hP i le_rfl (by omega)
    have htail : ∀ j, i + 1 ≤ j → j < i + 1 + n → P (data + BitVec.ofNat 64 (8 * j)) :=
      fun j h1 h2 => hP j (by omega) (by omega)
    simp only [setAllWords, wp_bind, wp_modify, wp_ite]
    split_ifs
    · refine wp_mono (ih (i + 1) htail) ?_
      rintro _ s' ⟨hm, hst⟩
      exact ⟨hm, ((Memory.storesIn_store hi).trans (Memory.storesIn_store hi)).trans hst⟩
    · refine wp_mono (ih (i + 1) htail) ?_
      rintro _ s' ⟨hm, hst⟩
      exact ⟨hm, (Memory.storesIn_store hi).trans hst⟩

/-- `BitSet__set_all` to `false`. -/
theorem wp_setAllWords_false {data : U64} (left i : ℕ) : wp (setAllWords data false left i)
    (fun _ s' => (∀ x, s.memory.load x = 0#64 → s'.memory.load x = 0#64) ∧
      ∀ j, i ≤ j → j < i + left → s'.memory.load (data + BitVec.ofNat 64 (8 * j)) = 0#64) s := by
  induction left generalizing i s with
  | zero =>
    rw [setAllWords, wp_pure]
    exact ⟨fun _ h => h, by omega⟩
  | succ left ih =>
    simp only [setAllWords, wp_bind, wp_modify, if_neg Bool.false_ne_true]
    refine wp_mono (ih (i + 1)) ?_
    rintro _ s' ⟨hkeep, hzero⟩
    refine ⟨fun x hx => hkeep x ?_, fun j hij hj => ?_⟩
    · rw [Memory.load_store]
      split_ifs
      · rfl
      · exact hx
    · obtain rfl | hlt := Nat.eq_or_lt_of_le hij
      · exact hkeep _ (Memory.load_store_self _ _ _)
      · exact hzero j hlt (by omega)

/-- The effect of creating the arrays `as`. -/
structure CreatedAll (s : State) (as : List MetadataArray) (s' : State) : Prop where
  tidy : Tidy s'.mmap
  subset : ∀ a ∈ as, ∃ e ∈ s.mmap, a.range ⊆ e.bytes
  disjoint : as.Pairwise fun a b => Disjoint a.range b.range
  within : ∀ f ∈ s'.mmap, ∃ e ∈ s.mmap, f.bytes ⊆ e.bytes
  apart : ∀ a ∈ as, Disjoint a.range (available s'.mmap)
  le : ∀ a ∈ as, a.address + a.size.toNat ≤ 2 ^ 64
  stores : Memory.StoresIn (fun x => ∃ a ∈ as, a.IsWord x) s.memory s'.memory
  keeps_zero : ∀ x, s.memory.load x = 0#64 → s'.memory.load x = 0#64
  zero : ∀ a ∈ as, ∀ x, a.IsWord x → s'.memory.load x = 0#64

theorem createdAll_nil (ht : Tidy s.mmap) : CreatedAll s [] s where
  tidy := ht
  subset := by simp
  disjoint := List.Pairwise.nil
  within f hf := ⟨f, hf, subset_rfl⟩
  apart := by simp
  le := by simp
  stores := Memory.StoresIn.refl _ _
  keeps_zero _ hx := hx
  zero := by simp

theorem CreatedAll.append {s'' : State} {as bs : List MetadataArray} (h : CreatedAll s as s')
    (h' : CreatedAll s' bs s'') : CreatedAll s (as ++ bs) s'' where
  tidy := h'.tidy
  subset a ha := by
    rcases List.mem_append.1 ha with ha | ha
    · exact h.subset a ha
    · obtain ⟨f, hf, hsub⟩ := h'.subset a ha
      obtain ⟨e, he, hsub'⟩ := h.within f hf
      exact ⟨e, he, hsub.trans hsub'⟩
  disjoint := by
    refine List.pairwise_append.2 ⟨h.disjoint, h'.disjoint, fun a ha b hb => ?_⟩
    obtain ⟨f, hf, hsub⟩ := h'.subset b hb
    exact (h.apart a ha).mono_right (hsub.trans (bytes_subset_available hf))
  within f hf := by
    obtain ⟨g, hg, hsub⟩ := h'.within f hf
    obtain ⟨e, he, hsub'⟩ := h.within g hg
    exact ⟨e, he, hsub.trans hsub'⟩
  apart a ha := by
    rcases List.mem_append.1 ha with ha | ha
    · exact (h.apart a ha).mono_right (available_mono h'.within)
    · exact h'.apart a ha
  le a ha := by
    rcases List.mem_append.1 ha with ha | ha
    · exact h.le a ha
    · exact h'.le a ha
  stores := by
    refine (h.stores.mono ?_).trans (h'.stores.mono ?_)
    · rintro x ⟨a, ha, hx⟩
      exact ⟨a, List.mem_append_left _ ha, hx⟩
    · rintro x ⟨a, ha, hx⟩
      exact ⟨a, List.mem_append_right _ ha, hx⟩
  keeps_zero x hx := h'.keeps_zero x (h.keeps_zero x hx)
  zero a ha x hx := by
    rcases List.mem_append.1 ha with ha | ha
    · exact h'.keeps_zero x (h.zero a ha x hx)
    · exact h'.zero a ha x hx

/-- The number of bytes that `alloc_from_entries` sets aside for a request of `bytes`, in words. -/
theorem alignUp_eight {bytes : ℕ} (hb : bytes < 2 ^ 63) :
    BitVec.ofNat 64 (((BitVec.ofInt 64 (bytes : ℤ)).toNat + (2 ^ 3 - 1)) % 2 ^ 64 / 2 ^ 3 * 2 ^ 3) =
      BitVec.ofNat 64 ((bytes + 7) / 8 * 8) := by
  rw [BitVec.ofInt_natCast, BitVec.toNat_ofNat]
  congr 1
  omega

/-- **One array**, if the call returns. -/
theorem of_wp_createBitSet {bytes : ℕ} {count : ℤ} {Q : MetadataArray → State → Prop}
    (ht : Tidy s.mmap) (hb : bytes < 2 ^ 63) (hw : wp (createBitSet bytes count) Q s) :
    0 < bytes ∧ ∃ a s', CreatedAll s [a] s' ∧ a.size.toNat = (bytes + 7) / 8 * 8 ∧
      a.count = count ∧ Q a s' := by
  have hsize : (BitVec.ofNat 64 ((bytes + 7) / 8 * 8)).toNat = (bytes + 7) / 8 * 8 := by
    rw [BitVec.toNat_ofNat]
    omega
  simp only [createBitSet, allocFromEntries, wp_bind, wp_assert] at hw
  rw [show max (8 : ℤ).toNat 1 = 2 ^ 3 from rfl, wp_alignUp64 (by omega), alignUp_eight hb,
    wp_get] at hw
  refine ⟨by omega, ?_⟩
  obtain ⟨-, r, t, hcarve, hw⟩ := hw
  obtain ⟨rfl, hr⟩ := wp_run hcarve (wp_carve ht (by rw [hsize]; omega) s)
  cases r with
  | none => simp at hw
  | some r =>
    obtain ⟨ptr, es'⟩ := r
    have hc := hr ptr es' rfl
    simp only [wp_bind, wp_modify, wp_pure] at hw
    set a : MetadataArray :=
      ⟨ptr + kernelSpaceBegin, BitVec.ofNat 64 ((bytes + 7) / 8 * 8), count⟩ with ha
    obtain ⟨_, s', hset, hQ⟩ := hw
    obtain ⟨hmmap, hst⟩ := wp_run hset (wp_setAllWords a.words 0 (P := a.IsWord)
      fun j _ hj => ⟨j, by omega, rfl⟩)
    obtain ⟨hkeep, hzero⟩ := wp_run hset (wp_setAllWords_false a.words 0)
    have haddr : a.address = ptr.toNat := by
      rw [MetadataArray.address, ha, BitVec.add_sub_cancel]
    have hrange : a.range = Set.Ico ptr.toNat (ptr.toNat + a.size.toNat) := by
      rw [MetadataArray.range, haddr]
    have havail : available s'.mmap = available t.mmap \ a.range := by
      rw [hmmap, hrange]
      exact hc.available_eq
    refine ⟨a, s', ⟨?_, ?_, List.pairwise_singleton _ _, ?_, ?_, ?_, hst.mono ?_, hkeep, ?_⟩, hsize, rfl,
      hQ⟩
    · rw [hmmap]
      exact hc.tidy
    · intro b hb
      rw [List.mem_singleton.1 hb, hrange]
      exact hc.subset
    · rw [hmmap]
      exact hc.within
    · intro b hb
      rw [List.mem_singleton.1 hb, havail]
      exact disjoint_sdiff_self_right
    · intro b hb
      rw [List.mem_singleton.1 hb, haddr]
      exact hc.le
    · exact fun x hx => ⟨a, by simp, hx⟩
    · rintro b hb _ ⟨i, hi, rfl⟩
      rw [List.mem_singleton.1 hb] at hi ⊢
      exact hzero i (Nat.zero_le i) (by omega)

/-- **The arrays of the buddies**, if the calls return: they fit into their ranges. -/
theorem of_wp_createBuddies {N : ℕ} (hN : N < 2 ^ 62) {left k : ℕ} (hk : k + left ≤ 12)
    {Q : List MetadataArray → State → Prop} (ht : Tidy s.mmap)
    (hw : wp (createBuddies N left k) Q s) :
    (0 < left → 0 < N) ∧ ∃ as s', CreatedAll s as s' ∧
      (∀ a ∈ as, 8 * a.words ≤ a.size.toNat) ∧
      (∀ j < left, ∃ a, as[j]? = some a ∧ a.count = bitsetSize N (k + j)) ∧ Q as s' := by
  induction left generalizing k s Q with
  | zero =>
    rw [createBuddies, wp_pure] at hw
    exact ⟨by omega, [], s, createdAll_nil ht, by simp, by omega, hw⟩
  | succ left ih =>
    have hdiv : N / 2 ^ (k + 1) ≤ N := Nat.div_le_self _ _
    simp only [createBuddies, buddyInfo, wp_bind, wp_isAligned (show k < 64 by omega), wp_assert,
      wp_pure] at hw
    rw [show 8 = 2 ^ 3 from rfl, wp_alignUp (by omega)] at hw
    set bits := (N / 2 ^ (k + 1) + (2 ^ 3 - 1)) / 2 ^ 3 * 2 ^ 3 with hbits
    obtain ⟨hpos, a, s1, hc1, hsize, hcount, hw⟩ := of_wp_createBitSet ht (by omega) hw.2
    obtain ⟨-, as, s2, hc2, hfit, hcounts, hQ⟩ := ih (by omega) hc1.tidy hw
    refine ⟨fun _ => ?_, a :: as, s2, hc1.append hc2, ?_, fun j hj => ?_, hQ⟩
    · by_contra h0
      obtain rfl : N = 0 := by omega
      rw [Nat.zero_div] at hbits
      omega
    · intro b hb
      rcases List.mem_cons.1 hb with rfl | hb
      · rw [MetadataArray.words, hcount, hsize]
        omega
      · exact hfit b hb
    · cases j with
      | zero => exact ⟨a, rfl, hcount⟩
      | succ j =>
        obtain ⟨b, hb, hbcount⟩ := hcounts j (by omega)
        refine ⟨b, hb, ?_⟩
        rw [hbcount, Nat.add_right_comm, Nat.add_assoc]

/-! ### All arrays -/

/-- The arrays that `memory__init` creates from the map `mmap` lie where they should. -/
structure MetadataOk (mmap : List MMapEnt) (m : Memory) (arrays : List MetadataArray) (s' : State) :
    Prop where
  /-- The words of an array are inside the range that `alloc_from_entries` returned for it. -/
  fits : ∀ a ∈ arrays, a.wordRange ⊆ a.range
  disjoint : arrays.Pairwise fun a b => Disjoint a.wordRange b.wordRange
  /-- `BitSet__set_all` writes to free entries only. -/
  stores : Memory.StoresIn (fun x => ∃ e ∈ mmap, e.isFree = true ∧
    Set.Ico (x - kernelSpaceBegin).toNat ((x - kernelSpaceBegin).toNat + 8) ⊆ e.region) m s'.memory
  /-- No word lies in a page that is released later. -/
  released : ∀ a ∈ arrays, ∀ p ∈ wholePages s'.mmap,
    Disjoint a.wordRange (Set.Ico (4096 * p) (4096 * (p + 1)))

/-- The arrays lie where they should if their words are inside their ranges. -/
theorem metadataOk_of_fits {arrays : List MetadataArray} {s : State}
    (hs : s.mmap = takeFree (slowSort (mmap.length - 1) mmap)) (hc : CreatedAll s arrays s')
    (hfit : ∀ a ∈ arrays, 8 * a.words ≤ a.size.toNat) : MetadataOk mmap s.memory arrays s' := by
  have hsub : ∀ a ∈ arrays, a.wordRange ⊆ a.range := by
    intro a ha x hx
    exact ⟨hx.1, hx.2.trans_le (Nat.add_le_add_left (hfit a ha) _)⟩
  refine ⟨hsub, ?_, hc.stores.mono ?_, ?_⟩
  · refine hc.disjoint.imp_of_mem ?_
    intro a b ha hb hdis
    exact hdis.mono (hsub a ha) (hsub b hb)
  · rintro x ⟨a, ha, i, hi, rfl⟩
    have hle := hc.le a ha
    have hfa := hfit a ha
    have haddr := a.word_toNat (i := i) (by omega)
    obtain ⟨f, hf, hsubf⟩ := hc.subset a ha
    rw [hs] at hf
    obtain ⟨e, he, hfree, rfl⟩ := mem_takeFree hf
    refine ⟨e, (slowSort_perm _ mmap).mem_iff.1 he, hfree, fun b hb => hsubf ?_⟩
    rw [haddr] at hb
    have h1 := hb.1
    have h2 := hb.2
    exact ⟨by omega, by omega⟩
  · rintro a ha p ⟨e, he, h1, h2⟩
    refine ((hc.apart a ha).mono (hsub a ha) ?_)
    intro x hx
    have hx1 := hx.1
    have hx2 := hx.2
    exact ⟨e, he, by omega, by omega⟩

/-- What `memory__init` computes from `end_address`. -/
def endPage (endAddress : U64) : ℕ := (endAddress.toNat + 4095) % 2 ^ 64 / 4096

def buddyEndPage (endAddress : U64) : ℕ := (endAddress.toNat + (2 ^ 24 - 1)) % 2 ^ 64 / 2 ^ 24 * 4096

/-- The number of bytes asked for each of the two page bit sets. -/
def pageSetBytes (endAddress : U64) : ℕ :=
  ((BitVec.ofNat 64 (endPage endAddress) - 1#64) / 8#64 + 1#64).toNat

theorem pageSetBytes_lt (endAddress : U64) : pageSetBytes endAddress < 2 ^ 62 := by
  rw [pageSetBytes, BitVec.toNat_add, BitVec.toNat_udiv]
  have := (BitVec.ofNat 64 (endPage endAddress) - 1#64).isLt
  simp only [BitVec.reduceToNat]
  omega

theorem pageSetBytes_eq {endAddress : U64} (hpos : 0 < buddyEndPage endAddress) :
    pageSetBytes endAddress = (endPage endAddress - 1) / 8 + 1 := by
  unfold buddyEndPage at hpos
  have hlt := endAddress.isLt
  have hpage : 0 < endPage endAddress ∧ endPage endAddress < 2 ^ 53 := by
    unfold endPage
    omega
  have hword : (BitVec.ofNat 64 (endPage endAddress)).toNat = endPage endAddress := by
    rw [BitVec.toNat_ofNat]
    omega
  rw [pageSetBytes, BitVec.toNat_add, BitVec.toNat_udiv, BitVec.toNat_sub, hword]
  simp only [BitVec.reduceToNat]
  omega

/-- **The creation of the arrays**, if the calls return. -/
theorem of_wp_createMetadata (hwf : WellFormed mmap) {l : MMapEnt} (hl : mmap.getLast? = some l)
    {m : Memory} {Q : List MetadataArray → State → Prop} (hw : wp createMetadata Q ⟨mmap, m⟩) :
    ∃ a b as s', 0 < buddyEndPage (l.ptr + l.byteSize) ∧
      CreatedAll ⟨takeFree (slowSort (mmap.length - 1) mmap), m⟩ (a :: b :: as) s' ∧
      (∀ c ∈ [a, b], c.size.toNat = (pageSetBytes (l.ptr + l.byteSize) + 7) / 8 * 8 ∧
        c.count = buddyEndPage (l.ptr + l.byteSize)) ∧
      (∀ c ∈ as, 8 * c.words ≤ c.size.toNat) ∧
      (∀ j < classCount - 1, ∃ c, as[j]? = some c ∧
        c.count = bitsetSize (buddyEndPage (l.ptr + l.byteSize)) j) ∧ Q (a :: b :: as) s' := by
  set e := l.ptr + l.byteSize with he
  have hup : ∀ (R : U64 → State → Prop) (t : State), wp (alignUp64 e 4096) R t ↔
      R (BitVec.ofNat 64 ((e.toNat + 4095) % 2 ^ 64 / 4096 * 4096)) t :=
    wp_alignUp64 (k := 12) (by omega) e
  have hupBuddy : ∀ (R : U64 → State → Prop) (t : State), wp (alignUp64 e (4096 * 2 ^ classCount)) R t ↔
      R (BitVec.ofNat 64 ((e.toNat + (2 ^ 24 - 1)) % 2 ^ 64 / 2 ^ 24 * 2 ^ 24)) t :=
    wp_alignUp64 (k := 24) (by omega) e
  have hpage : BitVec.ofNat 64 ((e.toNat + 4095) % 2 ^ 64 / 4096 * 4096) / 4096#64 =
      BitVec.ofNat 64 (endPage e) := by
    have h4096 : (4096#64).toNat = 4096 := rfl
    apply BitVec.eq_of_toNat_eq
    rw [BitVec.toNat_udiv, h4096, BitVec.toNat_ofNat, BitVec.toNat_ofNat, endPage]
    omega
  have hbuddy : (BitVec.ofNat 64 ((e.toNat + (2 ^ 24 - 1)) % 2 ^ 64 / 2 ^ 24 * 2 ^ 24)).toNat / 4096 =
      buddyEndPage e := by
    rw [BitVec.toNat_ofNat, buddyEndPage]
    omega
  have hbytes : ((BitVec.ofNat 64 (endPage e) - 1#64) / 8#64 + 1#64).toInt = (pageSetBytes e : ℤ) := by
    have := pageSetBytes_lt e
    rw [pageSetBytes] at this ⊢
    rw [BitVec.toInt_eq_toNat_of_lt (by omega)]
  simp only [createMetadata, endAddress, hl, wp_bind, wp_get, wp_modify, wp_pure, ← he, hup, hpage,
    hupBuddy, hbuddy, hbytes] at hw
  have hlt : pageSetBytes e < 2 ^ 63 := (pageSetBytes_lt e).trans (by decide)
  have hN : buddyEndPage e < 2 ^ 62 := by
    unfold buddyEndPage
    omega
  obtain ⟨-, a, s1, hc1, hsize1, hcount1, hw⟩ := of_wp_createBitSet (hwf.tidy _) hlt hw
  obtain ⟨-, b, s2, hc2, hsize2, hcount2, hw⟩ := of_wp_createBitSet hc1.tidy hlt hw
  obtain ⟨hpos, as, s3, hc3, hfit, hcounts, hQ⟩ := of_wp_createBuddies hN (by decide) hc2.tidy hw
  simp only [Nat.zero_add] at hcounts
  refine ⟨a, b, as, s3, hpos (by decide), (hc1.append hc2).append hc3, ?_, hfit, hcounts, hQ⟩
  intro c hc
  rcases List.mem_pair.1 hc with rfl | rfl
  · exact ⟨hsize1, hcount1⟩
  · exact ⟨hsize2, hcount2⟩

/-- The words of the page bit sets are inside their ranges exactly if the memory ends in the last 256KB
of a 16MB block or at its end. -/
theorem pageSet_fits_iff {endAddress : U64} (hpos : 0 < buddyEndPage endAddress) :
    8 * ((buddyEndPage endAddress + 63) / 64) ≤ (pageSetBytes endAddress + 7) / 8 * 8 ↔
      endAddress.toNat % 2 ^ 24 = 0 ∨ 2 ^ 24 - 2 ^ 18 < endAddress.toNat % 2 ^ 24 := by
  rw [pageSetBytes_eq hpos]
  unfold buddyEndPage endPage at *
  have hlt := endAddress.isLt
  omega

/-- **The arrays of the bit sets.**  If the creation returns, then the arrays lie where they should
exactly if the end of the memory is in the last 256KB of a 16MB block or at its end. -/
theorem metadata_ok_iff (hwf : WellFormed mmap) {l : MMapEnt} (hl : mmap.getLast? = some l)
    {m : Memory} {arrays : List MetadataArray}
    (hrun : createMetadata ⟨mmap, m⟩ = Except.ok (arrays, s')) :
    MetadataOk mmap m arrays s' ↔ (l.ptr.toNat + l.byteSize.toNat) % 2 ^ 24 = 0 ∨
      2 ^ 24 - 2 ^ 18 < (l.ptr.toNat + l.byteSize.toNat) % 2 ^ 24 := by
  have hwp : wp createMetadata (fun as t => as = arrays ∧ t = s') ⟨mmap, m⟩ := wp_of_run hrun ⟨rfl, rfl⟩
  obtain ⟨a, b, as, t, hpos, hc, hpage, hfit, -, rfl, rfl⟩ := of_wp_createMetadata hwf hl hwp
  have hend : (l.ptr + l.byteSize).toNat = l.ptr.toNat + l.byteSize.toNat := by
    have hfits := hwf.fits l (List.mem_of_getLast? hl)
    have hadd := BitVec.toNat_add l.ptr l.byteSize
    unfold buddyEndPage at hpos
    omega
  have hiff := pageSet_fits_iff hpos
  rw [hend] at hiff
  have hwords : ∀ c ∈ [a, b], (8 * c.words ≤ c.size.toNat ↔
      8 * ((buddyEndPage (l.ptr + l.byteSize) + 63) / 64) ≤
        (pageSetBytes (l.ptr + l.byteSize) + 7) / 8 * 8) := by
    intro c hcmem
    obtain ⟨hsize, hcount⟩ := hpage c hcmem
    rw [MetadataArray.words, hsize, hcount]
    omega
  rw [← hiff]
  constructor
  · intro hok
    rw [← hwords a (by simp)]
    -- the last byte of the words is in the range
    have hfits := hok.fits a (by simp)
    by_contra hlt
    have hlast : a.address + 8 * a.words - 1 ∈ a.range := hfits ⟨by omega, by omega⟩
    have := hlast.2
    omega
  · intro hle
    refine metadataOk_of_fits rfl hc ?_
    intro c hcmem
    rcases List.mem_cons.1 hcmem with rfl | hcmem
    · exact (hwords c (by simp)).2 hle
    · rcases List.mem_cons.1 hcmem with rfl | hcmem
      · exact (hwords c (by simp)).2 hle
      · exact hfit c hcmem

/-! ### Memory of one free entry -/

theorem wellFormed_singleton {e : MMapEnt} (hfits : e.ptr.toNat + e.byteSize.toNat ≤ 2 ^ 64)
    (haligned : 4096 ∣ e.ptr.toNat ∧ 4096 ∣ e.byteSize.toNat) : WellFormed [e] where
  disjoint := List.pairwise_singleton _ _
  fits f hf := by
    rw [List.mem_singleton.1 hf]
    exact hfits
  last f hf l hl := by
    obtain rfl : e = l := Option.some.inj hl
    rw [List.mem_singleton.1 hf]
  aligned f hf _ := by
    rw [List.mem_singleton.1 hf]
    exact haligned

theorem wellFormed_pair {e f : MMapEnt} (hle : e.ptr.toNat + e.byteSize.toNat ≤ f.ptr.toNat)
    (hfits : f.ptr.toNat + f.byteSize.toNat ≤ 2 ^ 64)
    (haligned : ∀ g ∈ [e, f], g.isFree = true → 4096 ∣ g.ptr.toNat ∧ 4096 ∣ g.byteSize.toNat) :
    WellFormed [e, f] where
  disjoint := by
    refine List.pairwise_pair.2 (Set.disjoint_left.2 ?_)
    rintro a ⟨-, hlt⟩ ⟨hge, -⟩
    omega
  fits g hg := by
    rcases List.mem_pair.1 hg with rfl | rfl <;> omega
  last g hg l hl := by
    obtain rfl : f = l := Option.some.inj hl
    rcases List.mem_pair.1 hg with rfl | rfl <;> omega
  aligned := haligned

theorem exists_run {s : State} (h : (createMetadata s).isOk = true) :
    ∃ arrays s', createMetadata s = Except.ok (arrays, s') := by
  cases hrun : createMetadata s with
  | error e =>
    rw [hrun] at h
    cases h
  | ok r => exact ⟨r.1, r.2, rfl⟩

/-- With 16MB of memory the arrays lie where they should. -/
theorem metadata_ok_16MB : ∃ arrays s',
    createMetadata ⟨[⟨0#64, 0x1000001#64⟩], ⟨fun _ => 0#64, []⟩⟩ = Except.ok (arrays, s') ∧
      MetadataOk [⟨0#64, 0x1000001#64⟩] ⟨fun _ => 0#64, []⟩ arrays s' := by
  obtain ⟨arrays, s', hrun⟩ :=
    exists_run (s := ⟨[⟨0#64, 0x1000001#64⟩], ⟨fun _ => 0#64, []⟩⟩) (by decide +kernel)
  have hwf : WellFormed [⟨0#64, 0x1000001#64⟩] := wellFormed_singleton (by decide) (by decide)
  exact ⟨arrays, s', hrun, (metadata_ok_iff hwf rfl hrun).2 (Or.inl (by decide))⟩

/-- With 2MB of memory `usable_pages` gets 64 bytes for 64 words. -/
theorem metadata_overrun_2MB : ∃ arrays s',
    WellFormed [⟨0#64, 0x200001#64⟩] ∧
      createMetadata ⟨[⟨0#64, 0x200001#64⟩], ⟨fun _ => 0#64, []⟩⟩ = Except.ok (arrays, s') ∧
      (∃ a ∈ arrays, a.size.toNat = 64 ∧ a.words = 64) ∧
      ¬ MetadataOk [⟨0#64, 0x200001#64⟩] ⟨fun _ => 0#64, []⟩ arrays s' := by
  obtain ⟨arrays, s', hrun⟩ :=
    exists_run (s := ⟨[⟨0#64, 0x200001#64⟩], ⟨fun _ => 0#64, []⟩⟩) (by decide +kernel)
  have hwf : WellFormed [⟨0#64, 0x200001#64⟩] := wellFormed_singleton (by decide) (by decide)
  have hwp : wp createMetadata (fun as t => as = arrays ∧ t = s')
      ⟨[⟨0#64, 0x200001#64⟩], ⟨fun _ => 0#64, []⟩⟩ := wp_of_run hrun ⟨rfl, rfl⟩
  obtain ⟨a, b, as, t, -, -, hpage, -, -, rfl, rfl⟩ := of_wp_createMetadata hwf rfl hwp
  obtain ⟨hsize, hcount⟩ := hpage a (by simp)
  have hsize' : a.size.toNat = 64 := by
    rw [hsize]
    decide
  have hwords : a.words = 64 := by
    rw [MetadataArray.words, hcount]
    decide
  refine ⟨_, _, hwf, hrun, ⟨a, by simp, hsize', hwords⟩, fun hok => ?_⟩
  have hlast : a.address + 511 ∈ a.range := hok.fits a (by simp) ⟨by omega, by omega⟩
  have := hlast.2
  omega

end Dumboss.Boot
