import Dumboss.Boot.Init

/-!
# The bit sets in memory

From the seeding on the model keeps the bit sets apart from memory, while in the machine their words
lie in it.  This is sound if nothing else is ever stored there.

* `PrivateRun`: calls of clients that write only to pages they hold;
* `PrivateRun.stores`: along such a run all stores, the allocator's list nodes included, go to pages
  that were free at the start;
* `bitSets_untouched`: from the seeding on no store reaches a byte of the bit sets.
-/

namespace Dumboss

open Prog Shares

namespace Op

/-- The call writes only to pages of `held`. -/
def WritesTo (held : Set ℕ) : Op → Prop
  | write p _ _ => p ∈ held
  | _ => True

variable {N : ℕ} {h h' : Heap} {buf : Buffer} {op : Op} {S : Set ℕ} {share share' : ℕ → Set ℕ} {c : ℕ}

/-- The stores of a call go to pages of the stock. -/
theorem Frame.stores (hf : op.Frame h buf h') (ha : op.Allowed N h) (hwrite : op.WritesTo (share c))
    (hs : Split S h.globals.freeSet share) (hs' : Split S h'.globals.freeSet share') :
    Memory.StoresIn (InPages (· ∈ S)) h.memory h'.memory := by
  have hfree : ∀ q ∈ h.globals.freeSet, q ∈ S := fun q hq => (hs.cover q).2 (Or.inl hq)
  have hfree' : ∀ q ∈ h'.globals.freeSet, q ∈ S := fun q hq => (hs'.cover q).2 (Or.inl hq)
  have halloc : HandsOut h buf h' → Memory.StoresIn (InPages (· ∈ S)) h.memory h'.memory := by
    intro ho
    refine ho.stores.mono fun x hx => hx.mono ?_
    rintro q (hq | hq)
    · exact hfree' q hq
    · exact hfree q hq.1
  cases op with
  | release p n => exact hf.2.2.mono fun x hx => hx.mono hfree'
  | alloc count exact => exact halloc hf
  | zeroed count => exact halloc hf
  | mark p n usable =>
    rw [hf.2]
    exact .refl _ _
  | write p i v =>
    obtain ⟨hp, hi, -⟩ := ha
    rw [hf.2]
    exact Memory.storesIn_store ((inPages_cell hp hi).2 (hs.share_subset c hwrite))

end Op

/-- Calls of clients that give back and write to only what they hold. -/
inductive PrivateRun (N : ℕ) (h₀ : Heap) : Heap → (ℕ → Set ℕ) → Prop
  | start : PrivateRun N h₀ h₀ fun _ => ∅
  | step {h h' : Heap} {share : ℕ → Set ℕ} {op : Op} {buf : Buffer} (c : ℕ)
      (hr : PrivateRun N h₀ h share) (ha : op.Allowed N h) (hown : op.Returns (share c))
      (hwrite : op.WritesTo (share c)) (he : op.exec h = Except.ok (buf, h')) :
      PrivateRun N h₀ h' (Function.update share c (op.holdings buf (share c)))

namespace PrivateRun

variable {N : ℕ} {h h₀ : Heap} {share : ℕ → Set ℕ}

theorem clientRun (hr : PrivateRun N h₀ h share) : ClientRun N h₀ h share := by
  induction hr with
  | start => exact .start
  | step c hr ha hown hwrite he ih => exact .step c ih ha hown he

/-- **Run lemma**: all stores go to pages that were free at the start. -/
theorem stores (h0 : Reachable N h₀) (hr : PrivateRun N h₀ h share) :
    Memory.StoresIn (InPages (· ∈ h₀.globals.freeSet)) h₀.memory h.memory := by
  induction hr with
  | start => exact .refl _ _
  | step c hr ha hown hwrite he ih =>
    have hc := hr.clientRun
    have hreach := hc.reachable h0
    have hf := (hreach.effect ha he).frame hreach.inv.le_window ha
    have hs' := (ClientRun.step c hc ha hown he).split h0
    exact ih.trans (hf.stores ha hwrite (hc.split h0) hs')

end PrivateRun

namespace Boot

variable {mmap : List MMapEnt} {arrays : List MetadataArray} {s' : State} {m : Memory}

/-- The physical addresses of the bytes of the word at `x`. -/
def wordBytes (x : U64) : Set ℕ :=
  Set.Ico (x - kernelSpaceBegin).toNat ((x - kernelSpaceBegin).toNat + 8)

/-- The word at `x` has no byte in common with the arrays. -/
def Misses (arrays : List MetadataArray) (x : U64) : Prop :=
  ∀ a ∈ arrays, Disjoint a.range (wordBytes x)

/-- A word of one of the pages that are left misses the arrays. -/
theorem misses_of_inPages {x : U64} (hx : InPages (· ∈ pagesLeft mmap arrays) x) :
    Misses arrays x := by
  obtain ⟨p, i, hp, hi, rfl, -, hapart⟩ := hx
  intro a ha
  refine (hapart a ha).mono_right ?_
  rw [wordBytes, cell_sub_toNat hp hi]
  exact Set.Ico_subset_Ico (by omega) (by omega)

/-- A word of an array that lies in its range does not miss the arrays. -/
theorem MetadataArray.IsWord.not_misses {a : MetadataArray} {x : U64} (ha : a ∈ arrays)
    (hfits : a.wordRange ⊆ a.range) (hle : a.address + a.size.toNat ≤ 2 ^ 64) (hx : a.IsWord x) :
    ¬ Misses arrays x := by
  obtain ⟨i, hi, rfl⟩ := hx
  have hlast : a.address + 8 * i ∈ a.range := hfits ⟨Nat.le_add_right _ _, by omega⟩
  have hlt : a.address + 8 * i < 2 ^ 64 := hlast.2.trans_le hle
  have haddr := a.word_toNat hlt
  intro hmiss
  refine Set.disjoint_left.1 (hmiss a ha) hlast ?_
  rw [wordBytes, haddr]
  exact ⟨le_rfl, by omega⟩

section Untouched

variable {l : MMapEnt} {fuel : ℕ} {available : ℤ} {h h₀ : Heap} {share : ℕ → Set ℕ}

/-- **The bit sets are left alone.**  From the creation of the bit sets on, through the seeding and any
run of clients that write only to what they hold, no store reaches a byte that was set aside for a bit
set; the words of the bit sets change through `BitSet__set` and `BitSet__set_range` alone. -/
theorem bitSets_untouched (hwf : WellFormed mmap) (hl : mmap.getLast? = some l)
    (hend : l.ptr.toNat + l.byteSize.toNat < 2 ^ 47)
    (hfit : (l.ptr.toNat + l.byteSize.toNat) % 2 ^ 24 = 0 ∨
      2 ^ 24 - 2 ^ 18 < (l.ptr.toNat + l.byteSize.toNat) % 2 ^ 24)
    (hroom : ∃ e ∈ mmap, e.isFree = true ∧ metadataBytes (l.ptr + l.byteSize) ≤ e.byteSize.toNat)
    (hfuel : buddyEndPage (l.ptr + l.byteSize) < fuel)
    (hcreate : createMetadata ⟨mmap, m⟩ = Except.ok (arrays, s'))
    (hinit : initAllocator fuel ⟨mmap, m⟩ = Except.ok (available, h₀))
    (hr : PrivateRun (buddyEndPage (l.ptr + l.byteSize)) h₀ h share) :
    Memory.StoresIn (Misses arrays) s'.memory h.memory ∧
      ∀ a ∈ arrays, ∀ x, a.IsWord x → h.memory.load x = s'.memory.load x := by
  obtain ⟨arrays', t, h₁, hcreate', hok, hinit', hs⟩ :=
    exists_started hwf hl hend hfit hroom hfuel (m := m)
  obtain ⟨rfl, rfl⟩ : arrays' = arrays ∧ t = s' := by
    rw [hcreate] at hcreate'
    cases hcreate'
    exact ⟨rfl, rfl⟩
  obtain rfl : h₁ = h₀ := by
    rw [hinit] at hinit'
    cases hinit'
    rfl
  have hstores : Memory.StoresIn (Misses arrays') t.memory h.memory := by
    have hrun := hr.stores hs.reachable
    rw [hs.freeSet] at hrun
    exact (hs.stores.trans hrun).mono fun x hx => misses_of_inPages hx
  have hwp : wp createMetadata (fun as u => as = arrays' ∧ u = t) ⟨mmap, m⟩ :=
    wp_of_run hcreate ⟨rfl, rfl⟩
  obtain ⟨a₀, b₀, cs, u, -, hc, -, -, -, rfl, rfl⟩ := of_wp_createMetadata hwf hl hwp
  refine ⟨hstores, fun a ha x hx => hstores.load_eq ?_⟩
  exact hx.not_misses ha (hok.fits a ha) (hc.le a ha)

end Untouched

/-- With 16MB of memory, a client allocates three pages. -/
theorem bitSets_untouched_16MB : ∃ arrays s' h₀ h share,
    createMetadata ⟨[⟨0#64, 0x1000001#64⟩], ⟨fun _ => 0#64, []⟩⟩ = Except.ok (arrays, s') ∧
      PrivateRun 4096 h₀ h (Function.update (fun _ => ∅) 0 share) ∧
      ∀ a ∈ arrays, ∀ x, a.IsWord x → h.memory.load x = s'.memory.load x := by
  have hwf : WellFormed [⟨0#64, 0x1000001#64⟩] := wellFormed_singleton (by decide) (by decide)
  have hend : (0#64).toNat + (MMapEnt.mk 0#64 0x1000001#64).byteSize.toNat < 2 ^ 47 := by decide
  have hfit : ((0#64).toNat + (MMapEnt.mk 0#64 0x1000001#64).byteSize.toNat) % 2 ^ 24 = 0 ∨
      2 ^ 24 - 2 ^ 18 < ((0#64).toNat + (MMapEnt.mk 0#64 0x1000001#64).byteSize.toNat) % 2 ^ 24 :=
    Or.inl (by decide)
  have hroom : ∃ e ∈ [MMapEnt.mk 0#64 0x1000001#64], e.isFree = true ∧
      metadataBytes (0#64 + (MMapEnt.mk 0#64 0x1000001#64).byteSize) ≤ e.byteSize.toNat :=
    ⟨_, List.mem_singleton.2 rfl, by decide, by decide⟩
  have hpages : buddyEndPage (0#64 + (MMapEnt.mk 0#64 0x1000001#64).byteSize) = 4096 := by decide
  have hfuel : buddyEndPage (0#64 + (MMapEnt.mk 0#64 0x1000001#64).byteSize) < 4097 := by decide
  obtain ⟨arrays, s', h₀, hcreate, -, hinit, hs⟩ :=
    exists_started hwf rfl hend hfit hroom hfuel (m := ⟨fun _ => 0#64, []⟩)
  have ha : (Op.alloc 3 true).Allowed 4096 h₀ := show (3 : ℤ) ≤ 4096 by decide
  obtain ⟨buf, h, he, -⟩ := Op.wp_exec (hpages ▸ hs.reachable).inv ha
  have hr := PrivateRun.step 0 .start ha trivial trivial he
  have huntouched := bitSets_untouched hwf rfl hend hfit hroom hfuel hcreate hinit (hpages.symm ▸ hr)
  exact ⟨arrays, s', h₀, h, _, hcreate, hr, huntouched.2⟩

end Boot

end Dumboss
