import Dumboss.Lib.Prog

/-!
# Words, kernel pointers and memory

The machine the kernel runs on, as far as the allocator and the page tables see it.

* `U64` is a 64-bit word; pointers are words, the null pointer is `0`.
* `physicalAddress` and `kernelPtr` (`kern/memory.c`) pass between physical addresses and pointers
  of the higher-half window that starts at `kernelSpaceBegin`.  The window ends with the address
  space, so it has `windowPages = 2 ^ 35` pages; `pagePtr p` is the pointer to page `p`.
* `Memory` is a store history over an arbitrary initial contents, one word at a time.  Keeping the
  history lets frame statements speak of the addresses that were *written*: `StoresIn P m m'` says
  that `m'` is `m` after some stores at addresses in `P`.  `m.word p i` is word `i` of page `p`.
-/

namespace Dumboss

open Prog

/-- A 64-bit machine word. -/
abbrev U64 := BitVec 64

/-- How a kernel function fails to return: an `assert` with its text, or an access outside an
array. -/
inductive Panic
  | failed (expression : String)
  | outOfBounds (array : String)
  deriving DecidableEq, Repr

/-- A kernel function over the state `σ`. -/
abbrev Kern (σ α : Type) := Prog Panic σ α

variable {σ : Type}

/-! ### Alignment (`lib/basics.h`) -/

/-- `__builtin_popcountl`. -/
def popcountl (v : U64) : ℕ := v.cpop.toNat

/-- The check that the three alignment macros make first. -/
def assertAlign (align : ℕ) : Kern σ Unit :=
  assert (popcountl (BitVec.ofNat 64 align) = 1) (.failed "alignment wasn't a power of 2")

/-- `align_up`, on values whose rounding stays below `2 ^ 64`. -/
def alignUp (value align : ℕ) : Kern σ ℕ := do
  assertAlign align
  return (value + (align - 1)) / align * align

/-- `align_down`. -/
def alignDown (value align : ℕ) : Kern σ ℕ := do
  assertAlign align
  return value / align * align

/-- `is_aligned`. -/
def isAligned (value align : ℕ) : Kern σ Bool := do
  assertAlign align
  return value % align = 0

theorem popcountl_two_pow : ∀ k < 64, popcountl (BitVec.ofNat 64 (2 ^ k)) = 1 := by
  decide +kernel

theorem wp_assertAlign {k : ℕ} (hk : k < 64) (Q : Unit → σ → Prop) (s : σ) :
    wp (assertAlign (2 ^ k) : Kern σ Unit) Q s ↔ Q () s := by
  simp only [assertAlign, wp_assert, popcountl_two_pow k hk, true_and]

theorem wp_alignUp {k : ℕ} (hk : k < 64) (v : ℕ) (Q : ℕ → σ → Prop) (s : σ) :
    wp (alignUp v (2 ^ k)) Q s ↔ Q ((v + (2 ^ k - 1)) / 2 ^ k * 2 ^ k) s := by
  simp [alignUp, wp_assertAlign hk]

theorem wp_alignDown {k : ℕ} (hk : k < 64) (v : ℕ) (Q : ℕ → σ → Prop) (s : σ) :
    wp (alignDown v (2 ^ k)) Q s ↔ Q (v / 2 ^ k * 2 ^ k) s := by
  simp [alignDown, wp_assertAlign hk]

theorem wp_isAligned {k : ℕ} (hk : k < 64) (v : ℕ) (Q : Bool → σ → Prop) (s : σ) :
    wp (isAligned v (2 ^ k)) Q s ↔ Q (decide (v % 2 ^ k = 0)) s := by
  simp [isAligned, wp_assertAlign hk]

/-! ### The kernel window -/

/-- `MEMORY__KERNEL_SPACE_BEGIN`. -/
def kernelSpaceBegin : U64 := 0xffff800000000000#64

/-- `physical_address`. -/
def physicalAddress (ptr : U64) : Kern σ U64 := do
  assert (kernelSpaceBegin ≤ ptr) (.failed "address >= MEMORY__KERNEL_SPACE_BEGIN")
  return ptr - kernelSpaceBegin

/-- `kernel_ptr`. -/
def kernelPtr (address : U64) : Kern σ U64 := do
  assert (address < kernelSpaceBegin) (.failed "address < MEMORY__KERNEL_SPACE_BEGIN")
  return address + kernelSpaceBegin

/-- The number of 4KB pages between `kernelSpaceBegin` and the end of the address space. -/
def windowPages : ℕ := 2 ^ 35

/-- The kernel pointer to physical page `p`. -/
def pagePtr (p : ℕ) : U64 := BitVec.ofNat 64 (0xffff800000000000 + 4096 * p)

/-- The address of word `i` of page `p`. -/
def cell (p i : ℕ) : U64 := pagePtr p + BitVec.ofNat 64 (8 * i)

theorem pagePtr_toNat {p : ℕ} (hp : p < windowPages) :
    (pagePtr p).toNat = 0xffff800000000000 + 4096 * p := by
  unfold windowPages at hp
  rw [pagePtr, BitVec.toNat_ofNat, Nat.mod_eq_of_lt (by omega)]

/-- The kernel window ends with the address space. -/
theorem pagePtr_windowPages : pagePtr windowPages = 0#64 := by decide +kernel

theorem cell_toNat {p i : ℕ} (hp : p < windowPages) (hi : i < 512) :
    (cell p i).toNat = 0xffff800000000000 + 4096 * p + 8 * i := by
  rw [cell, BitVec.toNat_add, pagePtr_toNat hp, BitVec.toNat_ofNat]
  unfold windowPages at hp
  omega

theorem cell_zero (p : ℕ) : cell p 0 = pagePtr p := by simp [cell]

theorem cell_inj {p q i j : ℕ} (hp : p < windowPages) (hq : q < windowPages) (hi : i < 512)
    (hj : j < 512) (h : cell p i = cell q j) : p = q ∧ i = j := by
  have h' := congrArg BitVec.toNat h
  rw [cell_toNat hp hi, cell_toNat hq hj] at h'
  omega

theorem pagePtr_inj {p q : ℕ} (hp : p < windowPages) (hq : q < windowPages)
    (h : pagePtr p = pagePtr q) : p = q := by
  rw [← cell_zero, ← cell_zero] at h
  exact (cell_inj hp hq (by omega) (by omega) h).1

theorem pagePtr_ne_zero {p : ℕ} (hp : p < windowPages) : pagePtr p ≠ 0#64 := by
  intro h
  have h' := congrArg BitVec.toNat h
  rw [pagePtr_toNat hp] at h'
  simp at h'

theorem kernelSpaceBegin_toNat : kernelSpaceBegin.toNat = 0xffff800000000000 := rfl

/-- The physical address of a word. -/
theorem cell_sub_toNat {p i : ℕ} (hp : p < windowPages) (hi : i < 512) :
    (cell p i - kernelSpaceBegin).toNat = 4096 * p + 8 * i := by
  rw [BitVec.toNat_sub, cell_toNat hp hi, kernelSpaceBegin_toNat]
  unfold windowPages at hp
  omega

theorem wp_physicalAddress {p : ℕ} (hp : p < windowPages) (Q : U64 → σ → Prop) (s : σ) :
    wp (physicalAddress (pagePtr p)) Q s ↔ Q (BitVec.ofNat 64 (4096 * p)) s := by
  have hle : kernelSpaceBegin ≤ pagePtr p := by
    rw [BitVec.le_def, pagePtr_toNat hp, kernelSpaceBegin_toNat]
    omega
  have hsub : pagePtr p - kernelSpaceBegin = BitVec.ofNat 64 (4096 * p) := by
    apply BitVec.eq_of_toNat_eq
    rw [BitVec.toNat_sub, pagePtr_toNat hp, kernelSpaceBegin_toNat, BitVec.toNat_ofNat]
    unfold windowPages at hp
    omega
  simp [physicalAddress, hle, hsub]

/-- The address of a page, as the allocator computes it from the page number. -/
theorem wp_kernelPtr {p : ℕ} (hp : p < windowPages) (Q : U64 → σ → Prop) (s : σ) :
    wp (kernelPtr (BitVec.ofNat 64 p * 4096#64)) Q s ↔ Q (pagePtr p) s := by
  have hn : (BitVec.ofNat 64 p * 4096#64).toNat = 4096 * p := by
    unfold windowPages at hp
    rw [BitVec.toNat_mul, BitVec.toNat_ofNat, BitVec.toNat_ofNat]
    omega
  have hlt : BitVec.ofNat 64 p * 4096#64 < kernelSpaceBegin := by
    rw [BitVec.lt_def, hn, kernelSpaceBegin_toNat]
    unfold windowPages at hp
    omega
  have hadd : BitVec.ofNat 64 p * 4096#64 + kernelSpaceBegin = pagePtr p := by
    apply BitVec.eq_of_toNat_eq
    rw [BitVec.toNat_add, hn, pagePtr_toNat hp, kernelSpaceBegin_toNat]
    unfold windowPages at hp
    omega
  simp [kernelPtr, hlt, hadd]

/-! ### Memory -/

/-- Word memory: its initial contents and the stores made since, latest first. -/
structure Memory where
  base : U64 → U64
  stores : List (U64 × U64)

namespace Memory

/-- Read the word at `a`. -/
def load (m : Memory) (a : U64) : U64 := (m.stores.lookup a).getD (m.base a)

/-- Write the word at `a`. -/
def store (m : Memory) (a v : U64) : Memory := { m with stores := (a, v) :: m.stores }

theorem load_store (m : Memory) (a b v : U64) :
    (m.store a v).load b = if b = a then v else m.load b := by
  by_cases h : b = a
  · simp [load, store, h]
  · have hb : (b == a) = false := by simpa using h
    simp [load, store, List.lookup, hb, h]

@[simp] theorem load_store_self (m : Memory) (a v : U64) : (m.store a v).load a = v := by
  rw [load_store, if_pos rfl]

/-- `m'` is `m` after some stores, all at addresses in `P`. -/
def StoresIn (P : U64 → Prop) (m m' : Memory) : Prop :=
  m'.base = m.base ∧ ∃ l, m'.stores = l ++ m.stores ∧ ∀ x ∈ l, P x.1

variable {P Q : U64 → Prop} {m m' m'' : Memory}

theorem StoresIn.refl (P : U64 → Prop) (m : Memory) : StoresIn P m m := ⟨rfl, [], rfl, by simp⟩

theorem StoresIn.trans (h : StoresIn P m m') (h' : StoresIn P m' m'') : StoresIn P m m'' := by
  obtain ⟨hb, l, hl, hP⟩ := h
  obtain ⟨hb', l', hl', hP'⟩ := h'
  refine ⟨hb'.trans hb, l' ++ l, by rw [hl', hl, List.append_assoc], ?_⟩
  intro x hx
  rcases List.mem_append.1 hx with hx | hx
  · exact hP' x hx
  · exact hP x hx

theorem StoresIn.mono (h : StoresIn P m m') (hPQ : ∀ a, P a → Q a) : StoresIn Q m m' := by
  obtain ⟨hb, l, hl, hP⟩ := h
  exact ⟨hb, l, hl, fun x hx => hPQ _ (hP x hx)⟩

theorem storesIn_store {a v : U64} (ha : P a) : StoresIn P m (m.store a v) :=
  ⟨rfl, [(a, v)], rfl, by simpa using ha⟩

/-- An address outside `P` keeps its contents. -/
theorem StoresIn.load_eq (h : StoresIn P m m') {a : U64} (ha : ¬ P a) : m'.load a = m.load a := by
  obtain ⟨hb, l, hl, hP⟩ := h
  have hnone : l.lookup a = none := by
    rw [List.lookup_eq_none_iff]
    intro x hx
    rw [bne_iff_ne]
    rintro rfl
    exact ha (hP x hx)
  rw [load, load, hl, hb, List.lookup_append, hnone, Option.none_or]

end Memory

/-- The words of the pages satisfying `P`. -/
def InPages (P : ℕ → Prop) (a : U64) : Prop :=
  ∃ p i, p < windowPages ∧ i < 512 ∧ a = cell p i ∧ P p

theorem inPages_cell {P : ℕ → Prop} {p i : ℕ} (hp : p < windowPages) (hi : i < 512) :
    InPages P (cell p i) ↔ P p := by
  constructor
  · rintro ⟨q, j, hq, hj, h, hP⟩
    obtain ⟨rfl, -⟩ := cell_inj hp hq hi hj h
    exact hP
  · exact fun hP => ⟨p, i, hp, hi, rfl, hP⟩

theorem InPages.mono {P Q : ℕ → Prop} (h : ∀ p, P p → Q p) {a : U64} (ha : InPages P a) :
    InPages Q a := by
  obtain ⟨p, i, hp, hi, rfl, hP⟩ := ha
  exact ⟨p, i, hp, hi, rfl, h p hP⟩

/-- Word `i` of page `p`. -/
def Memory.word (m : Memory) (p i : ℕ) : U64 := m.load (cell p i)

theorem Memory.word_store {p q i j : ℕ} (m : Memory) (v : U64) (hp : p < windowPages)
    (hq : q < windowPages) (hi : i < 512) (hj : j < 512) :
    (m.store (cell p i) v).word q j = if q = p ∧ j = i then v else m.word q j := by
  rw [word, load_store]
  by_cases h : q = p ∧ j = i
  · rw [if_pos h, if_pos (by rw [h.1, h.2])]
  · rw [if_neg h, if_neg fun hc => h (cell_inj hq hp hj hi hc)]
    rfl

theorem Memory.StoresIn.word_eq {P : ℕ → Prop} {m m' : Memory} {p i : ℕ}
    (h : StoresIn (InPages P) m m') (hp : p < windowPages) (hi : i < 512) (hP : ¬ P p) :
    m'.word p i = m.word p i :=
  h.load_eq fun hin => hP ((inPages_cell hp hi).1 hin)

theorem Memory.load_cell (m : Memory) (p i : ℕ) : m.load (cell p i) = m.word p i := rfl

theorem Memory.load_pagePtr (m : Memory) (p : ℕ) : m.load (pagePtr p) = m.word p 0 := by
  rw [Memory.word, cell_zero]

theorem Memory.store_pagePtr (m : Memory) (p : ℕ) (v : U64) :
    m.store (pagePtr p) v = m.store (cell p 0) v := by
  rw [cell_zero]

end Dumboss
