import Dumboss.PageTable.Model
import Dumboss.BitSet

/-!
# Entries, indices and page numbers

The bit-level facts about page table entries and virtual addresses, in terms of page numbers.

* `pageNo v`: the number of the virtual page of `v`, bits 12 to 47; `pageTableIndices_eq` reads the
  four indices off it as digits to base 512;
* `frame e`, `huge e`: the physical page and the `PTE_HUGE_PAGE` bit of an entry;
* `pte q flags`: the entry that leads to page `q`;
* `wp_pteAddress`, `wp_makePte`.
-/

namespace Dumboss.PageTable

open Prog

/-- The number of the virtual page of an address, as far as the tables tell pages apart. -/
def pageNo (v : U64) : ℕ := v.toNat / 4096 % 2 ^ 36

theorem pageNo_lt (v : U64) : pageNo v < 2 ^ 36 := Nat.mod_lt _ (by decide)

theorem pageTableIndices_eq (v : U64) : pageTableIndices v =
    ⟨v.toNat % 4096, pageNo v % 512, pageNo v / 512 % 512, pageNo v / 512 / 512 % 512,
      pageNo v / 512 / 512 / 512 % 512⟩ := by
  simp only [pageTableIndices, pageNo, BitVec.toNat_ushiftRight, Nat.shiftRight_eq_div_pow,
    PageTableIndices.mk.injEq]
  refine ⟨trivial, ?_, ?_, ?_, ?_⟩ <;> omega

/-- The physical page of an entry: bits 12 to 47. -/
def frame (e : U64) : ℕ := e.toNat / 4096 % 2 ^ 36

/-- The entry has `PTE_HUGE_PAGE`. -/
def huge (e : U64) : Prop := e &&& pteHugePage ≠ 0#64

instance (e : U64) : Decidable (huge e) := inferInstanceAs (Decidable (_ ≠ _))

/-- The entry for page `q` with the given flags. -/
def pte (q : ℕ) (flags : U64) : U64 := (BitVec.ofNat 64 (4096 * q) &&& pteAddressBits) ||| flags

/-- The flags that the callers pass. -/
structure FlagsOk (flags : U64) : Prop where
  ne_zero : flags ≠ 0#64
  address : flags &&& pteAddressBits = 0#64
  hugePage : flags &&& pteHugePage = 0#64

/-! ### Bits -/

theorem getLsbD_pteAddressBits : ∀ i < 64,
    pteAddressBits.getLsbD i = decide (12 ≤ i ∧ i < 52) := by decide +kernel

theorem getLsbD_pteHugePage : ∀ i < 64, pteHugePage.getLsbD i = decide (i = 7) := by
  decide +kernel

theorem testBit_frame (e : U64) (i : ℕ) :
    (frame e).testBit i = (decide (i < 36) && e.getLsbD (i + 12)) := by
  rw [frame, Nat.testBit_mod_two_pow, show (4096 : ℕ) = 2 ^ 12 from rfl, Nat.testBit_div_two_pow]
  rfl

theorem huge_iff (e : U64) : huge e ↔ e.getLsbD 7 = true := by
  rw [huge, pteHugePage, BitVec.and_comm, ne_comm]
  exact BitSet.bit_and_ne_zero_iff e (by decide)

/-- The address bits of an entry below physical `2 ^ 47`, sign-extended from bit 47. -/
theorem address_eq {e : U64} (he : frame e < windowPages) :
    ((e &&& pteAddressBits) <<< 16).sshiftRight 16 = BitVec.ofNat 64 (frame e) * 4096#64 := by
  have h47 : e.getLsbD 47 = false := by
    have hbit : (frame e).testBit 35 = false := Nat.testBit_lt_two_pow he
    rw [testBit_frame] at hbit
    simpa using hbit
  have hprod : BitVec.ofNat 64 (frame e) * 4096#64 = BitVec.ofNat 64 (2 ^ 12 * frame e) := by
    rw [Nat.mul_comm, BitVec.ofNat_mul]
    rfl
  rw [hprod]
  apply BitVec.eq_of_getLsbD_eq
  intro i hi
  rw [BitVec.getLsbD_sshiftRight, BitVec.getLsbD_ofNat, Nat.testBit_two_pow_mul, testBit_frame]
  have hmsb : ((e &&& pteAddressBits) <<< 16).msb = false := by
    rw [BitVec.msb_eq_getLsbD_last, BitVec.getLsbD_shiftLeft, BitVec.getLsbD_and,
      show 64 - 1 - 16 = 47 by decide, h47]
    simp
  by_cases h1 : 16 + i < 64
  · rw [if_pos h1, BitVec.getLsbD_shiftLeft, BitVec.getLsbD_and,
      show 16 + i - 16 = i by omega, getLsbD_pteAddressBits i hi]
    by_cases h2 : 12 ≤ i
    · simp [hi, h1, h2, show i < 52 by omega, show i - 12 < 36 by omega]
    · simp [h2]
  · rw [if_neg h1, hmsb]
    simp [show ¬ i - 12 < 36 by omega]

theorem wp_pteAddress {σ : Type} {e : U64} (he : e ≠ 0#64 → frame e < windowPages)
    (Q : U64 → σ → Prop) (s : σ) :
    wp (pteAddress e) Q s ↔ Q (if e = 0#64 then 0#64 else pagePtr (frame e)) s := by
  simp only [pteAddress, wp_ite, wp_pure]
  split_ifs with h0
  · rfl
  · rw [address_eq (he h0)]
    exact wp_kernelPtr (he h0) Q s

theorem wp_makePte {σ : Type} {q : ℕ} (hq : q < windowPages) (flags : U64) (Q : U64 → σ → Prop)
    (s : σ) : wp (makePte (pagePtr q) flags) Q s ↔ Q (pte q flags) s := by
  simp only [makePte, wp_bind, wp_physicalAddress hq, wp_pure, if_neg (pagePtr_ne_zero hq)]
  rfl

/-! ### The entry for a page -/

theorem getLsbD_pte {q : ℕ} {flags : U64} {i : ℕ} (hi : i < 64) : (pte q flags).getLsbD i =
    ((decide (12 ≤ i ∧ i < 52) && q.testBit (i - 12)) || flags.getLsbD i) := by
  rw [pte, BitVec.getLsbD_or, BitVec.getLsbD_and, BitVec.getLsbD_ofNat,
    show (4096 : ℕ) = 2 ^ 12 from rfl, Nat.testBit_two_pow_mul, getLsbD_pteAddressBits i hi]
  by_cases h1 : 12 ≤ i
  · by_cases h2 : i < 52 <;> simp [hi, h1, h2]
  · simp [h1]

theorem frame_pte {q : ℕ} (hq : q < windowPages) {flags : U64}
    (hf : flags &&& pteAddressBits = 0#64) : frame (pte q flags) = q := by
  apply Nat.eq_of_testBit_eq
  intro i
  rw [testBit_frame]
  by_cases hi : i < 36
  · have hflag : flags.getLsbD (i + 12) = false := by
      have h0 := congrArg (fun v => BitVec.getLsbD v (i + 12)) hf
      simp only [BitVec.getLsbD_and, BitVec.getLsbD_zero,
        getLsbD_pteAddressBits (i + 12) (by omega)] at h0
      simpa [show i + 12 < 52 by omega] using h0
    rw [getLsbD_pte (by omega), hflag]
    simp [hi, show i + 12 < 52 by omega]
  · have hbit : q.testBit i = false := by
      refine Nat.testBit_lt_two_pow (lt_of_lt_of_le hq ?_)
      exact Nat.pow_le_pow_right (by decide) (by omega)
    simp [hi, hbit]

theorem pte_ne_zero {q : ℕ} {flags : U64} (hf : flags ≠ 0#64) : pte q flags ≠ 0#64 := by
  intro h0
  rw [pte, BitVec.or_eq_zero_iff] at h0
  exact hf h0.2

theorem huge_pte {q : ℕ} {flags : U64} : huge (pte q flags) ↔ huge flags := by
  rw [huge_iff, huge_iff, getLsbD_pte (by decide)]
  simp

theorem FlagsOk.not_huge {flags : U64} (hf : FlagsOk flags) : ¬ huge flags := by
  rw [huge, hf.hugePage]
  simp

/-- The flags of a 2MB page. -/
theorem FlagsOk.or_huge {flags : U64} (hf : FlagsOk flags) :
    flags ||| pteHugePage ≠ 0#64 ∧ (flags ||| pteHugePage) &&& pteAddressBits = 0#64 ∧
      huge (flags ||| pteHugePage) := by
  refine ⟨?_, ?_, ?_⟩
  · intro h0
    rw [BitVec.or_eq_zero_iff] at h0
    exact hf.ne_zero h0.1
  · rw [BitVec.and_or_distrib_right, hf.address]
    decide
  · rw [huge_iff, BitVec.getLsbD_or, getLsbD_pteHugePage 7 (by decide)]
    simp

end Dumboss.PageTable
