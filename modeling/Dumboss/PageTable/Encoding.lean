import Dumboss.PageTable.Grow

/-!
# Round trips of the encodings

An entry keeps the page that a pointer points to and the flags; the indices of an address keep its page.

* `pteAddress_makePte`: the entry made from a pointer leads back to it;
* `PageTableIndices.number`, `toNat_indicesToAddress`: the four indices as one page number, and the
  address with bit 47 copied to the bits above;
* `IsCanonical`: the addresses that the processor accepts;
* `encodings_round_trip`.
-/

namespace Dumboss.PageTable

open Prog

variable {σ : Type} {a flags : U64} {ix : PageTableIndices}

/-! ### Entries -/

/-- The flags of an entry, without its address. -/
theorem pte_and_not (q : ℕ) (hf : flags &&& pteAddressBits = 0#64) :
    pte q flags &&& ~~~pteAddressBits = flags := by
  have hflags : flags &&& ~~~pteAddressBits = flags := by
    have hsplit : flags &&& (pteAddressBits ||| ~~~pteAddressBits) = flags := by
      rw [BitVec.or_not_self, BitVec.and_allOnes]
    rwa [BitVec.and_or_distrib_left, hf, BitVec.zero_or] at hsplit
  have hmask : pteAddressBits &&& ~~~pteAddressBits = 0#64 := BitVec.and_not_self _
  rw [pte, BitVec.and_or_distrib_right, BitVec.and_assoc, hmask, BitVec.and_zero, BitVec.zero_or,
    hflags]

/-- The entry made from a pointer leads back to it, and `kernel_ptr` accepts its address. -/
theorem pteAddress_makePte {p : U64} (hal : p.toNat % 4096 = 0) (hp : kernelSpaceBegin ≤ p)
    (h0 : flags ≠ 0#64) (hf : flags &&& pteAddressBits = 0#64) :
    (∀ s : σ, makePte p flags s = Except.ok (pte (pageOf p) flags, s)) ∧
      ∀ s : σ, pteAddress (pte (pageOf p) flags) s = Except.ok (p, s) := by
  obtain ⟨hlt, hpage⟩ := eq_pagePtr_pageOf hp hal
  have hframe : frame (pte (pageOf p) flags) = pageOf p := frame_pte hlt hf
  refine ⟨fun s => eq_ok_of_wp ?_, fun s => eq_ok_of_wp ?_⟩
  · nth_rewrite 1 [hpage]
    rw [wp_makePte hlt]
    exact ⟨rfl, rfl⟩
  · rw [wp_pteAddress fun _ => by rwa [hframe], if_neg (pte_ne_zero h0), hframe]
    exact ⟨hpage.symm, rfl⟩

/-! ### Addresses -/

/-- The number of the virtual page that the indices lead to. -/
def PageTableIndices.number (ix : PageTableIndices) : ℕ :=
  512 * (512 * (512 * ix.p4 + ix.p3) + ix.p2) + ix.p1

/-- `x` with bit 47 copied to the bits above it. -/
theorem toNat_signExtend48 {x : U64} (hx : x.toNat < 2 ^ 48) :
    ((x <<< 16).sshiftRight 16).toNat =
      if x.toNat < 2 ^ 47 then x.toNat else x.toNat + (2 ^ 64 - 2 ^ 48) := by
  have hint : ((x <<< 16).sshiftRight 16).toInt =
      if x.toNat < 2 ^ 47 then (x.toNat : ℤ) else x.toNat - 2 ^ 48 := by
    rw [BitVec.toInt_sshiftRight, BitVec.toInt_shiftLeft, Int.shiftRight_eq_div_pow, Nat.shiftLeft_eq,
      Int.bmod_def]
    push_cast
    split_ifs <;> omega
  rw [BitVec.toInt_eq_toNat_cond] at hint
  push_cast at hint
  split_ifs at hint ⊢ <;> omega

theorem toNat_index {i k : ℕ} (hi : i < 512) (hk : k ≤ 39) :
    (BitVec.ofNat 64 i <<< k).toNat = 2 ^ k * i := by
  have hlt : 2 ^ k * i < 2 ^ 64 := by
    calc 2 ^ k * i < 2 ^ 39 * 2 ^ 9 :=
          Nat.mul_lt_mul_of_le_of_lt (Nat.pow_le_pow_right (by decide) hk) hi (by decide)
      _ ≤ 2 ^ 64 := by decide
  rw [BitVec.toNat_shiftLeft, BitVec.toNat_ofNat, Nat.mod_eq_of_lt (show i < 2 ^ 64 by omega),
    Nat.shiftLeft_eq, Nat.mul_comm, Nat.mod_eq_of_lt hlt]

/-- The four indices of an address do not overlap. -/
theorem toNat_indices (h1 : ix.p1 < 512) (h2 : ix.p2 < 512) (h3 : ix.p3 < 512) (h4 : ix.p4 < 512) :
    ((BitVec.ofNat 64 ix.p4 <<< 39) ||| (BitVec.ofNat 64 ix.p3 <<< 30) |||
      (BitVec.ofNat 64 ix.p2 <<< 21) ||| (BitVec.ofNat 64 ix.p1 <<< 12)).toNat =
      4096 * ix.number := by
  rw [BitVec.toNat_or, BitVec.toNat_or, BitVec.toNat_or, toNat_index h1 (by decide),
    toNat_index h2 (by decide), toNat_index h3 (by decide), toNat_index h4 (by decide), Nat.or_assoc,
    Nat.or_assoc, ← Nat.two_pow_add_eq_or_of_lt (i := 21) (by omega),
    ← Nat.two_pow_add_eq_or_of_lt (i := 30) (by omega),
    ← Nat.two_pow_add_eq_or_of_lt (i := 39) (by omega), PageTableIndices.number]
  omega

theorem toNat_indicesToAddress (h1 : ix.p1 < 512) (h2 : ix.p2 < 512) (h3 : ix.p3 < 512)
    (h4 : ix.p4 < 512) : (indicesToAddress ix).toNat =
      if ix.number < 2 ^ 35 then 4096 * ix.number else 4096 * ix.number + (2 ^ 64 - 2 ^ 48) := by
  have hnum : ix.number < 2 ^ 36 := by
    rw [PageTableIndices.number]
    omega
  have hor := toNat_indices h1 h2 h3 h4
  rw [indicesToAddress, toNat_signExtend48 (by omega), hor]
  split_ifs <;> omega

/-- Bits 48 to 63 of the address are equal to bit 47. -/
def IsCanonical (a : U64) : Prop := ∀ i, 48 ≤ i → i < 64 → a.getLsbD i = a.getLsbD 47

/-- The canonical addresses are the lowest and the highest `2 ^ 47`. -/
theorem IsCanonical.toNat (h : IsCanonical a) : a.toNat < 2 ^ 47 ∨ 2 ^ 64 - 2 ^ 47 ≤ a.toNat := by
  have hhigh : ∀ i, 47 ≤ i → i < 64 → a.getLsbD i = a.getLsbD 47 := by
    intro i hi hlt
    rcases Nat.eq_or_lt_of_le hi with rfl | hgt
    · rfl
    · exact h i hgt hlt
  cases hbit : a.getLsbD 47 with
  | false =>
    left
    apply Nat.lt_pow_two_of_testBit
    intro i hi
    by_cases hlt : i < 64
    · exact (hhigh i hi hlt).trans hbit
    · exact BitVec.getLsbD_of_ge a i (by omega)
  | true =>
    right
    have hnot : (~~~a).toNat < 2 ^ 47 := by
      apply Nat.lt_pow_two_of_testBit
      intro i hi
      rw [BitVec.testBit_toNat, BitVec.getLsbD_not]
      by_cases hlt : i < 64
      · rw [hhigh i hi hlt, hbit]
        simp
      · simp [hlt]
    rw [BitVec.toNat_not] at hnot
    omega

/-- The indices of a canonical address lead back to its page. -/
theorem toNat_indicesToAddress_pageTableIndices (h : IsCanonical a) :
    (indicesToAddress (pageTableIndices a)).toNat = a.toNat / 4096 * 4096 := by
  have hmod (n : ℕ) : n % 512 < 512 := Nat.mod_lt n (by decide)
  have hnum : (pageTableIndices a).number = pageNo a := by
    have hlt := pageNo_lt a
    rw [pageTableIndices_eq, PageTableIndices.number]
    dsimp only
    omega
  rw [toNat_indicesToAddress, hnum, pageNo]
  · rcases h.toNat with hlow | hhigh
    · rw [if_pos (by omega)]
      omega
    · have := a.isLt
      rw [if_neg (by omega)]
      omega
  all_goals
    rw [pageTableIndices_eq]
    exact hmod _

/-- The indices of the address that indices lead to. -/
theorem pageTableIndices_indicesToAddress (h0 : ix.p0 = 0) (h1 : ix.p1 < 512) (h2 : ix.p2 < 512)
    (h3 : ix.p3 < 512) (h4 : ix.p4 < 512) : pageTableIndices (indicesToAddress ix) = ix := by
  have haddr := toNat_indicesToAddress h1 h2 h3 h4
  have hnum : pageNo (indicesToAddress ix) = ix.number := by
    rw [pageNo, haddr, PageTableIndices.number]
    split_ifs <;> omega
  have hoffset : (indicesToAddress ix).toNat % 4096 = 0 := by
    rw [haddr]
    split_ifs <;> omega
  rw [pageTableIndices_eq, hnum, hoffset, PageTableIndices.number]
  obtain ⟨p0, p1, p2, p3, p4⟩ := ix
  dsimp only at *
  rw [PageTableIndices.mk.injEq]
  omega

/-- **The encodings round-trip.** -/
theorem encodings_round_trip :
    (∀ p flags : U64, p.toNat % 4096 = 0 → kernelSpaceBegin ≤ p → flags ≠ 0#64 →
      flags &&& pteAddressBits = 0#64 → ∃ e, (∀ s : σ, makePte p flags s = Except.ok (e, s)) ∧
        (∀ s : σ, pteAddress e s = Except.ok (p, s)) ∧ e &&& ~~~pteAddressBits = flags) ∧
    (∀ a : U64, IsCanonical a →
      (indicesToAddress (pageTableIndices a)).toNat = a.toNat / 4096 * 4096) ∧
    ∀ ix : PageTableIndices, ix.p0 = 0 → ix.p1 < 512 → ix.p2 < 512 → ix.p3 < 512 → ix.p4 < 512 →
      pageTableIndices (indicesToAddress ix) = ix := by
  refine ⟨fun p flags hal hp h0 hf => ?_, fun a ha => ?_, fun ix h0 h1 h2 h3 h4 => ?_⟩
  · obtain ⟨hmake, haddress⟩ := pteAddress_makePte hal hp h0 hf
    exact ⟨_, hmake, haddress, pte_and_not _ hf⟩
  · exact toNat_indicesToAddress_pageTableIndices ha
  · exact pageTableIndices_indicesToAddress h0 h1 h2 h3 h4

/-- The last page of the kernel window, the first canonical address of the upper half, and its
indices. -/
theorem encodings_round_trip_boundary :
    (∃ e, makePte 0xfffffffffffff000#64 3#64 () = Except.ok (e, ()) ∧
      pteAddress e () = Except.ok (0xfffffffffffff000#64, ()) ∧ e &&& ~~~pteAddressBits = 3#64) ∧
    (indicesToAddress (pageTableIndices kernelSpaceBegin)).toNat =
      kernelSpaceBegin.toNat / 4096 * 4096 ∧
    pageTableIndices (indicesToAddress ⟨0, 0, 0, 0, 256⟩) = ⟨0, 0, 0, 0, 256⟩ := by
  obtain ⟨hpte, haddress, hindices⟩ := encodings_round_trip (σ := Unit)
  refine ⟨?_, haddress _ (by unfold IsCanonical; decide), hindices _ rfl ?_ ?_ ?_ ?_⟩
  · obtain ⟨e, hmake, hback, hflags⟩ := hpte 0xfffffffffffff000#64 3#64 (by decide) (by decide)
      (by decide) (by decide)
    exact ⟨e, hmake (), hback (), hflags⟩
  all_goals decide

end Dumboss.PageTable
