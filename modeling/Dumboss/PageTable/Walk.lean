import Dumboss.PageTable.Tree

/-!
# Walking the tables

What the functions that only read the tables return.

* `wp_loadEntry`, `wp_storeEntry`: an entry is a word of the table's page;
* `wp_pteAddress_next`: one step down from a p4 or p3 table;
* `translation`, `Walkable.translate_eq`: what `translate` returns, in terms of `frames`.
-/

namespace Dumboss.PageTable

open Prog

variable {ρ σ : Type}

theorem wp_loadEntry (t i : ℕ) (Q : U64 → Kernel ρ → Prop) (s : Kernel ρ) :
    wp (loadEntry (pagePtr t) i) Q s ↔ Q (s.memory.word t i) s := by
  simp only [loadEntry, wp_bind, wp_get, wp_pure]
  rfl

theorem wp_storeEntry (t i : ℕ) (e : U64) (Q : Unit → Kernel ρ → Prop) (s : Kernel ρ) :
    wp (storeEntry (pagePtr t) i e) Q s ↔
      Q () { s with memory := s.memory.store (cell t i) e } := by
  simp only [storeEntry, wp_modify]
  rfl

/-- The pointer to a table, or `NULL`. -/
def ptrOf : Option ℕ → U64
  | none => 0#64
  | some t => pagePtr t

theorem ptrOf_some (t : ℕ) : ptrOf (some t) = pagePtr t := rfl

variable {m : Memory} {root : ℕ}

/-- From a p4 or p3 table to the table below. -/
theorem wp_pteAddress_next (hW : Walkable m root) {d y t : ℕ} (hd : d < 2) (hy : y < 512 ^ (d + 1))
    (ht : table m root d (y / 512) = some t) (Q : U64 → σ → Prop) (s : σ) :
    wp (pteAddress (m.word t (y % 512))) Q s ↔ Q (ptrOf (table m root (d + 1) y)) s := by
  have hy' := Radix.div_lt_pow (by decide) hy
  have hlt := hW.frame_lt (isTable_of_table (by omega) hy' ht) (Nat.mod_lt y (by decide))
  have hnext : table m root (d + 1) y = next d (m.word t (y % 512)) := by
    rw [table_succ, ht]
    rfl
  rw [wp_pteAddress hlt, hnext]
  unfold next
  split_ifs with h0 h h
  · rfl
  · exact absurd (Or.inl h0) h
  · have : d ≠ 2 := by omega
    tauto
  · rfl

/-- What `translate` returns. -/
def translation (m : Memory) (root : ℕ) (w : U64) : U64 :=
  match frames m root (pageNo w) with
  | some f => pagePtr f + BitVec.ofNat 64 (w.toNat % 4096)
  | none =>
    if table m root 3 (pageNo w / 512) = none then 0#64 else BitVec.ofNat 64 (w.toNat % 4096)

theorem translation_of_frames {w : U64} {f : ℕ} (hf : frames m root (pageNo w) = some f) :
    translation m root w = pagePtr f + BitVec.ofNat 64 (w.toNat % 4096) := by
  rw [translation, hf]

/-- Memory that the tables agree on is translated alike. -/
theorem Agree.translation_eq {m' : Memory} (h : Agree m m' root) (w : U64) :
    translation m' root w = translation m root w := by
  have hy := Radix.div_lt_pow (by decide) (pageNo_lt_pow w)
  rw [translation, translation, h.frames_eq (pageNo_lt_pow w), h.table_eq le_rfl hy]

/-- A page-aligned address is translated to the frame of its page. -/
theorem translation_of_aligned {w : U64} (hw : w.toNat % 4096 = 0) :
    translation m root w = ptrOf (frames m root (pageNo w)) := by
  unfold translation
  rw [hw]
  cases frames m root (pageNo w) with
  | some f => exact BitVec.add_zero _
  | none => exact ite_self _

theorem frames_of_table_none {n : ℕ} (h2 : table m root 2 (n / 512 / 512) = none) :
    frames m root n = none := by
  rw [frames, hugeLeaf, h2, table_succ, h2]
  rfl

theorem table_three_of_none {y : ℕ} (h2 : table m root 2 (y / 512) = none) :
    table m root 3 y = none := by
  rw [table_succ, h2]
  rfl

/-- The address inside of a 2MB page. -/
theorem pagePtr_add_shift (f i : ℕ) :
    pagePtr f + (BitVec.ofNat 64 i <<< 12) = pagePtr (f + i) := by
  apply BitVec.eq_of_toNat_eq
  simp only [pagePtr, BitVec.toNat_add, BitVec.toNat_ofNat, BitVec.toNat_shiftLeft,
    Nat.shiftLeft_eq]
  omega

/-- The part of `translate` below the p2 table. -/
theorem wp_translate_leaf {s : Kernel ρ} (hW : Walkable s.memory root) {w : U64} {t : ℕ}
    (hy : pageNo w / 512 < 512 ^ 3) (ht : table s.memory root 2 (pageNo w / 512 / 512) = some t)
    (Q : U64 → Kernel ρ → Prop) :
    wp (pteAddress (s.memory.word t (pageNo w / 512 % 512))) (fun page s' =>
      if page = 0#64 then Q 0#64 s'
      else if s.memory.word t (pageNo w / 512 % 512) &&& pteHugePage ≠ 0#64 then
        Q (page + BitVec.ofNat 64 (pageNo w % 512) <<< 12 + BitVec.ofNat 64 (w.toNat % 4096)) s'
      else wp (loadEntry page (pageNo w % 512)) (fun e s'' =>
        wp (pteAddress e) (fun a s3 => Q (a + BitVec.ofNat 64 (w.toNat % 4096)) s3) s'') s') s ↔
      Q (translation s.memory root w) s := by
  have hmod : ∀ n : ℕ, n % 512 < 512 := fun n => Nat.mod_lt n (by decide)
  have htab := isTable_of_table (by omega) (Radix.div_lt_pow (by decide) hy) ht
  have hlt := hW.frame_lt htab (hmod (pageNo w / 512))
  have hleaf : hugeLeaf s.memory root (pageNo w / 512) =
      leaf2MB (s.memory.word t (pageNo w / 512 % 512)) := by
    rw [hugeLeaf, ht]
    rfl
  have hnext : table s.memory root 3 (pageNo w / 512) =
      next 2 (s.memory.word t (pageNo w / 512 % 512)) := by
    rw [table_succ, ht]
    rfl
  rw [wp_pteAddress hlt]
  generalize s.memory.word t (pageNo w / 512 % 512) = e at *
  by_cases h0 : e = 0#64
  · have hnone : table s.memory root 3 (pageNo w / 512) = none := by
      rw [hnext, next, if_pos (Or.inl h0)]
    rw [if_pos h0, if_pos rfl, translation, frames, hleaf, leaf2MB, if_neg fun hc => hc.1 h0, hnone]
    rfl
  · rw [if_neg h0, if_neg (pagePtr_ne_zero (hlt h0))]
    by_cases hh : e &&& pteHugePage ≠ 0#64
    · have hsome : hugeLeaf s.memory root (pageNo w / 512) = some (frame e) := by
        rw [hleaf, leaf2MB, if_pos ⟨h0, hh⟩]
      rw [if_pos hh, pagePtr_add_shift, translation_of_frames (frames_of_hugeLeaf hsome)]
    · have hsome : table s.memory root 3 (pageNo w / 512) = some (frame e) := by
        rw [hnext, next, if_neg]
        rintro (h | ⟨-, h⟩)
        · exact h0 h
        · exact hh h
      have hlt' := hW.frame_lt (isTable_of_table le_rfl hy hsome) (hmod (pageNo w))
      rw [if_neg hh, wp_loadEntry, wp_pteAddress hlt', translation, frames_of_table hsome, hsome,
        leaf4KB]
      by_cases he : s.memory.word (frame e) (pageNo w % 512) = 0#64
      · rw [if_pos he, if_pos he, BitVec.zero_add]
        rfl
      · rw [if_neg he, if_neg he]

theorem Walkable.wp_translate {s : Kernel ρ} (hW : Walkable s.memory root) (w : U64)
    (Q : U64 → Kernel ρ → Prop) :
    wp (translate (pagePtr root) w) Q s ↔ Q (translation s.memory root w) s := by
  have hn := pageNo_lt_pow w
  have hy3 := Radix.div_lt_pow (by decide) hn
  have hy2 := Radix.div_lt_pow (by decide) hy3
  have hy1 := Radix.div_lt_pow (by decide) hy2
  have hroot := hW.table_lt isTable_root
  have hnull : ∀ {d x t}, d ≤ 3 → x < 512 ^ d → table s.memory root d x = some t →
      ptrOf (some t) ≠ 0#64 :=
    fun hd hx ht => pagePtr_ne_zero (hW.table_lt (isTable_of_table hd hx ht))
  simp only [translate, pageTableIndices_eq, wp_ite, wp_bind, wp_pure, wp_loadEntry,
    if_neg (pagePtr_ne_zero hroot)]
  rw [wp_pteAddress_next hW (by omega) hy1 (table_zero _)]
  cases h1 : table s.memory root 1 (pageNo w / 512 / 512 / 512) with
  | none =>
    have h2 : table s.memory root 2 (pageNo w / 512 / 512) = none := by
      rw [table_succ, h1]
      rfl
    rw [translation, frames_of_table_none h2]
    simp only [ptrOf, table_three_of_none h2, if_true]
  | some t1 =>
    rw [if_neg (hnull (by omega) hy1 h1), ptrOf_some, wp_loadEntry,
      wp_pteAddress_next hW (by omega) hy2 h1]
    cases h2 : table s.memory root 2 (pageNo w / 512 / 512) with
    | none =>
      rw [translation, frames_of_table_none h2]
      simp only [ptrOf, table_three_of_none h2, if_true]
    | some t2 =>
      rw [if_neg (hnull (by omega) hy2 h2), ptrOf_some, wp_loadEntry]
      exact wp_translate_leaf hW hy3 h2 Q

/-- `translate` returns the translation of the address and changes nothing. -/
theorem Walkable.translate_eq {s : Kernel ρ} (hW : Walkable s.memory root) (w : U64) :
    translate (pagePtr root) w s = Except.ok (translation s.memory root w, s) :=
  eq_ok_of_wp ((hW.wp_translate w _).2 ⟨rfl, rfl⟩)

theorem wp_translate {s : Kernel ρ} (hR : Readable s.memory root) (w : U64)
    (Q : U64 → Kernel ρ → Prop) :
    wp (translate (pagePtr root) w) Q s ↔ Q (translation s.memory root w) s :=
  hR.walkable.wp_translate w Q

theorem translate_eq {s : Kernel ρ} (hR : Readable s.memory root) (w : U64) :
    translate (pagePtr root) w s = Except.ok (translation s.memory root w, s) :=
  hR.walkable.translate_eq w

end Dumboss.PageTable
