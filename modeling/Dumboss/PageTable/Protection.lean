import Dumboss.PageTable.Switch

/-!
# Access rights in the kernel's own table

The first call of `copy_mapping` maps the code with `PTE_KERNEL_EXE`, and so makes the p4 entry that all
of the image is reached through without `PTE_WRITABLE`.  The calls for the data ask for `PTE_KERNEL`, but
find that entry there.  The rights are those that the entries give; in ring 0 the processor
obeys a clear `PTE_WRITABLE` only while `CR0.WP` is set.

* `Stamped.effective_of_fresh`: the first page below a p4 entry has the rights that were asked for;
* `Written.protected`: the rights that follow from what `buildTable` writes;
* `switchTables_protects`: the rights after the switch.
-/

namespace Dumboss.PageTable

open Prog

variable {m m' : Memory} {root n : ℕ} {flags : U64}

/-- Below an empty p4 entry all entries are empty. -/
theorem upper_eq_zero (h0 : entry m root 0 (key n 0) = 0#64) : ∀ e ∈ upper m root n, e = 0#64 := by
  have down : ∀ d x, entry m root d (x / 512) = 0#64 → entry m root (d + 1) x = 0#64 := by
    intro d x h
    refine entry_of_table_none ?_
    by_contra hsome
    obtain ⟨t, ht⟩ := Option.ne_none_iff_exists'.1 hsome
    exact entry_ne_zero_of_table ht h
  have h1 : entry m root 1 (key n 1) = 0#64 := down 0 (key n 1) h0
  have h2 : entry m root 2 (key n 2) = 0#64 := down 1 (key n 2) h1
  intro e he
  obtain ⟨d, hd, rfl⟩ := mem_upper.1 he
  interval_cases d
  exacts [h0, h1, h2]

/-- The first page that is mapped below a p4 entry has the rights of the flags. -/
theorem Stamped.effective_of_fresh (h : Stamped flags root m m') (hn : n < 2 ^ 36)
    (hfree : frames m root n = none) (hmapped : frames m' root n ≠ none)
    (h0 : entry m root 0 (key n 0) = 0#64) : effective m' root n = rightsOf flags :=
  (h.effective_eq_iff hn hfree hmapped).2 fun e he hne => absurd (upper_eq_zero h0 e he) hne

theorem Keeps.effective_eq (h : Keeps root m m') (hn : n < 2 ^ 36) (hmapped : frames m root n ≠ none) :
    effective m' root n = effective m root n := by
  rw [effective, effective, h.walk_eq hn hmapped]

theorem Agree.effective_eq (h : Agree m m' root) (hn : n < 2 ^ 36) :
    effective m' root n = effective m root n := by
  have hentry : ∀ d ≤ 3, entry m' root d (key n d) = entry m root d (key n d) := fun d hd =>
    h.entry_eq hd (key_lt hn d hd)
  have hupper : upper m' root n = upper m root n := by
    unfold upper
    rw [show entry m' root 0 (n / 512 / 512 / 512) = _ from hentry 0 (by omega),
      show entry m' root 1 (n / 512 / 512) = _ from hentry 1 (by omega),
      show entry m' root 2 (n / 512) = _ from hentry 2 (by omega)]
    rfl
  rw [effective, effective, walk, walk, hupper,
    show entry m' root 2 (n / 512) = entry m root 2 (n / 512) from hentry 2 (by omega),
    show entry m' root 3 n = entry m root 3 n from hentry 3 le_rfl]

/-- A page of data below a p4 entry that may not be written. -/
theorem effective_of_top (htop : (rightsOf (entry m root 0 (key n 0))).writable = false)
    (hleaf : rightsOf (leafEntry m root n) = rightsOf pteKernel) :
    effective m root n = ⟨false, false, true⟩ := by
  have hmem : leafEntry m root n ∈ walk m root n := mem_walk.2 (Or.inr rfl)
  have hmem0 : entry m root 0 (key n 0) ∈ walk m root n :=
    mem_walk.2 (Or.inl (mem_upper.2 ⟨0, by omega, rfl⟩))
  have hw : (walk m root n).all (fun e => (rightsOf e).writable) = false :=
    List.all_eq_false.2 ⟨_, hmem0, by simp [htop]⟩
  have hu : (walk m root n).all (fun e => (rightsOf e).userAccessible) = false :=
    List.all_eq_false.2 ⟨_, hmem, by rw [hleaf]; decide⟩
  have hx : (walk m root n).any (fun e => (rightsOf e).noExecute) = true :=
    List.any_eq_true.2 ⟨_, hmem, by rw [hleaf]; decide⟩
  rw [effective, combine, hw, hu, hx]

/-! ### The image -/

namespace Image

variable (im : Image)

/-- The range of the code. -/
def code : Copy := ⟨codeBegin, (im.codeEnd.toNat - codeBegin.toNat) / 4096, pteKernelExe⟩

/-- The other ranges. -/
def data : List Copy :=
  [⟨im.codeEnd, (im.bssEnd.toNat - im.codeEnd.toNat) / 4096, pteKernel⟩,
    ⟨bb, 1, pteKernel⟩, ⟨environment, 1, pteKernel⟩, ⟨bootStack, 1, pteKernel⟩,
    ⟨fb, (im.fbSize + 4095) / 4096, pteKernel⟩]

theorem copies_eq : im.copies = im.code :: im.data := rfl

theorem flags_of_mem_data {c : Copy} (hc : c ∈ im.data) : c.flags = pteKernel := by
  simp only [data, List.mem_cons, List.not_mem_nil, or_false] at hc
  rcases hc with rfl | rfl | rfl | rfl | rfl <;> rfl

/-- All of the image is reached through the last p4 entry. -/
theorem key_zero {c : Copy} (hc : c ∈ im.copies) (hn : n ∈ c.range) : n < 2 ^ 36 ∧ key n 0 = 511 := by
  obtain ⟨hlow, hhigh⟩ := im.virt_bounds hc
  have hno := pageNo_high hlow
  have hal := im.aligned hc
  obtain ⟨hge, hlt⟩ := hn
  have hn' : n < 2 ^ 36 := by omega
  refine ⟨hn', ?_⟩
  change n / 512 / 512 / 512 = 511
  omega

theorem code_range_pos (hcode : codeBegin.toNat < im.codeEnd.toNat) : pageNo codeBegin ∈ im.code.range := by
  have hal := im.codeEnd_aligned
  have hal' : codeBegin.toNat % 4096 = 0 := by decide
  rw [Copy.range, Set.mem_Ico]
  change pageNo codeBegin ≤ pageNo codeBegin ∧
    pageNo codeBegin < pageNo codeBegin + (im.codeEnd.toNat - codeBegin.toNat) / 4096
  omega

end Image

/-! ### What follows from the writes -/

variable {new endPage : ℕ} {im : Image} {cs : List Copy}

theorem Stamps.keeps (h : Stamps new cs m m') : Keeps new m m' := by
  induction h with
  | nil m => exact fun _ _ _ _ _ => rfl
  | cons h _ _ _ ih => exact h.keeps.trans ih

/-- The data is mapped when the p4 entry is there.  The induction is on the ranges; the p4 entry is the
invariant. -/
theorem Stamps.effective_data (h : Stamps new cs m m') (htop : entry m new 0 511 ≠ 0#64)
    (hw : (rightsOf (entry m new 0 511)).writable = false)
    (hcs : ∀ c ∈ cs, c.flags = pteKernel ∧ ∀ n ∈ c.range, n < 2 ^ 36 ∧ key n 0 = 511) :
    ∀ c ∈ cs, ∀ n ∈ c.range, effective m' new n = ⟨false, false, true⟩ := by
  induction h with
  | nil m => simp
  | cons h hfree hmapped hrest ih =>
    have htop' := h.keeps 0 (by omega) 511 (by decide) htop
    intro c hc n hn
    rcases List.mem_cons.1 hc with rfl | hc
    · obtain ⟨hflags, hrange⟩ := hcs c (by simp)
      obtain ⟨hlt, hkey⟩ := hrange n hn
      rw [hrest.keeps.effective_eq hlt (hmapped n hn)]
      refine effective_of_top (by rw [hkey, htop', hw]) ?_
      rw [h.rightsOf_leafEntry hlt (hfree n hn) (hmapped n hn), hflags]
    · exact ih (by rwa [htop']) (by rwa [htop']) (fun c hc => hcs c (by simp [hc])) c hc n hn

/-- The access rights in the table `new`. -/
structure Protected (endPage : ℕ) (im : Image) (new : ℕ) (m : Memory) : Prop where
  /-- All memory can be written at its kernel pointer, and not executed there. -/
  window : ∀ n ∈ Set.Ico (2 ^ 35) (2 ^ 35 + endPage), effective m new n = rightsOf pteKernel
  /-- The code can be executed, and not written. -/
  code : ∀ n ∈ im.code.range, effective m new n = rightsOf pteKernelExe
  /-- The data of the image, `bb`, `environment`, the stack and the frame buffer can only be read, although
  `PTE_KERNEL` asks for `PTE_WRITABLE`. -/
  data : ∀ c ∈ im.data, ∀ n ∈ c.range, effective m new n = ⟨false, false, true⟩

theorem Written.protected (hW : Written endPage im new m) (hend : endPage ≤ 255 * 2 ^ 27)
    (hcode : codeBegin.toNat < im.codeEnd.toNat) : Protected endPage im new m := by
  obtain ⟨m₁, m₂, hzero, hwin, hmapped, hst⟩ := hW
  have hroot : ∀ x < 512, entry m₁ new 0 x = 0#64 := by
    intro x hx
    rw [entry_of_table (table_zero _), Nat.mod_eq_of_lt hx, hzero x hx]
  have hwlt : ∀ n ∈ Set.Ico (2 ^ 35) (2 ^ 35 + endPage), n < 2 ^ 36 ∧ key n 0 < 511 := by
    rintro n ⟨-, hn⟩
    refine ⟨by omega, ?_⟩
    change n / 512 / 512 / 512 < 511
    omega
  -- the kernel window does not reach the last p4 entry
  have htop₂ : entry m₂ new 0 511 = 0#64 := by
    rw [hwin.entry_eq (by omega) (by decide) fun n hn => (hwlt n hn).2.ne]
    exact hroot 511 (by decide)
  rw [im.copies_eq] at hst
  have hkeeps := hst.keeps
  cases hst with | @cons _ m₃ _ _ _ hexe hfree hmapped₃ hrest =>
  have hlt : ∀ n ∈ im.code.range, n < 2 ^ 36 ∧ key n 0 = 511 := fun n hn =>
    im.key_zero (by simp [im.copies_eq]) hn
  have htop₃ : entry m₃ new 0 511 ≠ 0#64 ∧ rightsOf (entry m₃ new 0 511) = rightsOf pteKernelExe := by
    have hn := im.code_range_pos hcode
    have hkey := (hlt _ hn).2
    have hne : entry m₃ new 0 511 ≠ 0#64 := by
      rw [← hkey]
      exact walk_ne_zero (hmapped₃ _ hn) _ (mem_walk.2 (Or.inl (mem_upper.2 ⟨0, by omega, rfl⟩)))
    refine ⟨hne, ?_⟩
    rcases hexe 0 (by omega) 511 (by decide) with heq | ⟨-, hr⟩
    · exact absurd (heq.trans htop₂) hne
    · exact hr
  refine ⟨?_, ?_, ?_⟩
  · intro n hn
    obtain ⟨hn', hkey⟩ := hwlt n hn
    have hfree₁ : frames m₁ new n = none := frames_of_zero hzero n
    rw [hkeeps.effective_eq hn' (hmapped n hn)]
    exact hwin.stamped.effective_of_fresh hn' hfree₁ (hmapped n hn) (hroot _ (by omega))
  · intro n hn
    obtain ⟨hn', hkey⟩ := hlt n hn
    rw [hrest.keeps.effective_eq hn' (hmapped₃ n hn)]
    exact hexe.effective_of_fresh hn' (hfree n hn) (hmapped₃ n hn) (by rw [hkey, htop₂])
  · refine hrest.effective_data htop₃.1 (by rw [htop₃.2]; decide) fun c hc => ?_
    exact ⟨im.flags_of_mem_data hc, fun n hn => im.key_zero (by simp [im.copies_eq, hc]) hn⟩

theorem Protected.of_agree (h : Protected endPage im new m) (ha : Agree m m' new)
    (hend : endPage ≤ 2 ^ 35) : Protected endPage im new m' where
  window := by
    intro n hn
    rw [ha.effective_eq (by have := hn.2; omega)]
    exact h.window n hn
  code := by
    intro n hn
    rw [ha.effective_eq (im.key_zero (by simp [im.copies_eq]) hn).1]
    exact h.code n hn
  data := by
    intro c hc n hn
    rw [ha.effective_eq (im.key_zero (by simp [im.copies_eq, hc]) hn).1]
    exact h.data c hc n hn

/-- No page can be both written and executed, and none can be reached from user mode. -/
theorem Protected.writable_imp (h : Protected endPage im new m) (hn : n ∈ mappedPages endPage im) :
    (effective m new n).userAccessible = false ∧
      ((effective m new n).writable = true → (effective m new n).noExecute = true) := by
  rcases hn with hn | hn
  · rw [h.window n hn]
    decide
  · obtain ⟨c, hc, hn⟩ := Set.mem_iUnion₂.1 hn
    rw [im.copies_eq] at hc
    rcases List.mem_cons.1 hc with rfl | hc
    · rw [h.code n hn]
      decide
    · rw [h.data c hc n hn]
      decide

variable {N old fuel : ℕ} {s : Kernel MemGlobals}

/-- **The access rights after the switch**, on a machine whose memory ends below the last p4 entry of the
kernel window and with an image that has code: no mapped page can be both written and executed or be
reached from user mode; memory can be written at its kernel pointers, the code can be executed, and the
data of the image can be read only. -/
theorem switchTables_protects (hI : Inv N ⟨s.memory, s.source⟩)
    (hT : Tree s.memory old {p | p ∉ s.source.freeSet}) (hold : ∀ t, IsTable s.memory old t → t < N)
    (hend : endPage ≤ 255 * 2 ^ 27) (hcode : codeBegin.toNat < im.codeEnd.toNat)
    (hrun : ∀ c ∈ im.copies, Copyable s.memory old c)
    (hmem : im.demand endPage ≤ s.source.freeSet.ncard) (hfuel : N < fuel) :
    ∃ new s', switchTables N s.source.usablePages fuel endPage im (BitVec.ofNat 64 (4096 * old)) s =
      Except.ok (BitVec.ofNat 64 (4096 * new), s') ∧ Protected endPage im new s'.memory ∧
      ∀ n < 2 ^ 36, frames s'.memory new n ≠ none →
        (effective s'.memory new n).userAccessible = false ∧
          ((effective s'.memory new n).writable = true → (effective s'.memory new n).noExecute = true) := by
  have hend' : endPage + 2 ^ 14 ≤ windowPages := by
    unfold windowPages
    omega
  obtain ⟨_, s', hexec, new, rfl, -, hmapped, m, hW, ha⟩ :=
    wp_switchTables hI hT hold hend' hrun hmem hfuel
  have hP : Protected endPage im new s'.memory := (hW.protected hend hcode).of_agree ha (by omega)
  exact ⟨new, s', hexec, hP, fun n hn hne => hP.writable_imp (hmapped n hn hne)⟩

theorem switchTables_protects_small_image : ∃ (s s' : Kernel MemGlobals) (new : ℕ),
    switchTables 4096 s.source.usablePages 4097 512 smallImage (BitVec.ofNat 64 (4096 * 0)) s =
      Except.ok (BitVec.ofNat 64 (4096 * new), s') ∧ Protected 512 smallImage new s'.memory := by
  obtain ⟨s, hI, hT, -, hold, hcard, hend, hfb⟩ := exists_loaded
  have hdem := demand_smallImage 512
  have hcode : codeBegin.toNat < smallImage.codeEnd.toNat := by decide
  have hwindow : 512 ≤ 255 * 2 ^ 27 := by decide
  have hfuel : 4096 < 4097 := by decide
  have hold' : ∀ t, IsTable s.memory 0 t → t < 4096 := fun t ht => (hold t ht).trans (by decide)
  obtain ⟨new, s', hexec, hP, -⟩ := switchTables_protects hI hT hold' hwindow hcode
    (copyable_smallImage hend hfb) (by omega) hfuel
  exact ⟨s, s', new, hexec, hP⟩

end Dumboss.PageTable
