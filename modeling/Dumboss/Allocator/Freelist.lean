import Dumboss.Allocator.Invariant

/-!
# The freelist operations

One specification for each of `add_to_freelist`, `pop_freelist` and `remove_from_freelist`, and for
the reads and writes of the buddy bits.  Each says that no assertion fails, which lists the
freelists are afterwards, which globals change, and that memory is written only in the block itself
and in blocks of the same list.
-/

namespace Dumboss

open Prog Buddy

@[simp] theorem wp_loadWord (a : U64) (Q : U64 → Heap → Prop) (h : Heap) :
    wp (loadWord a) Q h ↔ Q (h.memory.load a) h := by
  simp [loadWord]

@[simp] theorem wp_storeWord (a v : U64) (Q : Unit → Heap → Prop) (h : Heap) :
    wp (storeWord a v) Q h ↔ Q () { h with memory := h.memory.store a v } :=
  wp_modify _ _ _

theorem wp_classInfo {k : ℕ} (hk : k < classCount) (Q : ClassInfo → Heap → Prop) (h : Heap) :
    wp (classInfo k) Q h ↔ Q (h.globals.classes k) h := by
  simp [classInfo, hk]

@[simp] theorem wp_setFreelist (k : ℕ) (ptr : U64) (Q : Unit → Heap → Prop) (h : Heap) :
    wp (setFreelist k ptr) Q h ↔ Q () { h with globals := h.globals.setFreelist k ptr } :=
  wp_modify _ _ _

theorem wp_isAligned_of_dvd {k page : ℕ} (hk : k < classCount) (hd : 2 ^ k ∣ page)
    (Q : Bool → Heap → Prop) (h : Heap) : wp (isAligned page (2 ^ k)) Q h ↔ Q true h := by
  rw [wp_isAligned (by unfold classCount at hk; omega)]
  simp [Nat.mod_eq_zero_of_dvd hd]

namespace MemGlobals

variable (g : MemGlobals) (k l : ℕ) (ptr : U64) (bits : BitSet)

@[simp] theorem setFreelist_freelist_self : ((g.setFreelist k ptr).classes k).freelist = ptr := by
  simp [setFreelist]

theorem setFreelist_classes_of_ne {k l : ℕ} (h : l ≠ k) :
    (g.setFreelist k ptr).classes l = g.classes l := by
  simp [setFreelist, h]

@[simp] theorem setFreelist_buddies :
    ((g.setFreelist k ptr).classes l).buddies = (g.classes l).buddies := by
  by_cases h : l = k
  · subst h
    simp [setFreelist]
  · rw [setFreelist_classes_of_ne g ptr h]

theorem setFreelist_self : g.setFreelist k (g.classes k).freelist = g := by
  simp [setFreelist]

@[simp] theorem setFreelist_freePages : (g.setFreelist k ptr).freePages = g.freePages := rfl

@[simp] theorem setFreelist_usablePages : (g.setFreelist k ptr).usablePages = g.usablePages := rfl

@[simp] theorem setFreelist_freeMemory : (g.setFreelist k ptr).freeMemory = g.freeMemory := rfl

@[simp] theorem setBuddies_buddies_self : ((g.setBuddies k bits).classes k).buddies = bits := by
  simp [setBuddies]

theorem setBuddies_classes_of_ne {k l : ℕ} (h : l ≠ k) :
    (g.setBuddies k bits).classes l = g.classes l := by
  simp [setBuddies, h]

@[simp] theorem setBuddies_freelist :
    ((g.setBuddies k bits).classes l).freelist = (g.classes l).freelist := by
  by_cases h : l = k
  · subst h
    simp [setBuddies]
  · rw [setBuddies_classes_of_ne g bits h]

@[simp] theorem setBuddies_freePages : (g.setBuddies k bits).freePages = g.freePages := rfl

@[simp] theorem setBuddies_usablePages : (g.setBuddies k bits).usablePages = g.usablePages := rfl

@[simp] theorem setBuddies_freeMemory : (g.setBuddies k bits).freeMemory = g.freeMemory := rfl

end MemGlobals

section Lists

variable {N : ℕ} {F : Set ℕ} {L : ℕ → List ℕ} {h : Heap} {k page : ℕ}

/-- Lists whose nodes kept their words are still there. -/
theorem Lists.isList_of_words (hl : Lists h L) {m' : Memory} {g : MemGlobals} {k : ℕ}
    (hk : k < classCount) (hg : (g.classes k).freelist = (h.globals.classes k).freelist)
    (hw : ∀ b ∈ L k, ∀ i < 3, m'.word b i = h.memory.word b i) :
    Links.IsList pagePtr 0#64 m'.next m'.prev (g.classes k).freelist (L k) ∧
      ∀ b ∈ L k, m'.blockClass b = BitVec.ofNat 64 k := by
  refine ⟨?_, fun b hb => (hw b hb 2 (by omega)).trans (hl.class_eq k hk b hb)⟩
  rw [hg]
  exact (hl.linked k hk).congr (fun b hb => hw b hb 0 (by omega)) fun b hb => hw b hb 1 (by omega)

/-- Stores outside the pages of the lists leave them alone. -/
theorem Lists.of_stores (hB : Blocks N F L) (hN : N ≤ windowPages) (hl : Lists h L) {h' : Heap}
    (hg : ∀ k, (h'.globals.classes k).freelist = (h.globals.classes k).freelist)
    (hm : Memory.StoresIn (fun a => ¬ InPages (· ∈ F) a) h.memory h'.memory) : Lists h' L := by
  have hw : ∀ k, ∀ b ∈ L k, ∀ i < 3, h'.memory.word b i = h.memory.word b i := by
    intro k b hb i hi
    have hbF := hB.mem hb
    have hbw := (hB.lt hbF).trans_le hN
    exact hm.load_eq (not_not.2 ((inPages_cell hbw (by omega)).2 hbF))
  exact ⟨fun k hk => (hl.isList_of_words hk (hg k) (hw k)).1,
    fun k hk => (hl.isList_of_words hk (hg k) (hw k)).2⟩

/-- Stores outside the pages of the lists leave lists and bits alone. -/
theorem Core.of_stores (hc : Core N F L h) (hN : N ≤ windowPages) {m : Memory}
    (hm : Memory.StoresIn (fun a => ¬ InPages (· ∈ F) a) h.memory m) : Core N F L ⟨m, h.globals⟩ :=
  ⟨hc.blocks, hc.lists.of_stores hc.blocks hN (fun _ => rfl) hm, hc.bits⟩

/-- Only the list of class `k` has to be looked at again after a change in the blocks of `L k` and
in a page that starts no block. -/
theorem Lists.update (hB : Blocks N F L) (hN : N ≤ windowPages) (hl : Lists h L) {m' : Memory}
    {ptr : U64} {l' : List ℕ}
    (hm : Memory.StoresIn (InPages fun p => p = page ∨ p ∈ L k) h.memory m')
    (hpage : page ∉ F ∨ page ∈ L k)
    (hlink : Links.IsList pagePtr 0#64 m'.next m'.prev ptr l')
    (hclass : ∀ b ∈ l', m'.blockClass b = BitVec.ofNat 64 k) :
    Lists { memory := m', globals := h.globals.setFreelist k ptr } (Function.update L k l') := by
  have hother : ∀ l, l ≠ k → ∀ b ∈ L l, ∀ i < 3, m'.word b i = h.memory.word b i := by
    intro l hne b hb i hi
    refine hm.word_eq ((hB.lt (hB.mem hb)).trans_le hN) (by omega) ?_
    rintro (rfl | hbk)
    · rcases hpage with hp | hp
      · exact hp (hB.mem hb)
      · exact hne (hB.apart hb hp)
    · exact hne (hB.apart hb hbk)
  constructor
  · intro l hlc
    by_cases hne : l = k
    · subst hne
      simpa using hlink
    · rw [Function.update_of_ne hne]
      refine (hl.isList_of_words hlc ?_ (hother l hne)).1
      rw [MemGlobals.setFreelist_classes_of_ne _ _ hne]
  · intro l hlc b hb
    by_cases hne : l = k
    · subst hne
      rw [Function.update_self] at hb
      exact hclass b hb
    · rw [Function.update_of_ne hne] at hb
      exact (hl.isList_of_words (g := h.globals) hlc rfl (hother l hne)).2 b hb

/-- The state after a list operation on class `k` that touches the block at `page`. -/
structure ListStep (h : Heap) (L : ℕ → List ℕ) (page k : ℕ) (l' : List ℕ) (h' : Heap) : Prop where
  lists : Lists h' (Function.update L k l')
  globals : ∃ ptr, h'.globals = h.globals.setFreelist k ptr
  stores : Memory.StoresIn (InPages fun p => p = page ∨ p ∈ L k) h.memory h'.memory

theorem storesIn_cell {P : ℕ → Prop} {m : Memory} {p i : ℕ} {v : U64} (hp : p < windowPages)
    (hi : i < 512) (hP : P p) : Memory.StoresIn (InPages P) m (m.store (cell p i) v) :=
  Memory.storesIn_store ((inPages_cell hp hi).2 hP)

theorem wp_addToFreelist (hB : Blocks N F L) (hN : N ≤ windowPages) (hl : Lists h L)
    (hk : k < classCount) (hd : 2 ^ k ∣ page) (hF : page ∉ F) (hlt : page < N) :
    wp (addToFreelist page k) (fun _ => ListStep h L page k (page :: L k)) h := by
  have hpw : page < windowPages := hlt.trans_le hN
  have hlink := hl.linked k hk
  simp only [addToFreelist, wp_bind, wp_assert, wp_isAligned_of_dvd hk hd, wp_kernelPtr hpw,
    wp_classInfo hk, wp_storeWord, wp_ite, wp_setFreelist, pagePtr_add_8, pagePtr_add_16,
    Memory.store_pagePtr]
  refine ⟨hk, trivial, ?_⟩
  -- the three words of the new block
  generalize hm : ((h.memory.store (cell page 2) (BitVec.ofNat 64 k)).store (cell page 1)
    0#64).store (cell page 0) (h.globals.classes k).freelist = m
  have hst : Memory.StoresIn (InPages fun p => p = page ∨ p ∈ L k) h.memory m := by
    rw [← hm]
    exact ((storesIn_cell hpw (by omega) (Or.inl rfl)).trans
      (storesIn_cell hpw (by omega) (Or.inl rfl))).trans
      (storesIn_cell hpw (by omega) (Or.inl rfl))
  have hpage : m.word page 0 = (h.globals.classes k).freelist ∧ m.word page 1 = 0#64 ∧
      m.word page 2 = BitVec.ofNat 64 k := by
    rw [← hm]
    simp [Memory.word_store, hpw]
  have hkeep : ∀ b ∈ L k, ∀ i < 3, m.word b i = h.memory.word b i := by
    intro b hb i hi
    have hbw : b < windowPages := (hB.lt (hB.mem hb)).trans_le hN
    have hne : b ≠ page := fun e => hF (e ▸ hB.mem hb)
    rw [← hm]
    simp [Memory.word_store, hpw, hbw, hne, show i < 512 by omega]
  have hcls : ∀ b ∈ page :: L k, m.blockClass b = BitVec.ofNat 64 k := by
    intro b hb
    rcases List.mem_cons.1 hb with rfl | hb
    · exact hpage.2.2
    · exact (hkeep b hb 2 (by omega)).trans (hl.class_eq k hk b hb)
  cases hL : L k with
  | nil =>
    have hnull : (h.globals.classes k).freelist = 0#64 := by
      rw [hL] at hlink
      exact (hlink.head_eq_null_iff (by simp)).2 rfl
    rw [if_neg (by simp [hnull])]
    refine ⟨hl.update hB hN hst (Or.inl hF) ?_ (hL ▸ hcls), ⟨_, rfl⟩, hst⟩
    exact (hL ▸ hlink).push hpage.1 hpage.2.1 (by simp) (by simp) (by simp)
  | cons c cs =>
    rw [hL] at hlink
    have hc : c ∈ L k := by simp [hL]
    have hcw : c < windowPages := (hB.lt (hB.mem hc)).trans_le hN
    have hcp : c ≠ page := fun e => hF (e ▸ hB.mem hc)
    have hhead := hlink.head_eq
    have hnd := List.nodup_cons.1 (hL ▸ hB.nodup k)
    rw [if_pos (by rw [hhead]; exact pagePtr_ne_zero hcw), hhead, pagePtr_add_8]
    have hw : ∀ b i, b < windowPages → i < 3 → (m.store (cell c 1) (pagePtr page)).word b i =
        if b = c ∧ i = 1 then pagePtr page else m.word b i :=
      fun b i hb hi => Memory.word_store _ _ hcw hb (by omega) (by omega)
    have hst' := hst.trans (storesIn_cell hcw (by omega) (Or.inr hc) :
      Memory.StoresIn _ m (m.store (cell c 1) (pagePtr page)))
    refine ⟨hl.update hB hN hst' (Or.inl hF) ?_ ?_, ⟨_, rfl⟩, hst'⟩
    · refine hlink.push ?_ ?_ ?_ ?_ ?_
      · rw [Memory.next, hw page 0 hpw (by omega), if_neg (by omega), hpage.1]
      · rw [Memory.prev, hw page 1 hpw (by omega), if_neg (by omega), hpage.2.1]
      · intro b hb
        have hb' : b ∈ L k := hL ▸ hb
        rw [Memory.next, hw b 0 ((hB.lt (hB.mem hb')).trans_le hN) (by omega), if_neg (by omega)]
        exact hkeep b hb' 0 (by omega)
      · intro b hb
        have hb' : b ∈ L k := hL ▸ List.mem_of_mem_tail hb
        have hbc : b ≠ c := fun e => hnd.1 (e ▸ hb)
        rw [Memory.prev, hw b 1 ((hB.lt (hB.mem hb')).trans_le hN) (by omega), if_neg (by omega)]
        exact hkeep b hb' 1 (by omega)
      · intro b hb
        obtain rfl : c = b := by simpa using hb
        rw [Memory.prev, hw c 1 hcw (by omega), if_pos ⟨rfl, rfl⟩]
    · intro b hb
      have hbw : b < windowPages := by
        rcases List.mem_cons.1 hb with rfl | hb
        · exact hpw
        · exact (hB.lt (hB.mem (hL ▸ hb))).trans_le hN
      rw [Memory.blockClass, hw b 2 hbw (by omega), if_neg (by omega)]
      exact hcls b (hL ▸ hb)

theorem wp_popFreelist (hB : Blocks N F L) (hN : N ≤ windowPages) (hl : Lists h L)
    (hk : k < classCount) {b : ℕ} {bs : List ℕ} (hL : L k = b :: bs) :
    wp (popFreelist k) (fun r h' => r = pagePtr b ∧ ListStep h L b k bs h') h := by
  have hwin : ∀ c ∈ L k, c < windowPages := fun c hc => (hB.lt (hB.mem hc)).trans_le hN
  have hb : b ∈ L k := by simp [hL]
  have hlink := hl.linked k hk
  rw [hL] at hlink
  have hnext := (show Links.IsList pagePtr 0#64 h.memory.next h.memory.prev
    (h.globals.classes k).freelist ([] ++ b :: bs) from hlink).links.2.2
  have hclass : h.memory.word b 2 = BitVec.ofNat 64 k := hl.class_eq k hk b hb
  have hprev : h.memory.word b 1 = 0#64 := hlink.head_prv
  simp only [popFreelist, wp_bind, wp_assert, wp_classInfo hk, wp_loadWord, wp_storeWord, wp_ite,
    wp_setFreelist, wp_pure, hlink.head_eq, pagePtr_add_8, pagePtr_add_16, Memory.load_cell,
    Memory.load_pagePtr, hclass, hprev]
  refine ⟨hk, pagePtr_ne_zero (hwin b hb), trivial, trivial, ?_⟩
  cases bs with
  | nil =>
    have hnull : h.memory.word b 0 = 0#64 := hnext.1 rfl
    rw [if_neg (by simp [hnull])]
    refine ⟨trivial, hl.update hB hN (.refl _ _) (Or.inr hb) ?_ (by simp), ⟨_, rfl⟩, .refl _ _⟩
    exact hlink.pop (by simp) (by simp) (by simp)
  | cons c cs =>
    have hc : c ∈ L k := by simp [hL]
    have hcp : h.memory.word b 0 = pagePtr c := hnext.2 c rfl
    have hnd := List.nodup_cons.1 (hL ▸ hB.nodup k)
    rw [if_pos (by rw [hcp]; exact pagePtr_ne_zero (hwin c hc)), hcp, pagePtr_add_8]
    have hw : ∀ a i, a < windowPages → i < 3 → (h.memory.store (cell c 1) 0#64).word a i =
        if a = c ∧ i = 1 then 0#64 else h.memory.word a i :=
      fun a i ha hi => Memory.word_store _ _ (hwin c hc) ha (by omega) (by omega)
    have hmem : ∀ a ∈ c :: cs, a ∈ L k := fun a ha => by rw [hL]; exact List.mem_cons_of_mem b ha
    have hst : Memory.StoresIn (InPages fun p => p = b ∨ p ∈ L k) h.memory
        (h.memory.store (cell c 1) 0#64) := storesIn_cell (hwin c hc) (by omega) (Or.inr hc)
    refine ⟨trivial, hl.update hB hN hst (Or.inr hb) ?_ ?_, ⟨_, rfl⟩, hst⟩
    · rw [← hcp]
      refine hlink.pop ?_ ?_ ?_
      · intro a ha
        rw [Memory.next, hw a 0 (hwin a (hmem a ha)) (by omega), if_neg (by omega)]
        rfl
      · intro a ha
        have hac : a ≠ c := fun e => (List.nodup_cons.1 hnd.2).1 (e ▸ ha)
        rw [Memory.prev, hw a 1 (hwin a (hmem a (List.mem_cons_of_mem c ha))) (by omega),
          if_neg (by omega)]
        rfl
      · intro a ha
        obtain rfl : c = a := by simpa using ha
        rw [Memory.prev, hw c 1 (hwin c hc) (by omega), if_pos ⟨rfl, rfl⟩]
    · intro a ha
      rw [Memory.blockClass, hw a 2 (hwin a (hmem a ha)) (by omega), if_neg (by omega)]
      exact hl.class_eq k hk a (hmem a ha)

/-- A store to word `i` of an optional page. -/
def Memory.storeAt (m : Memory) (o : Option ℕ) (i : ℕ) (v : U64) : Memory :=
  match o with
  | none => m
  | some c => m.store (cell c i) v

theorem Memory.word_storeAt {m : Memory} {o : Option ℕ} {i j b : ℕ} {v : U64}
    (ho : ∀ c ∈ o, c < windowPages) (hb : b < windowPages) (hi : i < 512) (hj : j < 512) :
    (m.storeAt o i v).word b j = if o = some b ∧ j = i then v else m.word b j := by
  cases o with
  | none => simp [storeAt]
  | some c =>
    rw [storeAt, word_store m v (ho c rfl) hb hi hj]
    simp only [Option.some.injEq, eq_comm]

theorem Memory.storesIn_storeAt {P : ℕ → Prop} {m : Memory} {o : Option ℕ} {i : ℕ} {v : U64}
    (ho : ∀ c ∈ o, c < windowPages ∧ P c) (hi : i < 512) :
    StoresIn (InPages P) m (m.storeAt o i v) := by
  cases o with
  | none => exact .refl _ _
  | some c => exact storesIn_cell (ho c rfl).1 hi (ho c rfl).2

/-- Memory after the block at `page`, which stands between `as` and `bs`, was unlinked. -/
def Memory.unlink (m : Memory) (as : List ℕ) (page : ℕ) (bs : List ℕ) : Memory :=
  (m.storeAt bs.head? 1 (m.word page 1)).storeAt as.getLast? 0 (m.word page 0)

section Unlink

variable {m : Memory} {as bs : List ℕ}

theorem Memory.word_unlink (hwin : ∀ c ∈ as ++ page :: bs, c < windowPages) {a i : ℕ}
    (ha : a < windowPages) (hi : i < 3) : (m.unlink as page bs).word a i =
      if as.getLast? = some a ∧ i = 0 then m.word page 0
      else if bs.head? = some a ∧ i = 1 then m.word page 1 else m.word a i := by
  have hlast : ∀ c ∈ as.getLast?, c < windowPages :=
    fun c hc => hwin c (List.mem_append_left _ (List.mem_of_getLast? hc))
  have hhead : ∀ c ∈ bs.head?, c < windowPages :=
    fun c hc => hwin c (List.mem_append_right _ (List.mem_cons_of_mem _ (List.mem_of_head? hc)))
  rw [unlink, word_storeAt hlast ha (by omega) (by omega), word_storeAt hhead ha (by omega) (by omega)]

theorem Memory.storesIn_unlink {P : ℕ → Prop} (hP : ∀ c ∈ as ++ page :: bs, c < windowPages ∧ P c) :
    StoresIn (InPages P) m (m.unlink as page bs) := by
  refine (storesIn_storeAt (fun c hc => hP c ?_) (by omega)).trans
    (storesIn_storeAt (fun c hc => hP c ?_) (by omega))
  · exact List.mem_append_right _ (List.mem_cons_of_mem _ (List.mem_of_head? hc))
  · exact List.mem_append_left _ (List.mem_of_getLast? hc)

/-- The other blocks are a list. -/
theorem Memory.isList_unlink {head : U64} (hwin : ∀ c ∈ as ++ page :: bs, c < windowPages)
    (hnd : (as ++ page :: bs).Nodup)
    (hlink : Links.IsList pagePtr 0#64 m.next m.prev head (as ++ page :: bs)) :
    Links.IsList pagePtr 0#64 (m.unlink as page bs).next (m.unlink as page bs).prev
      (if as = [] then m.next page else head) (as ++ bs) := by
  obtain ⟨hndas, hndbs, hdis⟩ := List.nodup_append.1 hnd
  have has : ∀ a ∈ as, a < windowPages := fun a ha => hwin a (List.mem_append_left _ ha)
  have hbs : ∀ a ∈ bs, a < windowPages :=
    fun a ha => hwin a (List.mem_append_right _ (List.mem_cons_of_mem _ ha))
  have hapart : ∀ a ∈ as, a ∉ bs := fun a ha hb => hdis a ha a (List.mem_cons_of_mem page hb) rfl
  refine hlink.remove hndas ?_ ?_ ?_ ?_ ?_ ?_
  · intro a ha hne
    rw [next, word_unlink hwin (has a ha) (by omega), if_neg (by simp [hne]), if_neg (by omega)]
    rfl
  · intro a ha
    rw [next, word_unlink hwin (has a (List.mem_of_getLast? ha)) (by omega), if_pos ⟨ha, rfl⟩]
    rfl
  · intro a ha
    have hab : bs.head? ≠ some a := fun e => hapart a ha (List.mem_of_head? e)
    rw [prev, word_unlink hwin (has a ha) (by omega), if_neg (by omega), if_neg (by simp [hab])]
    rfl
  · intro a ha
    have hab : as.getLast? ≠ some a := fun e => hapart a (List.mem_of_getLast? e) ha
    rw [next, word_unlink hwin (hbs a ha) (by omega), if_neg (by simp [hab]), if_neg (by omega)]
    rfl
  · intro a ha
    have hab : bs.head? ≠ some a := by
      intro e
      cases bs with
      | nil => simp at e
      | cons c cs =>
        obtain rfl : c = a := by simpa using e
        exact (List.nodup_cons.1 (List.nodup_cons.1 hndbs).2).1 ha
    rw [prev, word_unlink hwin (hbs a (List.mem_of_mem_tail ha)) (by omega), if_neg (by omega),
      if_neg (by simp [hab])]
    rfl
  · intro a ha
    rw [prev, word_unlink hwin (hbs a (List.mem_of_head? ha)) (by omega), if_neg (by omega),
      if_pos ⟨ha, rfl⟩]
    rfl

end Unlink

/-- The state after the block at `page` was unlinked. -/
theorem listStep_unlink (hB : Blocks N F L) (hN : N ≤ windowPages) (hl : Lists h L)
    (hk : k < classCount) {as bs : List ℕ} (hL : L k = as ++ page :: bs) :
    ListStep h L page k (as ++ bs) ⟨h.memory.unlink as page bs, h.globals.setFreelist k
      (if as = [] then h.memory.next page else (h.globals.classes k).freelist)⟩ := by
  have hmem : ∀ c ∈ as ++ page :: bs, c ∈ L k := fun c hc => by rwa [hL]
  have hwin : ∀ c ∈ as ++ page :: bs, c < windowPages :=
    fun c hc => (hB.lt (hB.mem (hmem c hc))).trans_le hN
  have hst : Memory.StoresIn (InPages fun p => p = page ∨ p ∈ L k) h.memory
      (h.memory.unlink as page bs) :=
    Memory.storesIn_unlink fun c hc => ⟨hwin c hc, Or.inr (hmem c hc)⟩
  have hcls : ∀ a ∈ as ++ bs, (h.memory.unlink as page bs).blockClass a = BitVec.ofNat 64 k := by
    intro a ha
    have ha' : a ∈ as ++ page :: bs := by
      rcases List.mem_append.1 ha with ha | ha
      · exact List.mem_append_left _ ha
      · exact List.mem_append_right _ (List.mem_cons_of_mem page ha)
    rw [Memory.blockClass, Memory.word_unlink hwin (hwin a ha') (by omega), if_neg (by omega),
      if_neg (by omega)]
    exact hl.class_eq k hk a (hmem a ha')
  refine ⟨hl.update hB hN hst (Or.inr (hmem page (by simp))) ?_ hcls, ⟨_, rfl⟩, hst⟩
  exact Memory.isList_unlink hwin (hL ▸ hB.nodup k) (hL ▸ hl.linked k hk)

theorem wp_removeFromFreelist (hB : Blocks N F L) (hN : N ≤ windowPages) (hl : Lists h L)
    (hk : k < classCount) (hpage : page ∈ L k) :
    wp (removeFromFreelist page k) (fun _ => ListStep h L page k ((L k).erase page)) h := by
  have hwin : ∀ c ∈ L k, c < windowPages := fun c hc => (hB.lt (hB.mem hc)).trans_le hN
  have hlink := hl.linked k hk
  have hclass : h.memory.word page 2 = BitVec.ofNat 64 k := hl.class_eq k hk page hpage
  obtain ⟨as, bs, hL⟩ := List.append_of_mem hpage
  have hdis := (List.nodup_append.1 (hL ▸ hB.nodup k)).2.2
  have herase : (L k).erase page = as ++ bs := by
    rw [hL, List.erase_append_right _ (fun hm => hdis page hm page (by simp) rfl),
      List.erase_cons_head]
  have hlast : ∀ c ∈ as.getLast?, c ∈ L k :=
    fun c hc => by rw [hL]; exact List.mem_append_left _ (List.mem_of_getLast? hc)
  have hhead : ∀ c ∈ bs.head?, c ∈ L k :=
    fun c hc => by rw [hL]; exact List.mem_append_right _ (List.mem_cons_of_mem _ (List.mem_of_head? hc))
  have hres := listStep_unlink hB hN hl hk hL
  unfold Memory.unlink at hres
  rw [hL] at hlink
  obtain ⟨hnil, hprev, hnull, hnext⟩ := hlink.links
  rw [herase]
  simp only [removeFromFreelist, wp_bind, wp_assert, wp_isAligned_of_dvd hk (hB.aligned hpage),
    wp_kernelPtr (hwin page hpage), wp_classInfo hk, wp_loadWord, wp_storeWord, wp_ite,
    wp_setFreelist, pagePtr_add_8, pagePtr_add_16, Memory.load_cell, Memory.load_pagePtr, hclass]
  refine ⟨hk, trivial, trivial, ?_⟩
  rcases List.eq_nil_or_concat as with rfl | ⟨as, a, rfl⟩
  · have hp0 : h.memory.word page 1 = 0#64 := (hnil rfl).1
    rw [if_pos rfl] at hres
    cases bs with
    | nil =>
      have hn0 : h.memory.word page 0 = 0#64 := hnull rfl
      rw [if_neg (by simp [hn0]), if_neg (by simp [hp0])]
      exact ⟨(hnil rfl).2, hres⟩
    | cons c cs =>
      have hnc : h.memory.word page 0 = pagePtr c := hnext c rfl
      have hcw := hwin c (hhead c rfl)
      rw [if_pos (by rw [hnc]; exact pagePtr_ne_zero hcw), if_neg (by simp [hp0])]
      refine ⟨(hnil rfl).2, ?_⟩
      simpa [Memory.storeAt, hnc, pagePtr_add_8, Memory.next] using hres
  · have hpa : h.memory.word page 1 = pagePtr a := hprev a (by simp)
    have haw := hwin a (hlast a (by simp))
    rw [if_neg (by simp), MemGlobals.setFreelist_self] at hres
    cases bs with
    | nil =>
      have hn0 : h.memory.word page 0 = 0#64 := hnull rfl
      rw [if_neg (by simp [hn0]), if_pos (by rw [hpa]; exact pagePtr_ne_zero haw)]
      simpa [Memory.storeAt, hpa, Memory.store_pagePtr] using hres
    | cons c cs =>
      have hnc : h.memory.word page 0 = pagePtr c := hnext c rfl
      have hcw := hwin c (hhead c rfl)
      rw [if_pos (by rw [hnc]; exact pagePtr_ne_zero hcw),
        if_pos (by rw [hpa]; exact pagePtr_ne_zero haw)]
      simpa [Memory.storeAt, hpa, hnc, pagePtr_add_8, Memory.store_pagePtr] using hres

end Lists

/-! ### The buddy bits -/

section Bits

variable {N : ℕ} {L L' : ℕ → List ℕ} {g : MemGlobals} {k : ℕ}

theorem two_pow_succ_dvd (hd : 4096 ∣ N) (hk : k < classCount - 1) : 2 ^ (k + 1) ∣ N := by
  have h12 : (4096 : ℕ) = 2 ^ 12 := by norm_num
  unfold classCount at hk
  exact (pow_dvd_pow 2 (show k + 1 ≤ 12 by omega)).trans (h12 ▸ hd)

/-- The bit of a block below `N` is inside the bit set. -/
theorem index_lt_bitsetSize (hd : 4096 ∣ N) (hk : k < classCount - 1) {j : ℕ}
    (hj : j * 2 ^ k < N) : j / 2 < bitsetSize N k := by
  have hlt : j * 2 ^ k / 2 ^ (k + 1) < N / 2 ^ (k + 1) :=
    Nat.div_lt_div_of_lt_of_dvd (two_pow_succ_dvd hd hk) hj
  rw [div_pow_succ, Nat.mul_div_cancel _ (Nat.two_pow_pos k)] at hlt
  unfold bitsetSize
  omega

theorem Bits.congr {g' : MemGlobals} (hb : Bits N g L)
    (hg : ∀ k < classCount - 1, (g'.classes k).buddies = (g.classes k).buddies)
    (hL : ∀ k < classCount - 1, L' k = L k) : Bits N g' L' := by
  constructor
  · intro k hk
    rw [hg k hk]
    exact hb.count_eq k hk
  · intro k hk i
    rw [hg k hk, hb.test_iff k hk i]
    simp only [indices, hL k hk]

/-- Changing bit `i` of class `k` along with the blocks of the pair `i`. -/
theorem Bits.update (hb : Bits N g L) {i : ℕ} {v : Bool} {l' : List ℕ}
    (hl : ∀ j, j / 2 ≠ i → (j * 2 ^ k ∈ l' ↔ j * 2 ^ k ∈ L k))
    (hv : v = true ↔ Xor (2 * i * 2 ^ k ∈ l') ((2 * i + 1) * 2 ^ k ∈ l')) :
    Bits N (g.setBuddies k ((g.classes k).buddies.put i v)) (Function.update L k l') := by
  constructor
  · intro l hlc
    by_cases hlk : l = k
    · subst hlk
      simpa using hb.count_eq l hlc
    · rw [MemGlobals.setBuddies_classes_of_ne _ _ hlk]
      exact hb.count_eq l hlc
  · intro l hlc i'
    by_cases hlk : l = k
    · subst hlk
      have hold := hb.test_iff l hlc i'
      simp only [indices, Set.mem_ofPred_eq] at hold
      rw [MemGlobals.setBuddies_buddies_self, BitSet.test_put]
      simp only [indices, Set.mem_ofPred_eq, Function.update_self]
      by_cases hi : i' = i
      · subst hi
        rw [if_pos rfl, hv]
      · rw [if_neg hi, hold, hl (2 * i') (by omega), hl (2 * i' + 1) (by omega)]
    · rw [MemGlobals.setBuddies_classes_of_ne _ _ hlk, hb.test_iff l hlc i']
      simp [indices, hlk]

variable {h : Heap} {i : ℕ}

theorem wp_getBuddyBit {Q : Bool → Heap → Prop} (hb : Bits N h.globals L)
    (hk : k < classCount - 1) (hi : i < bitsetSize N k) :
    wp (getBuddyBit k i) Q h ↔ Q ((h.globals.classes k).buddies.test i) h := by
  rw [getBuddyBit, wp_bind, wp_classInfo (by omega),
    BitSet.wp_get (by rw [hb.count_eq k hk]; exact_mod_cast hi)]

theorem wp_setBuddyBit {Q : Unit → Heap → Prop} (hb : Bits N h.globals L)
    (hk : k < classCount - 1) (hi : i < bitsetSize N k) (v : Bool) :
    wp (setBuddyBit k i v) Q h ↔
      Q () ⟨h.memory, h.globals.setBuddies k ((h.globals.classes k).buddies.put i v)⟩ := by
  rw [setBuddyBit, wp_bind, wp_classInfo (by omega), wp_bind,
    BitSet.wp_set (by rw [hb.count_eq k hk]; exact_mod_cast hi), wp_modify]

theorem wp_buddyInfo {Q : BuddyInfo → Heap → Prop} {j : ℕ} (hk : k < classCount) :
    wp (buddyInfo (j * 2 ^ k) k) Q h ↔ Q ⟨sibling j * 2 ^ k, j / 2⟩ h := by
  have hidx : j * 2 ^ k / 2 ^ (k + 1) = j / 2 := by
    rw [div_pow_succ, Nat.mul_div_cancel _ (Nat.two_pow_pos k)]
  simp [buddyInfo, wp_isAligned_of_dvd hk (Dvd.intro_left j rfl), start_xor, hidx]

end Bits

end Dumboss
