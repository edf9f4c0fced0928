import Dumboss.PageTable.Walk
import Dumboss.Allocator.Model

/-!
# The walk that destroys a page table

`destroy_table_inner` and `destroy_bb_table_inner` walk over all tables, children first, and differ in
what they do with a table in the end.  The page of a table that is done with holds a free list header
from then on, while its parent is still being walked; so the proof follows the listing of the tables as
they were at the start.

* `destroyWith`: the walk;
* `BbTree`: a table that can be walked; unlike the tables of the map functions it may have large pages
  on any level;
* `Disposes`: what the walk needs of what is done with a table;
* `wp_destroyWith`: the walk is done with a table and with all tables below it, each once.
-/

namespace Dumboss.PageTable

open Prog

/-- The walk of `destroy_table_inner` and `destroy_bb_table_inner`; they differ in what they do with a
table in the end. -/
def destroyWith (dispose : U64 → Kern (Kernel MemGlobals) Unit) :
    ℕ → U64 → U64 → Kern (Kernel MemGlobals) Unit
  | 0, _, _ => return ()
  | level + 1, table, entry => do
    if table = 0#64 then return ()
    if entry &&& pteHugePage ≠ 0#64 then return ()
    if 1 < level + 1 then
      (List.range 512).forM fun i => do
        let e ← loadEntry table i
        destroyWith dispose level (← pteAddress e) e
    dispose table

section Walk

variable {dispose : U64 → Kern (Kernel MemGlobals) Unit} {root : ℕ} {m : Memory}
  {s : Kernel MemGlobals}

theorem destroyWith_null (level : ℕ) (entry : U64) :
    destroyWith dispose level 0#64 entry = pure () := by
  cases level with
  | zero => rfl
  | succ level => rw [destroyWith, if_pos rfl]

theorem destroyWith_huge {entry : U64} (level : ℕ) (table : U64) (hh : huge entry) :
    destroyWith dispose level table entry = pure () := by
  cases level with
  | zero => rfl
  | succ level =>
    rw [destroyWith, if_pos (show entry &&& pteHugePage ≠ 0#64 from hh)]
    split_ifs <;> rfl

/-- The table an entry leads to, if `PTE_HUGE_PAGE` ends the walk on every level. -/
def bbNext (_ : ℕ) (e : U64) : Option ℕ := if e = 0#64 ∨ huge e then none else some (frame e)

/-- The table at depth `d` on the way of `x`. -/
def bbTable (m : Memory) (root d x : ℕ) : Option ℕ := Radix.node 512 bbNext m.word root d x

/-- `t` is one of the tables. -/
def IsBbTable (m : Memory) (root t : ℕ) : Prop := Radix.IsNode 512 3 bbNext m.word root t

/-- The tables at most `l` levels below `t`, children first. -/
def bbBelow (m : Memory) (l d t : ℕ) : List ℕ := Radix.postorder 512 bbNext m.word l d t

/-- The tables below entry `i` of the table `t` at depth `d`. -/
def bbBelowEntry (m : Memory) (l d t i : ℕ) : List ℕ :=
  ((bbNext d (m.word t i)).map (bbBelow m l (d + 1))).getD []

theorem bbBelow_succ (m : Memory) (l d t : ℕ) : bbBelow m (l + 1) d t =
    (List.range 512).flatMap (bbBelowEntry m l d t) ++ [t] := rfl

/-- A page table with large pages on any level: no table hangs in two places, and every entry that the
walk follows lies in the kernel window. -/
structure BbTree (m : Memory) (root : ℕ) : Prop where
  inj : Radix.Inj 512 3 bbNext m.word root
  root_lt : root < windowPages
  frame_lt : ∀ {d x t}, d < 3 → x < 512 ^ d → bbTable m root d x = some t → ∀ {i}, i < 512 →
    m.word t i ≠ 0#64 → frame (m.word t i) < windowPages

theorem BbTree.table_lt (hT : BbTree m root) {t : ℕ} (ht : IsBbTable m root t) : t < windowPages := by
  obtain ⟨d, x, hd, hx, hnode⟩ := ht
  cases d with
  | zero =>
    obtain rfl : root = t := Option.some.inj hnode
    exact hT.root_lt
  | succ d =>
    obtain ⟨p, hp, hnext⟩ := Radix.exists_parent hnode
    unfold bbNext at hnext
    split_ifs at hnext with h
    rw [← Option.some.inj hnext]
    exact hT.frame_lt (by omega) (Radix.div_lt_pow (by decide) hx) hp (Nat.mod_lt _ (by decide))
      fun h0 => h (Or.inl h0)

/-- Tables of the map functions have large pages on one level only, so both walks see the same tables. -/
theorem bbTable_eq {used : Set ℕ} (hT : Tree m root used) {d x : ℕ} (hd : d ≤ 3) (hx : x < 512 ^ d) :
    bbTable m root d x = table m root d x := by
  induction d generalizing x with
  | zero => rfl
  | succ d ih =>
    have hx' := Radix.div_lt_pow (by decide) hx
    rw [table_succ, bbTable, Radix.node_succ]
    change (bbTable m root d (x / 512)).bind _ = _
    rw [ih (by omega) hx']
    cases ht : table m root d (x / 512) with
    | none => rfl
    | some t =>
      rw [Option.bind_some, Option.bind_some, bbNext, next]
      by_cases h2 : d = 2
      · simp [h2]
      · have hh := hT.not_huge (by omega) hx' ht (Nat.mod_lt x (by decide))
        simp [h2, hh]

theorem isBbTable_iff {used : Set ℕ} (hT : Tree m root used) (t : ℕ) :
    IsBbTable m root t ↔ IsTable m root t := by
  constructor
  · rintro ⟨d, x, hd, hx, ht⟩
    exact ⟨d, x, hd, hx, (bbTable_eq hT hd hx).symm.trans ht⟩
  · rintro ⟨d, x, hd, hx, ht⟩
    exact ⟨d, x, hd, hx, (bbTable_eq hT hd hx).trans ht⟩

theorem Tree.bbTree {used : Set ℕ} (hT : Tree m root used) : BbTree m root where
  inj := by
    intro d x d' x' t hd hx hd' hx' ht ht'
    exact hT.inj d x d' x' t hd hx hd' hx' ((bbTable_eq hT hd hx).symm.trans ht)
      ((bbTable_eq hT hd' hx').symm.trans ht')
  root_lt := hT.table_lt isTable_root
  frame_lt := by
    intro d x t hd hx ht i hi h0
    rw [bbTable_eq hT hd.le hx] at ht
    exact hT.frame_lt (isTable_of_table hd.le hx ht) hi h0

/-- What the walk needs: `I pages s` says that in `s` the tables `pages` have been disposed of.  The
tables that are left are as they were in `m`, and any of them can be next. -/
structure Disposes (dispose : U64 → Kern (Kernel MemGlobals) Unit) (m : Memory) (root : ℕ)
    (I : List ℕ → Kernel MemGlobals → Prop) : Prop where
  word : ∀ {pages s t i}, I pages s → IsBbTable m root t → t ∉ pages → i < 512 →
    s.memory.word t i = m.word t i
  dispose : ∀ {pages s t}, I pages s → IsBbTable m root t → t ∉ pages →
    wp (dispose (pagePtr t)) (fun _ s' => I (pages ++ [t]) s') s

variable {I : List ℕ → Kernel MemGlobals → Prop}

/-- One round of the loop over the entries of the table `t`, if the tables one level down are walked as
they should be. -/
theorem wp_disposeEntry (hT : BbTree m root) {l d x t i : ℕ} (hl : d + (l + 1) = 3)
    (hx : x < 512 ^ d) (ht : bbTable m root d x = some t) (hi : i < 512)
    (ih : ∀ {y c : ℕ} {entry : U64} {pages : List ℕ} {s : Kernel MemGlobals},
      y < 512 ^ (d + 1) → bbTable m root (d + 1) y = some c → ¬ huge entry → I pages s →
      (∀ p ∈ bbBelow m l (d + 1) c, p ∉ pages) →
      wp (destroyWith dispose (l + 1) (pagePtr c) entry)
        (fun _ s' => I (pages ++ bbBelow m l (d + 1) c) s') s)
    {pages : List ℕ} (hI : I pages s) (hnew : ∀ p ∈ bbBelowEntry m l d t i, p ∉ pages) :
    wp (pteAddress (m.word t i)) (fun c s₁ =>
      wp (destroyWith dispose (l + 1) c (m.word t i)) (fun _ s' =>
        I (pages ++ bbBelowEntry m l d t i) s') s₁) s := by
  rw [wp_pteAddress (hT.frame_lt (by omega) hx ht hi)]
  by_cases hstop : m.word t i = 0#64 ∨ huge (m.word t i)
  · have hnil : bbBelowEntry m l d t i = [] := by
      rw [bbBelowEntry, bbNext, if_pos hstop]
      rfl
    rw [hnil, List.append_nil]
    rcases hstop with h0 | hh
    · rw [if_pos h0, destroyWith_null, wp_pure]
      exact hI
    · rw [destroyWith_huge _ _ hh, wp_pure]
      exact hI
  · have hchild : bbNext d (m.word t i) = some (frame (m.word t i)) := if_neg hstop
    have hbelow : bbBelowEntry m l d t i = bbBelow m l (d + 1) (frame (m.word t i)) := by
      rw [bbBelowEntry, hchild]
      rfl
    have hc : bbTable m root (d + 1) (x * 512 + i) = some (frame (m.word t i)) := by
      rw [bbTable, Radix.node_child hi, show Radix.node 512 bbNext m.word root d x = some t from ht]
      exact hchild
    rw [not_or] at hstop
    rw [if_neg hstop.1]
    rw [hbelow] at hnew ⊢
    exact ih (Radix.child_lt_pow hx hi) hc hstop.2 hI hnew

/-- The loop over the entries of the table `t`, if the tables one level down are walked as they should
be. -/
theorem wp_disposeEntries (hT : BbTree m root) (hD : Disposes dispose m root I) {l d x t : ℕ}
    (hl : d + (l + 1) = 3) (hx : x < 512 ^ d) (ht : bbTable m root d x = some t)
    (ih : ∀ {y c : ℕ} {entry : U64} {pages : List ℕ} {s : Kernel MemGlobals},
      y < 512 ^ (d + 1) → bbTable m root (d + 1) y = some c → ¬ huge entry → I pages s →
      (∀ p ∈ bbBelow m l (d + 1) c, p ∉ pages) →
      wp (destroyWith dispose (l + 1) (pagePtr c) entry)
        (fun _ s' => I (pages ++ bbBelow m l (d + 1) c) s') s)
    (slots : List ℕ) (hslots : ∀ i ∈ slots, i < 512) {pages : List ℕ} (hI : I pages s)
    (htnew : t ∉ pages) (hnodup : (slots.flatMap (bbBelowEntry m l d t) ++ [t]).Nodup)
    (hnew : ∀ p ∈ slots.flatMap (bbBelowEntry m l d t), p ∉ pages) :
    wp (slots.forM fun i => do
        let e ← loadEntry (pagePtr t) i
        destroyWith dispose (l + 1) (← pteAddress e) e)
      (fun _ s' => I (pages ++ slots.flatMap (bbBelowEntry m l d t)) s') s := by
  have htab : IsBbTable m root t := ⟨d, x, by omega, hx, ht⟩
  induction slots generalizing s pages with
  | nil =>
    simp only [List.forM, wp_pure, List.flatMap_nil, List.append_nil]
    exact hI
  | cons i slots ihs =>
    have hi : i < 512 := hslots i (by simp)
    rw [List.flatMap_cons, List.append_assoc] at hnodup
    obtain ⟨-, hnodup', hdisj⟩ := List.nodup_append'.1 hnodup
    have hentry := wp_disposeEntry hT hl hx ht hi ih hI
      fun p hp => hnew p (by simp [List.flatMap_cons, hp])
    simp only [List.forM, wp_bind, wp_loadEntry, hD.word hI htab htnew hi]
    refine wp_mono hentry fun c s₁ hc => wp_mono hc fun _ s' hI' => ?_
    -- the tables below the entry are done, and the rest of the loop goes on from there
    rw [List.flatMap_cons, ← List.append_assoc]
    refine ihs (fun j hj => hslots j (by simp [hj])) hI' ?_ hnodup' ?_
    · rw [List.mem_append, not_or]
      exact ⟨htnew, fun h => hdisj h (by simp)⟩
    · intro p hp
      rw [List.mem_append, not_or]
      exact ⟨hnew p (by simp [List.flatMap_cons, hp]), fun h => hdisj h (by simp [hp])⟩

/-- **The walk** disposes of a table and of all tables below it, children first. -/
theorem wp_destroyWith (hT : BbTree m root) (hD : Disposes dispose m root I) {l d x t : ℕ}
    {entry : U64} {pages : List ℕ} (hl : d + l = 3) (hx : x < 512 ^ d)
    (ht : bbTable m root d x = some t) (he : ¬ huge entry) (hI : I pages s)
    (hnew : ∀ p ∈ bbBelow m l d t, p ∉ pages) :
    wp (destroyWith dispose (l + 1) (pagePtr t) entry)
      (fun _ s' => I (pages ++ bbBelow m l d t) s') s := by
  induction l generalizing d x t entry pages s with
  | zero =>
    have htab : IsBbTable m root t := ⟨d, x, by omega, hx, ht⟩
    rw [destroyWith, if_neg (pagePtr_ne_zero (hT.table_lt htab)),
      if_neg (show ¬ entry &&& pteHugePage ≠ 0#64 from he), if_neg (by omega)]
    exact hD.dispose hI htab (hnew t (Radix.mem_postorder_self _ _ _))
  | succ l ih =>
    have htab : IsBbTable m root t := ⟨d, x, by omega, hx, ht⟩
    have htnew : t ∉ pages := hnew t (Radix.mem_postorder_self _ _ _)
    have hnodup : (bbBelow m (l + 1) d t).Nodup :=
      Radix.nodup_postorder (by decide) hT.inj hl.le hx ht
    rw [bbBelow_succ] at hnodup hnew ⊢
    rw [destroyWith, if_neg (pagePtr_ne_zero (hT.table_lt htab)),
      if_neg (show ¬ entry &&& pteHugePage ≠ 0#64 from he), if_pos (by omega)]
    simp only [wp_bind]
    refine wp_mono (wp_disposeEntries hT hD hl hx ht (ih (by omega)) (List.range 512)
      (fun i hi => List.mem_range.1 hi) hI htnew hnodup fun p hp => hnew p (by simp [hp])) ?_
    intro _ s₁ hI₁
    rw [← List.append_assoc]
    refine hD.dispose hI₁ htab ?_
    rw [List.mem_append, not_or]
    refine ⟨htnew, fun h => ?_⟩
    exact (List.nodup_append'.1 hnodup).2.2 h (by simp)

end Walk

end Dumboss.PageTable
