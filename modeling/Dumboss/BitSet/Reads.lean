import Dumboss.BitSet
import Dumboss.Lib.Effects

/-!
# The words that the queries of a bit set read (`lib/bitset.h`)

The queries once more, on a `read` that records every access to `bits.data`: the state is the list of
the word indices that were read, latest first.

* `readWord`, `getCountReading`, `getAllReading`, `getAnyReading`;
* `ReadsBelow`: the record grows by indices below a bound;
* `Local`: a program whose run depends on nothing but the words it reads, with the rules for `pure`,
  `bind`, `if` and `readWord`;
* `bitset_queries_exact`: the queries agree with the bitwise definition, with and without the record.
-/

namespace Dumboss.BitSet

open Prog

variable {α β : Type}

/-- `bits.data[i]`, recorded. -/
def readWord (data : ℕ → U64) (i : ℕ) : Kern (List ℕ) U64 := do
  modify (i :: ·)
  return data i

/-- `BitSet__get_count`. -/
def getCountReading (bits : BitSet) : ℤ → ℤ → Kern (List ℕ) ℤ :=
  getCountBy (readWord bits.data) bits.count

/-- `BitSet__get_all`. -/
def getAllReading (bits : BitSet) : ℤ → ℤ → Kern (List ℕ) Bool :=
  getAllBy (readWord bits.data) bits.count

/-- `BitSet__get_any`. -/
def getAnyReading (bits : BitSet) : ℤ → ℤ → Kern (List ℕ) Bool :=
  getAnyBy (readWord bits.data) bits.count

/-! ### Which words are read -/

/-- The words read from `r` to `r'` have indices below `words`. -/
def ReadsBelow (words : ℕ) (r r' : List ℕ) : Prop := ∃ l, r' = l ++ r ∧ ∀ w ∈ l, w < words

instance (words : ℕ) : Std.Refl (ReadsBelow words) := ⟨fun _ => ⟨[], rfl, by simp⟩⟩

instance (words : ℕ) : IsTrans (List ℕ) (ReadsBelow words) where
  trans := by
    rintro r _ _ ⟨l, rfl, hl⟩ ⟨l', rfl, hl'⟩
    refine ⟨l' ++ l, by rw [List.append_assoc], ?_⟩
    intro w hw
    rcases List.mem_append.1 hw with hw | hw
    · exact hl' w hw
    · exact hl w hw

/-- A word of the set is read. -/
theorem yields_readWord (bits : BitSet) {i : ℕ} (hi : 64 * (i : ℤ) < bits.count) :
    Yields (ReadsBelow ((bits.count + 63) / 64).toNat) (readWord bits.data i) (bits.data i) := by
  intro r
  simp only [readWord, wp_bind, wp_modify, wp_pure]
  refine ⟨trivial, [i], rfl, fun w hw => ?_⟩
  rw [List.mem_singleton.1 hw]
  omega

/-! ### What a run depends on -/

/-- The run of `m` on some words is the same on any other words that agree on those it reads. -/
def Local (m : (ℕ → U64) → Kern (List ℕ) α) : Prop :=
  ∀ d d' r a r', m d r = Except.ok (a, r') →
    ∃ l, r' = l ++ r ∧ ((∀ w ∈ l, d' w = d w) → m d' r = Except.ok (a, r'))

/-- A program that reads nothing. -/
theorem local_const {m : Kern (List ℕ) α} (hm : Reads m) : Local fun _ => m := by
  intro d d' r a r' hrun
  obtain rfl : r' = r := hm hrun
  exact ⟨[], rfl, fun _ => hrun⟩

theorem Local.bind {m : (ℕ → U64) → Kern (List ℕ) α} {f : (ℕ → U64) → α → Kern (List ℕ) β}
    (hm : Local m) (hf : ∀ a, Local fun d => f d a) : Local fun d => m d >>= f d := by
  intro d d' r b r'' hrun
  obtain ⟨a, r', hfirst, hrest⟩ := of_bind_eq_ok hrun
  obtain ⟨l, rfl, hm'⟩ := hm d d' r a r' hfirst
  obtain ⟨l', rfl, hf'⟩ := hf a d d' (l ++ r) b r'' hrest
  refine ⟨l' ++ l, by rw [List.append_assoc], fun hagree => ?_⟩
  exact (bind_eq_run (hm' fun w hw => hagree w (by simp [hw]))).trans
    (hf' fun w hw => hagree w (by simp [hw]))

theorem Local.ite {c : Prop} [Decidable c] {m n : (ℕ → U64) → Kern (List ℕ) α} (hm : Local m)
    (hn : Local n) : Local fun d => if c then m d else n d := by
  split_ifs
  · exact hm
  · exact hn

theorem local_readWord (i : ℕ) : Local fun d => readWord d i := by
  rintro d d' r a r' ⟨⟩
  refine ⟨[i], rfl, fun hagree => ?_⟩
  show Except.ok (d' i, i :: r) = _
  rw [hagree i (by simp)]

section Queries

variable (count : ℤ)

theorem local_getBy (i : ℤ) : Local fun d => getBy (readWord d) count i :=
  (local_const (.assert ..)).bind fun _ => (local_const (.assert ..)).bind fun _ =>
    (local_readWord _).bind fun _ => local_const (.pure _)

theorem local_countBitsBy (n : ℕ) (i : ℤ) : Local fun d => countBitsBy (readWord d) count n i := by
  induction n generalizing i with
  | zero => exact local_const (.pure _)
  | succ n ih =>
    exact (local_getBy count i).bind fun _ => (ih _).bind fun _ => local_const (.pure _)

theorem local_countWordsBy (n w : ℕ) : Local fun d => countWordsBy (readWord d) n w := by
  induction n generalizing w with
  | zero => exact local_const (.pure _)
  | succ n ih => exact (local_readWord w).bind fun _ => (ih _).bind fun _ => local_const (.pure _)

theorem local_allBitsBy (n : ℕ) (i : ℤ) : Local fun d => allBitsBy (readWord d) count n i := by
  induction n generalizing i with
  | zero => exact local_const (.pure _)
  | succ n ih => exact (local_getBy count i).bind fun _ => (ih _).ite (local_const (.pure _))

theorem local_allWordsBy (n w : ℕ) : Local fun d => allWordsBy (readWord d) n w := by
  induction n generalizing w with
  | zero => exact local_const (.pure _)
  | succ n ih => exact (local_readWord w).bind fun _ => (local_const (.pure _)).ite (ih _)

theorem local_anyBitsBy (n : ℕ) (i : ℤ) : Local fun d => anyBitsBy (readWord d) count n i := by
  induction n generalizing i with
  | zero => exact local_const (.pure _)
  | succ n ih => exact (local_getBy count i).bind fun _ => (local_const (.pure _)).ite (ih _)

theorem local_anyWordsBy (n w : ℕ) : Local fun d => anyWordsBy (readWord d) n w := by
  induction n generalizing w with
  | zero => exact local_const (.pure _)
  | succ n ih => exact (local_readWord w).bind fun _ => (local_const (.pure _)).ite (ih _)

/-- The part of a query before its first loop. -/
theorem local_bounds (b e : ℤ) {f : (ℕ → U64) → ℕ → ℕ → Kern (List ℕ) α}
    (hf : ∀ fb fe, Local fun d => f d fb fe) : Local (fun d => do
      assertRange count b e
      let fastBegin ← alignUp b.toNat 64
      let fastEnd ← alignDown e.toNat 64
      f d fastBegin fastEnd) :=
  (local_const (.bind (.assert ..) fun _ => .bind (.assert ..) fun _ => .assert ..)).bind fun _ =>
    (local_const (.bind (.assert ..) fun _ => .pure _)).bind fun _ =>
      (local_const (.bind (.assert ..) fun _ => .pure _)).bind fun _ => hf _ _

theorem local_getCountBy (b e : ℤ) : Local fun d => getCountBy (readWord d) count b e :=
  local_bounds count b e fun _ _ => (local_countBitsBy count _ _).ite <|
    (local_countBitsBy count _ _).bind fun _ => (local_countWordsBy _ _).bind fun _ =>
      (local_countBitsBy count _ _).bind fun _ => local_const (.pure _)

theorem local_getAllBy (b e : ℤ) : Local fun d => getAllBy (readWord d) count b e :=
  local_bounds count b e fun _ _ => (local_allBitsBy count _ _).ite <|
    (local_allBitsBy count _ _).bind fun _ => ((local_allWordsBy _ _).bind fun _ =>
      (local_allBitsBy count _ _).ite (local_const (.pure _))).ite (local_const (.pure _))

theorem local_getAnyBy (b e : ℤ) : Local fun d => getAnyBy (readWord d) count b e :=
  local_bounds count b e fun _ _ => (local_anyBitsBy count _ _).ite <|
    (local_anyBitsBy count _ _).bind fun _ => (local_const (.pure _)).ite <|
      (local_anyWordsBy _ _).bind fun _ => (local_const (.pure _)).ite (local_anyBitsBy count _ _)

end Queries

/-! ### The bitwise definition -/

/-- `BitSet__get(i)` is true. -/
def Gets (bits : BitSet) (i : ℕ) : Prop := ∀ s : Unit, bits.get (i : ℤ) s = Except.ok (true, s)

theorem gets_iff {bits : BitSet} {i : ℕ} (hi : (i : ℤ) < bits.count) : bits.Gets i ↔ bits.test i = true := by
  constructor
  · intro h
    have hrun := (get_eq_ok hi ()).symm.trans (h ())
    exact (Prod.mk.inj (Except.ok.inj hrun)).1
  · intro h s
    rw [get_eq_ok hi, h]

/-- The query answers `v` on `bits`; with the record of its reads, these are of words of the set, and
every set of the same size that has the same words there gets the same answer. -/
structure Answers {σ : Type} (query : BitSet → Kern σ α) (reading : BitSet → Kern (List ℕ) α)
    (bits : BitSet) (v : α) : Prop where
  query_eq : ∀ s, query bits s = Except.ok (v, s)
  reading_eq : ∃ reads, reading bits [] = Except.ok (v, reads) ∧
    (∀ w ∈ reads, w < ((bits.count + 63) / 64).toNat) ∧
    ∀ bits' : BitSet, bits'.count = bits.count → (∀ w ∈ reads, bits'.data w = bits.data w) →
      ∀ s, query bits' s = Except.ok (v, s)

/-- `q read count` is the query on the words that `read` gives; it answers `v bits`. -/
theorem answers_of_yields {σ : Type} {q : {τ : Type} → (ℕ → Kern τ U64) → ℤ → Kern τ α}
    {v : BitSet → α} {a : α} {bits : BitSet}
    (hy : ∀ {τ : Type} {R : τ → τ → Prop} [Std.Refl R] [IsTrans τ R] {bits' : BitSet}
      {read : ℕ → Kern τ U64}, bits'.count = bits.count →
      (∀ i : ℕ, 64 * (i : ℤ) < bits'.count → Yields R (read i) (bits'.data i)) →
      Yields R (q read bits'.count) (v bits'))
    (hlocal : Local fun d => q (readWord d) bits.count) (ha : v bits = a) :
    Answers (σ := σ) (fun bits => q bits.word bits.count)
      (fun bits => q (readWord bits.data) bits.count) bits a := by
  subst ha
  have hquery : ∀ bits' : BitSet, bits'.count = bits.count → ∀ s : σ,
      q bits'.word bits'.count s = Except.ok (v bits', s) := fun bits' hc s =>
    eq_ok_of_wp (((hy (R := Eq) hc fun i _ => yields_word bits' i).wp_iff _ s).2 ⟨rfl, rfl⟩)
  obtain ⟨_, reads, hrun, rfl, l, rfl, hl⟩ := hy rfl (fun i hi => yields_readWord bits hi) []
  rw [List.append_nil] at hrun
  refine ⟨hquery bits rfl, l, hrun, hl, fun bits' hc hagree s => ?_⟩
  -- the recorded run is also one on the other set, whose answer is that of the query
  obtain ⟨l', hl', hsame⟩ := hlocal bits.data bits'.data [] _ _ hrun
  rw [List.append_nil] at hl'
  subst hl'
  have hrun' := hsame hagree
  rw [← hc] at hrun'
  obtain ⟨heq, -⟩ := wp_run hrun' (hy hc (fun i hi => yields_readWord bits' hi) [])
  rw [hquery bits' hc s, heq]

open Classical in
/-- **The queries agree with the bitwise definition**, and they read no word behind the last one. -/
theorem bitset_queries_exact {σ : Type} (bits : BitSet) {b e : ℕ} (hbe : b ≤ e)
    (he : (e : ℤ) ≤ bits.count) :
    Answers (fun bits => (bits.getCount b e : Kern σ ℤ)) (fun bits => bits.getCountReading b e) bits
      ((Finset.Ico b e).filter bits.Gets).card ∧
    Answers (fun bits => (bits.getAll b e : Kern σ Bool)) (fun bits => bits.getAllReading b e) bits
      (decide (∀ i ∈ Finset.Ico b e, bits.Gets i)) ∧
    Answers (fun bits => (bits.getAny b e : Kern σ Bool)) (fun bits => bits.getAnyReading b e) bits
      (decide (∃ i ∈ Finset.Ico b e, bits.Gets i)) := by
  have hgets : ∀ i ∈ Finset.Ico b e, (bits.Gets i ↔ bits.test i = true) := by
    intro i hi
    rw [Finset.mem_Ico] at hi
    exact gets_iff (by omega)
  have hmem (i : ℕ) : i ∈ List.range' b (e - b) ↔ i ∈ Finset.Ico b e := by
    rw [List.mem_range'_1, Finset.mem_Ico]
    omega
  refine ⟨answers_of_yields (q := fun read count => getCountBy read count b e)
      (v := fun bits => (List.range' b (e - b)).countP bits.test)
      (fun hc hread => yields_getCountBy hread hbe (hc ▸ he)) (local_getCountBy bits.count b e) ?_,
    answers_of_yields (q := fun read count => getAllBy read count b e)
      (v := fun bits => (List.range' b (e - b)).all bits.test)
      (fun hc hread => yields_getAllBy hread hbe (hc ▸ he)) (local_getAllBy bits.count b e) ?_,
    answers_of_yields (q := fun read count => getAnyBy read count b e)
      (v := fun bits => (List.range' b (e - b)).any bits.test)
      (fun hc hread => yields_getAnyBy hread hbe (hc ▸ he)) (local_getAnyBy bits.count b e) ?_⟩
  · have hcard : ((Finset.Ico b e).filter fun i => bits.test i = true).card =
        (List.range' b (e - b)).countP bits.test := by
      have hval : (Finset.Ico b e).val = (List.range' b (e - b) : Multiset ℕ) := rfl
      rw [Finset.card, Finset.filter_val, ← Multiset.countP_eq_card_filter, hval, Multiset.coe_countP]
      congr 1
      funext i
      exact Bool.decide_eq_true
    rw [Finset.filter_congr hgets, hcard]
  · rw [Bool.eq_iff_iff, List.all_eq_true, decide_eq_true_iff]
    exact ⟨fun h i hi => (hgets i hi).2 (h i ((hmem i).2 hi)),
      fun h i hi => (hgets i ((hmem i).1 hi)).1 (h i ((hmem i).1 hi))⟩
  · rw [Bool.eq_iff_iff, List.any_eq_true, decide_eq_true_iff]
    constructor
    · rintro ⟨i, hi, htest⟩
      exact ⟨i, (hmem i).1 hi, (hgets i ((hmem i).1 hi)).2 htest⟩
    · rintro ⟨i, hi, hget⟩
      exact ⟨i, (hmem i).2 hi, (hgets i hi).1 hget⟩

/-- A range with a head, a whole word and a tail. -/
theorem bitset_queries_exact_three_words : (60 : ℕ) ≤ 130 ∧ ((130 : ℕ) : ℤ) ≤ 200 ∧
    ∃ v reads, (⟨fun _ => 5#64, 200⟩ : BitSet).getCountReading (60 : ℕ) (130 : ℕ) [] =
      Except.ok (v, reads) ∧ ∀ w ∈ reads, w < 4 := by
  obtain ⟨hcount, -, -⟩ := bitset_queries_exact (σ := Unit) ⟨fun _ => 5#64, 200⟩
    (b := 60) (e := 130) (by decide) (by decide)
  obtain ⟨reads, hrun, hreads, -⟩ := hcount.reading_eq
  exact ⟨by decide, by decide, _, reads, hrun, hreads⟩

end Dumboss.BitSet
