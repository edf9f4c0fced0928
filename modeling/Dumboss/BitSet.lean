import Dumboss.Machine

/-!
# Bit sets (`lib/bitset.h`)

A `BitSet` is an array of 64-bit words and a number of bits.  The range functions work bit by bit
up to the first word boundary, then a word at a time, then bit by bit again.

* `getBy`, `getCountBy`, `getAllBy`, `getAnyBy`: the queries, with the access to a word as a parameter;
  `get`, `getCount`, `getAll`, `getAny` are the queries of a `BitSet`;
* `set`, `setRange`: the writes;
* `Yields R m v`: `m` returns `v` and moves along `R`.  What a query yields depends only on what the
  access to a word yields;
* `BitSet.test i` is bit `i` of the words; the specifications `wp_get`, `wp_getAll`, `wp_getAny`,
  `wp_getCount`, `wp_set` and `wp_setRange` say that on a range inside the set every function does to
  the bits `test i` what its bit-by-bit reading says, and that no assertion fails.
-/

namespace Dumboss

open Prog

/-- `BitSet`: the words `data` points to, and the number of bits. -/
structure BitSet where
  data : ℕ → U64
  count : ℤ

namespace BitSet

variable {σ : Type}

/-- The assertions all range functions make first. -/
def assertRange (count begin' end' : ℤ) : Kern σ Unit := do
  assert (0 ≤ begin') (.failed "0 <= begin")
  assert (begin' ≤ end') (.failed "begin <= end")
  assert (end' ≤ count) (.failed "end <= bits.count")

/-! ### The queries, on words that `read` gives -/

section By

variable (read : ℕ → Kern σ U64) (count : ℤ)

/-- `BitSet__get`. -/
def getBy (idx : ℤ) : Kern σ Bool := do
  assert (0 ≤ idx) (.failed "0 <= idx")
  assert (idx < count) (.failed "idx < bits.count")
  let v ← read (idx / 64).toNat
  return decide (0#64 ≠ (1#64 <<< (idx % 64).toNat) &&& v)

/-- Count the set bits among the `n` bits from `i` on. -/
def countBitsBy : ℕ → ℤ → Kern σ ℤ
  | 0, _ => return 0
  | n + 1, i => do
    let b ← getBy read count i
    let rest ← countBitsBy n (i + 1)
    return (if b then 1 else 0) + rest

/-- Sum the population counts of the `n` words from `i` on. -/
def countWordsBy : ℕ → ℕ → Kern σ ℤ
  | 0, _ => return 0
  | n + 1, i => do
    let v ← read i
    let rest ← countWordsBy n (i + 1)
    return popcountl v + rest

/-- `BitSet__get_count`. -/
def getCountBy (begin' end' : ℤ) : Kern σ ℤ := do
  assertRange count begin' end'
  let fastBegin ← alignUp begin'.toNat 64
  let fastEnd ← alignDown end'.toNat 64
  if fastEnd ≤ fastBegin then
    countBitsBy read count (end' - begin').toNat begin'
  else
    let head ← countBitsBy read count (fastBegin - begin').toNat begin'
    let middle ← countWordsBy read (fastEnd / 64 - fastBegin / 64) (fastBegin / 64)
    let tail ← countBitsBy read count (end' - fastEnd).toNat fastEnd
    return head + middle + tail

/-- Whether the `n` bits from `i` on are all set; stops at the first that is not. -/
def allBitsBy : ℕ → ℤ → Kern σ Bool
  | 0, _ => return true
  | n + 1, i => do
    if ← getBy read count i then allBitsBy n (i + 1) else return false

/-- Whether the `n` words from `i` on are all ones. -/
def allWordsBy : ℕ → ℕ → Kern σ Bool
  | 0, _ => return true
  | n + 1, i => do
    if (← read i) ≠ ~~~0#64 then return false else allWordsBy n (i + 1)

/-- `BitSet__get_all`. -/
def getAllBy (begin' end' : ℤ) : Kern σ Bool := do
  assertRange count begin' end'
  let fastBegin ← alignUp begin'.toNat 64
  let fastEnd ← alignDown end'.toNat 64
  if fastEnd ≤ fastBegin then
    allBitsBy read count (end' - begin').toNat begin'
  else if ← allBitsBy read count (fastBegin - begin').toNat begin' then
    if ← allWordsBy read (fastEnd / 64 - fastBegin / 64) (fastBegin / 64) then
      allBitsBy read count (end' - fastEnd).toNat fastEnd
    else return false
  else return false

/-- Whether one of the `n` bits from `i` on is set; stops at the first that is. -/
def anyBitsBy : ℕ → ℤ → Kern σ Bool
  | 0, _ => return false
  | n + 1, i => do
    if ← getBy read count i then return true else anyBitsBy n (i + 1)

/-- Whether one of the `n` words from `i` on is nonzero. -/
def anyWordsBy : ℕ → ℕ → Kern σ Bool
  | 0, _ => return false
  | n + 1, i => do
    if (← read i) ≠ 0#64 then return true else anyWordsBy n (i + 1)

/-- `BitSet__get_any`. -/
def getAnyBy (begin' end' : ℤ) : Kern σ Bool := do
  assertRange count begin' end'
  let fastBegin ← alignUp begin'.toNat 64
  let fastEnd ← alignDown end'.toNat 64
  if fastEnd ≤ fastBegin then
    anyBitsBy read count (end' - begin').toNat begin'
  else if ← anyBitsBy read count (fastBegin - begin').toNat begin' then
    return true
  else if ← anyWordsBy read (fastEnd / 64 - fastBegin / 64) (fastBegin / 64) then
    return true
  else anyBitsBy read count (end' - fastEnd).toNat fastEnd

end By

/-- `bits.data[i]`. -/
def word (bits : BitSet) (i : ℕ) : Kern σ U64 := return bits.data i

/-- `BitSet__get`. -/
def get (bits : BitSet) : ℤ → Kern σ Bool := getBy bits.word bits.count

/-- `BitSet__get_count`. -/
def getCount (bits : BitSet) : ℤ → ℤ → Kern σ ℤ := getCountBy bits.word bits.count

/-- `BitSet__get_all`. -/
def getAll (bits : BitSet) : ℤ → ℤ → Kern σ Bool := getAllBy bits.word bits.count

/-- `BitSet__get_any`. -/
def getAny (bits : BitSet) : ℤ → ℤ → Kern σ Bool := getAnyBy bits.word bits.count

/-! ### The writes -/

/-- `BitSet__set`. -/
def set (bits : BitSet) (idx : ℤ) (value : Bool) : Kern σ BitSet := do
  assert (0 ≤ idx) (.failed "0 <= idx")
  assert (idx < bits.count) (.failed "idx < bits.count")
  let w := (idx / 64).toNat
  let bit := 1#64 <<< (idx % 64).toNat
  let v := if value then bits.data w ||| bit else bits.data w &&& ~~~bit
  return { bits with data := Function.update bits.data w v }

/-- Set the `n` bits from `i` on to `value`. -/
def setBits (value : Bool) : ℕ → ℤ → BitSet → Kern σ BitSet
  | 0, _, bits => return bits
  | n + 1, i, bits => do
    let bits ← bits.set i value
    setBits value n (i + 1) bits

/-- Fill the `n` words from `i` on with `value`. -/
def setWords (value : Bool) : ℕ → ℕ → BitSet → BitSet
  | 0, _, bits => bits
  | n + 1, i, bits =>
    setWords value n (i + 1)
      { bits with data := Function.update bits.data i (if value then ~~~0#64 else 0#64) }

/-- `BitSet__set_range`. -/
def setRange (bits : BitSet) (begin' end' : ℤ) (value : Bool) : Kern σ BitSet := do
  assertRange bits.count begin' end'
  let fastBegin ← alignUp begin'.toNat 64
  let fastEnd ← alignDown end'.toNat 64
  if fastEnd ≤ fastBegin then
    setBits value (end' - begin').toNat begin' bits
  else
    let bits ← setBits value (fastBegin - begin').toNat begin' bits
    let bits := setWords value (fastEnd / 64 - fastBegin / 64) (fastBegin / 64) bits
    setBits value (end' - fastEnd).toNat fastEnd bits

/-! ### The bits of a set -/

/-- Bit `i` of the words. -/
def test (bits : BitSet) (i : ℕ) : Bool := (bits.data (i / 64)).getLsbD (i % 64)

theorem ext_test {a b : BitSet} (hc : a.count = b.count) (h : ∀ i, a.test i = b.test i) :
    a = b := by
  obtain ⟨d, c⟩ := a
  obtain ⟨d', c'⟩ := b
  obtain rfl : c = c' := hc
  congr 1
  funext w
  apply BitVec.eq_of_getLsbD_eq
  intro j hj
  have hw := h (64 * w + j)
  rwa [test, test, show (64 * w + j) / 64 = w by omega, show (64 * w + j) % 64 = j by omega] at hw

theorem getLsbD_one_shiftLeft {i j : ℕ} (hi : i < 64) :
    (1#64 <<< j).getLsbD i = decide (i = j) := by
  rw [BitVec.getLsbD_shiftLeft]
  by_cases hij : i = j
  · subst hij
    simp [hi]
  · by_cases hlt : i < j
    · simp [hlt, hij]
    · have : i - j ≠ 0 := by omega
      simp [hij, this]

/-- The word with one bit set, met with another word. -/
theorem bit_and_ne_zero_iff (v : U64) {j : ℕ} (hj : j < 64) :
    0#64 ≠ (1#64 <<< j) &&& v ↔ v.getLsbD j = true := by
  constructor
  · intro hne
    by_contra hv
    refine hne (BitVec.eq_of_getLsbD_eq fun i hi => ?_)
    rw [BitVec.getLsbD_and, getLsbD_one_shiftLeft hi, BitVec.getLsbD_zero]
    by_cases hij : i = j
    · subst hij
      simpa using hv
    · simp [hij]
  · intro hv h0
    have hbit : (0#64).getLsbD j = ((1#64 <<< j) &&& v).getLsbD j := by rw [← h0]
    rw [BitVec.getLsbD_zero, BitVec.getLsbD_and, getLsbD_one_shiftLeft hj, hv] at hbit
    simp at hbit

/-- The set with bit `i` changed to `value`. -/
def put (bits : BitSet) (i : ℕ) (value : Bool) : BitSet :=
  { bits with
    data := Function.update bits.data (i / 64)
      (if value then bits.data (i / 64) ||| (1#64 <<< (i % 64))
        else bits.data (i / 64) &&& ~~~(1#64 <<< (i % 64))) }

@[simp] theorem put_count (bits : BitSet) (i : ℕ) (value : Bool) :
    (bits.put i value).count = bits.count := rfl

theorem test_put (bits : BitSet) (i j : ℕ) (value : Bool) :
    (bits.put i value).test j = if j = i then value else bits.test j := by
  have hlt : j % 64 < 64 := Nat.mod_lt _ (by omega)
  unfold put test
  dsimp only
  by_cases hw : j / 64 = i / 64
  · rw [hw, Function.update_self]
    have hiff : j % 64 = i % 64 ↔ j = i := by omega
    cases value with
    | true =>
      simp only [if_true, BitVec.getLsbD_or, getLsbD_one_shiftLeft hlt, hiff]
      by_cases hji : j = i <;> simp [hji]
    | false =>
      simp only [Bool.false_eq_true, if_false, BitVec.getLsbD_and, BitVec.getLsbD_not,
        getLsbD_one_shiftLeft hlt, hiff]
      by_cases hji : j = i <;> simp [hji, hlt]
  · have hji : j ≠ i := fun h => hw (by rw [h])
    rw [Function.update_of_ne hw, if_neg hji]

theorem wp_set {bits : BitSet} {i : ℕ} (hi : (i : ℤ) < bits.count) (value : Bool)
    (Q : BitSet → σ → Prop) (s : σ) : wp (bits.set i value) Q s ↔ Q (bits.put i value) s := by
  have hmod : ((i : ℤ) % 64).toNat = i % 64 := by omega
  have hdiv : ((i : ℤ) / 64).toNat = i / 64 := by omega
  simp only [set, wp_bind, wp_assert, wp_pure, hmod, hdiv]
  simp [hi, put]

/-! ### Ranges -/

theorem wp_alignUp_64 (v : ℕ) (Q : ℕ → σ → Prop) (s : σ) :
    wp (alignUp v 64) Q s ↔ Q ((v + 63) / 64 * 64) s := wp_alignUp (k := 6) (by omega) v Q s

theorem wp_alignDown_64 (v : ℕ) (Q : ℕ → σ → Prop) (s : σ) :
    wp (alignDown v 64) Q s ↔ Q (v / 64 * 64) s := wp_alignDown (k := 6) (by omega) v Q s

theorem wp_assertRange {count : ℤ} {b e : ℕ} (hbe : b ≤ e) (he : (e : ℤ) ≤ count)
    (Q : Unit → σ → Prop) (s : σ) : wp (assertRange count b e) Q s ↔ Q () s := by
  simp [assertRange, hbe, he]

/-- The 64 bits of word `w`. -/
theorem test_word (bits : BitSet) (w : ℕ) {j : ℕ} (hj : j < 64) :
    bits.test (64 * w + j) = (bits.data w).getLsbD j := by
  rw [test, show (64 * w + j) / 64 = w by omega, show (64 * w + j) % 64 = j by omega]

theorem range'_word (w n : ℕ) :
    List.range' (64 * w) (64 * (n + 1)) =
      (List.range 64).map (fun j => 64 * w + j) ++ List.range' (64 * (w + 1)) (64 * n) := by
  rw [show 64 * (n + 1) = 64 + 64 * n by ring, ← List.range'_append_1, List.range'_eq_map_range,
    show 64 * (w + 1) = 64 * w + 64 by ring]

/-- A word is all ones if its bits are all set. -/
theorem all_word (bits : BitSet) (w : ℕ) :
    ((List.range 64).map fun j => 64 * w + j).all bits.test = decide (bits.data w = ~~~0#64) := by
  rw [Bool.eq_iff_iff, List.all_eq_true, decide_eq_true_iff]
  constructor
  · intro h
    apply BitVec.eq_of_getLsbD_eq
    intro j hj
    have hbit := h (64 * w + j) (List.mem_map.2 ⟨j, List.mem_range.2 hj, rfl⟩)
    rw [test_word bits w hj] at hbit
    rw [hbit, BitVec.getLsbD_not, BitVec.getLsbD_zero]
    simp [hj]
  · intro h x hx
    obtain ⟨j, hj, rfl⟩ := List.mem_map.1 hx
    rw [test_word bits w (List.mem_range.1 hj), h, BitVec.getLsbD_not, BitVec.getLsbD_zero]
    simp [List.mem_range.1 hj]

/-- A word is nonzero if one of its bits is set. -/
theorem any_word (bits : BitSet) (w : ℕ) :
    ((List.range 64).map fun j => 64 * w + j).any bits.test = decide (bits.data w ≠ 0#64) := by
  rw [Bool.eq_iff_iff, List.any_eq_true, decide_eq_true_iff]
  constructor
  · rintro ⟨x, hx, ht⟩ h0
    obtain ⟨j, hj, rfl⟩ := List.mem_map.1 hx
    rw [test_word bits w (List.mem_range.1 hj), h0] at ht
    simp at ht
  · intro h
    by_contra hno
    refine h (BitVec.eq_of_getLsbD_eq fun j hj => ?_)
    rw [BitVec.getLsbD_zero, ← test_word bits w hj]
    by_contra ht
    exact hno ⟨64 * w + j, List.mem_map.2 ⟨j, List.mem_range.2 hj, rfl⟩, by simpa using ht⟩

theorem cpopNatRec_eq_countP (v : U64) (n : ℕ) :
    v.cpopNatRec n 0 = (List.range n).countP (fun j => v.getLsbD j) := by
  induction n with
  | zero => rfl
  | succ n ih =>
    rw [BitVec.cpopNatRec_succ, BitVec.cpopNatRec_eq, ih, List.range_succ, List.countP_append]
    cases h : v.getLsbD n <;> simp [h]

/-- The population count of a word is the number of its set bits. -/
theorem countP_word (bits : BitSet) (w : ℕ) :
    ((List.range 64).map fun j => 64 * w + j).countP bits.test = popcountl (bits.data w) := by
  rw [popcountl, BitVec.toNat_cpop, cpopNatRec_eq_countP, List.countP_map]
  refine List.countP_congr fun j hj => ?_
  rw [Function.comp_apply, test_word bits w (List.mem_range.1 hj)]

theorem range'_split {b m e : ℕ} (hbm : b ≤ m) (hme : m ≤ e) :
    List.range' b (e - b) = List.range' b (m - b) ++ List.range' m (e - m) := by
  rw [show e - b = (m - b) + (e - m) by omega, ← List.range'_append_1,
    show b + (m - b) = m by omega]

/-- The head, the whole words and the tail of a range. -/
theorem range'_fast {b e : ℕ} (h : ¬ e / 64 * 64 ≤ (b + 63) / 64 * 64) :
    List.range' b (e - b) = List.range' b ((b + 63) / 64 * 64 - b) ++
      (List.range' (64 * ((b + 63) / 64)) (64 * (e / 64 - (b + 63) / 64)) ++
        List.range' (e / 64 * 64) (e - e / 64 * 64)) := by
  rw [range'_split (m := (b + 63) / 64 * 64) (by omega) (by omega),
    range'_split (b := (b + 63) / 64 * 64) (m := e / 64 * 64) (by omega) (by omega),
    Nat.mul_comm ((b + 63) / 64) 64, show e / 64 * 64 - 64 * ((b + 63) / 64) =
      64 * (e / 64 - (b + 63) / 64) by omega]

/-! ### What a query yields -/

/-- The program returns `v`, and its state moves along `R`. -/
def Yields {α : Type} (R : σ → σ → Prop) (m : Kern σ α) (v : α) : Prop :=
  ∀ s, wp m (fun a s' => a = v ∧ R s s') s

section Yields

variable {α β : Type} {R : σ → σ → Prop}

theorem yields_pure [Std.Refl R] (v : α) : Yields R (pure v) v := fun s => (wp_pure ..).2 ⟨rfl, refl s⟩

theorem Yields.bind [IsTrans σ R] {m : Kern σ α} {f : α → Kern σ β} {a : α} {b : β} (hm : Yields R m a)
    (hf : Yields R (f a) b) : Yields R (m >>= f) b := by
  intro s
  rw [wp_bind]
  refine wp_mono (hm s) ?_
  rintro _ s' ⟨rfl, hs'⟩
  refine wp_mono (hf s') ?_
  rintro _ s'' ⟨rfl, hs''⟩
  exact ⟨rfl, IsTrans.trans _ _ _ hs' hs''⟩

/-- A program that leaves the state alone. -/
theorem yields_of_wp [Std.Refl R] {m : Kern σ α} {v : α} (h : ∀ (Q : α → σ → Prop) s, wp m Q s ↔ Q v s) :
    Yields R m v := by
  intro s
  rw [h]
  exact ⟨rfl, refl s⟩

theorem yields_assert [Std.Refl R] {c : Prop} [Decidable c] (hc : c) (e : Panic) : Yields R (assert c e) () := by
  refine yields_of_wp fun Q s => ?_
  rw [wp_assert]
  exact and_iff_right hc

variable [Std.Refl R] [IsTrans σ R]

/-- The part of a query before its first loop. -/
theorem yields_bounds {count : ℤ} {b e : ℕ} (hbe : b ≤ e) (he : (e : ℤ) ≤ count)
    {f : ℕ → ℕ → Kern σ α} {v : α} (hf : Yields R (f ((b + 63) / 64 * 64) (e / 64 * 64)) v) :
    Yields R (do
      assertRange count b e
      let fastBegin ← alignUp (b : ℤ).toNat 64
      let fastEnd ← alignDown (e : ℤ).toNat 64
      f fastBegin fastEnd) v :=
  (yields_of_wp (wp_assertRange hbe he)).bind ((yields_of_wp (wp_alignUp_64 b)).bind
    ((yields_of_wp (wp_alignDown_64 e)).bind hf))

variable {bits : BitSet} {read : ℕ → Kern σ U64}
  (hread : ∀ i : ℕ, 64 * (i : ℤ) < bits.count → Yields R (read i) (bits.data i))
include hread

theorem yields_getBy {i : ℕ} (hi : (i : ℤ) < bits.count) :
    Yields R (getBy read bits.count i) (bits.test i) := by
  have hdiv : ((i : ℤ) / 64).toNat = i / 64 := by omega
  have hmod : ((i : ℤ) % 64).toNat = i % 64 := by omega
  have hb : decide (0#64 ≠ (1#64 <<< (i % 64)) &&& bits.data (i / 64)) = bits.test i := by
    rw [test, Bool.eq_iff_iff, decide_eq_true_iff]
    exact bit_and_ne_zero_iff _ (by omega)
  unfold getBy
  rw [hdiv, hmod, ← hb]
  exact (yields_assert (Int.natCast_nonneg i) _).bind ((yields_assert hi _).bind
    ((hread _ (by push_cast; omega)).bind (yields_pure _)))

theorem yields_countBitsBy {n i : ℕ} (hi : ((i + n : ℕ) : ℤ) ≤ bits.count) :
    Yields R (countBitsBy read bits.count n i) ((List.range' i n).countP bits.test) := by
  induction n generalizing i with
  | zero => exact yields_pure _
  | succ n ih =>
    have hrest := ih (i := i + 1) (by push_cast at hi ⊢; omega)
    push_cast at hi hrest
    have hsum : ((List.range' i (n + 1)).countP bits.test : ℤ) =
        (if bits.test i then 1 else 0) + (List.range' (i + 1) n).countP bits.test := by
      rw [List.range'_succ, List.countP_cons]
      cases bits.test i with
      | true => simp [add_comm]
      | false => simp
    rw [hsum]
    exact (yields_getBy hread (by omega)).bind (hrest.bind (yields_pure _))

theorem yields_allBitsBy {n i : ℕ} (hi : ((i + n : ℕ) : ℤ) ≤ bits.count) :
    Yields R (allBitsBy read bits.count n i) ((List.range' i n).all bits.test) := by
  induction n generalizing i with
  | zero => exact yields_pure _
  | succ n ih =>
    have hrest := ih (i := i + 1) (by push_cast at hi ⊢; omega)
    push_cast at hi hrest
    refine (yields_getBy hread (by omega)).bind ?_
    rw [List.range'_succ, List.all_cons]
    cases bits.test i with
    | true => exact hrest
    | false => exact yields_pure _

theorem yields_anyBitsBy {n i : ℕ} (hi : ((i + n : ℕ) : ℤ) ≤ bits.count) :
    Yields R (anyBitsBy read bits.count n i) ((List.range' i n).any bits.test) := by
  induction n generalizing i with
  | zero => exact yields_pure _
  | succ n ih =>
    have hrest := ih (i := i + 1) (by push_cast at hi ⊢; omega)
    push_cast at hi hrest
    refine (yields_getBy hread (by omega)).bind ?_
    rw [List.range'_succ, List.any_cons]
    cases bits.test i with
    | true => exact yields_pure _
    | false => exact hrest

theorem yields_countWordsBy {n w : ℕ} (hw : 64 * ((w + n : ℕ) : ℤ) ≤ bits.count) :
    Yields R (countWordsBy read n w) ((List.range' (64 * w) (64 * n)).countP bits.test) := by
  induction n generalizing w with
  | zero => exact yields_pure _
  | succ n ih =>
    have hrest := ih (w := w + 1) (by push_cast at hw ⊢; omega)
    push_cast at hw
    rw [range'_word, List.countP_append, countP_word, Nat.cast_add]
    exact (hread w (by omega)).bind (hrest.bind (yields_pure _))

theorem yields_allWordsBy {n w : ℕ} (hw : 64 * ((w + n : ℕ) : ℤ) ≤ bits.count) :
    Yields R (allWordsBy read n w) ((List.range' (64 * w) (64 * n)).all bits.test) := by
  induction n generalizing w with
  | zero => exact yields_pure _
  | succ n ih =>
    have hrest := ih (w := w + 1) (by push_cast at hw ⊢; omega)
    push_cast at hw
    refine (hread w (by omega)).bind ?_
    rw [range'_word, List.all_append, all_word]
    split_ifs with hword
    · rw [decide_eq_false hword]
      exact yields_pure _
    · rw [decide_eq_true (not_not.1 hword)]
      exact hrest

theorem yields_anyWordsBy {n w : ℕ} (hw : 64 * ((w + n : ℕ) : ℤ) ≤ bits.count) :
    Yields R (anyWordsBy read n w) ((List.range' (64 * w) (64 * n)).any bits.test) := by
  induction n generalizing w with
  | zero => exact yields_pure _
  | succ n ih =>
    have hrest := ih (w := w + 1) (by push_cast at hw ⊢; omega)
    push_cast at hw
    refine (hread w (by omega)).bind ?_
    rw [range'_word, List.any_append, any_word]
    split_ifs with hword
    · rw [decide_eq_true hword]
      exact yields_pure _
    · rw [decide_eq_false hword]
      exact hrest

variable {b e : ℕ} (hbe : b ≤ e) (he : (e : ℤ) ≤ bits.count)
include hbe he

theorem yields_getCountBy :
    Yields R (getCountBy read bits.count b e) ((List.range' b (e - b)).countP bits.test) := by
  apply yields_bounds hbe he
  rw [Int.toNat_sub, Int.toNat_sub, Int.toNat_sub, Nat.mul_div_cancel _ (by decide),
    Nat.mul_div_cancel _ (by decide)]
  split_ifs with hfast
  · exact yields_countBitsBy hread (by push_cast; omega)
  · rw [range'_fast hfast, List.countP_append, List.countP_append, ← add_assoc, Nat.cast_add, Nat.cast_add]
    exact (yields_countBitsBy hread (by push_cast; omega)).bind
      ((yields_countWordsBy hread (by push_cast; omega)).bind
        ((yields_countBitsBy hread (by push_cast; omega)).bind (yields_pure _)))

theorem yields_getAllBy :
    Yields R (getAllBy read bits.count b e) ((List.range' b (e - b)).all bits.test) := by
  apply yields_bounds hbe he
  rw [Int.toNat_sub, Int.toNat_sub, Int.toNat_sub, Nat.mul_div_cancel _ (by decide),
    Nat.mul_div_cancel _ (by decide)]
  split_ifs with hfast
  · exact yields_allBitsBy hread (by push_cast; omega)
  · rw [range'_fast hfast, List.all_append, List.all_append]
    refine (yields_allBitsBy hread (by push_cast; omega)).bind ?_
    split_ifs with hhead
    · refine (yields_allWordsBy hread (by push_cast; omega)).bind ?_
      rw [hhead]
      split_ifs with hmiddle
      · rw [hmiddle]
        exact yields_allBitsBy hread (by push_cast; omega)
      · rw [Bool.not_eq_true] at hmiddle
        rw [hmiddle]
        exact yields_pure _
    · rw [Bool.not_eq_true] at hhead
      rw [hhead]
      exact yields_pure _

theorem yields_getAnyBy :
    Yields R (getAnyBy read bits.count b e) ((List.range' b (e - b)).any bits.test) := by
  apply yields_bounds hbe he
  rw [Int.toNat_sub, Int.toNat_sub, Int.toNat_sub, Nat.mul_div_cancel _ (by decide),
    Nat.mul_div_cancel _ (by decide)]
  split_ifs with hfast
  · exact yields_anyBitsBy hread (by push_cast; omega)
  · rw [range'_fast hfast, List.any_append, List.any_append]
    refine (yields_anyBitsBy hread (by push_cast; omega)).bind ?_
    split_ifs with hhead
    · rw [hhead]
      exact yields_pure _
    · rw [Bool.not_eq_true] at hhead
      refine (yields_anyWordsBy hread (by push_cast; omega)).bind ?_
      rw [hhead]
      split_ifs with hmiddle
      · rw [hmiddle]
        exact yields_pure _
      · rw [Bool.not_eq_true] at hmiddle
        rw [hmiddle]
        exact yields_anyBitsBy hread (by push_cast; omega)

end Yields

/-- A program that yields `v` and leaves the state alone. -/
theorem Yields.wp_iff {α : Type} {m : Kern σ α} {v : α} (h : Yields Eq m v) (Q : α → σ → Prop) (s : σ) :
    wp m Q s ↔ Q v s := by
  obtain ⟨_, _, hrun, rfl, rfl⟩ := h s
  exact ⟨fun hw => wp_run hrun hw, fun hQ => wp_of_run hrun hQ⟩

theorem yields_word (bits : BitSet) (i : ℕ) : Yields Eq (bits.word i : Kern σ U64) (bits.data i) :=
  yields_pure _

theorem wp_get {bits : BitSet} {i : ℕ} (hi : (i : ℤ) < bits.count) (Q : Bool → σ → Prop) (s : σ) :
    wp (bits.get i) Q s ↔ Q (bits.test i) s :=
  (yields_getBy (fun i _ => yields_word bits i) hi).wp_iff Q s

theorem get_eq_ok {bits : BitSet} {i : ℕ} (hi : (i : ℤ) < bits.count) (s : σ) :
    bits.get (i : ℤ) s = Except.ok (bits.test i, s) :=
  eq_ok_of_wp ((wp_get hi _ s).2 ⟨rfl, rfl⟩)

section Queries

variable {bits : BitSet} {b e : ℕ} (hbe : b ≤ e) (he : (e : ℤ) ≤ bits.count)
include hbe he

theorem wp_getCount (Q : ℤ → σ → Prop) (s : σ) :
    wp (bits.getCount b e) Q s ↔ Q ((List.range' b (e - b)).countP bits.test) s :=
  (yields_getCountBy (fun i _ => yields_word bits i) hbe he).wp_iff Q s

theorem wp_getAll (Q : Bool → σ → Prop) (s : σ) :
    wp (bits.getAll b e) Q s ↔ Q ((List.range' b (e - b)).all bits.test) s :=
  (yields_getAllBy (fun i _ => yields_word bits i) hbe he).wp_iff Q s

theorem wp_getAny (Q : Bool → σ → Prop) (s : σ) :
    wp (bits.getAny b e) Q s ↔ Q ((List.range' b (e - b)).any bits.test) s :=
  (yields_getAnyBy (fun i _ => yields_word bits i) hbe he).wp_iff Q s

end Queries

/-! ### What a write leaves -/

/-- `r` is `bits` with the bits of the range from `b` to `e` changed to `value`. -/
def Filled (bits : BitSet) (b e : ℕ) (value : Bool) (r : BitSet) : Prop :=
  r.count = bits.count ∧ ∀ j, r.test j = if b ≤ j ∧ j < e then value else bits.test j

theorem Filled.trans {bits r r' : BitSet} {b m e : ℕ} {value : Bool} (hbm : b ≤ m) (hme : m ≤ e)
    (h : Filled bits b m value r) (h' : Filled r m e value r') : Filled bits b e value r' := by
  refine ⟨h'.1.trans h.1, fun j => ?_⟩
  rw [h'.2, h.2]
  split_ifs <;> first | rfl | omega

theorem filled_put (bits : BitSet) (i : ℕ) (value : Bool) :
    Filled bits i (i + 1) value (bits.put i value) := by
  refine ⟨rfl, fun j => ?_⟩
  rw [test_put]
  split_ifs <;> first | rfl | omega

theorem wp_setBits {bits : BitSet} {n i : ℕ} {value : Bool}
    (hi : ((i + n : ℕ) : ℤ) ≤ bits.count) (s : σ) :
    wp (setBits value n i bits) (fun r s' => Filled bits i (i + n) value r ∧ s' = s) s := by
  induction n generalizing i bits with
  | zero =>
    rw [setBits, wp_pure]
    exact ⟨⟨rfl, fun j => by rw [if_neg (by omega)]⟩, rfl⟩
  | succ n ih =>
    push_cast at hi
    rw [setBits, wp_bind, wp_set (by omega)]
    have hle : ((i + 1 + n : ℕ) : ℤ) ≤ (bits.put i value).count := by
      push_cast
      rw [put_count]
      omega
    have hstep := ih hle
    push_cast at hstep
    refine wp_mono hstep fun r s' hr => ⟨?_, hr.2⟩
    rw [show i + (n + 1) = i + 1 + n by omega]
    exact (filled_put bits i value).trans (by omega) (by omega) hr.1

/-- Filling one word. -/
theorem filled_word (bits : BitSet) (w : ℕ) (value : Bool) :
    Filled bits (64 * w) (64 * (w + 1)) value
      { bits with data := Function.update bits.data w (if value then ~~~0#64 else 0#64) } := by
  refine ⟨rfl, fun j => ?_⟩
  unfold test
  dsimp only
  by_cases hj : j / 64 = w
  · have hlt : j % 64 < 64 := Nat.mod_lt _ (by omega)
    have hin : 64 * w ≤ j ∧ j < 64 * (w + 1) := by omega
    rw [hj, Function.update_self]
    cases value with
    | true =>
      simp only [if_true, BitVec.getLsbD_not, BitVec.getLsbD_zero]
      simp [hlt, hin]
    | false => simp [hin]
  · rw [Function.update_of_ne hj, if_neg (by omega)]

theorem filled_setWords (bits : BitSet) (n w : ℕ) (value : Bool) :
    Filled bits (64 * w) (64 * (w + n)) value (setWords value n w bits) := by
  induction n generalizing w bits with
  | zero => exact ⟨rfl, fun j => by rw [if_neg (by omega)]; rfl⟩
  | succ n ih =>
    have hstep := ih { bits with
      data := Function.update bits.data w (if value then ~~~0#64 else 0#64) } (w + 1)
    rw [show w + 1 + n = w + (n + 1) by omega] at hstep
    exact (filled_word bits w value).trans (by omega) (by omega) hstep

theorem wp_setRange {bits : BitSet} {b e : ℕ} (hbe : b ≤ e) (he : (e : ℤ) ≤ bits.count)
    (value : Bool) (s : σ) :
    wp (bits.setRange b e value) (fun r s' => Filled bits b e value r ∧ s' = s) s := by
  simp only [setRange, wp_bind, wp_assertRange hbe he, wp_alignUp_64, wp_alignDown_64, wp_ite,
    Int.toNat_natCast, Int.toNat_sub, Nat.mul_div_cancel _ (show 0 < 64 by omega)]
  split_ifs with hfast
  · have hall : wp (setBits value (e - b) b bits) _ s := wp_setBits (by push_cast; omega) s
    rwa [show b + (e - b) = e by omega] at hall
  · refine wp_mono (wp_setBits (by push_cast; omega) s) ?_
    rintro r1 s' ⟨h1, rfl⟩
    rw [show b + ((b + 63) / 64 * 64 - b) = (b + 63) / 64 * 64 by omega] at h1
    have h2 := filled_setWords r1 (e / 64 - (b + 63) / 64) ((b + 63) / 64) value
    rw [Nat.mul_comm 64, show 64 * ((b + 63) / 64 + (e / 64 - (b + 63) / 64)) = e / 64 * 64 by
      omega] at h2
    have h12 := h1.trans (by omega) (by omega) h2
    refine wp_mono (wp_setBits (by rw [h12.1]; push_cast; omega) s') ?_
    rintro r3 s'' ⟨h3, rfl⟩
    rw [show e / 64 * 64 + (e - e / 64 * 64) = e by omega] at h3
    exact ⟨h12.trans (by omega) (by omega) h3, rfl⟩

/-- `r` is `bits` with some of its bits changed; the rest of the words is as it was. -/
def Changed (bits r : BitSet) : Prop :=
  r.count = bits.count ∧ ∀ j : ℕ, bits.count ≤ j → r.test j = bits.test j

theorem Changed.refl (bits : BitSet) : Changed bits bits := ⟨rfl, fun _ _ => rfl⟩

theorem changed_put {bits : BitSet} {i : ℕ} (hi : (i : ℤ) < bits.count) (value : Bool) :
    Changed bits (bits.put i value) := by
  refine ⟨rfl, fun j hj => ?_⟩
  have hne : j ≠ i := by omega
  rw [test_put, if_neg hne]

theorem Filled.changed {bits r : BitSet} {b e : ℕ} {value : Bool} (h : Filled bits b e value r)
    (he : (e : ℤ) ≤ bits.count) : Changed bits r := by
  refine ⟨h.1, fun j hj => ?_⟩
  have hout : ¬ (b ≤ j ∧ j < e) := by omega
  rw [h.2, if_neg hout]

theorem Filled.test_eq {bits r : BitSet} {b e : ℕ} {value : Bool} (h : Filled bits b e value r)
    (j : ℕ) : r.test j = if b ≤ j ∧ j < e then value else bits.test j := h.2 j

end BitSet

end Dumboss
