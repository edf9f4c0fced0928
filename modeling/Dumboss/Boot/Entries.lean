import Dumboss.Lib.Runs
import Dumboss.Boot.Metadata

/-!
# The free entries, from the boot loader's map to the last carving

`memory__init` moves the free entries to the front with a bubble sort that only swaps an entry that is
not free with a free one behind it, and cuts the map off at the first entry that is not free.  From
then on `alloc_from_entries` carves bytes off them.

* `sortPass_append`: a pass settles the last of the entries it goes over;
* `mmap_filter`: what is left of the map are its free entries, in their order;
* `Ledger`: the entries during a run of `alloc_from_entries`, with the regions it returned;
* `Clear`: no entry that is looked at ends before the alignment lets it start.  The code subtracts the
  padding without asking whether the entry has that many bytes;
* `InsideFree`: every region is inside what was left of an entry, and lies apart from the others and
  from what is left now;
* `insideFree_of_clear`: this holds along every run that meets `Clear`.
-/

namespace Dumboss.Boot

open Prog

variable {es back : List MMapEnt}

/-! ### The free entries come first -/

theorem isFree_iff (e : MMapEnt) : e.isFree = true ↔ e.type = mmapFree := beq_iff_eq

/-- If the entry `f` stands behind `e`, then it is free only if `e` is. -/
def FreeFirst (e f : MMapEnt) : Prop := f.isFree = true → e.isFree = true

/-- A pass keeps the order of the free entries. -/
theorem sortPass_filter (n : ℕ) (es : List MMapEnt) :
    (sortPass n es).filter MMapEnt.isFree = es.filter MMapEnt.isFree := by
  fun_induction sortPass n es with
  | case1 n left right rest hswap ih =>
    have hleft : ¬ left.isFree = true := fun h => hswap.1 ((isFree_iff left).1 h)
    have hright : right.isFree = true := (isFree_iff right).2 hswap.2
    rw [List.filter_cons_of_pos hright, ih, List.filter_cons_of_neg hleft,
      List.filter_cons_of_neg hleft, List.filter_cons_of_pos hright]
  | case2 n left right rest hswap ih =>
    rw [List.filter_cons, ih]
    exact List.filter_cons.symm
  | case3 n es hne => rfl

theorem slowSort_filter (n : ℕ) (es : List MMapEnt) :
    (slowSort n es).filter MMapEnt.isFree = es.filter MMapEnt.isFree := by
  induction n generalizing es with
  | zero => rfl
  | succ n ih => rw [slowSort, ih, sortPass_filter]

/-- A pass over the entries `xs` leaves those behind them alone, and settles the last one: it is free
only if all of `xs` are. -/
theorem sortPass_append (back : List MMapEnt) {n : ℕ} {xs : List MMapEnt}
    (hlen : xs.length = n + 1) :
    ∃ ys y, sortPass n (xs ++ back) = ys ++ y :: back ∧ (ys ++ [y]).Perm xs ∧
      ∀ e ∈ ys, FreeFirst e y := by
  induction n generalizing xs with
  | zero =>
    obtain ⟨x, rfl⟩ := List.length_eq_one_iff.1 hlen
    exact ⟨[], x, by cases back <;> rfl, List.Perm.refl _, by simp⟩
  | succ n ih =>
    obtain ⟨left, xs, rfl⟩ := List.exists_cons_of_length_eq_add_one hlen
    obtain ⟨right, rest, rfl⟩ := List.exists_cons_of_length_eq_add_one (Nat.succ.inj hlen)
    have hrest : rest.length = n := by simpa using hlen
    rw [List.cons_append, List.cons_append, sortPass]
    split_ifs with hswap
    · have hlen' : (left :: rest).length = n + 1 := by rw [List.length_cons, hrest]
      obtain ⟨ys, y, heq, hperm, hfirst⟩ := ih hlen'
      refine ⟨right :: ys, y, ?_, ?_, ?_⟩
      · rw [List.cons_append, ← heq, List.cons_append]
      · exact (hperm.cons right).trans (List.Perm.swap left right rest)
      · intro e he hy
        rcases List.mem_cons.1 he with rfl | he
        · exact (isFree_iff e).2 hswap.2
        · exact hfirst e he hy
    · have hlen' : (right :: rest).length = n + 1 := by rw [List.length_cons, hrest]
      obtain ⟨ys, y, heq, hperm, hfirst⟩ := ih hlen'
      refine ⟨left :: ys, y, ?_, hperm.cons left, ?_⟩
      · rw [List.cons_append, ← heq, List.cons_append]
      · intro e he hy
        rcases List.mem_cons.1 he with rfl | he
        · -- if the last entry is free then `right` is, and no swap happened
          have hright : right.isFree = true := by
            have hmem : right ∈ ys ++ [y] := hperm.mem_iff.2 (by simp)
            rcases List.mem_append.1 hmem with hmem | hmem
            · exact hfirst right hmem hy
            · rwa [List.mem_singleton.1 hmem]
          by_contra hleft
          exact hswap ⟨fun h => hleft ((isFree_iff e).2 h), (isFree_iff right).1 hright⟩
        · exact hfirst e he hy

/-- The passes of `SLOW_SORT` over the entries `xs`, if those behind them are settled. -/
theorem slowSort_append {n : ℕ} {xs : List MMapEnt} (hlen : xs.length = n + 1)
    (hback : back.Pairwise FreeFirst) (hxs : ∀ e ∈ xs, ∀ f ∈ back, FreeFirst e f) :
    (slowSort n (xs ++ back)).Pairwise FreeFirst := by
  induction n generalizing xs back with
  | zero =>
    obtain ⟨x, rfl⟩ := List.length_eq_one_iff.1 hlen
    exact List.pairwise_cons.2 ⟨hxs x (by simp), hback⟩
  | succ n ih =>
    obtain ⟨ys, y, heq, hperm, hfirst⟩ := sortPass_append back hlen
    have hmem : ∀ e ∈ ys ++ [y], e ∈ xs := fun e he => hperm.mem_iff.1 he
    have hys : ys.length = n + 1 := by
      have := hperm.length_eq
      rw [List.length_append, List.length_singleton] at this
      omega
    rw [slowSort, heq]
    refine ih hys (List.pairwise_cons.2 ⟨hxs y (hmem y (by simp)), hback⟩) ?_
    intro e he f hf
    rcases List.mem_cons.1 hf with rfl | hf
    · exact hfirst e he
    · exact hxs e (hmem e (by simp [he])) f hf

/-- `SLOW_SORT` moves the free entries to the front. -/
theorem slowSort_freeFirst (es : List MMapEnt) :
    (slowSort (es.length - 1) es).Pairwise FreeFirst := by
  cases es with
  | nil => exact List.Pairwise.nil
  | cons e es =>
    have hlen : (e :: es).length = es.length + 1 := List.length_cons
    have hsorted := slowSort_append hlen List.Pairwise.nil (by simp)
    rwa [List.append_nil] at hsorted

/-- If the free entries are at the front, then the cut keeps all of them. -/
theorem takeFree_eq (h : es.Pairwise FreeFirst) :
    takeFree es = (es.filter MMapEnt.isFree).map fun e => ⟨e.ptr, e.byteSize⟩ := by
  induction es with
  | nil => rfl
  | cons e es ih =>
    obtain ⟨hfirst, htail⟩ := List.pairwise_cons.1 h
    rw [takeFree]
    split_ifs with hfree
    · rw [ih htail, List.filter_cons_of_pos hfree, List.map_cons]
    · have hnone : es.filter MMapEnt.isFree = [] :=
        List.filter_eq_nil_iff.2 fun f hf hfreef => hfree (hfirst f hf hfreef)
      rw [List.filter_cons_of_neg hfree, hnone, List.map_nil]

/-- **The memory map.**  `SLOW_SORT` permutes the entries, and the cut leaves the free ones, in the
order that they had, with their types taken out of their sizes. -/
theorem mmap_filter (es : List MMapEnt) :
    (slowSort (es.length - 1) es).Perm es ∧
      takeFree (slowSort (es.length - 1) es) =
        (es.filter fun e => e.type = mmapFree).map (fun e => ⟨e.ptr, e.size &&& ~~~0xF#64⟩) ∧
      (takeFree (slowSort (es.length - 1) es)).length =
        es.countP fun e => e.type = mmapFree := by
  have hfree : MMapEnt.isFree = fun e => decide (e.type = mmapFree) := by
    funext e
    rw [Bool.eq_iff_iff, isFree_iff, decide_eq_true_iff]
  have heq : takeFree (slowSort (es.length - 1) es) =
      (es.filter fun e => e.type = mmapFree).map (fun e => ⟨e.ptr, e.size &&& ~~~0xF#64⟩) := by
    rw [takeFree_eq (slowSort_freeFirst es), slowSort_filter, hfree]
    rfl
  refine ⟨slowSort_perm _ es, heq, ?_⟩
  rw [heq, List.length_map, List.countP_eq_length_filter]

/-! ### Requests -/

theorem roundUp_bounds (v : ℕ) {u : ℕ} (hu : 0 < u) :
    v ≤ (v + (u - 1)) / u * u ∧ (v + (u - 1)) / u * u < v + u := by
  have hdiv := Nat.div_add_mod (v + (u - 1)) u
  have hmod := Nat.mod_lt (v + (u - 1)) hu
  rw [Nat.mul_comm] at hdiv
  omega

theorem roundUp_le {v u m : ℕ} (hu : 0 < u) (hm : u ∣ m) (hv : v ≤ m) :
    (v + (u - 1)) / u * u ≤ m := by
  obtain ⟨q, rfl⟩ := hm
  rw [Nat.mul_comm u q]
  refine Nat.mul_le_mul_right u (Nat.le_of_lt_succ ?_)
  rw [Nat.div_lt_iff_lt_mul hu, Nat.succ_mul, Nat.mul_comm q u]
  omega

/-- The arguments of a call of `alloc_from_entries`, both of them `s64`: `align` is zero or a power of
two. -/
structure Request where
  size : ℤ
  align : ℤ
  size_pos : 0 < size
  size_lt : size < 2 ^ 63
  align_eq : align = 0 ∨ ∃ k < 63, align = 2 ^ k

namespace Request

variable {r : Request} {e : MMapEnt}

/-- The alignment that is used. -/
def unit (r : Request) : ℕ := max r.align.toNat 1

/-- `align_up(size, align)`. -/
def bytes (r : Request) : ℕ := (r.size.toNat + (r.unit - 1)) / r.unit * r.unit

/-- `align_up(ptr, align)`. -/
def start (r : Request) (e : MMapEnt) : ℕ := (e.ptr.toNat + (r.unit - 1)) / r.unit * r.unit

/-- The entry has room for the request behind the padding. -/
def HasRoom (r : Request) (e : MMapEnt) : Prop :=
  r.start e + r.bytes ≤ e.ptr.toNat + e.size.toNat

/-- The padding alone goes past the end of the entry. -/
def Overshoots (r : Request) (e : MMapEnt) : Prop := e.ptr.toNat + e.size.toNat < r.start e

/-- In the order of the list, an entry with room comes before all those whose padding goes past their
end. -/
def Clear (r : Request) : List MMapEnt → Prop
  | [] => True
  | e :: es => r.HasRoom e ∨ ¬ r.Overshoots e ∧ r.Clear es

instance (r : Request) (e : MMapEnt) : Decidable (r.HasRoom e) := inferInstanceAs (Decidable (_ ≤ _))

instance (r : Request) (e : MMapEnt) : Decidable (r.Overshoots e) := inferInstanceAs (Decidable (_ < _))

instance decidableClear (r : Request) : (es : List MMapEnt) → Decidable (r.Clear es)
  | [] => isTrue trivial
  | e :: es =>
    have := decidableClear r es
    inferInstanceAs (Decidable (r.HasRoom e ∨ ¬ r.Overshoots e ∧ r.Clear es))

theorem exists_unit (r : Request) : ∃ k < 63, r.unit = 2 ^ k := by
  rcases r.align_eq with h | ⟨k, hk, h⟩
  · refine ⟨0, by omega, ?_⟩
    rw [unit, h]
    rfl
  · refine ⟨k, hk, ?_⟩
    have hnat : (2 ^ k : ℤ).toNat = 2 ^ k := by
      rw [show (2 ^ k : ℤ) = ((2 ^ k : ℕ) : ℤ) by push_cast; rfl, Int.toNat_natCast]
    rw [unit, h, hnat]
    exact max_eq_left Nat.one_le_two_pow

theorem unit_pos (r : Request) : 0 < r.unit := by
  unfold unit
  omega

theorem unit_dvd (r : Request) : r.unit ∣ 2 ^ 62 := by
  obtain ⟨k, hk, h⟩ := r.exists_unit
  rw [h]
  exact Nat.pow_dvd_pow 2 (by omega)

theorem bytes_bounds (r : Request) : 0 < r.bytes ∧ r.bytes ≤ 2 ^ 63 := by
  have hsize := r.size_pos
  have hlt := r.size_lt
  constructor
  · have := (roundUp_bounds r.size.toNat r.unit_pos).1
    rw [bytes]
    omega
  · exact roundUp_le r.unit_pos (r.unit_dvd.trans (by decide)) (by omega)

theorem start_bounds (r : Request) (e : MMapEnt) :
    e.ptr.toNat ≤ r.start e ∧ r.start e < e.ptr.toNat + 2 ^ 62 := by
  have := roundUp_bounds e.ptr.toNat r.unit_pos
  have hle := Nat.le_of_dvd (by decide) r.unit_dvd
  rw [start]
  omega

/-- The check of `alloc_from_entries` lets an entry pass if it has room, and also if its padding goes
past its end. -/
theorem passes_iff :
    ¬ (e.size + e.ptr - BitVec.ofNat 64 (r.start e) < BitVec.ofNat 64 r.bytes) ↔
      r.HasRoom e ∨ r.Overshoots e := by
  have hs := r.start_bounds e
  have hb := r.bytes_bounds
  rw [BitVec.lt_def, BitVec.toNat_sub, BitVec.toNat_add, BitVec.toNat_ofNat, BitVec.toNat_ofNat,
    HasRoom, Overshoots]
  omega

end Request

/-! ### One call -/

section Carve

variable {es' : List MMapEnt} {r : Request} {a : ℕ}

/-- The range of `f` is a part of that of `e`. -/
def MMapEnt.Within (f e : MMapEnt) : Prop :=
  e.ptr.toNat ≤ f.ptr.toNat ∧ f.ptr.toNat + f.size.toNat ≤ e.ptr.toNat + e.size.toNat

theorem MMapEnt.Within.refl (e : MMapEnt) : e.Within e := ⟨le_rfl, le_rfl⟩

theorem MMapEnt.Within.trans {g f e : MMapEnt} (h : g.Within f) (h' : f.Within e) : g.Within e :=
  ⟨h'.1.trans h.1, h.2.trans h'.2⟩

theorem MMapEnt.Within.bytes_subset {f e : MMapEnt} (h : f.Within e) : f.bytes ⊆ e.bytes :=
  Set.Ico_subset_Ico h.1 h.2

/-- The entries `es'` are `es`, after the bytes from `a` on were carved off one with room for them. -/
inductive Carves (r : Request) : List MMapEnt → ℕ → List MMapEnt → Prop
  | head {e e' : MMapEnt} {es : List MMapEnt} (hroom : r.HasRoom e)
      (hptr : e'.ptr.toNat = r.start e + r.bytes)
      (hend : e'.ptr.toNat + e'.size.toNat = e.ptr.toNat + e.size.toNat) :
      Carves r (e :: es) (r.start e) (e' :: es)
  | tail {e : MMapEnt} {es es' : List MMapEnt} {a : ℕ} (h : Carves r es a es') :
      Carves r (e :: es) a (e :: es')

namespace Carves

theorem dvd (h : Carves r es a es') : r.unit ∣ a := by
  induction h with
  | head => exact Nat.dvd_mul_left _ _
  | tail _ ih => exact ih

theorem inside (h : Carves r es a es') :
    ∃ e ∈ es, e.ptr.toNat ≤ a ∧ a + r.bytes ≤ e.ptr.toNat + e.size.toNat := by
  induction h with
  | head hroom => exact ⟨_, List.mem_cons_self, (r.start_bounds _).1, hroom⟩
  | tail _ ih =>
    obtain ⟨e, he, hin⟩ := ih
    exact ⟨e, List.mem_cons_of_mem _ he, hin⟩

theorem within (h : Carves r es a es') : List.Forall₂ MMapEnt.Within es' es := by
  induction h with
  | @head e e' es hroom hptr hend =>
    refine List.Forall₂.cons ⟨?_, hend.le⟩ (List.forall₂_same.2 fun f _ => .refl f)
    have := (r.start_bounds e).1
    omega
  | tail _ ih => exact List.Forall₂.cons (.refl _) ih

/-- What is left lies apart from the bytes that were carved off. -/
theorem apart (h : Carves r es a es') (hdis : es.Pairwise fun e f => Disjoint e.bytes f.bytes) :
    ∀ f ∈ es', Disjoint (Set.Ico a (a + r.bytes)) f.bytes := by
  induction h with
  | @head e e' es hroom hptr hend =>
    obtain ⟨hhead, -⟩ := List.pairwise_cons.1 hdis
    intro f hf
    rcases List.mem_cons.1 hf with rfl | hf
    · refine Set.disjoint_left.2 ?_
      intro x hx hxf
      have h1 := hx.2
      have h2 := hxf.1
      omega
    · exact (hhead f hf).mono_left (Set.Ico_subset_Ico (r.start_bounds e).1 hroom)
  | @tail e es es' a h ih =>
    obtain ⟨hhead, htail⟩ := List.pairwise_cons.1 hdis
    intro f hf
    rcases List.mem_cons.1 hf with rfl | hf
    · obtain ⟨g, hg, h1, h2⟩ := h.inside
      exact (hhead g hg).symm.mono_left (Set.Ico_subset_Ico h1 h2)
    · exact ih htail f hf

end Carves

/-- What `alloc_from_entries` leaves of an entry that passes its check. -/
def Request.rest (r : Request) (e : MMapEnt) : MMapEnt :=
  ⟨BitVec.ofNat 64 (r.start e) + BitVec.ofNat 64 r.bytes,
    e.size + e.ptr - BitVec.ofNat 64 (r.start e) - BitVec.ofNat 64 r.bytes⟩

theorem Request.start_toNat {e : MMapEnt} (hfits : e.ptr.toNat + e.size.toNat < 2 ^ 47) :
    (BitVec.ofNat 64 (r.start e)).toNat = r.start e := by
  have := r.start_bounds e
  rw [BitVec.toNat_ofNat]
  omega

theorem Request.rest_size (r : Request) (e : MMapEnt) : (r.rest e).size.toNat =
    (2 ^ 64 * 2 + (e.ptr.toNat + e.size.toNat) - r.start e - r.bytes) % 2 ^ 64 := by
  have := r.start_bounds e
  have := r.bytes_bounds
  rw [rest, BitVec.toNat_sub, BitVec.toNat_sub, BitVec.toNat_add, BitVec.toNat_ofNat,
    BitVec.toNat_ofNat]
  omega

theorem Request.HasRoom.carves {e : MMapEnt} (hroom : r.HasRoom e)
    (hfits : e.ptr.toNat + e.size.toNat < 2 ^ 47) :
    Carves r (e :: es) (r.start e) (r.rest e :: es) := by
  have hle := hroom
  rw [Request.HasRoom] at hle
  have hptr : (r.rest e).ptr.toNat = r.start e + r.bytes := by
    rw [Request.rest, BitVec.toNat_add, Request.start_toNat hfits, BitVec.toNat_ofNat]
    omega
  refine Carves.head hroom hptr ?_
  rw [hptr, r.rest_size e]
  omega

/-- An entry whose padding goes past its end is left with a size that wrapped around. -/
theorem Request.Overshoots.rest_size_ge {e : MMapEnt} (hover : r.Overshoots e)
    (hfits : e.ptr.toNat + e.size.toNat < 2 ^ 47) : 2 ^ 47 ≤ (r.rest e).size.toNat := by
  have := r.start_bounds e
  have := r.bytes_bounds
  rw [Request.Overshoots] at hover
  rw [r.rest_size e]
  omega

/-- The loop of `alloc_from_entries`.  If the entries are not clear, it takes one whose padding goes past
its end. -/
theorem wp_carve_clear {σ : Type} (hfits : ∀ e ∈ es, e.ptr.toNat + e.size.toNat < 2 ^ 47) (t : σ) :
    wp (carve (BitVec.ofNat 64 r.bytes) r.unit es) (fun res t' => t' = t ∧
      ∀ ptr es', res = some (ptr, es') → (r.Clear es → Carves r es ptr.toNat es') ∧
        (¬ r.Clear es → ∃ e' ∈ es', 2 ^ 47 ≤ e'.size.toNat)) t := by
  obtain ⟨k, hk, hunit⟩ := r.exists_unit
  have hptr : ∀ e : MMapEnt, e.ptr.toNat + e.size.toNat < 2 ^ 47 →
      e.alignedPtr k = BitVec.ofNat 64 (r.start e) := by
    intro e he
    have hle := Nat.le_of_dvd (by decide) r.unit_dvd
    rw [MMapEnt.alignedPtr, Request.start, hunit, Nat.mod_eq_of_lt (by omega)]
  rw [hunit]
  refine wp_mono (wp_carve_rule (by omega)
    (R := fun es ptr es' => (∀ e ∈ es, e.ptr.toNat + e.size.toNat < 2 ^ 47) →
      (r.Clear es → Carves r es ptr.toNat es') ∧
        (¬ r.Clear es → ∃ e' ∈ es', 2 ^ 47 ≤ e'.size.toNat)) ?_ ?_ t) ?_
  · intro e es ptr es' hsmall hrest hfits
    obtain ⟨hclear, hover⟩ := hrest fun f hf => hfits f (by simp [hf])
    rw [hptr e (hfits e (by simp))] at hsmall
    have hnot : ¬ r.HasRoom e ∧ ¬ r.Overshoots e := by
      rw [← not_or, ← r.passes_iff, not_not]
      exact hsmall
    constructor
    · rintro (hroom | hrest)
      · exact absurd hroom hnot.1
      · exact (hclear hrest.2).tail
    · intro hn
      obtain ⟨f, hf, hsize⟩ := hover fun hc => hn (Or.inr ⟨hnot.2, hc⟩)
      exact ⟨f, List.mem_cons_of_mem _ hf, hsize⟩
  · intro e es hlarge hfits
    have he := hfits e (by simp)
    rw [hptr e he] at hlarge ⊢
    rw [r.passes_iff] at hlarge
    constructor
    · intro hclear
      rw [Request.start_toNat he]
      rcases hclear with hroom | hrest
      · exact hroom.carves he
      · exact (hlarge.resolve_right hrest.1).carves he
    · intro hn
      have hover : r.Overshoots e := hlarge.resolve_left fun hroom => hn (Or.inl hroom)
      exact ⟨r.rest e, List.mem_cons_self, hover.rest_size_ge he⟩
  · rintro res t' ⟨rfl, hres⟩
    exact ⟨rfl, fun ptr es' heq => hres ptr es' heq hfits⟩

/-- A call of `alloc_from_entries` that returns. -/
theorem of_allocFromEntries {s s' : State} {ptr size : U64}
    (hfits : ∀ e ∈ s.mmap, e.ptr.toNat + e.size.toNat < 2 ^ 47)
    (hrun : allocFromEntries r.size r.align s = Except.ok ((ptr, size), s')) :
    (r.Clear s.mmap → Carves r s.mmap (ptr - kernelSpaceBegin).toNat s'.mmap) ∧
      (¬ r.Clear s.mmap → ∃ e ∈ s'.mmap, 2 ^ 47 ≤ e.size.toNat) := by
  obtain ⟨k, hk, hunit⟩ := r.exists_unit
  have hpos := r.size_pos
  have hlt := r.size_lt
  have hw : wp (allocFromEntries r.size r.align) (fun res t => res = (ptr, size) ∧ t = s') s :=
    wp_of_run hrun ⟨rfl, rfl⟩
  have hword : (BitVec.ofInt 64 r.size).toNat = r.size.toNat := by
    rw [BitVec.toNat_ofInt]
    omega
  have hbytes : BitVec.ofNat 64 (((BitVec.ofInt 64 r.size).toNat + (2 ^ k - 1)) % 2 ^ 64 / 2 ^ k *
      2 ^ k) = BitVec.ofNat 64 r.bytes := by
    have hle := Nat.le_of_dvd (by decide) r.unit_dvd
    rw [Request.bytes, hword, hunit, Nat.mod_eq_of_lt (by omega)]
  simp only [allocFromEntries, wp_bind, wp_assert] at hw
  rw [show max r.align.toNat 1 = r.unit from rfl, hunit, wp_alignUp64 (by omega), hbytes, ← hunit,
    wp_get] at hw
  obtain ⟨-, res, t, hcarve, hw⟩ := hw
  obtain ⟨rfl, hres⟩ := wp_run hcarve (wp_carve_clear hfits s)
  cases res with
  | none => simp at hw
  | some res =>
    obtain ⟨a, es'⟩ := res
    simp only [wp_bind, wp_modify, wp_pure, Prod.mk.injEq] at hw
    obtain ⟨⟨rfl, -⟩, rfl⟩ := hw
    rw [BitVec.add_sub_cancel]
    exact hres a es' rfl

end Carve
/-! ### Runs -/

/-- A region that `alloc_from_entries` returned, with the entries as they were before the call. -/
structure Grant where
  request : Request
  left : List MMapEnt
  ptr : U64

namespace Grant

/-- The physical address of the region. -/
def address (g : Grant) : ℕ := (g.ptr - kernelSpaceBegin).toNat

def bytes (g : Grant) : Set ℕ := Set.Ico g.address (g.address + g.request.bytes)

end Grant

/-- The state of a run, with the regions returned so far, the last one first. -/
structure Ledger where
  state : State
  grants : List Grant

/-- A call of `alloc_from_entries`; none if it does not return. -/
def Ledger.step (l : Ledger) (r : Request) : Option Ledger :=
  match allocFromEntries r.size r.align l.state with
  | .ok (region, s') => some ⟨s', ⟨r, l.state.mmap, region.1⟩ :: l.grants⟩
  | .error _ => none

/-- What the regions returned from the entries `es` should satisfy. -/
structure InsideFree (es : List MMapEnt) (l : Ledger) : Prop where
  aligned : ∀ g ∈ l.grants, g.request.unit ∣ g.address
  /-- A region is inside what was left of one entry at that time. -/
  inside : ∀ g ∈ l.grants, ∃ e ∈ g.left,
    e.ptr.toNat ≤ g.address ∧ g.address + g.request.bytes ≤ e.ptr.toNat + e.size.toNat
  disjoint : l.grants.Pairwise fun g h => Disjoint g.bytes h.bytes
  /-- Every entry is a part of what it was at first. -/
  within : List.Forall₂ MMapEnt.Within l.state.mmap es
  apart : ∀ g ∈ l.grants, ∀ f ∈ l.state.mmap, Disjoint g.bytes f.bytes

section Runs

variable {l l' : Ledger} {r : Request}

theorem exists_within {es' : List MMapEnt} (h : List.Forall₂ MMapEnt.Within es' es) {f : MMapEnt}
    (hf : f ∈ es') : ∃ e ∈ es, f.Within e := by
  induction h with
  | nil => cases hf
  | cons hw _ ih =>
    rcases List.mem_cons.1 hf with rfl | hf
    · exact ⟨_, List.mem_cons_self, hw⟩
    · obtain ⟨e, he, hfe⟩ := ih hf
      exact ⟨e, List.mem_cons_of_mem _ he, hfe⟩

theorem forall₂_within_trans {es' es'' : List MMapEnt} (h : List.Forall₂ MMapEnt.Within es'' es')
    (h' : List.Forall₂ MMapEnt.Within es' es) : List.Forall₂ MMapEnt.Within es'' es := by
  induction h generalizing es with
  | nil => exact h'
  | cons hw _ ih =>
    cases h' with
    | cons hw' htail => exact List.Forall₂.cons (hw.trans hw') (ih htail)

theorem pairwise_of_within {es' : List MMapEnt} (h : List.Forall₂ MMapEnt.Within es' es)
    (hdis : es.Pairwise fun e f => Disjoint e.bytes f.bytes) :
    es'.Pairwise fun e f => Disjoint e.bytes f.bytes := by
  induction h with
  | nil => exact hdis
  | cons hw hall ih =>
    obtain ⟨hhead, htail⟩ := List.pairwise_cons.1 hdis
    refine List.pairwise_cons.2 ⟨fun f hf => ?_, ih htail⟩
    obtain ⟨e, he, hfe⟩ := exists_within hall hf
    exact (hhead e he).mono hw.bytes_subset hfe.bytes_subset

theorem Ledger.step_cases (h : l.step r = some l') : ∃ region,
    allocFromEntries r.size r.align l.state = Except.ok (region, l'.state) ∧
      l'.grants = ⟨r, l.state.mmap, region.1⟩ :: l.grants := by
  unfold Ledger.step at h
  split at h
  · rename_i region s' hrun
    cases h
    exact ⟨region, hrun, rfl⟩
  · cases h

/-- What is left and what was returned, after one more region was carved off. -/
theorem InsideFree.grant (h : InsideFree es l)
    (hdis : es.Pairwise fun e f => Disjoint e.bytes f.bytes) {g : Grant} (hleft : g.left = l.state.mmap)
    (hgrants : l'.grants = g :: l.grants)
    (hc : Carves g.request l.state.mmap g.address l'.state.mmap) : InsideFree es l' where
  aligned := by
    rw [hgrants]
    exact List.forall_mem_cons.2 ⟨hc.dvd, h.aligned⟩
  inside := by
    rw [hgrants]
    refine List.forall_mem_cons.2 ⟨?_, h.inside⟩
    rw [hleft]
    exact hc.inside
  disjoint := by
    rw [hgrants]
    refine List.pairwise_cons.2 ⟨fun g' hg' => ?_, h.disjoint⟩
    obtain ⟨e, he, h1, h2⟩ := hc.inside
    exact (h.apart g' hg' e he).symm.mono_left (Set.Ico_subset_Ico h1 h2)
  within := forall₂_within_trans hc.within h.within
  apart := by
    rw [hgrants]
    refine List.forall_mem_cons.2 ⟨hc.apart (pairwise_of_within h.within hdis), ?_⟩
    intro g' hg' f hf
    obtain ⟨e, he, hfe⟩ := exists_within hc.within hf
    exact (h.apart g' hg' e he).mono_right hfe.bytes_subset

theorem insideFree_start (es : List MMapEnt) (m : Memory) : InsideFree es ⟨⟨es, m⟩, []⟩ where
  aligned := by simp
  inside := by simp
  disjoint := List.Pairwise.nil
  within := List.forall₂_same.2 fun e _ => .refl e
  apart := by simp

/-- **One call**: the regions stay where they should exactly if the entries are clear. -/
theorem InsideFree.step_iff (h : InsideFree es l)
    (hdis : es.Pairwise fun e f => Disjoint e.bytes f.bytes)
    (hfits : ∀ e ∈ es, e.ptr.toNat + e.size.toNat < 2 ^ 47) (hs : l.step r = some l') :
    InsideFree es l' ↔ r.Clear l.state.mmap := by
  have hfits' : ∀ es' : List MMapEnt, List.Forall₂ MMapEnt.Within es' es →
      ∀ e ∈ es', e.ptr.toNat + e.size.toNat < 2 ^ 47 := by
    intro es' hw f hf
    obtain ⟨e, he, hfe⟩ := exists_within hw hf
    exact hfe.2.trans_lt (hfits e he)
  obtain ⟨region, hrun, hgrants⟩ := Ledger.step_cases hs
  obtain ⟨hclear, hover⟩ := of_allocFromEntries (hfits' _ h.within) hrun
  constructor
  · intro h'
    by_contra hn
    obtain ⟨e, he, hsize⟩ := hover hn
    have := hfits' _ h'.within e he
    omega
  · intro hc
    exact h.grant hdis rfl hgrants (hclear hc)

/-- **Early boot allocation.**  Along every run of `alloc_from_entries` on disjoint entries whose calls
find the entries clear, the regions stay inside free memory; and the next call keeps this up exactly if
it finds them clear. -/
theorem insideFree_of_clear (hdis : es.Pairwise fun e f => Disjoint e.bytes f.bytes)
    (hfits : ∀ e ∈ es, e.ptr.toNat + e.size.toNat < 2 ^ 47) {m : Memory}
    (hr : Runs.Reach Ledger.step (fun l r => r.Clear l.state.mmap) ⟨⟨es, m⟩, []⟩ l) :
    InsideFree es l ∧
      ∀ r l', l.step r = some l' → (InsideFree es l' ↔ r.Clear l.state.mmap) := by
  have h : InsideFree es l := by
    refine hr.invariant (insideFree_start es m) ?_
    intro l r l' h hclear hs
    exact (h.step_iff hdis hfits hs).2 hclear
  exact ⟨h, fun r l' hs => h.step_iff hdis hfits hs⟩

end Runs

/-- A request for one byte at a multiple of `2 ^ k`. -/
def byteAt (k : ℕ) (hk : k < 63) : Request :=
  ⟨1, 2 ^ k, by decide, by decide, Or.inr ⟨k, hk, rfl⟩⟩

/-- Two bytes at multiples of 16 are carved off an entry of 48 bytes. -/
theorem insideFree_two_calls : ∃ l,
    Runs.Reach Ledger.step (fun l r => r.Clear l.state.mmap)
      ⟨⟨[⟨0x1008#64, 0x30#64⟩], ⟨fun _ => 0#64, []⟩⟩, []⟩ l ∧
      l.grants.map Grant.address = [0x1020, 0x1010] ∧ InsideFree [⟨0x1008#64, 0x30#64⟩] l := by
  have hrun : ∃ l, Runs.execute Ledger.step (fun l r => r.Clear l.state.mmap)
      ⟨⟨[⟨0x1008#64, 0x30#64⟩], ⟨fun _ => 0#64, []⟩⟩, []⟩
      [byteAt 4 (by decide), byteAt 4 (by decide)] = some l ∧
        l.grants.map Grant.address = [0x1020, 0x1010] := ⟨_, rfl, by decide +kernel⟩
  obtain ⟨l, hrun, haddr⟩ := hrun
  have hr : Runs.Reach Ledger.step (fun l r => r.Clear l.state.mmap)
      ⟨⟨[⟨0x1008#64, 0x30#64⟩], ⟨fun _ => 0#64, []⟩⟩, []⟩ l :=
    (Runs.Reach.of_execute hrun).mono fun l r h => of_decide_eq_true h.1
  exact ⟨l, hr, haddr, (insideFree_of_clear (List.pairwise_singleton _ _) (by decide) hr).1⟩

/-- A byte at a multiple of 4096 is carved off an entry of eight bytes that ends before that. -/
theorem not_insideFree : ∃ l,
    [(⟨0x1008#64, 8#64⟩ : MMapEnt)].Pairwise (fun e f => Disjoint e.bytes f.bytes) ∧
      (∀ e ∈ [(⟨0x1008#64, 8#64⟩ : MMapEnt)], e.ptr.toNat + e.size.toNat < 2 ^ 47) ∧
      Runs.Reach Ledger.step (fun _ _ => True) ⟨⟨[⟨0x1008#64, 8#64⟩], ⟨fun _ => 0#64, []⟩⟩, []⟩ l ∧
      l.grants.map Grant.address = [0x2000] ∧ ¬ InsideFree [⟨0x1008#64, 8#64⟩] l := by
  have hs : ∃ l, Ledger.step ⟨⟨[⟨0x1008#64, 8#64⟩], ⟨fun _ => 0#64, []⟩⟩, []⟩ (byteAt 12 (by decide)) =
      some l ∧ l.grants.map Grant.address = [0x2000] := ⟨_, rfl, by decide +kernel⟩
  obtain ⟨l, hs, haddr⟩ := hs
  have hdis : [(⟨0x1008#64, 8#64⟩ : MMapEnt)].Pairwise fun e f => Disjoint e.bytes f.bytes :=
    List.pairwise_singleton _ _
  have hfits : ∀ e ∈ [(⟨0x1008#64, 8#64⟩ : MMapEnt)], e.ptr.toNat + e.size.toNat < 2 ^ 47 := by decide
  refine ⟨l, hdis, hfits, .tail .refl trivial hs, haddr, ?_⟩
  rw [(insideFree_start _ _).step_iff hdis hfits hs]
  decide

end Dumboss.Boot
