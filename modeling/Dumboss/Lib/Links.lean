import Mathlib

/-!
# Doubly linked lists threaded through nodes

The nodes `ν` are reached through pointers `ρ`; `ptr b` is the pointer to the node `b`, and the two
link fields of a heap are functions `nxt prv : ν → ρ`.  `Seg nxt prv p h bs l n` says that the
nodes `bs` are linked in this order: `h` points to the first one and `p` is its back link, `l`
points to the last one and `n` is its forward link.  A whole list is a segment between null
pointers.

The three list operations are stated for a heap `nxt'`, `prv'` that agrees with the old one except
at the fields the operation writes: `IsList.push`, `IsList.pop` and `IsList.remove`.
-/

namespace Links

variable {ν ρ : Type} (ptr : ν → ρ) (null : ρ)

/-- The nodes `bs` form a doubly linked segment. -/
def Seg (nxt prv : ν → ρ) : ρ → ρ → List ν → ρ → ρ → Prop
  | p, h, [], l, n => h = n ∧ l = p
  | p, h, b :: bs, l, n => h = ptr b ∧ prv b = p ∧ Seg nxt prv (ptr b) (nxt b) bs l n

/-- The nodes `bs` form a doubly linked list with head pointer `h`. -/
def IsList (nxt prv : ν → ρ) (h : ρ) (bs : List ν) : Prop :=
  ∃ l, Seg ptr nxt prv null h bs l null

variable {ptr null} {nxt prv nxt' prv' : ν → ρ} {p h l n : ρ} {b : ν} {as bs : List ν}

theorem Seg.congr (hs : Seg ptr nxt prv p h bs l n) (hn : ∀ a ∈ bs, nxt' a = nxt a)
    (hp : ∀ a ∈ bs, prv' a = prv a) : Seg ptr nxt' prv' p h bs l n := by
  induction bs generalizing p h with
  | nil => exact hs
  | cons b bs ih =>
    obtain ⟨rfl, rfl, hs⟩ := hs
    refine ⟨rfl, hp b (by simp), ?_⟩
    rw [hn b (by simp)]
    exact ih hs (fun a ha => hn a (by simp [ha])) (fun a ha => hp a (by simp [ha]))

theorem seg_append : Seg ptr nxt prv p h (as ++ bs) l n ↔
    ∃ m x, Seg ptr nxt prv p h as m x ∧ Seg ptr nxt prv m x bs l n := by
  induction as generalizing p h with
  | nil =>
    constructor
    · exact fun hs => ⟨p, h, ⟨rfl, rfl⟩, hs⟩
    · rintro ⟨m, x, ⟨rfl, rfl⟩, hs⟩
      exact hs
  | cons a as ih =>
    constructor
    · rintro ⟨rfl, rfl, hs⟩
      obtain ⟨m, x, h1, h2⟩ := ih.1 hs
      exact ⟨m, x, ⟨rfl, rfl, h1⟩, h2⟩
    · rintro ⟨m, x, ⟨rfl, rfl, h1⟩, h2⟩
      exact ⟨rfl, rfl, ih.2 ⟨m, x, h1, h2⟩⟩

/-- A segment whose first back link is changed. -/
theorem Seg.relink_start {m : ρ} (hs : Seg ptr nxt prv p h bs l n)
    (hn : ∀ a ∈ bs, nxt' a = nxt a) (hp : ∀ a ∈ bs.tail, prv' a = prv a)
    (hm : ∀ a, bs.head? = some a → prv' a = m) :
    ∃ l', Seg ptr nxt' prv' m h bs l' n := by
  cases bs with
  | nil => exact ⟨m, hs.1, rfl⟩
  | cons b bs =>
    obtain ⟨rfl, rfl, hs⟩ := hs
    refine ⟨l, rfl, hm b rfl, ?_⟩
    rw [hn b (by simp)]
    exact hs.congr (fun a ha => hn a (by simp [ha])) hp

/-- A segment whose last forward link is changed. -/
theorem Seg.relink_end {x : ρ} (hs : Seg ptr nxt prv p h as l n) (hnd : as.Nodup)
    (hn : ∀ a ∈ as, as.getLast? ≠ some a → nxt' a = nxt a) (hp : ∀ a ∈ as, prv' a = prv a)
    (hx : ∀ a, as.getLast? = some a → nxt' a = x) :
    Seg ptr nxt' prv' p (if as = [] then x else h) as l x := by
  induction as generalizing p h with
  | nil => exact ⟨rfl, hs.2⟩
  | cons a as ih =>
    obtain ⟨rfl, rfl, hs⟩ := hs
    obtain ⟨hnot, hnd⟩ := List.nodup_cons.1 hnd
    refine ⟨by simp, hp a (by simp), ?_⟩
    cases as with
    | nil =>
      rw [hx a rfl]
      exact ⟨rfl, hs.2⟩
    | cons b bs =>
      have hlast : (a :: b :: bs).getLast? = (b :: bs).getLast? := by simp
      have hmem : (b :: bs).getLast? ≠ some a := fun h => hnot (List.mem_of_getLast? h)
      rw [hn a (by simp) (hlast ▸ hmem)]
      have hstep := ih hs hnd (fun c hc hne => hn c (by simp [hc]) (hlast ▸ hne))
        (fun c hc => hp c (by simp [hc])) (fun c hc => hx c (hlast ▸ hc))
      simpa using hstep

theorem IsList.congr (hs : IsList ptr null nxt prv h bs) (hn : ∀ a ∈ bs, nxt' a = nxt a)
    (hp : ∀ a ∈ bs, prv' a = prv a) : IsList ptr null nxt' prv' h bs :=
  hs.imp fun _ hl => hl.congr hn hp

theorem isList_nil : IsList ptr null nxt prv null [] := ⟨null, rfl, rfl⟩

/-- The head pointer is null exactly when the list is empty. -/
theorem IsList.head_eq_null_iff (hs : IsList ptr null nxt prv h bs)
    (hne : ∀ a ∈ bs, ptr a ≠ null) : h = null ↔ bs = [] := by
  obtain ⟨l, hl⟩ := hs
  cases bs with
  | nil => exact ⟨fun _ => rfl, fun _ => hl.1⟩
  | cons b bs =>
    constructor
    · intro hnull
      exact absurd (hl.1.symm.trans hnull) (hne b (by simp))
    · simp

theorem IsList.head_eq (hs : IsList ptr null nxt prv h (b :: bs)) : h = ptr b :=
  hs.elim fun _ hl => hl.1

theorem IsList.head_prv (hs : IsList ptr null nxt prv h (b :: bs)) : prv b = null :=
  hs.elim fun _ hl => hl.2.1

/-- The links of a node in the middle. -/
theorem IsList.links (hs : IsList ptr null nxt prv h (as ++ b :: bs)) :
    (as = [] → prv b = null ∧ h = ptr b) ∧ (∀ a, as.getLast? = some a → prv b = ptr a) ∧
      (bs = [] → nxt b = null) ∧ ∀ c, bs.head? = some c → nxt b = ptr c := by
  obtain ⟨l, hl⟩ := hs
  obtain ⟨m, x, h1, rfl, rfl, h2⟩ := seg_append.1 hl
  refine ⟨?_, ?_, ?_, ?_⟩
  · rintro rfl
    exact ⟨h1.2, h1.1⟩
  · intro a ha
    obtain ⟨as, rfl⟩ : ∃ ys, as = ys ++ [a] := by
      refine ⟨as.dropLast, ?_⟩
      rw [List.dropLast_append_getLast? a ha]
    obtain ⟨m', x', -, rfl, -, h3⟩ := seg_append.1 h1
    exact h3.2
  · rintro rfl
    exact h2.1
  · intro c hc
    cases bs with
    | nil => simp at hc
    | cons d bs =>
      obtain rfl : d = c := by simpa using hc
      exact h2.1

/-- Putting a node in front. -/
theorem IsList.push (hs : IsList ptr null nxt prv h bs) (hb : nxt' b = h) (hb' : prv' b = null)
    (hn : ∀ a ∈ bs, nxt' a = nxt a) (hp : ∀ a ∈ bs.tail, prv' a = prv a)
    (hc : ∀ a, bs.head? = some a → prv' a = ptr b) :
    IsList ptr null nxt' prv' (ptr b) (b :: bs) := by
  obtain ⟨l, hl⟩ := hs
  obtain ⟨l', hl'⟩ := hl.relink_start hn hp hc
  exact ⟨l', rfl, hb', hb.symm ▸ hl'⟩

/-- Taking the first node off. -/
theorem IsList.pop (hs : IsList ptr null nxt prv h (b :: bs))
    (hn : ∀ a ∈ bs, nxt' a = nxt a) (hp : ∀ a ∈ bs.tail, prv' a = prv a)
    (hc : ∀ a, bs.head? = some a → prv' a = null) : IsList ptr null nxt' prv' (nxt b) bs := by
  obtain ⟨l, -, -, hl⟩ := hs
  exact hl.relink_start hn hp hc

/-- Unlinking a node anywhere in the list. -/
theorem IsList.remove (hs : IsList ptr null nxt prv h (as ++ b :: bs)) (hnd : as.Nodup)
    (hna : ∀ a ∈ as, as.getLast? ≠ some a → nxt' a = nxt a)
    (hla : ∀ a, as.getLast? = some a → nxt' a = nxt b) (hpa : ∀ a ∈ as, prv' a = prv a)
    (hnb : ∀ a ∈ bs, nxt' a = nxt a) (hpb : ∀ a ∈ bs.tail, prv' a = prv a)
    (hcb : ∀ a, bs.head? = some a → prv' a = prv b) :
    IsList ptr null nxt' prv' (if as = [] then nxt b else h) (as ++ bs) := by
  obtain ⟨l, hl⟩ := hs
  obtain ⟨m, x, h1, rfl, rfl, h2⟩ := seg_append.1 hl
  obtain ⟨l', h2'⟩ := h2.relink_start hnb hpb hcb
  exact ⟨l', seg_append.2 ⟨prv b, nxt b, h1.relink_end hnd hna hpa hla, h2'⟩⟩

end Links
