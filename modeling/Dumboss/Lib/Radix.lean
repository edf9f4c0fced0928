import Mathlib

/-!
# Radix trees threaded through a store

The nodes `ν` of the tree have `B` slots each; `w t i` is what slot `i` of node `t` holds, and
`next d e` is the node that a slot of depth `d` holding `e` leads to, if any.  The node on the way of
the key prefix `x` at depth `d` is `node … d x`: its parent is the one of `x / B`, and it hangs in slot
`x % B` there.  Only nodes of depth at most `h` are looked at.

* `Inj`: no node is reached in two ways (so the nodes form a tree);
* `node_congr`: a change that no slot of a node notices leaves the tree alone;
* `node_link`, `Inj.link`: hanging a new empty node into an empty slot;
* `node_reroot`, `Inj.reroot`: moving the subtrees of the root to other slots;
* `postorder`: all nodes below a node, children first; each is listed once.
-/

namespace Radix

variable {ν ε : Type} {B h : ℕ} {next : ℕ → ε → Option ν} {w w' : ν → ℕ → ε} {root : ν}

/-- The node at depth `d` on the way of the key prefix `x`. -/
def node (B : ℕ) (next : ℕ → ε → Option ν) (w : ν → ℕ → ε) (root : ν) : ℕ → ℕ → Option ν
  | 0, _ => some root
  | d + 1, x => (node B next w root d (x / B)).bind fun t => next d (w t (x % B))

/-- `t` is a node of the tree. -/
def IsNode (B h : ℕ) (next : ℕ → ε → Option ν) (w : ν → ℕ → ε) (root t : ν) : Prop :=
  ∃ d x, d ≤ h ∧ x < B ^ d ∧ node B next w root d x = some t

/-- Every node is reached in one way. -/
def Inj (B h : ℕ) (next : ℕ → ε → Option ν) (w : ν → ℕ → ε) (root : ν) : Prop :=
  ∀ d x d' x' t, d ≤ h → x < B ^ d → d' ≤ h → x' < B ^ d' →
    node B next w root d x = some t → node B next w root d' x' = some t → d = d' ∧ x = x'

theorem node_succ (d x : ℕ) : node B next w root (d + 1) x =
    (node B next w root d (x / B)).bind fun t => next d (w t (x % B)) := rfl

theorem node_child {d x i : ℕ} (hi : i < B) : node B next w root (d + 1) (x * B + i) =
    (node B next w root d x).bind fun t => next d (w t i) := by
  have hB : 0 < B := by omega
  rw [node_succ, Nat.mul_comm x B, Nat.mul_add_div hB, Nat.div_eq_of_lt hi, add_zero,
    Nat.mul_add_mod, Nat.mod_eq_of_lt hi]

theorem div_lt_pow {d x : ℕ} (hB : 0 < B) (hx : x < B ^ (d + 1)) : x / B < B ^ d := by
  rw [Nat.div_lt_iff_lt_mul hB, ← pow_succ]
  exact hx

theorem child_lt_pow {d x i : ℕ} (hx : x < B ^ d) (hi : i < B) : x * B + i < B ^ (d + 1) := by
  calc x * B + i < x * B + B := by omega
    _ = (x + 1) * B := by ring
    _ ≤ B ^ d * B := Nat.mul_le_mul_right B hx
    _ = B ^ (d + 1) := (pow_succ B d).symm

/-- The parent of a node is a node. -/
theorem exists_parent {d x : ℕ} {t : ν} (ht : node B next w root (d + 1) x = some t) :
    ∃ s, node B next w root d (x / B) = some s ∧ next d (w s (x % B)) = some t := by
  rw [node_succ] at ht
  exact Option.bind_eq_some_iff.1 ht

theorem node_congr (hB : 0 < B)
    (hw : ∀ d x t, d < h → x < B ^ d → node B next w root d x = some t →
      ∀ i < B, next d (w' t i) = next d (w t i)) :
    ∀ d x, d ≤ h → x < B ^ d → node B next w' root d x = node B next w root d x := by
  intro d
  induction d with
  | zero => exact fun x _ _ => rfl
  | succ d ih =>
    intro x hd hx
    have hx' := div_lt_pow hB hx
    rw [node_succ, node_succ, ih (x / B) (by omega) hx']
    cases hnode : node B next w root d (x / B) with
    | none => rfl
    | some t => exact hw d (x / B) t (by omega) hx' hnode _ (Nat.mod_lt _ hB)

/-- A new node `t'` is hung into the empty slot `i` of the node `t` at depth `d`. -/
structure Link (B h : ℕ) (next : ℕ → ε → Option ν) (w w' : ν → ℕ → ε) (root : ν) (d x i : ℕ)
    (t t' : ν) : Prop where
  depth : d < h
  key_lt : x < B ^ d
  slot_lt : i < B
  parent : node B next w root d x = some t
  empty : next d (w t i) = none
  linked : next d (w' t i) = some t'
  fresh : ¬ IsNode B h next w root t'
  bare : ∀ l, ∀ j < B, next l (w' t' j) = none
  other : ∀ l s, IsNode B h next w root s → ∀ j < B, ¬ (s = t ∧ j = i) →
    next l (w' s j) = next l (w s j)

theorem node_link (hinj : Inj B h next w root) {d x i : ℕ} {t t' : ν}
    (hl : Link B h next w w' root d x i t t') :
    ∀ l y, l ≤ h → y < B ^ l → node B next w' root l y =
      if l = d + 1 ∧ y = x * B + i then some t' else node B next w root l y := by
  have hB : 0 < B := by have := hl.slot_lt; omega
  intro l
  induction l with
  | zero =>
    intro y _ _
    rw [if_neg (by omega)]
    rfl
  | succ l ih =>
    intro y hlh hy
    have hy' := div_lt_pow hB hy
    have hmod := Nat.mod_lt y hB
    have hdm := Nat.div_add_mod y B
    rw [node_succ, ih (y / B) (by omega) hy']
    by_cases hnew : l = d + 1 ∧ y / B = x * B + i
    · -- below the new node there is nothing, and there was nothing before
      obtain ⟨rfl, hyx⟩ := hnew
      rw [if_pos ⟨rfl, hyx⟩, if_neg (by omega), node_succ, hyx, node_child hl.slot_lt, hl.parent]
      simp only [Option.bind_some, hl.empty, Option.bind_none]
      exact hl.bare _ _ hmod
    · rw [if_neg hnew]
      cases hnode : node B next w root l (y / B) with
      | none =>
        rw [if_neg, node_succ, hnode]
        · rfl
        · rintro ⟨hld, hyx⟩
          obtain rfl : l = d := by omega
          have hdiv : y / B = x := by
            rw [hyx, Nat.mul_comm x B, Nat.mul_add_div hB, Nat.div_eq_of_lt hl.slot_lt, add_zero]
          rw [hdiv, hl.parent] at hnode
          cases hnode
      | some s =>
        by_cases hs : s = t ∧ y % B = i
        · obtain ⟨rfl, hmi⟩ := hs
          obtain ⟨rfl, hdiv⟩ := hinj l (y / B) d x s (by omega) hy' hl.depth.le hl.key_lt hnode
            hl.parent
          rw [if_pos]
          · show next l (w' s (y % B)) = some t'
            rw [hmi]
            exact hl.linked
          · refine ⟨rfl, ?_⟩
            rw [← hdm, hdiv, hmi, Nat.mul_comm B x]
        · rw [if_neg, node_succ, hnode]
          · exact hl.other l s ⟨l, y / B, by omega, hy', hnode⟩ _ hmod hs
          · rintro ⟨hld, hyx⟩
            obtain rfl : l = d := by omega
            have hdiv : y / B = x := by
              rw [hyx, Nat.mul_comm x B, Nat.mul_add_div hB, Nat.div_eq_of_lt hl.slot_lt, add_zero]
            have hmi : y % B = i := by
              rw [hyx, Nat.mul_comm x B, Nat.mul_add_mod, Nat.mod_eq_of_lt hl.slot_lt]
            rw [hdiv, hl.parent] at hnode
            exact hs ⟨(Option.some.inj hnode).symm, hmi⟩

/-- The nodes after a link. -/
theorem isNode_link (hinj : Inj B h next w root) {d x i : ℕ} {t t' : ν}
    (hl : Link B h next w w' root d x i t t') (s : ν) :
    IsNode B h next w' root s ↔ IsNode B h next w root s ∨ s = t' := by
  have hnode := node_link hinj hl
  constructor
  · rintro ⟨l, y, hlh, hy, hs⟩
    rw [hnode l y hlh hy] at hs
    split_ifs at hs with hnew
    · exact Or.inr (Option.some.inj hs).symm
    · exact Or.inl ⟨l, y, hlh, hy, hs⟩
  · rintro (⟨l, y, hlh, hy, hs⟩ | rfl)
    · refine ⟨l, y, hlh, hy, ?_⟩
      rw [hnode l y hlh hy, if_neg, hs]
      rintro ⟨rfl, rfl⟩
      rw [node_child hl.slot_lt, hl.parent, Option.bind_some, hl.empty] at hs
      cases hs
    · refine ⟨d + 1, x * B + i, hl.depth, child_lt_pow hl.key_lt hl.slot_lt, ?_⟩
      rw [hnode _ _ hl.depth (child_lt_pow hl.key_lt hl.slot_lt), if_pos ⟨rfl, rfl⟩]

theorem Inj.link (hinj : Inj B h next w root) {d x i : ℕ} {t t' : ν}
    (hl : Link B h next w w' root d x i t t') : Inj B h next w' root := by
  have hnode := node_link hinj hl
  intro l y l' y' s hlh hy hlh' hy' hs hs'
  rw [hnode l y hlh hy] at hs
  rw [hnode l' y' hlh' hy'] at hs'
  split_ifs at hs with h1
  · split_ifs at hs' with h2
    · exact ⟨h1.1.trans h2.1.symm, h1.2.trans h2.2.symm⟩
    · cases hs
      exact absurd ⟨l', y', hlh', hy', hs'⟩ hl.fresh
  · split_ifs at hs' with h2
    · cases hs'
      exact absurd ⟨l, y, hlh, hy, hs⟩ hl.fresh
    · exact hinj l y l' y' s hlh hy hlh' hy' hs hs'

theorem Inj.congr (hinj : Inj B h next w root)
    (hnode : ∀ d x, d ≤ h → x < B ^ d → node B next w' root d x = node B next w root d x) :
    Inj B h next w' root := by
  intro d x d' x' t hd hx hd' hx' ht ht'
  rw [hnode d x hd hx] at ht
  rw [hnode d' x' hd' hx'] at ht'
  exact hinj d x d' x' t hd hx hd' hx' ht ht'

theorem isNode_congr
    (hnode : ∀ d x, d ≤ h → x < B ^ d → node B next w' root d x = node B next w root d x) (t : ν) :
    IsNode B h next w' root t ↔ IsNode B h next w root t := by
  constructor
  · rintro ⟨d, x, hd, hx, ht⟩
    exact ⟨d, x, hd, hx, by rw [← hnode d x hd hx]; exact ht⟩
  · rintro ⟨d, x, hd, hx, ht⟩
    exact ⟨d, x, hd, hx, by rw [hnode d x hd hx]; exact ht⟩

/-! ### Moving the subtrees of the root -/

/-- Only slots of the root change: slot `i` now leads to where slot `σ i` led, or nowhere. -/
structure Reroot (B h : ℕ) (next : ℕ → ε → Option ν) (w w' : ν → ℕ → ε) (root : ν)
    (σ : ℕ → Option ℕ) : Prop where
  slot_lt : ∀ {i j}, i < B → σ i = some j → j < B
  inj : ∀ {i i' j}, i < B → i' < B → σ i = some j → σ i' = some j → i = i'
  moved : ∀ i < B, next 0 (w' root i) = (σ i).bind fun j => next 0 (w root j)
  other : ∀ t, IsNode B h next w root t → t ≠ root → ∀ i < B, w' t i = w t i

theorem node_reroot (hinj : Inj B h next w root) {σ : ℕ → Option ℕ}
    (hm : Reroot B h next w w' root σ) (hB : 0 < B) {d x : ℕ} (hd : d < h) (hx : x < B ^ (d + 1)) :
    node B next w' root (d + 1) x =
      (σ (x / B ^ d)).bind fun j => node B next w root (d + 1) (j * B ^ d + x % B ^ d) := by
  induction d generalizing x with
  | zero =>
    rw [zero_add, pow_one] at hx
    rw [node_succ, Nat.mod_eq_of_lt hx, pow_zero, Nat.div_one]
    change next 0 (w' root x) = _
    rw [hm.moved x hx]
    cases hσ : σ x with
    | none => rfl
    | some j =>
      rw [Option.bind_some, Option.bind_some, node_succ, Nat.mul_one, Nat.mod_one, Nat.add_zero,
        Nat.mod_eq_of_lt (hm.slot_lt hx hσ)]
      rfl
  | succ d ih =>
    have hpow : B ^ (d + 1) = B * B ^ d := pow_succ' B d
    rw [node_succ, ih (by omega) (div_lt_pow hB hx), Nat.div_div_eq_div_mul, ← hpow]
    cases hσ : σ (x / B ^ (d + 1)) with
    | none => rfl
    | some j =>
      have hj : j < B := hm.slot_lt ((Nat.div_lt_iff_lt_mul (Nat.pow_pos hB)).2 (by
        rwa [← pow_succ'])) hσ
      have hdiv : (j * B ^ (d + 1) + x % B ^ (d + 1)) / B = j * B ^ d + x / B % B ^ d := by
        rw [hpow, Nat.mul_left_comm, Nat.mul_add_div hB, Nat.mod_mul_right_div_self]
      have hmod : (j * B ^ (d + 1) + x % B ^ (d + 1)) % B = x % B := by
        rw [hpow, Nat.mul_left_comm, Nat.mul_add_mod, Nat.mod_mul_right_mod]
      have hlt : j * B ^ d + x / B % B ^ d < B ^ (d + 1) := by
        rw [hpow, Nat.mul_comm j]
        calc B ^ d * j + x / B % B ^ d < B ^ d * j + B ^ d :=
              Nat.add_lt_add_left (Nat.mod_lt _ (Nat.pow_pos hB)) _
          _ = B ^ d * (j + 1) := (Nat.mul_succ _ _).symm
          _ ≤ B ^ d * B := Nat.mul_le_mul_left _ hj
          _ = B * B ^ d := Nat.mul_comm _ _
      rw [Option.bind_some, Option.bind_some, node_succ (d + 1) (j * B ^ (d + 1) + _), hdiv, hmod]
      cases hnode : node B next w root (d + 1) (j * B ^ d + x / B % B ^ d) with
      | none => rfl
      | some t =>
        have hne : t ≠ root := by
          rintro rfl
          have h0 : (0 : ℕ) < B ^ 0 := Nat.pow_pos hB
          exact absurd (hinj _ _ 0 0 t (by omega) hlt (Nat.zero_le _) h0 hnode rfl).1 (by omega)
        rw [Option.bind_some, Option.bind_some, hm.other t ⟨d + 1, _, by omega, hlt, hnode⟩ hne _
          (Nat.mod_lt _ hB)]

/-- Where a node below the root hung before. -/
theorem exists_of_node_reroot (hinj : Inj B h next w root) {σ : ℕ → Option ℕ}
    (hm : Reroot B h next w w' root σ) (hB : 0 < B) {d x : ℕ} {t : ν} (hd : d < h)
    (hx : x < B ^ (d + 1)) (ht : node B next w' root (d + 1) x = some t) :
    ∃ j, σ (x / B ^ d) = some j ∧ j * B ^ d + x % B ^ d < B ^ (d + 1) ∧
      node B next w root (d + 1) (j * B ^ d + x % B ^ d) = some t := by
  rw [node_reroot hinj hm hB hd hx] at ht
  obtain ⟨j, hσ, ht⟩ := Option.bind_eq_some_iff.1 ht
  have hi : x / B ^ d < B := (Nat.div_lt_iff_lt_mul (Nat.pow_pos hB)).2 (by rwa [← pow_succ'])
  refine ⟨j, hσ, ?_, ht⟩
  calc j * B ^ d + x % B ^ d < j * B ^ d + B ^ d :=
        Nat.add_lt_add_left (Nat.mod_lt _ (Nat.pow_pos hB)) _
    _ = (j + 1) * B ^ d := (Nat.succ_mul _ _).symm
    _ ≤ B * B ^ d := Nat.mul_le_mul_right _ (hm.slot_lt hi hσ)
    _ = B ^ (d + 1) := (pow_succ' B d).symm

theorem isNode_of_reroot (hinj : Inj B h next w root) {σ : ℕ → Option ℕ}
    (hm : Reroot B h next w w' root σ) (hB : 0 < B) {t : ν} (ht : IsNode B h next w' root t) :
    IsNode B h next w root t := by
  obtain ⟨d, x, hd, hx, ht⟩ := ht
  cases d with
  | zero => exact ⟨0, 0, hd, Nat.pow_pos hB, ht⟩
  | succ d =>
    obtain ⟨j, -, hlt, ht⟩ := exists_of_node_reroot hinj hm hB hd hx ht
    exact ⟨d + 1, _, hd, hlt, ht⟩

theorem Inj.reroot (hinj : Inj B h next w root) {σ : ℕ → Option ℕ}
    (hm : Reroot B h next w w' root σ) (hB : 0 < B) : Inj B h next w' root := by
  have h0 : (0 : ℕ) < B ^ 0 := Nat.pow_pos hB
  intro d x d' x' t hd hx hd' hx' ht ht'
  cases d with
  | zero =>
    obtain rfl : x = 0 := by rwa [pow_zero, Nat.lt_one_iff] at hx
    cases d' with
    | zero => exact ⟨rfl, by rw [pow_zero, Nat.lt_one_iff] at hx'; exact hx'.symm⟩
    | succ d' =>
      obtain ⟨j, -, hlt, ht'⟩ := exists_of_node_reroot hinj hm hB hd' hx' ht'
      exact absurd (hinj 0 0 _ _ t hd h0 hd' hlt ht ht').1 (by omega)
  | succ d =>
    obtain ⟨j, hσ, hlt, ht⟩ := exists_of_node_reroot hinj hm hB hd hx ht
    cases d' with
    | zero => exact absurd (hinj _ _ 0 0 t hd hlt hd' h0 ht ht').1 (by omega)
    | succ d' =>
      obtain ⟨j', hσ', hlt', ht'⟩ := exists_of_node_reroot hinj hm hB hd' hx' ht'
      obtain ⟨hdd, hkey⟩ := hinj _ _ _ _ t hd hlt hd' hlt' ht ht'
      obtain rfl : d = d' := by omega
      have hpos : 0 < B ^ d := Nat.pow_pos hB
      have hi : ∀ {y}, y < B ^ (d + 1) → y / B ^ d < B := fun hy =>
        (Nat.div_lt_iff_lt_mul hpos).2 (by rwa [← pow_succ'])
      -- the keys below the root agree, and so do the slots of the root
      have hmod : x % B ^ d = x' % B ^ d := by
        have h := congrArg (· % B ^ d) hkey
        simpa only [Nat.mul_comm j, Nat.mul_comm j', Nat.mul_add_mod, Nat.mod_mod] using h
      have hj : j = j' := by
        have h := congrArg (· / B ^ d) hkey
        simpa only [Nat.mul_comm j, Nat.mul_comm j', Nat.mul_add_div hpos,
          Nat.div_eq_of_lt (Nat.mod_lt _ hpos), Nat.add_zero] using h
      subst hj
      refine ⟨rfl, ?_⟩
      rw [← Nat.div_add_mod x (B ^ d), ← Nat.div_add_mod x' (B ^ d), hmod,
        hm.inj (hi hx) (hi hx') hσ hσ']

/-! ### All nodes, children first -/

/-- The nodes at most `l` levels below the node `t` of depth `d`, every node after its children. -/
def postorder (B : ℕ) (next : ℕ → ε → Option ν) (w : ν → ℕ → ε) : ℕ → ℕ → ν → List ν
  | 0, _, t => [t]
  | l + 1, d, t => ((List.range B).flatMap fun i =>
      ((next d (w t i)).map (postorder B next w l (d + 1))).getD []) ++ [t]

theorem mem_postorder_self (l d : ℕ) (t : ν) : t ∈ postorder B next w l d t := by
  cases l <;> simp [postorder]

/-- The nodes on the way to a node are nodes. -/
theorem exists_ancestor {d y : ℕ} {p : ν} (j : ℕ)
    (hp : node B next w root (d + j) y = some p) : ∃ t, node B next w root d (y / B ^ j) = some t := by
  induction j generalizing y p with
  | zero => exact ⟨p, by rwa [pow_zero, Nat.div_one]⟩
  | succ j ih =>
    obtain ⟨s, hs, -⟩ := exists_parent hp
    obtain ⟨t, ht⟩ := ih hs
    refine ⟨t, ?_⟩
    rwa [Nat.div_div_eq_div_mul, ← pow_succ'] at ht

theorem mem_postorder_iff (hB : 0 < B) {l d x : ℕ} {t p : ν}
    (ht : node B next w root d x = some t) : p ∈ postorder B next w l d t ↔
      ∃ j ≤ l, ∃ y, y / B ^ j = x ∧ node B next w root (d + j) y = some p := by
  induction l generalizing d x t with
  | zero =>
    simp only [postorder, List.mem_singleton, Nat.le_zero]
    constructor
    · rintro rfl
      exact ⟨0, rfl, x, by rw [pow_zero, Nat.div_one], ht⟩
    · rintro ⟨j, rfl, y, rfl, hp⟩
      rw [pow_zero, Nat.div_one] at ht
      exact Option.some.inj (hp.symm.trans ht)
  | succ l ih =>
    simp only [postorder, List.mem_append, List.mem_flatMap, List.mem_range, List.mem_singleton]
    constructor
    · rintro (⟨i, hi, hp⟩ | rfl)
      · cases hc : next d (w t i) with
        | none => simp [hc] at hp
        | some c =>
          have hcnode : node B next w root (d + 1) (x * B + i) = some c := by
            rw [node_child hi, ht]
            exact hc
          rw [hc] at hp
          obtain ⟨j, hj, y, hy, hyp⟩ := (ih hcnode).1 hp
          refine ⟨j + 1, by omega, y, ?_, ?_⟩
          · rw [pow_succ, ← Nat.div_div_eq_div_mul, hy, Nat.mul_comm x B, Nat.mul_add_div hB,
              Nat.div_eq_of_lt hi, add_zero]
          · rwa [show d + (j + 1) = d + 1 + j by omega]
      · exact ⟨0, by omega, x, by rw [pow_zero, Nat.div_one], ht⟩
    · rintro ⟨j, hj, y, hy, hp⟩
      cases j with
      | zero =>
        rw [pow_zero, Nat.div_one] at hy
        subst hy
        exact Or.inr (Option.some.inj (hp.symm.trans ht))
      | succ j =>
        -- the child of `t` on the way to `p`
        rw [show d + (j + 1) = d + 1 + j by omega] at hp
        obtain ⟨c, hc⟩ := exists_ancestor j hp
        have hdiv : y / B ^ j / B = x := by
          rw [Nat.div_div_eq_div_mul, ← pow_succ, hy]
        refine Or.inl ⟨y / B ^ j % B, Nat.mod_lt _ hB, ?_⟩
        have hcnext : next d (w t (y / B ^ j % B)) = some c := by
          rw [node_succ, hdiv, ht] at hc
          exact hc
        rw [hcnext]
        exact (ih hc).2 ⟨j, by omega, y, rfl, hp⟩

/-- The listing of the whole tree. -/
theorem mem_postorder_root (hB : 0 < B) (p : ν) :
    p ∈ postorder B next w h 0 root ↔ IsNode B h next w root p := by
  rw [mem_postorder_iff hB (show node B next w root 0 0 = some root from rfl)]
  constructor
  · rintro ⟨j, hj, y, hy, hp⟩
    rw [zero_add] at hp
    exact ⟨j, y, hj, (Nat.div_eq_zero_iff_lt (Nat.pow_pos hB)).1 hy, hp⟩
  · rintro ⟨d, x, hd, hx, hp⟩
    exact ⟨d, hd, x, Nat.div_eq_of_lt hx, by rwa [zero_add]⟩

/-- No node is listed twice. -/
theorem nodup_postorder (hB : 0 < B) (hinj : Inj B h next w root) {l d x : ℕ} {t : ν}
    (hl : d + l ≤ h) (hx : x < B ^ d) (ht : node B next w root d x = some t) :
    (postorder B next w l d t).Nodup := by
  have hkey : ∀ {j y d x : ℕ}, x < B ^ d → y / B ^ j = x → y < B ^ (d + j) := by
    intro j y d x hx hy
    rw [pow_add, ← Nat.div_lt_iff_lt_mul (Nat.pow_pos hB), hy]
    exact hx
  induction l generalizing d x t with
  | zero => exact List.nodup_singleton t
  | succ l ih =>
    have hchild : ∀ {i c}, i < B → next d (w t i) = some c →
        node B next w root (d + 1) (x * B + i) = some c := by
      intro i c hi hc
      rw [node_child hi, ht]
      exact hc
    -- where a node below a child of `t` hangs
    have hbelow : ∀ {i p}, i < B →
        p ∈ ((next d (w t i)).map (postorder B next w l (d + 1))).getD [] →
        ∃ j ≤ l, ∃ y, y / B ^ j = x * B + i ∧ y < B ^ (d + 1 + j) ∧
          node B next w root (d + 1 + j) y = some p := by
      intro i p hi hp
      cases hc : next d (w t i) with
      | none => simp [hc] at hp
      | some c =>
        rw [hc] at hp
        obtain ⟨j, hj, y, hy, hyp⟩ := (mem_postorder_iff hB (hchild hi hc)).1 hp
        exact ⟨j, hj, y, hy, hkey (child_lt_pow hx hi) hy, hyp⟩
    rw [postorder, List.nodup_append', List.nodup_flatMap]
    refine ⟨⟨?_, ?_⟩, List.nodup_singleton t, ?_⟩
    · intro i hi
      rw [List.mem_range] at hi
      cases hc : next d (w t i) with
      | none => exact List.nodup_nil
      | some c => exact ih (by omega) (child_lt_pow hx hi) (hchild hi hc)
    · refine List.nodup_range.imp_of_mem ?_
      intro i i' hi hi' hne p hp hp'
      rw [List.mem_range] at hi hi'
      obtain ⟨j, hj, y, hy, hylt, hyp⟩ := hbelow hi hp
      obtain ⟨j', hj', y', hy', hylt', hyp'⟩ := hbelow hi' hp'
      obtain ⟨hd, rfl⟩ := hinj _ _ _ _ p (by omega) hylt (by omega) hylt' hyp hyp'
      obtain rfl : j = j' := by omega
      exact hne (by omega)
    · intro p hp hpt
      rw [List.mem_singleton] at hpt
      subst hpt
      obtain ⟨i, hi, hp⟩ := List.mem_flatMap.1 hp
      obtain ⟨j, hj, y, -, hylt, hyp⟩ := hbelow (List.mem_range.1 hi) hp
      obtain ⟨hd, -⟩ := hinj _ _ _ _ p (by omega) hylt (by omega) hx hyp ht
      omega

end Radix
