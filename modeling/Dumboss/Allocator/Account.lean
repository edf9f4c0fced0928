import Dumboss.Allocator.Frame
import Dumboss.Allocator.Result
import Dumboss.Lib.Shares

/-!
# What the clients hold

Any number of clients share an allocator.  A client may give back any range of the pages it holds, in
parts and in any order; it never gives back what it does not hold.

* `Op.holdings`: what a client holds after its call;
* `ClientRun N h₀ h share`: some calls of the clients lead from `h₀` to `h`, and `share c` is what client
  `c` holds in the end;
* `clientRun_split`: no page gets lost or is held twice;
* `clientRun_restored`: once everything was given back, the allocator is in the state it was in at the
  start, as far as anybody can tell.
-/

namespace Dumboss

open Prog Buddy Shares

variable {N : ℕ} {h h' h₀ : Heap} {L L' : ℕ → List ℕ} {buf : Buffer} {share : ℕ → Set ℕ}

namespace Op

/-- The call gives back only pages of `held`. -/
def Returns (held : Set ℕ) : Op → Prop
  | release p c => Set.Ico p (p + c) ⊆ held
  | _ => True

/-- What the client that made the call holds afterwards. -/
def holdings (op : Op) (buf : Buffer) (held : Set ℕ) : Set ℕ :=
  match op with
  | release p c => held \ Set.Ico p (p + c)
  | alloc _ _ => held ∪ buf.pages
  | zeroed _ => held ∪ buf.pages
  | mark _ _ _ => held
  | write _ _ _ => held

end Op

/-- Calls of clients that give back only what they hold; client `c` holds `share c`. -/
inductive ClientRun (N : ℕ) (h₀ : Heap) : Heap → (ℕ → Set ℕ) → Prop
  | start : ClientRun N h₀ h₀ fun _ => ∅
  | step {h h' : Heap} {share : ℕ → Set ℕ} {op : Op} {buf : Buffer} (c : ℕ)
      (hr : ClientRun N h₀ h share) (ha : op.Allowed N h) (hown : op.Returns (share c))
      (he : op.exec h = Except.ok (buf, h')) :
      ClientRun N h₀ h' (Function.update share c (op.holdings buf (share c)))

theorem ClientRun.reachable (h0 : Reachable N h₀) (hr : ClientRun N h₀ h share) : Reachable N h := by
  induction hr with
  | start => exact h0
  | step c hr ha hown he ih => exact .step ih ha he

/-! ### Where the pages are -/

/-- **Step lemma**: a call moves pages between the free pages and the share of the client. -/
theorem split_step {S : Set ℕ} {op : Op} (hs : Split S h.globals.freeSet share)
    (hf : op.Frame h buf h') {c : ℕ} (hown : op.Returns (share c)) :
    Split S h'.globals.freeSet (Function.update share c (op.holdings buf (share c))) := by
  cases op with
  | release p n =>
    rw [hf.2.1]
    exact hs.give c hown
  | alloc count exact =>
    rw [hf.freeSet]
    exact hs.take c hf.subset
  | zeroed count =>
    rw [hf.freeSet]
    exact hs.take c hf.subset
  | mark p n usable =>
    rw [hf.1]
    simpa [Op.holdings] using hs
  | write p i v =>
    rw [hf.1]
    simpa [Op.holdings] using hs

theorem ClientRun.split (h0 : Reachable N h₀) (hr : ClientRun N h₀ h share) :
    Split h₀.globals.freeSet h.globals.freeSet share := by
  induction hr with
  | start => exact .start _
  | step c hr ha hown he ih =>
    have hreach := hr.reachable h0
    exact split_step ih ((hreach.effect ha he).frame hreach.inv.le_window ha) hown

/-- The count of free memory is that of the set of free pages. -/
theorem Inv.freeMemory_eq_ncard (hI : Inv N h) :
    h.globals.freeMemory = 4096 * (h.globals.freeSet.ncard : ℤ) ∧ h.globals.freeSet.Finite := by
  have hcoe : ((h.globals.freeFinset N : Finset ℕ) : Set ℕ) = h.globals.freeSet := by
    ext p
    rw [Finset.mem_coe, mem_freeFinset]
    exact ⟨fun hp => hp.2, fun hp => ⟨hI.lt_of_free hp, hp⟩⟩
  rw [hI.free_memory, ← hcoe, Set.ncard_coe_finset]
  exact ⟨rfl, Finset.finite_toSet _⟩

/-- **No page gets lost.**  At any time in any run of any number of clients, every page that was free at
the start is free or is held by exactly one client, nobody holds anything else, and the count of free
memory is short by exactly what the clients hold. -/
theorem clientRun_split (h0 : Reachable N h₀) (hr : ClientRun N h₀ h share) :
    (∀ p, p ∈ h₀.globals.freeSet ↔ p ∈ h.globals.freeSet ∨ ∃ c, p ∈ share c) ∧
    (∀ c, Disjoint (share c) h.globals.freeSet) ∧
    (∀ c d, c ≠ d → Disjoint (share c) (share d)) ∧
    h.globals.freeMemory + 4096 * ((⋃ c, share c).ncard : ℤ) = h₀.globals.freeMemory := by
  have hs := hr.split h0
  refine ⟨hs.cover, hs.pool_apart, hs.apart, ?_⟩
  obtain ⟨hmem₀, hfin⟩ := h0.inv.freeMemory_eq_ncard
  obtain ⟨hmem, -⟩ := (hr.reachable h0).inv.freeMemory_eq_ncard
  have hcard := hs.ncard_add hfin
  rw [hmem, hmem₀, ← hcard]
  push_cast
  ring

/-- Of five free pages one client holds one. -/
theorem exists_clientRun_one_page : ∃ h₀ h p, Reachable 4096 h₀ ∧ p < 4096 ∧
    h.globals.usablePages.test p = true ∧
    ClientRun 4096 h₀ h (Function.update (fun _ => ∅) 1 {p}) := by
  obtain ⟨h₀, h0, hF, -⟩ := exists_reachable_released (p := 3) (c := 5) (N := 4096) (by decide)
    (by decide) (by decide) (by decide) ⟨fun _ => 0#64, []⟩
  have ha : (Op.alloc 1 true).Allowed 4096 h₀ := show (1 : ℤ) ≤ 4096 by decide
  obtain ⟨buf, h, he, hres⟩ := wp_allocRaw h0.inv ha true
  rcases hres with ⟨-, -, hempty⟩ | ⟨b, c, rfl, -, hb, hA, hc⟩
  · have hmem : 3 ∈ h₀.globals.freeSet := by
      rw [hF]
      exact ⟨le_rfl, by decide⟩
    rw [hempty rfl] at hmem
    exact absurd hmem (Set.notMem_empty 3)
  · obtain rfl : c = 1 := by
      have := hc.resolve_right (by simp)
      omega
    have hpages : (Buffer.mk (pagePtr b) (((1 : ℕ) : ℤ) * 4096)).pages = {b} := by
      rw [Buffer.pages_pagePtr (hb.trans_le h0.inv.le_window)]
      ext q
      rw [Set.mem_Ico, Set.mem_singleton_iff]
      omega
    have hrun := ClientRun.step 1 .start ha trivial he
    rw [Op.holdings, hpages, Set.empty_union] at hrun
    refine ⟨h₀, h, b, h0, hb, ?_, hrun⟩
    rw [hA.usablePages]
    exact h0.inv.free_usable b (hA.subset ⟨le_rfl, by omega⟩)

theorem clientRun_split_one_page : ∃ h₀ h p, ClientRun 4096 h₀ h (Function.update (fun _ => ∅) 1 {p}) ∧
    p ∈ h₀.globals.freeSet ∧ p ∉ h.globals.freeSet := by
  obtain ⟨h₀, h, p, h0, -, -, hr⟩ := exists_clientRun_one_page
  have hp : p ∈ Function.update (fun _ => (∅ : Set ℕ)) 1 {p} 1 := by simp
  obtain ⟨hcover, hapart, -⟩ := clientRun_split h0 hr
  exact ⟨h₀, h, p, hr, (hcover p).2 (Or.inr ⟨1, hp⟩), Set.disjoint_left.1 (hapart 1) hp⟩

/-! ### What the free pages determine -/

/-- Two lists of the same blocks are empty together. -/
theorem Core.lists_nil_iff (hc : Core N h.globals.freeSet L h) (hc' : Core N h'.globals.freeSet L' h')
    (hF : h'.globals.freeSet = h.globals.freeSet) {k : ℕ} (hk : k < classCount) :
    L' k = [] ↔ L k = [] := by
  rw [hF] at hc'
  rw [List.eq_nil_iff_forall_not_mem, List.eq_nil_iff_forall_not_mem]
  exact forall_congr' fun b => not_congr ((hc'.mem_iff hk).trans (hc.mem_iff hk).symm)

/-- The number of bytes that a request gets depends on which lists are empty only. -/
theorem Outcome.count_eq {count m : ℕ} {exact : Bool} {buf' : Buffer} {g g' : Heap}
    (hm : m ≤ classCount) (ho : Outcome N L h count m exact buf g)
    (ho' : Outcome N L' h' count m exact buf' g')
    (hnil : ∀ k < classCount, (L' k = [] ↔ L k = [])) : buf'.count = buf.count := by
  cases ho with
  | found hmk hk hne hb hA =>
    cases ho' with
    | found => rfl
    | fallback _ hnil' => exact absurd ((hnil _ hk).1 (hnil' _ hmk hk)) hne
    | null hnil' => exact absurd ((hnil _ hk).1 (hnil' _ hmk hk)) hne
  | @fallback k _ _ hexact hnil₁ hkm hne hmax hb hA =>
    cases ho' with
    | found hmk hk hne' => exact absurd ((hnil _ hk).2 (hnil₁ _ hmk hk)) hne'
    | @fallback k' _ _ _ _ hkm' hne' hmax' =>
      -- both are the last class below `m` that has a block
      obtain hlt | rfl | hlt := lt_trichotomy k k'
      · exact absurd ((hnil _ (by omega)).2 (hmax _ hlt hkm')) hne'
      · rfl
      · exact absurd ((hnil _ (by omega)).1 (hmax' _ hlt hkm)) hne
    | null _ hno =>
      have hall := hno.resolve_left (by simp [hexact])
      exact absurd ((hnil _ (by omega)).1 (hall _ hkm)) hne
  | null hnil₁ hno =>
    cases ho' with
    | found hmk hk hne' => exact absurd ((hnil _ hk).2 (hnil₁ _ hmk hk)) hne'
    | fallback hexact _ hkm' hne' =>
      have hall := hno.resolve_left (by simp [hexact])
      exact absurd ((hnil _ (by omega)).2 (hall _ hkm')) hne'
    | null => rfl

/-- Two states with the same free pages answer every request alike. -/
theorem answers_eq (hI : Inv N h) (hI' : Inv N h') (hF : h'.globals.freeSet = h.globals.freeSet)
    {count : ℤ} (hcount : count ≤ 4096) (exact : Bool) :
    ∃ buf g buf' g', allocRaw count exact h = Except.ok (buf, g) ∧
      allocRaw count exact h' = Except.ok (buf', g') ∧ buf'.count = buf.count := by
  by_cases hpos : count ≤ 0
  · exact ⟨_, _, _, _, allocRaw_nonpos hpos exact, allocRaw_nonpos hpos exact, rfl⟩
  · obtain ⟨c, rfl⟩ := Int.eq_ofNat_of_zero_le (show 0 ≤ count by omega)
    obtain ⟨L, hc⟩ := hI.core
    obtain ⟨L', hc'⟩ := hI'.core
    obtain ⟨m, _, -, -, hle, hmin⟩ :=
      wp_smallestGreaterPower2 (s := ()) (show 0 < c by omega) (by omega)
    have hm : m ≤ classCount := hmin 12 (by omega)
    obtain ⟨buf, g, hrun, hout⟩ :=
      wp_allocRaw_outcome hI hc (by omega) (by omega) hle hmin exact
    obtain ⟨buf', g', hrun', hout'⟩ :=
      wp_allocRaw_outcome hI' hc' (by omega) (by omega) hle hmin exact
    exact ⟨buf, g, buf', g', hrun, hrun',
      hout.count_eq hm hout' fun k hk => hc.lists_nil_iff hc' hF hk⟩

/-- **Giving everything back restores the allocator**, in whatever order and in whatever parts that was
done: all freelists hold the blocks they held at the start, the buddy bits and the count of free memory
are as they were, and every request gets as many bytes as it would have got then. -/
theorem clientRun_restored (h0 : Reachable N h₀) (hr : ClientRun N h₀ h share)
    (hall : ∀ c, share c = ∅) :
    (∀ k < classCount, ∀ b, InFreelist h k b ↔ InFreelist h₀ k b) ∧
    (∀ k < classCount - 1, (h.globals.classes k).buddies = (h₀.globals.classes k).buddies) ∧
    h.globals.freeMemory = h₀.globals.freeMemory ∧
    ∀ count ≤ (4096 : ℤ), ∀ exact, ∃ buf g buf₀ g₀, allocRaw count exact h = Except.ok (buf, g) ∧
      allocRaw count exact h₀ = Except.ok (buf₀, g₀) ∧ buf.count = buf₀.count := by
  have hF : h.globals.freeSet = h₀.globals.freeSet := (hr.split h0).whole hall
  have hI := (hr.reachable h0).inv
  obtain ⟨L, hc⟩ := hI.core
  obtain ⟨L₀, hc₀⟩ := h0.inv.core
  refine ⟨fun k hk b => ?_, fun k hk => ?_, ?_, fun count hcount exact => ?_⟩
  · rw [inFreelist_iff hI hc hk, inFreelist_iff h0.inv hc₀ hk, hc.mem_iff hk, hc₀.mem_iff hk, hF]
  · rw [hF] at hc
    exact buddies_eq_of_freeSet hc₀ hc hk
  · rw [hI.freeMemory_eq_ncard.1, h0.inv.freeMemory_eq_ncard.1, hF]
  · obtain ⟨buf₀, g₀, buf, g, hrun₀, hrun, heq⟩ := answers_eq h0.inv hI hF hcount exact
    exact ⟨buf, g, buf₀, g₀, hrun, hrun₀, heq⟩

/-- The client gives its page back. -/
theorem clientRun_restored_one_page : ∃ h₀ h p buf h',
    ClientRun 4096 h₀ h (Function.update (fun _ => ∅) 1 {p}) ∧
    (Op.release p 1).exec h = Except.ok (buf, h') ∧ h'.globals.freeMemory = h₀.globals.freeMemory := by
  obtain ⟨h₀, h, p, h0, hp, husable, hr⟩ := exists_clientRun_one_page
  have hreach := hr.reachable h0
  have hfree : p ∉ h.globals.freeSet := by
    have hmem : p ∈ Function.update (fun _ => (∅ : Set ℕ)) 1 {p} 1 := by simp
    exact Set.disjoint_left.1 ((hr.split h0).pool_apart 1) hmem
  have hIco : ∀ q, q ∈ Set.Ico p (p + 1) ↔ q = p := by
    intro q
    rw [Set.mem_Ico]
    omega
  have ha : (Op.release p 1).Allowed 4096 h := by
    refine ⟨hp.trans_le hreach.inv.le_window, by omega, fun q hq => ?_⟩
    rw [(hIco q).1 hq]
    exact ⟨husable, hfree⟩
  have hown : (Op.release p 1).Returns (Function.update (fun _ => (∅ : Set ℕ)) 1 {p} 1) := by
    intro q hq
    simpa using (hIco q).1 hq
  obtain ⟨buf, h', he, -⟩ := Op.wp_exec hreach.inv ha
  refine ⟨h₀, h, p, buf, h', hr, he, ?_⟩
  refine (clientRun_restored h0 (ClientRun.step 1 hr ha hown he) fun c => ?_).2.2.1
  by_cases hc : c = 1
  · subst hc
    ext q
    simp [Op.holdings, hIco]
  · rw [Function.update_of_ne hc, Function.update_of_ne hc]

end Dumboss
