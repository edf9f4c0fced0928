import Dumboss.Logger.Model
import Dumboss.PageTable.BootTable

/-!
# The log of a page table

`traverse_table` logs a page table: a line for each table, and between them a line for each run of empty
entries and of pages.  The lines can be read back.

* `LogCall`, `traverseTableInner`, `traverseTable`: the code;
* `Shape`, `shapeOf`: what a table looks like, level by level; `render`: the lines of a shape;
* `readTable`: the shape, from the lines; `readTable_render` is the round trip;
* `LogCall.call`: the call of `ext__log_fmt`; `wp_send` says what it sends;
* `traverseTable_reads_back`: the lines of `traverse_table` say of every page whether it is mapped.
-/

namespace Dumboss.PageTable

open Prog

/-! ### The code -/

/-- An argument of `log_fmt`. -/
inductive LogArg
  | text (s : String)
  | u16 (n : ℕ)
  | s64 (n : ℕ)
  deriving DecidableEq

/-- A call of `log_fmt`. -/
structure LogCall where
  format : String
  args : List LogArg
  deriving DecidableEq

/-- The kernel with its log, latest line last. -/
structure Console (ρ : Type) where
  kernel : Kernel ρ
  log : List LogCall

/-- `prefixes`. -/
def prefixes : ℕ → String
  | 0 => "| | | +-"
  | 1 => "| | +-"
  | 2 => "| +-"
  | 3 => "+-"
  | _ => ""

/-- `page_size_for_entry`. -/
def pageSizeForEntry : ℕ → String
  | 1 => "4Kb"
  | 2 => "2Mb"
  | 3 => "1Gb"
  | _ => ""

def tableLine (level count : ℕ) : LogCall :=
  ⟨"%fp%f table with %f children", [.text (prefixes level), .u16 level, .u16 count]⟩

def emptyLine (level count : ℕ) : LogCall :=
  ⟨"%f%f empty p%f entries", [.text (prefixes (level - 1)), .s64 count, .u16 level]⟩

def pageLine (level count : ℕ) : LogCall :=
  ⟨"%f%f %f page entries",
    [.text (prefixes (level - 1)), .s64 count, .text (pageSizeForEntry level)]⟩

/-- `enum Mode`. -/
inductive Mode
  | table
  | empty
  | page
  deriving DecidableEq

section Code

variable {ρ : Type}

/-- `log_fmt`. -/
def logFmt (line : LogCall) : Kern (Console ρ) Unit :=
  modify fun s => { s with log := s.log ++ [line] }

/-- `table->entries[index]`. -/
def readEntry (table : U64) (index : ℕ) : Kern (Console ρ) U64 := do
  return (← get).kernel.memory.load (table + BitVec.ofNat 64 (8 * index))

/-- `FINISH_MODE`; the result is `type_count`. -/
def finishMode (level : ℕ) (mode : Mode) (typeCount : ℕ) : Kern (Console ρ) ℕ :=
  match mode with
  | .table => return typeCount
  | .empty => do
    logFmt (emptyLine level typeCount)
    return 0
  | .page => do
    logFmt (pageLine level typeCount)
    return 0

/-- `new_mode` for an entry of a table. -/
def newMode (level : ℕ) (entry : U64) : Mode :=
  if entry = 0#64 then .empty
  else if level = 1 ∨ entry &&& pteHugePage ≠ 0#64 then .page
  else .table

/-- A round of the second loop; `recurse` is the call for a table one level down. -/
def traverseEntry (recurse : U64 → Kern (Console ρ) Unit) (level : ℕ) (table : U64)
    (state : Mode × ℕ) (i : ℕ) : Kern (Console ρ) (Mode × ℕ) := do
  let entry ← readEntry table i
  let new := newMode level entry
  let typeCount ← if state.1 ≠ new then finishMode level state.1 state.2 else pure state.2
  if new = .table then
    recurse entry
    return (new, typeCount)
  return (new, typeCount + 1)

/-- `traverse_table_inner`; the first argument is `table_level`. -/
def traverseTableInner : ℕ → U64 → Kern (Console ρ) Unit
  | 0, _ => return ()
  | level + 1, tableEntry => do
    if tableEntry &&& pteHugePage ≠ 0#64 then return ()
    let table ← pteAddress tableEntry
    let count ← (List.range 512).foldlM (fun count i => do
      return if (← readEntry table i) = 0#64 then count else count + 1) 0
    logFmt (tableLine (level + 1) count)
    let (mode, typeCount) ← (List.range 512).foldlM
      (traverseEntry (traverseTableInner level) (level + 1) table) (Mode.table, 0)
    let _ ← finishMode (level + 1) mode typeCount

/-- `traverse_table`. -/
def traverseTable (p4 : U64) : Kern (Console ρ) Unit := do
  traverseTableInner 4 (← makePte p4 0#64)

end Code

/-! ### Shapes and their lines -/

/-- What an entry is: nothing, a page, or a table. -/
inductive Kind (α : Type)
  | empty
  | page
  | table (a : α)
  deriving DecidableEq

namespace Kind

variable {α : Type}

def mode : Kind α → Mode
  | empty => .empty
  | page => .page
  | table _ => .table

def isEmpty : Kind α → Bool
  | empty => true
  | _ => false

theorem exists_table {k : Kind α} (hk : k.mode = .table) : ∃ a, k = table a := by
  cases k with
  | empty => cases hk
  | page => cases hk
  | table a => exact ⟨a, rfl⟩

end Kind

/-- The shape of a table of level `l + 1`. -/
def Shape : ℕ → Type
  | 0 => List (Kind Empty)
  | l + 1 => List (Kind (Shape l))

section Render

variable {α : Type} {level : ℕ}

/-- The line for a run that ends. -/
def flush (level : ℕ) : Mode → ℕ → List LogCall
  | .table, _ => []
  | .empty, c => [emptyLine level c]
  | .page, c => [pageLine level c]

/-- The lines of the entries `ks` behind a run of `c` entries; `sub` are those of a table. -/
def renderEntries (sub : α → List LogCall) (level : ℕ) : Mode → ℕ → List (Kind α) → List LogCall
  | mode, c, [] => flush level mode c
  | mode, c, .table a :: ks => flush level mode c ++ sub a ++ renderEntries sub level .table 0 ks
  | mode, c, .empty :: ks =>
    if mode = .empty then renderEntries sub level .empty (c + 1) ks
    else flush level mode c ++ renderEntries sub level .empty 1 ks
  | mode, c, .page :: ks =>
    if mode = .page then renderEntries sub level .page (c + 1) ks
    else flush level mode c ++ renderEntries sub level .page 1 ks

/-- The lines of a table. -/
def renderKinds (sub : α → List LogCall) (level : ℕ) (ks : List (Kind α)) : List LogCall :=
  tableLine level (ks.countP fun k => !k.isEmpty) :: renderEntries sub level .table 0 ks

/-- The lines of a shape. -/
def render : (l : ℕ) → Shape l → List LogCall
  | 0, ks => renderKinds Empty.elim 1 ks
  | l + 1, ks => renderKinds (render l) (l + 2) ks

/-! ### Reading the lines -/

/-- The number in a line for a run. -/
def LogCall.run (line : LogCall) : ℕ :=
  match line.args with
  | _ :: .s64 c :: _ => c
  | _ => 0

/-- The kinds of the next `left` entries, and the lines behind them. -/
def readEntries (sub : List LogCall → Option (α × List LogCall)) (level : ℕ) :
    ℕ → ℕ → List LogCall → Option (List (Kind α) × List LogCall)
  | _, 0, lines => some ([], lines)
  | 0, _ + 1, _ => none
  | fuel + 1, left + 1, lines =>
    match lines with
    | [] => none
    | line :: rest =>
      if line = emptyLine level line.run then
        (readEntries sub level fuel (left + 1 - line.run) rest).map fun r =>
          (List.replicate line.run .empty ++ r.1, r.2)
      else if line = pageLine level line.run then
        (readEntries sub level fuel (left + 1 - line.run) rest).map fun r =>
          (List.replicate line.run .page ++ r.1, r.2)
      else (sub lines).bind fun t =>
        (readEntries sub level fuel left t.2).map fun r => (.table t.1 :: r.1, r.2)

/-- The kinds of the entries of a table; the first line has to give the right number of children. -/
def readKinds (sub : List LogCall → Option (α × List LogCall)) (level : ℕ) :
    List LogCall → Option (List (Kind α) × List LogCall)
  | [] => none
  | line :: lines => (readEntries sub level 512 512 lines).bind fun r =>
    if line = tableLine level (r.1.countP fun k => !k.isEmpty) then some r else none

/-- The shape of a table of level `l + 1`, and the lines behind it. -/
def readTable : (l : ℕ) → List LogCall → Option (Shape l × List LogCall)
  | 0 => readKinds (fun _ => none) 1
  | l + 1 => readKinds (readTable l) (l + 2)

/-- The entries of a run. -/
def pending : Mode → ℕ → List (Kind α)
  | .table, _ => []
  | .empty, c => List.replicate c .empty
  | .page, c => List.replicate c .page

@[simp] theorem run_emptyLine (c : ℕ) : (emptyLine level c).run = c := rfl

@[simp] theorem run_pageLine (c : ℕ) : (pageLine level c).run = c := rfl

theorem pageLine_ne_emptyLine (c c' : ℕ) : pageLine level c ≠ emptyLine level c' := by
  simp [pageLine, emptyLine]

theorem tableLine_ne_emptyLine (level' c c' : ℕ) : tableLine level' c ≠ emptyLine level c' := by
  simp [tableLine, emptyLine]

theorem tableLine_ne_pageLine (level' c c' : ℕ) : tableLine level' c ≠ pageLine level c' := by
  simp [tableLine, pageLine]

variable {sub : α → List LogCall} {parse : List LogCall → Option (α × List LogCall)}

theorem readEntries_zero (fuel : ℕ) (lines : List LogCall) :
    readEntries parse level fuel 0 lines = some ([], lines) := by
  cases fuel with
  | zero => rfl
  | succ fuel => rfl

/-- A run, and the lines behind it. -/
theorem readEntries_flush {mode : Mode} {c n fuel : ℕ} {lines : List LogCall}
    (hmode : mode ≠ .table) (hc : 0 < c) :
    readEntries parse level (fuel + 1) (c + n) (flush level mode c ++ lines) =
      (readEntries parse level fuel n lines).map fun r => (pending mode c ++ r.1, r.2) := by
  obtain ⟨left, hleft⟩ : ∃ left, c + n = left + 1 := ⟨c + n - 1, by omega⟩
  have hn : left + 1 - c = n := by omega
  cases mode with
  | table => exact absurd rfl hmode
  | empty =>
    rw [hleft, flush, List.singleton_append, readEntries, run_emptyLine, if_pos rfl, hn]
    rfl
  | page =>
    rw [hleft, flush, List.singleton_append, readEntries, run_pageLine,
      if_neg (pageLine_ne_emptyLine _ _), if_pos rfl, hn]
    rfl

/-- A table, and the lines behind it. -/
theorem readEntries_table {a : α} {n fuel : ℕ} {lines : List LogCall}
    (hparse : parse (sub a ++ lines) = some (a, lines))
    (hsub : ∃ level' c tail, sub a = tableLine level' c :: tail) :
    readEntries parse level (fuel + 1) (n + 1) (sub a ++ lines) =
      (readEntries parse level fuel n lines).map fun r => (.table a :: r.1, r.2) := by
  obtain ⟨level', c, tail, hhead⟩ := hsub
  rw [hhead, List.cons_append] at hparse ⊢
  rw [readEntries, if_neg (tableLine_ne_emptyLine _ _ _), if_neg (tableLine_ne_pageLine _ _ _), hparse,
    Option.bind_some]

/-- An entry that is not a table extends the run that is open, or it opens one. -/
theorem renderEntries_run {k : Kind α} (hk : k.mode ≠ .table) (mode : Mode) (c : ℕ)
    (ks : List (Kind α)) : renderEntries sub level mode c (k :: ks) =
      if mode = k.mode then renderEntries sub level k.mode (c + 1) ks
      else flush level mode c ++ renderEntries sub level k.mode 1 ks := by
  cases k with
  | empty => rfl
  | page => rfl
  | table a => exact absurd rfl hk

theorem pending_succ {k : Kind α} (hk : k.mode ≠ .table) (c : ℕ) :
    pending k.mode (c + 1) = pending k.mode c ++ [k] := by
  cases k with
  | empty => exact List.replicate_succ'
  | page => exact List.replicate_succ'
  | table a => exact absurd rfl hk

/-- The open run ends, and the rest is read back. -/
theorem readEntries_flush_append {mode : Mode} {c fuel : ℕ} {lines' lines : List LogCall}
    (ks : List (Kind α)) (hc : if mode = .table then c = 0 else 0 < c) (hfuel : c + ks.length ≤ fuel)
    (hrest : ∀ n, ks.length ≤ n → readEntries parse level n ks.length lines' = some (ks, lines)) :
    readEntries parse level fuel (c + ks.length) (flush level mode c ++ lines') =
      some (pending mode c ++ ks, lines) := by
  by_cases hmode : mode = .table
  · rw [if_pos hmode] at hc
    subst hmode hc
    rw [Nat.zero_add] at hfuel ⊢
    exact hrest fuel hfuel
  · rw [if_neg hmode] at hc
    obtain ⟨fuel, rfl⟩ : ∃ f, fuel = f + 1 := ⟨fuel - 1, by omega⟩
    rw [readEntries_flush hmode hc, hrest fuel (by omega)]
    rfl

/-- **The entries can be read back.**  The induction is on the entries; `mode` and `c` are the run that
has not been logged yet. -/
theorem readEntries_renderEntries (ks : List (Kind α))
    (hparse : ∀ a, .table a ∈ ks → ∀ lines, parse (sub a ++ lines) = some (a, lines))
    (hsub : ∀ a, ∃ level' c tail, sub a = tableLine level' c :: tail) (mode : Mode) (c fuel : ℕ)
    (hc : if mode = .table then c = 0 else 0 < c) (hfuel : c + ks.length ≤ fuel)
    (lines : List LogCall) :
    readEntries parse level fuel (c + ks.length) (renderEntries sub level mode c ks ++ lines) =
      some (pending mode c ++ ks, lines) := by
  induction ks generalizing mode c fuel with
  | nil => exact readEntries_flush_append [] hc hfuel fun n _ => readEntries_zero n lines
  | cons k ks ih =>
    specialize ih fun a ha => hparse a (List.mem_cons_of_mem _ ha)
    by_cases hk : k.mode = .table
    · obtain ⟨a, rfl⟩ := Kind.exists_table hk
      rw [renderEntries, List.append_assoc, List.append_assoc]
      refine readEntries_flush_append (.table a :: ks) hc hfuel fun n hn => ?_
      rw [List.length_cons] at hn ⊢
      obtain ⟨n, rfl⟩ : ∃ f, n = f + 1 := ⟨n - 1, by omega⟩
      have h := ih .table 0 n rfl (by omega)
      rw [Nat.zero_add] at h
      rw [readEntries_table (hparse a (by simp) _) (hsub a), h]
      rfl
    · -- the run behind this entry is open, whether the entry extends it or opens it
      have hopen : ∀ c', if k.mode = .table then c' + 1 = 0 else 0 < c' + 1 := fun c' => by
        rw [if_neg hk]
        exact Nat.succ_pos c'
      rw [renderEntries_run hk]
      split_ifs with hmode
      · subst hmode
        have h := ih k.mode (c + 1) fuel (hopen c) (by rw [List.length_cons] at hfuel; omega)
        rw [pending_succ hk, List.append_assoc, Nat.add_right_comm] at h
        exact h
      · rw [List.append_assoc]
        refine readEntries_flush_append (k :: ks) hc hfuel fun n hn => ?_
        rw [List.length_cons] at hn ⊢
        have h := ih k.mode 1 n (hopen 0) (by omega)
        have hnil : pending k.mode 0 = ([] : List (Kind α)) := by cases k.mode <;> rfl
        rw [pending_succ hk, hnil, List.nil_append, Nat.add_comm] at h
        exact h

/-- The lines of a table can be read back. -/
theorem readKinds_renderKinds {ks : List (Kind α)} (hlen : ks.length = 512)
    (hparse : ∀ a, .table a ∈ ks → ∀ lines, parse (sub a ++ lines) = some (a, lines))
    (hsub : ∀ a, ∃ level' c tail, sub a = tableLine level' c :: tail) (lines : List LogCall) :
    readKinds parse level (renderKinds sub level ks ++ lines) = some (ks, lines) := by
  have h : readEntries parse level 512 (0 + ks.length) _ = _ :=
    readEntries_renderEntries ks hparse hsub .table 0 512 rfl (by omega) lines
  rw [Nat.zero_add, hlen] at h
  rw [renderKinds, List.cons_append, readKinds, h, Option.bind_some]
  exact if_pos rfl

/-- Every table has 512 entries. -/
def Full : (l : ℕ) → Shape l → Prop
  | 0, (ks : List (Kind Empty)) => ks.length = 512
  | l + 1, (ks : List (Kind (Shape l))) => ks.length = 512 ∧ ∀ s, .table s ∈ ks → Full l s

theorem render_cons (l : ℕ) (s : Shape l) : ∃ level c tail, render l s = tableLine level c :: tail := by
  cases l with
  | zero => exact ⟨_, _, _, rfl⟩
  | succ l => exact ⟨_, _, _, rfl⟩

/-- **Round trip**: the shape of a table can be read off its lines. -/
theorem readTable_render (l : ℕ) (s : Shape l) (hs : Full l s) (lines : List LogCall) :
    readTable l (render l s ++ lines) = some (s, lines) := by
  induction l generalizing lines with
  | zero => exact readKinds_renderKinds hs (fun a => a.elim) (fun a => a.elim) lines
  | succ l ih =>
    exact readKinds_renderKinds hs.1 (fun a ha => ih a (hs.2 a ha)) (render_cons l) lines

end Render

/-! ### What is logged -/

section Walk

variable {ρ α : Type} {m : Memory} {root : ℕ} {s : Console ρ}

/-- The kind of an entry; `a` stands for the table it leads to. -/
def kindOf (level : ℕ) (e : U64) (a : α) : Kind α :=
  match newMode level e with
  | .table => .table a
  | .empty => .empty
  | .page => .page

/-- The shape of the table `t` of level `l + 1`. -/
def shapeOf (m : Memory) : (l : ℕ) → ℕ → Shape l
  | 0, t => (List.range 512).map fun i => if m.word t i = 0#64 then Kind.empty else Kind.page
  | l + 1, t => (List.range 512).map fun i =>
    kindOf (l + 2) (m.word t i) (shapeOf m l (frame (m.word t i)))

theorem full_shapeOf (l t : ℕ) : Full l (shapeOf m l t) := by
  induction l generalizing t with
  | zero => simp [Full, shapeOf]
  | succ l ih =>
    refine ⟨by simp [shapeOf], fun a ha => ?_⟩
    obtain ⟨i, -, hi⟩ := List.mem_map.1 ha
    unfold kindOf at hi
    split at hi <;> cases hi
    exact ih _

/-- The log grows by `lines`. -/
def Console.push (s : Console ρ) (lines : List LogCall) : Console ρ := { s with log := s.log ++ lines }

@[simp] theorem Console.push_kernel (lines : List LogCall) : (s.push lines).kernel = s.kernel := rfl

@[simp] theorem Console.push_nil : s.push [] = s := by
  rw [Console.push, List.append_nil]

theorem Console.push_push (l l' : List LogCall) : (s.push l).push l' = s.push (l ++ l') := by
  simp only [Console.push, List.append_assoc]

theorem wp_logFmt (line : LogCall) (Q : Unit → Console ρ → Prop) :
    wp (logFmt line) Q s ↔ Q () (s.push [line]) := by
  simp only [logFmt, wp_modify, Console.push]

theorem wp_readEntry (t i : ℕ) (Q : U64 → Console ρ → Prop) :
    wp (readEntry (pagePtr t) i) Q s ↔ Q (s.kernel.memory.word t i) s := by
  simp only [readEntry, wp_bind, wp_get, wp_pure]
  rfl

theorem wp_finishMode (level : ℕ) (mode : Mode) (c : ℕ) (Q : ℕ → Console ρ → Prop) :
    wp (finishMode level mode c) Q s ↔
      Q (if mode = .table then c else 0) (s.push (flush level mode c)) := by
  cases mode with
  | table => rw [finishMode, wp_pure, flush, Console.push_nil, if_pos rfl]
  | empty => simp [finishMode, wp_logFmt, flush]
  | page => simp [finishMode, wp_logFmt, flush]

/-- What the two loops see: `K i` is the kind of entry `i` of the table `t`, and `sub` are the lines that
the call for a table logs. -/
structure Sees (m : Memory) (level t : ℕ) (recurse : U64 → Kern (Console ρ) Unit)
    (sub : α → List LogCall) (K : ℕ → Kind α) : Prop where
  mode : ∀ i < 512, (K i).mode = newMode level (m.word t i)
  recurse : ∀ i < 512, ∀ a, K i = .table a → ∀ s : Console ρ, s.kernel.memory = m →
    wp (recurse (m.word t i)) (fun _ s' => s' = s.push (sub a)) s

variable {level t : ℕ} {recurse : U64 → Kern (Console ρ) Unit} {sub : α → List LogCall} {K : ℕ → Kind α}

theorem Sees.isEmpty_iff (hK : Sees m level t recurse sub K) {i : ℕ} (hi : i < 512) :
    (K i).isEmpty = true ↔ m.word t i = 0#64 := by
  have h := hK.mode i hi
  unfold newMode at h
  cases hk : K i with
  | empty =>
    rw [hk] at h
    split_ifs at h <;> simp_all [Kind.isEmpty, Kind.mode]
  | page =>
    rw [hk] at h
    split_ifs at h <;> simp_all [Kind.isEmpty, Kind.mode]
  | table a =>
    rw [hk] at h
    split_ifs at h <;> simp_all [Kind.isEmpty, Kind.mode]

/-- The loop that counts the children. -/
theorem wp_countChildren (hK : Sees m level t recurse sub K) (hm : s.kernel.memory = m) (is : List ℕ)
    (his : ∀ i ∈ is, i < 512) (c : ℕ) :
    wp (is.foldlM (fun count i => do
        return if (← readEntry (pagePtr t) i) = 0#64 then count else count + 1) c)
      (fun r s' => s' = s ∧ r = c + (is.map K).countP fun k => !k.isEmpty) s := by
  induction is generalizing c with
  | nil =>
    rw [List.foldlM_nil, wp_pure]
    exact ⟨rfl, rfl⟩
  | cons i is ih =>
    have hi := hK.isEmpty_iff (his i (by simp))
    simp only [List.foldlM_cons, wp_bind, wp_readEntry, wp_pure, hm]
    refine wp_mono (ih (fun j hj => his j (by simp [hj])) _) ?_
    rintro r s' ⟨rfl, rfl⟩
    refine ⟨rfl, ?_⟩
    rw [List.map_cons, List.countP_cons]
    by_cases h0 : m.word t i = 0#64
    · rw [if_pos h0, if_neg (by simp [hi.2 h0])]
      rfl
    · rw [if_neg h0, if_pos (by simpa using fun h => h0 (hi.1 h))]
      omega

/-- A round of the loop: the run that is open is logged if it ends. -/
theorem wp_traverseEntry (hK : Sees m level t recurse sub K) {i : ℕ} (hi : i < 512) {s : Console ρ}
    (hm : s.kernel.memory = m) {mode : Mode} {c : ℕ} (hc : mode = .table → c = 0)
    {Q : Mode × ℕ → Console ρ → Prop}
    (hrun : (K i).mode ≠ .table → if mode = (K i).mode then Q ((K i).mode, c + 1) s
      else Q ((K i).mode, 1) (s.push (flush level mode c)))
    (htable : ∀ a, K i = .table a → Q (.table, 0) (s.push (flush level mode c ++ sub a))) :
    wp (traverseEntry recurse level (pagePtr t) (mode, c) i) Q s := by
  have hcount : (if mode = .table then c else 0) = 0 := by
    split_ifs with h
    · exact hc h
    · rfl
  simp only [traverseEntry, wp_bind, wp_readEntry, hm, ← hK.mode i hi, wp_ite, wp_finishMode, wp_pure,
    hcount]
  by_cases hk : (K i).mode = .table
  · obtain ⟨a, ha⟩ := Kind.exists_table hk
    have hrec : ∀ s' : Console ρ, s'.kernel.memory = m → Q (.table, 0) (s'.push (sub a)) →
        wp (recurse (m.word t i)) (fun _ s'' => Q (.table, 0) s'') s' := by
      intro s' hm' hQ
      refine wp_mono (hK.recurse i hi a ha s' hm') ?_
      rintro _ _ rfl
      exact hQ
    have h := htable a ha
    by_cases hmode : mode = .table
    · obtain rfl := hc hmode
      rw [hmode, flush, List.nil_append] at h
      simpa [hk, hmode] using hrec s hm h
    · rw [← Console.push_push] at h
      simpa [hk, hmode] using hrec (s.push (flush level mode c)) hm h
  · have h := hrun hk
    by_cases hmode : mode = (K i).mode
    · rw [if_pos hmode] at h
      subst hmode
      simpa [hk] using h
    · rw [if_neg hmode] at h
      simpa [hk, hmode] using h

/-- The loop: what is logged, and the run that is open in the end. -/
theorem wp_traverseEntries (hK : Sees m level t recurse sub K) (is : List ℕ)
    (his : ∀ i ∈ is, i < 512) (s : Console ρ) (hm : s.kernel.memory = m) (mode : Mode) (c : ℕ)
    (hc : mode = .table → c = 0) :
    wp (is.foldlM (traverseEntry recurse level (pagePtr t)) (mode, c)) (fun r s' => ∃ L,
      s' = s.push L ∧ renderEntries sub level mode c (is.map K) = L ++ flush level r.1 r.2) s := by
  induction is generalizing s mode c with
  | nil =>
    rw [List.foldlM_nil, wp_pure]
    exact ⟨[], Console.push_nil.symm, rfl⟩
  | cons i is ih =>
    have his' : ∀ j ∈ is, j < 512 := fun j hj => his j (by simp [hj])
    -- the rest of the loop, from a state in which `L` was logged
    have hrest : ∀ (L : List LogCall) (mode' : Mode) (c' : ℕ), (mode' = .table → c' = 0) →
        renderEntries sub level mode c ((i :: is).map K) =
          L ++ renderEntries sub level mode' c' (is.map K) →
        wp (is.foldlM (traverseEntry recurse level (pagePtr t)) (mode', c')) (fun r s' => ∃ L,
          s' = s.push L ∧ renderEntries sub level mode c ((i :: is).map K) =
            L ++ flush level r.1 r.2) (s.push L) := by
      intro L mode' c' hc' hL
      refine wp_mono (ih his' (s.push L) hm mode' c' hc') ?_
      rintro r s' ⟨L', rfl, hL'⟩
      exact ⟨L ++ L', Console.push_push L L', by rw [hL, hL', List.append_assoc]⟩
    rw [List.foldlM_cons, wp_bind]
    refine wp_traverseEntry hK (his i (by simp)) hm hc ?_ ?_
    · intro hk
      have hopen : ∀ c', (K i).mode = .table → c' + 1 = 0 := fun _ h => absurd h hk
      split_ifs with hrun
      · have h := hrest [] (K i).mode (c + 1) (hopen c)
          (by rw [List.map_cons, renderEntries_run hk, if_pos hrun]; rfl)
        rwa [Console.push_nil] at h
      · exact hrest _ (K i).mode 1 (hopen 0) (by rw [List.map_cons, renderEntries_run hk, if_neg hrun])
    · intro a hk
      exact hrest _ .table 0 (fun _ => rfl) (by rw [List.map_cons, hk, renderEntries])

/-- One table: its line, and the lines of its entries. -/
theorem wp_traverseTable (l : ℕ) {e : U64} (he : ¬ huge e) (h0 : e ≠ 0#64) (hlt : frame e < windowPages)
    (hK : Sees m (l + 1) (frame e) (traverseTableInner l : U64 → Kern (Console ρ) Unit) sub K)
    (hm : s.kernel.memory = m) :
    wp (traverseTableInner (l + 1) e)
      (fun _ s' => s' = s.push (renderKinds sub (l + 1) ((List.range 512).map K))) s := by
  have hrange : ∀ i ∈ List.range 512, i < 512 := fun i hi => List.mem_range.1 hi
  rw [traverseTableInner, if_neg (show ¬ e &&& pteHugePage ≠ 0#64 from he)]
  generalize List.range 512 = is at hrange ⊢
  simp only [wp_bind, wp_pteAddress fun _ => hlt, if_neg h0]
  refine wp_mono (wp_countChildren hK hm is hrange 0) ?_
  rintro count s₁ ⟨rfl, rfl⟩
  rw [Nat.zero_add, wp_logFmt]
  refine wp_mono (wp_traverseEntries hK is hrange (s₁.push _) hm .table 0 fun _ => rfl) ?_
  rintro ⟨mode, c⟩ s₂ ⟨L, rfl, hL⟩
  rw [wp_finishMode, wp_pure, Console.push_push, Console.push_push, renderKinds, hL]
  rfl

/-- Every table that is reached lies in the kernel window. -/
def Followable (m : Memory) (root : ℕ) : Prop :=
  ∀ d ≤ 3, ∀ x < 512 ^ d, ∀ t, bbTable m root d x = some t → t < windowPages

/-- **The walk** logs the lines of the shape. -/
theorem wp_traverseTableInner (hF : Followable m root) (l : ℕ) {d x : ℕ} (hd : d + l = 3)
    (hx : x < 512 ^ d) {e : U64} (he : ¬ huge e) (h0 : e ≠ 0#64)
    (ht : bbTable m root d x = some (frame e)) {s : Console ρ} (hm : s.kernel.memory = m) :
    wp (traverseTableInner (l + 1) e) (fun _ s' => s' = s.push (render l (shapeOf m l (frame e)))) s := by
  induction l generalizing d x e s with
  | zero =>
    have hK : Sees m 1 (frame e) (traverseTableInner 0 : U64 → Kern (Console ρ) Unit) Empty.elim
        fun i => if m.word (frame e) i = 0#64 then .empty else .page := by
      refine ⟨?_, fun i hi a => a.elim⟩
      intro i hi
      unfold newMode
      split_ifs <;> simp_all [Kind.mode]
    exact wp_traverseTable 0 he h0 (hF d (by omega) x hx _ ht) hK hm
  | succ l ih =>
    have hK : Sees m (l + 2) (frame e) (traverseTableInner (l + 1) : U64 → Kern (Console ρ) Unit)
        (render l) fun i => kindOf (l + 2) (m.word (frame e) i)
          (shapeOf m l (frame (m.word (frame e) i))) := by
      constructor
      · intro i hi
        unfold kindOf
        split <;> simp_all [Kind.mode]
      · intro i hi a ha s' hm'
        unfold kindOf newMode at ha
        split_ifs at ha with hnull hpage
        rw [not_or] at hpage
        cases ha
        have ht' : bbTable m root (d + 1) (x * 512 + i) = some (frame (m.word (frame e) i)) := by
          rw [bbTable, Radix.node_child hi,
            show Radix.node 512 bbNext m.word root d x = some (frame e) from ht]
          exact if_neg fun h => h.elim hnull hpage.2
        exact ih (by omega) (Radix.child_lt_pow hx hi) hpage.2 hnull ht' hm'
    exact wp_traverseTable (l + 1) he h0 (hF d (by omega) x hx _ ht) hK hm

/-- `traverse_table` logs the lines of the shape, for a table that is not in page 0: for that one
`make_pte` returns an empty entry. -/
theorem wp_traverseTable_root (hF : Followable m root) (hroot : 0 < root) (hm : s.kernel.memory = m) :
    wp (traverseTable (pagePtr root)) (fun _ s' => s' = s.push (render 3 (shapeOf m 3 root))) s := by
  have hlt : root < windowPages := hF 0 (by omega) 0 (by decide) root rfl
  have hframe : frame (pte root 0#64) = root := frame_pte hlt (by decide)
  rw [traverseTable, wp_bind, wp_makePte hlt]
  have h0 : pte root 0#64 ≠ 0#64 := by
    intro h
    rw [h] at hframe
    have : root = 0 := hframe.symm.trans rfl
    omega
  have he : ¬ huge (pte root 0#64) := fun h => huge_pte.1 h (by decide)
  have h := wp_traverseTableInner (ρ := ρ) hF 3 (d := 0) (x := 0) rfl (by decide) he h0
    (by rw [hframe]; rfl) hm
  rwa [hframe] at h

end Walk

/-! ### What the log says -/

section Reads

variable {ρ : Type} {m : Memory} {root : ℕ}

/-- A shape says that page `n` is mapped. -/
def mapsPage : (l : ℕ) → Shape l → ℕ → Bool
  | 0, (ks : List (Kind Empty)), n =>
    match ks[n % 512]? with
    | some .page => true
    | _ => false
  | l + 1, (ks : List (Kind (Shape l))), n =>
    match ks[n / 512 ^ (l + 1) % 512]? with
    | some .page => true
    | some (.table s) => mapsPage l s n
    | _ => false

theorem getElem?_range_map {β : Type} (f : ℕ → β) (n : ℕ) :
    ((List.range 512).map f)[n % 512]? = some (f (n % 512)) := by
  have hlt : n % 512 < 512 := Nat.mod_lt _ (by decide)
  rw [List.getElem?_map, List.getElem?_range hlt]
  rfl

/-- Below an empty entry nothing is mapped. -/
theorem frames_of_entry_zero {d n t : ℕ} (hd : d ≤ 2) (ht : table m root d (n / 512 ^ (4 - d)) = some t)
    (h0 : m.word t (n / 512 ^ (3 - d) % 512) = 0#64) : frames m root n = none := by
  have hnext : ∀ y, y / 512 = n / 512 ^ (4 - d) → y % 512 = n / 512 ^ (3 - d) % 512 →
      table m root (d + 1) y = none := by
    intro y hy hmod
    rw [table_succ, hy, ht, Option.bind_some, hmod, h0]
    exact if_pos (Or.inl rfl)
  obtain rfl | rfl | rfl : d = 0 ∨ d = 1 ∨ d = 2 := by omega
  · refine frames_of_table_none ?_
    rw [table_succ, hnext (n / 512 / 512 / 512) (by omega) (by omega)]
    rfl
  · exact frames_of_table_none (hnext (n / 512 / 512) (by omega) (by omega))
  · have hleaf : hugeLeaf m root (n / 512) = none := by
      rw [hugeLeaf, show n / 512 / 512 = n / 512 ^ (4 - 2) by omega, ht, Option.bind_some,
        show n / 512 % 512 = n / 512 ^ (3 - 2) % 512 by omega, h0]
      exact if_neg fun h => h.1 rfl
    rw [frames, hleaf, hnext (n / 512) (by omega) (by omega)]
    rfl

/-- The shape says what is mapped.  The induction goes up from the p1 tables. -/
theorem mapsPage_shapeOf {used : Set ℕ} (hT : Tree m root used) {n : ℕ} (hn : n < 2 ^ 36) (l : ℕ)
    {d t : ℕ} (hd : d + l = 3) (ht : table m root d (n / 512 ^ (l + 1)) = some t) :
    mapsPage l (shapeOf m l t) n = true ↔ frames m root n ≠ none := by
  induction l generalizing d t with
  | zero =>
    obtain rfl : d = 3 := by omega
    rw [frames_of_table (by simpa using ht), leaf4KB]
    unfold mapsPage shapeOf
    rw [getElem?_range_map]
    by_cases h0 : m.word t (n % 512) = 0#64 <;> simp [h0]
  | succ l ih =>
    have hy : n / 512 ^ (l + 1) / 512 = n / 512 ^ (l + 1 + 1) := by
      rw [Nat.div_div_eq_div_mul, ← pow_succ]
    have hx : n / 512 ^ (l + 1 + 1) < 512 ^ d := by
      rw [Nat.div_lt_iff_lt_mul (by positivity), ← pow_add, show d + (l + 1 + 1) = 4 by omega]
      exact hn
    have hmod : n / 512 ^ (l + 1) % 512 < 512 := Nat.mod_lt _ (by decide)
    unfold mapsPage shapeOf
    rw [getElem?_range_map, kindOf, newMode]
    by_cases h0 : m.word t (n / 512 ^ (l + 1) % 512) = 0#64
    · rw [if_pos h0, frames_of_entry_zero (d := d) (by omega)
        (by rwa [show 4 - d = l + 1 + 1 by omega]) (by rwa [show 3 - d = l + 1 by omega])]
      simp
    · rw [if_neg h0]
      by_cases hh : huge (m.word t (n / 512 ^ (l + 1) % 512))
      · -- `PTE_HUGE_PAGE` is used in p2 tables only
        obtain rfl : d = 2 := by
          by_contra hne
          exact hT.not_huge (by omega) hx ht hmod hh
        obtain rfl : l = 0 := by omega
        rw [pow_one] at h0 hh
        have hleaf : hugeLeaf m root (n / 512) = some (frame (m.word t (n / 512 % 512))) := by
          rw [hugeLeaf, show n / 512 / 512 = n / 512 ^ (0 + 1 + 1) by omega, ht]
          exact if_pos ⟨h0, hh⟩
        rw [if_pos (Or.inr (by rwa [pow_one])), frames_of_hugeLeaf hleaf]
        simp
      · have hnext : table m root (d + 1) (n / 512 ^ (l + 1)) =
            some (frame (m.word t (n / 512 ^ (l + 1) % 512))) := by
          rw [table_succ, hy, ht]
          exact if_neg fun h => h.elim h0 fun h => hh h.2
        rw [if_neg fun h => h.elim (by omega) hh]
        exact ih (by omega) hnext

/-- The line of a table. -/
def LogCall.isTable (line : LogCall) : Bool := line.format = "%fp%f table with %f children"

/-- The number of table lines among those of an entry. -/
def Kind.tables {α : Type} (sub : α → List LogCall) : Kind α → ℕ
  | .table a => (sub a).countP LogCall.isTable
  | .empty => 0
  | .page => 0

theorem countP_flush (level : ℕ) (mode : Mode) (c : ℕ) :
    (flush level mode c).countP LogCall.isTable = 0 := by
  cases mode <;> rfl

theorem countP_renderEntries {α : Type} (sub : α → List LogCall) (level : ℕ) (mode : Mode) (c : ℕ)
    (ks : List (Kind α)) : (renderEntries sub level mode c ks).countP LogCall.isTable =
      (ks.map (Kind.tables sub)).sum := by
  induction ks generalizing mode c with
  | nil => exact countP_flush level mode c
  | cons k ks ih =>
    rw [List.map_cons, List.sum_cons]
    by_cases hk : k.mode = .table
    · obtain ⟨a, rfl⟩ := Kind.exists_table hk
      rw [renderEntries, List.countP_append, List.countP_append, countP_flush, ih, Nat.zero_add]
      rfl
    · have hzero : k.tables sub = 0 := by
        cases k with
        | empty => rfl
        | page => rfl
        | table a => exact absurd rfl hk
      rw [renderEntries_run hk, hzero, Nat.zero_add]
      split_ifs
      · exact ih _ _
      · rw [List.countP_append, countP_flush, ih, Nat.zero_add]

theorem countP_renderKinds {α : Type} (sub : α → List LogCall) (level : ℕ) (ks : List (Kind α)) :
    (renderKinds sub level ks).countP LogCall.isTable = (ks.map (Kind.tables sub)).sum + 1 := by
  rw [renderKinds, List.countP_cons_of_pos rfl, countP_renderEntries]

/-- There is one table line for each table that `destroy_bb_table_inner` would visit. -/
theorem countP_render (l d t : ℕ) :
    (render l (shapeOf m l t)).countP LogCall.isTable = (bbBelow m l d t).length := by
  induction l generalizing d t with
  | zero =>
    have hlines := countP_renderKinds Empty.elim 1
      ((List.range 512).map fun i => if m.word t i = 0#64 then Kind.empty else Kind.page)
    rw [List.map_map, List.sum_eq_zero] at hlines
    · exact hlines
    · intro x hx
      obtain ⟨i, -, rfl⟩ := List.mem_map.1 hx
      rw [Function.comp]
      split_ifs <;> rfl
  | succ l ih =>
    have hentry : ∀ i ∈ List.range 512, (Kind.tables (render l) ∘ fun i =>
        kindOf (l + 2) (m.word t i) (shapeOf m l (frame (m.word t i)))) i =
          (bbBelowEntry m l d t i).length := by
      intro i _
      rw [Function.comp, bbBelowEntry, bbNext, kindOf, newMode]
      by_cases h0 : m.word t i = 0#64
      · rw [if_pos h0, if_pos (Or.inl h0)]
        rfl
      · rw [if_neg h0]
        by_cases hh : huge (m.word t i)
        · rw [if_pos (Or.inr hh), if_pos (Or.inr (show m.word t i &&& pteHugePage ≠ 0#64 from hh))]
          rfl
        · rw [if_neg (fun h => h.elim (by omega) hh), if_neg (fun h => h.elim h0 hh)]
          exact ih (d + 1) _
    have hlines := countP_renderKinds (render l) (l + 2) ((List.range 512).map fun i =>
      kindOf (l + 2) (m.word t i) (shapeOf m l (frame (m.word t i))))
    rw [List.map_map, List.map_congr_left hentry] at hlines
    rw [bbBelow_succ, List.length_append, List.length_flatMap]
    exact hlines

/-! ### The lines on the serial port -/

/-- An argument, as `make_any` passes it. -/
def LogArg.any : LogArg → Logger.Any
  | .text s => .charPtr (some (.lit s))
  | .u16 n => .u64 (BitVec.ofNat 64 n)
  | .s64 n => .i64 n

/-- The call of `ext__log_fmt` at the place `loc` of the source. -/
def LogCall.call (line : LogCall) (loc : Logger.Sloc) : Logger.Call :=
  .logFmt ⟨loc, .lit line.format, line.args.length, Logger.makeAnyArray (line.args.map LogArg.any)⟩

/-- What the call sends. -/
def LogCall.sent (line : LogCall) (loc : Logger.Sloc) : List Logger.Byte :=
  Logger.clipped ((line.call loc).text.getD []) ++ [10#8]

/-- The lines that `traverse_table` logs. -/
inductive LogCall.Known : LogCall → Prop
  | table (level count : ℕ) : Known (tableLine level count)
  | empty (level count : ℕ) : Known (emptyLine level count)
  | page (level count : ℕ) : Known (pageLine level count)

/-- The directives of the formats match the arguments. -/
theorem LogCall.Known.wellFormed {line : LogCall} (h : line.Known) {loc : Logger.Sloc}
    (hloc : (Logger.prefixText loc).length ≤ Logger.bufSize) : (line.call loc).WellFormed := by
  have htype : ∀ arg : LogArg, arg.any.Known := by
    intro arg tag
    cases arg <;> exact Logger.TypeId.noConfusion
  have hargs : ∀ (args : List LogArg) (i : ℕ), (Logger.makeAnyArray (args.map LogArg.any) i).Known := by
    intro args i
    rw [Logger.makeAnyArray, List.getD_eq_getElem?_getD, List.getElem?_map]
    cases args[i]? with
    | none => exact fun tag => Logger.TypeId.noConfusion
    | some arg => exact htype arg
  cases h with
  | table level count =>
    have hformat : Logger.directives (Logger.CString.lit "%fp%f table with %f children").bytes =
        some 3 := by decide +kernel
    exact ⟨hloc, 3, hformat, rfl, fun i _ => hargs _ i⟩
  | empty level count =>
    have hformat : Logger.directives (Logger.CString.lit "%f%f empty p%f entries").bytes = some 3 := by
      decide +kernel
    exact ⟨hloc, 3, hformat, rfl, fun i _ => hargs _ i⟩
  | page level count =>
    have hformat : Logger.directives (Logger.CString.lit "%f%f %f page entries").bytes = some 3 := by
      decide +kernel
    exact ⟨hloc, 3, hformat, rfl, fun i _ => hargs _ i⟩

theorem known_flush {level : ℕ} {mode : Mode} {c : ℕ} : ∀ line ∈ flush level mode c, line.Known := by
  intro line hline
  cases mode with
  | table => cases hline
  | empty =>
    obtain rfl := List.mem_singleton.1 hline
    exact .empty level c
  | page =>
    obtain rfl := List.mem_singleton.1 hline
    exact .page level c

theorem known_renderEntries {α : Type} {sub : α → List LogCall} {level : ℕ}
    (hsub : ∀ a, ∀ line ∈ sub a, line.Known) (mode : Mode) (c : ℕ) (ks : List (Kind α)) :
    ∀ line ∈ renderEntries sub level mode c ks, line.Known := by
  induction ks generalizing mode c with
  | nil => exact known_flush
  | cons k ks ih =>
    intro line hline
    by_cases hk : k.mode = .table
    · obtain ⟨a, rfl⟩ := Kind.exists_table hk
      rw [renderEntries, List.mem_append, List.mem_append] at hline
      rcases hline with (hline | hline) | hline
      · exact known_flush line hline
      · exact hsub a line hline
      · exact ih _ _ line hline
    · rw [renderEntries_run hk] at hline
      split_ifs at hline
      · exact ih _ _ line hline
      · rcases List.mem_append.1 hline with hline | hline
        · exact known_flush line hline
        · exact ih _ _ line hline

theorem known_render (l : ℕ) (S : Shape l) : ∀ line ∈ render l S, line.Known := by
  induction l with
  | zero =>
    intro line hline
    rcases List.mem_cons.1 hline with rfl | hline
    · exact .table _ _
    · exact known_renderEntries (fun a => a.elim) _ _ _ line hline
  | succ l ih =>
    intro line hline
    rcases List.mem_cons.1 hline with rfl | hline
    · exact .table _ _
    · exact known_renderEntries ih _ _ _ line hline

/-- **The lines are sent**, one after the other: every call of `ext__log_fmt` returns. -/
theorem wp_send {calls : List (LogCall × Logger.Sloc)} (hknown : ∀ x ∈ calls, x.1.Known)
    (hloc : ∀ x ∈ calls, (Logger.prefixText x.2).length ≤ Logger.bufSize) (depth : ℕ)
    {s : Logger.State} (hs : s.loggingMutex = false) :
    wp (calls.forM fun x => (x.1.call x.2).run depth) (fun _ s' => s'.loggingMutex = false ∧
      s'.serial = s.serial ++ calls.flatMap fun x => x.1.sent x.2) s := by
  induction calls generalizing s with
  | nil => exact ⟨(), s, rfl, hs, by simp⟩
  | cons x calls ih =>
    obtain ⟨text, buffer, htext, hrun⟩ := Logger.run_of_wellFormed
      ((hknown x (by simp)).wellFormed (hloc x (by simp))) depth hs
    rw [List.forM, wp_bind]
    refine wp_of_run hrun (wp_mono (ih (fun y hy => hknown y (by simp [hy]))
      (fun y hy => hloc y (by simp [hy])) rfl) ?_)
    rintro _ s' ⟨hmutex, hserial⟩
    refine ⟨hmutex, ?_⟩
    rw [hserial, List.flatMap_cons, LogCall.sent, htext, Option.getD_some]
    simp only [List.append_assoc]

/-- **The log of a page table can be read back.**  `traverse_table` changes nothing but the log; its lines
are those of the shape of the table, and only of that one; they have one line for each table, and the
shape says of every page whether `translate` finds it.  `ext__log_fmt` sends all of them, wherever in the
source it is called. -/
theorem traverseTable_reads_back {used : Set ℕ} (s : Console ρ) (hT : Tree s.kernel.memory root used)
    (hroot : 0 < root) : ∃ lines,
      traverseTable (pagePtr root) s = Except.ok ((), { s with log := s.log ++ lines }) ∧
      readTable 3 lines = some (shapeOf s.kernel.memory 3 root, []) ∧
      lines.countP LogCall.isTable = {t | IsTable s.kernel.memory root t}.ncard ∧
      (∀ w : U64, w.toNat % 4096 = 0 →
        (mapsPage 3 (shapeOf s.kernel.memory 3 root) (pageNo w) = true ↔
          translate (pagePtr root) w s.kernel ≠ Except.ok (0#64, s.kernel))) ∧
      ∀ calls : List (LogCall × Logger.Sloc), calls.map Prod.fst = lines →
        (∀ x ∈ calls, (Logger.prefixText x.2).length ≤ Logger.bufSize) →
        ∀ depth (t : Logger.State), t.loggingMutex = false →
          wp (calls.forM fun x => (x.1.call x.2).run depth) (fun _ t' => t'.loggingMutex = false ∧
            t'.serial = t.serial ++ calls.flatMap fun x => x.1.sent x.2) t := by
  have hB := hT.bbTree
  have hF : Followable s.kernel.memory root := fun d hd x hx t ht => hB.table_lt ⟨d, x, hd, hx, ht⟩
  refine ⟨render 3 (shapeOf s.kernel.memory 3 root), ?_, ?_, ?_, ?_, ?_⟩
  · obtain ⟨_, _, hrun, rfl⟩ := wp_traverseTable_root hF hroot rfl
    exact hrun
  · have h := readTable_render 3 _ (full_shapeOf (m := s.kernel.memory) 3 root) []
    rwa [List.append_nil] at h
  · have hset : {t | IsTable s.kernel.memory root t} =
        ((bbBelow s.kernel.memory 3 0 root).toFinset : Set ℕ) := by
      ext t
      rw [Set.mem_ofPred_eq, Finset.mem_coe, List.mem_toFinset, ← isBbTable_iff hT t]
      exact (Radix.mem_postorder_root (by decide) t).symm
    have hnodup : (bbBelow s.kernel.memory 3 0 root).Nodup :=
      Radix.nodup_postorder (x := 0) (by decide) hB.inj (by omega) (by decide) rfl
    rw [countP_render 3 0 root, hset, Set.ncard_coe_finset, List.toFinset_card_of_nodup hnodup]
  · intro w hw
    rw [mapsPage_shapeOf hT (pageNo_lt w) 3 (d := 0) rfl ?_, ne_eq, frames_eq_none_iff hT.readable hw]
    rw [Nat.div_eq_of_lt (pageNo_lt_pow w)]
    rfl
  · intro calls hcalls hloc depth t ht
    refine wp_send (fun x hx => known_render 3 (shapeOf s.kernel.memory 3 root) x.1 ?_) hloc depth ht
    rw [← hcalls]
    exact List.mem_map_of_mem hx

/-- A table that maps the page at `0x1000`. -/
theorem traverseTable_reads_back_two_pages : ∃ lines,
    traverseTable (pagePtr 4) ⟨twoPages 21, []⟩ = Except.ok ((), ⟨twoPages 21, lines⟩) ∧
      readTable 3 lines = some (shapeOf (twoPages 21).memory 3 4, []) ∧
      mapsPage 3 (shapeOf (twoPages 21).memory 3 4) 1 = true := by
  have hT := (twoPages_built (Or.inl rfl : 21 = 21 ∨ 21 = 30)).tree
  obtain ⟨lines, hrun, hread, -, hmaps, -⟩ :=
    traverseTable_reads_back ⟨twoPages 21, []⟩ hT (by decide)
  have h20 : translate (pagePtr 4) 0x1000#64 (twoPages 21) = Except.ok (pagePtr 20, twoPages 21) := rfl
  refine ⟨lines, hrun, hread, (hmaps 0x1000#64 (by decide)).2 ?_⟩
  change translate (pagePtr 4) 0x1000#64 (twoPages 21) ≠ _
  rw [h20]
  intro h
  cases h

end Reads

end Dumboss.PageTable
