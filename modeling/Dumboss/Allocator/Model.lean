import Dumboss.BitSet

/-!
# The page allocator (`kern/memory.c`)

A binary buddy allocator over physical pages.  Free blocks of `2 ^ k` pages are kept in a doubly
linked list per class `k < classCount`; the list nodes (`FreeBlock`: `next`, `prev`, `class`) are
the first three words of the free blocks themselves.  For every class but the last a bit set holds,
per pair of sibling blocks, whether exactly one of the two is in the list.  Two further bit sets
record which pages are usable and which are free.

* `MemGlobals` and `Heap`: the allocator's globals, and the globals together with memory.  The word
  arrays of the bit sets are separate from that memory.
* `popFreelist`, `removeFromFreelist`, `addToFreelist`, `validateHeap`;
* `allocRaw` with its split loop `splitBlock`; `rawPages`, `tryRawPages`, `zeroedPages`;
* `releasePages` with its coalescing loop; `unsafeMarkMemoryUsability`.

Page numbers, classes and loop counters of type `s64` that start at a value `≥ 0` and only grow are
natural numbers; `s64` arguments are integers.
-/

namespace Dumboss

open Prog

/-- `CLASS_COUNT`. -/
def classCount : ℕ := 12

/-- `ClassInfo`. -/
structure ClassInfo where
  freelist : U64
  buddies : BitSet

/-- `MemGlobals`. -/
structure MemGlobals where
  freeMemory : ℤ
  usablePages : BitSet
  freePages : BitSet
  classes : ℕ → ClassInfo

/-- The allocator's state: memory and `MemGlobals`. -/
structure Heap where
  memory : Memory
  globals : MemGlobals

/-- `Buffer`. -/
structure Buffer where
  data : U64
  count : ℤ
  deriving DecidableEq

/-- `BuddyInfo`. -/
structure BuddyInfo where
  buddy : ℕ
  bitsetIndex : ℕ

namespace MemGlobals

/-- The bit sets, in the order in which `memory__init` creates them. -/
def bitSet (g : MemGlobals) : ℕ → BitSet
  | 0 => g.usablePages
  | 1 => g.freePages
  | k + 2 => (g.classes k).buddies

/-- Replace the head of freelist `k`. -/
def setFreelist (g : MemGlobals) (k : ℕ) (ptr : U64) : MemGlobals :=
  { g with classes := Function.update g.classes k { g.classes k with freelist := ptr } }

/-- Replace the bit set of class `k`. -/
def setBuddies (g : MemGlobals) (k : ℕ) (bits : BitSet) : MemGlobals :=
  { g with classes := Function.update g.classes k { g.classes k with buddies := bits } }

end MemGlobals

/-! ### Access to memory and to the globals -/

def loadWord (a : U64) : Kern Heap U64 := do
  return (← get).memory.load a

def storeWord (a v : U64) : Kern Heap Unit :=
  modify fun h => { h with memory := h.memory.store a v }

/-- `MemGlobals.classes[class]`. -/
def classInfo (k : ℕ) : Kern Heap ClassInfo := do
  if k < classCount then return (← get).globals.classes k
  else throw (.outOfBounds "MemGlobals.classes")

/-- `MemGlobals.classes[class].freelist = ptr`, for a class that has been read before. -/
def setFreelist (k : ℕ) (ptr : U64) : Kern Heap Unit :=
  modify fun h => { h with globals := h.globals.setFreelist k ptr }

/-- `BitSet__get(MemGlobals.classes[class].buddies, index)`. -/
def getBuddyBit (k index : ℕ) : Kern Heap Bool := do
  let info ← classInfo k
  info.buddies.get index

/-- `BitSet__set(MemGlobals.classes[class].buddies, index, value)`. -/
def setBuddyBit (k index : ℕ) (value : Bool) : Kern Heap Unit := do
  let info ← classInfo k
  let bits ← info.buddies.set index value
  modify fun h => { h with globals := h.globals.setBuddies k bits }

/-- `BitSet__set_range(MemGlobals.free_pages, begin, end, value)`. -/
def setFreePages (begin' end' : ℤ) (value : Bool) : Kern Heap Unit := do
  let h ← get
  let freePages ← h.globals.freePages.setRange begin' end' value
  modify fun h => { h with globals := { h.globals with freePages := freePages } }

/-- `BitSet__set_range(MemGlobals.usable_pages, begin, end, value)`. -/
def setUsablePages (begin' end' : ℤ) (value : Bool) : Kern Heap Unit := do
  let h ← get
  let usablePages ← h.globals.usablePages.setRange begin' end' value
  modify fun h => { h with globals := { h.globals with usablePages := usablePages } }

/-- `buddy_info`. -/
def buddyInfo {σ : Type} (page k : ℕ) : Kern σ BuddyInfo := do
  let aligned ← isAligned page (2 ^ k)
  assert (aligned = true) (.failed "is_aligned(page, 1 << class)")
  return { buddy := page ^^^ 2 ^ k, bitsetIndex := page / 2 ^ (k + 1) }

/-! ### Free lists -/

/-- `pop_freelist`. -/
def popFreelist (k : ℕ) : Kern Heap U64 := do
  assert (k < classCount) (.failed "class < CLASS_COUNT")
  let info ← classInfo k
  let block := info.freelist
  assert (block ≠ 0#64) (.failed "block != NULL")
  let blockClass ← loadWord (block + 16#64)
  assert (blockClass = BitVec.ofNat 64 k) (.failed "block had class %f in freelist of class %f")
  let blockPrev ← loadWord (block + 8#64)
  assert (blockPrev = 0#64) (.failed "block->prev == NULL")
  let next ← loadWord block
  setFreelist k next
  if next ≠ 0#64 then storeWord (next + 8#64) 0#64
  return block

/-- `remove_from_freelist`. -/
def removeFromFreelist (page k : ℕ) : Kern Heap Unit := do
  assert (k < classCount) (.failed "class < CLASS_COUNT")
  let aligned ← isAligned page (2 ^ k)
  assert (aligned = true) (.failed "is_aligned(page, 1 << class)")
  let block ← kernelPtr (BitVec.ofNat 64 page * 4096#64)
  let blockClass ← loadWord (block + 16#64)
  assert (blockClass = BitVec.ofNat 64 k) (.failed "block->class == class")
  let info ← classInfo k
  let prev ← loadWord (block + 8#64)
  let next ← loadWord block
  if next ≠ 0#64 then storeWord (next + 8#64) prev
  if prev ≠ 0#64 then
    storeWord prev next
  else
    -- the source logs the whole list before this assertion fails
    assert (info.freelist = block) (.failed "false")
    setFreelist k next

/-- `add_to_freelist`. -/
def addToFreelist (page k : ℕ) : Kern Heap Unit := do
  assert (k < classCount) (.failed "class < CLASS_COUNT")
  let aligned ← isAligned page (2 ^ k)
  assert (aligned = true) (.failed "is_aligned(page, 1 << class)")
  let block ← kernelPtr (BitVec.ofNat 64 page * 4096#64)
  let info ← classInfo k
  storeWord (block + 16#64) (BitVec.ofNat 64 k)
  storeWord (block + 8#64) 0#64
  storeWord block info.freelist
  if info.freelist ≠ 0#64 then storeWord (info.freelist + 8#64) block
  setFreelist k block

/-- The inner loop of `validate_heap`: walk one list, checking classes and adding up sizes.  The
walk of a cyclic list does not end; `fuel` bounds the number of blocks looked at. -/
def validateList (k : ℕ) : ℕ → U64 → Bool → ℤ → Kern Heap (Bool × ℤ)
  | 0, _, _, _ => throw (.outOfBounds "fuel")
  | fuel + 1, block, success, sum => do
    if block = 0#64 then return (success, sum)
    let blockClass ← loadWord (block + 16#64)
    let next ← loadWord block
    validateList k fuel next (success && decide (blockClass = BitVec.ofNat 64 k))
      (sum + 2 ^ k * 4096)

/-- The outer loop of `validate_heap`, over the `left` classes from `k` on. -/
def validateClasses (fuel : ℕ) : ℕ → ℕ → Bool → ℤ → Kern Heap (Bool × ℤ)
  | 0, _, success, sum => return (success, sum)
  | left + 1, k, success, sum => do
    let info ← classInfo k
    let (success, sum) ← validateList k fuel info.freelist success sum
    validateClasses fuel left (k + 1) success sum

/-- `validate_heap`. -/
def validateHeap (fuel : ℕ) : Kern Heap Unit := do
  let (success, calculated) ← validateClasses fuel classCount 0 true 0
  let h ← get
  assert (success = true ∧ calculated = h.globals.freeMemory) (.failed "success")

/-! ### Allocation -/

/-- `__builtin_clzl`, for a nonzero argument. -/
def clzl (v : ℕ) : ℕ := 63 - Nat.log2 v

/-- `smallest_greater_power2` (`lib/basics.h`). -/
def smallestGreaterPower2 {σ : Type} (value : ℤ) : Kern σ ℕ := do
  assert (0 ≤ value) (.failed "_value >= 0")
  if value ≤ 1 then return 0
  return 64 - clzl (value.toNat - 1)

/-- The search for a non-empty freelist among the classes from `current` up to `classCount`.  It
is a `RANGE` loop, which stops on equality only: from a start beyond `classCount` its first
access is out of bounds. -/
def findAbove : ℕ → ℕ → Kern Heap (Option ℕ)
  | 0, current => do
    if current ≠ classCount then
      let _ ← classInfo current
    return none
  | left + 1, current => do
    let info ← classInfo current
    if info.freelist ≠ 0#64 then return some current
    findAbove left (current + 1)

/-- The search for a non-empty freelist among the `n` lowest classes, downwards. -/
def findBelow : ℕ → Kern Heap (Option ℕ)
  | 0 => return none
  | n + 1 => do
    let info ← classInfo n
    if info.freelist ≠ 0#64 then return some n
    findBelow n

/-- The split loop of `alloc_raw`: `page` starts a block of class `i` that is in no list and whose
first `remaining` pages are wanted. -/
def splitBlock : ℕ → ℕ → ℕ → Kern Heap Unit
  | 0, _, _ => return ()
  | child + 1, remaining, page => do
    if remaining = 0 then return ()
    let childSize := 2 ^ child
    let buds ← buddyInfo page child
    let bit ← getBuddyBit child buds.bitsetIndex
    assert (bit = false) (.failed "!BitSet__get(info->buddies, index)")
    if childSize < remaining then
      splitBlock child (remaining - childSize) (page + childSize)
    else
      addToFreelist (page + childSize) child
      setBuddyBit child buds.bitsetIndex true
      if remaining = childSize then return ()
      splitBlock child remaining page

/-- `alloc_raw`, once a class with a free block is found. -/
def allocFrom (count k : ℕ) : Kern Heap Buffer := do
  let size : ℤ := count * 4096
  modify fun h =>
    { h with globals := { h.globals with freeMemory := h.globals.freeMemory - size } }
  let data ← popFreelist k
  let addr ← physicalAddress data
  let begin' := addr.toNat / 4096
  let end' := begin' + count
  let h ← get
  let usable ← h.globals.usablePages.getAll begin' end'
  assert (usable = true) (.failed "BitSet__get_all(MemGlobals.usable_pages, begin, end)")
  let free ← h.globals.freePages.getAll begin' end'
  assert (free = true) (.failed "BitSet__get_all(MemGlobals.free_pages, begin, end)")
  setFreePages begin' end' false
  if k ≠ classCount - 1 then
    let buds ← buddyInfo begin' k
    let bit ← getBuddyBit k buds.bitsetIndex
    assert (bit = true) (.failed "BitSet__get(MemGlobals.classes[class].buddies, index)")
    setBuddyBit k buds.bitsetIndex false
  splitBlock k count begin'
  return { data := data, count := size }

/-- `alloc_raw`. -/
def allocRaw (count : ℤ) (exact : Bool) : Kern Heap Buffer := do
  if count ≤ 0 then return { data := 0#64, count := 0 }
  let minClass ← smallestGreaterPower2 count
  match ← findAbove (classCount - minClass) minClass with
  | some k => allocFrom count.toNat k
  | none =>
    if exact then return { data := 0#64, count := 0 }
    match ← findBelow minClass with
    | some k => allocFrom (2 ^ k) k
    | none => return { data := 0#64, count := 0 }

/-- `try_raw_pages`. -/
def tryRawPages (count : ℤ) : Kern Heap Buffer := allocRaw count false

/-- `raw_pages`. -/
def rawPages (count : ℤ) : Kern Heap U64 := do
  return (← allocRaw count true).data

/-- `memset` to zero of `n` words from `a` on. -/
def zeroWords : ℕ → U64 → Kern Heap Unit
  | 0, _ => return ()
  | n + 1, a => do
    storeWord a 0#64
    zeroWords n (a + 8#64)

/-- `zeroed_pages`. -/
def zeroedPages (count : ℤ) : Kern Heap U64 := do
  let buf ← allocRaw count true
  if buf.data = 0#64 then return 0#64
  zeroWords (count.toNat * 512) buf.data
  return buf.data

/-! ### Release

Releasing pages changes bit sets and free lists in turn.  `sync` is put around every step that changes
something.  It is `id` where the words of the bit sets are apart from memory. -/

/-- The coalescing loop of `release_pages`, with `left` classes below the last one to go: `page`
starts a free block of class `classCount - 1 - left` that is in no list yet. -/
def coalesceBy (sync : Kern Heap Unit → Kern Heap Unit) : ℕ → ℕ → Kern Heap Unit
  | 0, page => do
    let aligned ← isAligned page (2 ^ (classCount - 1))
    assert (aligned = true) (.failed "is_aligned(page, 1 << (CLASS_COUNT - 1))")
    sync (addToFreelist page (classCount - 1))
  | left + 1, page => do
    let k := classCount - 1 - (left + 1)
    let aligned ← isAligned page (2 ^ k)
    assert (aligned = true) (.failed "is_aligned(page, 1 << class)")
    let buds ← buddyInfo page k
    let buddyIsFree ← getBuddyBit k buds.bitsetIndex
    sync (setBuddyBit k buds.bitsetIndex !buddyIsFree)
    if buddyIsFree = false then
      sync (addToFreelist page k)
    else
      sync (removeFromFreelist buds.buddy k)
      coalesceBy sync left (min page buds.buddy)

/-- The page loop of `release_pages`. -/
def releaseRangeBy (sync : Kern Heap Unit → Kern Heap Unit) : ℕ → ℕ → Kern Heap Unit
  | 0, _ => return ()
  | n + 1, page => do
    coalesceBy sync (classCount - 1) page
    releaseRangeBy sync n (page + 1)

/-- The page number of a page-aligned kernel pointer, as `release_pages` and
`unsafe_mark_memory_usability` compute it. -/
def pageOfPtr {σ : Type} (data : U64) : Kern σ ℕ := do
  assert (data ≠ 0#64) (.failed "data != NULL")
  let addr ← physicalAddress data
  let down ← alignDown addr.toNat 4096
  assert (addr.toNat = down) (.failed "addr == align_down(addr, _4KB)")
  return addr.toNat / 4096

/-- `release_pages`. -/
def releasePagesBy (sync : Kern Heap Unit → Kern Heap Unit) (data : U64) (count : ℤ) :
    Kern Heap Unit := do
  let begin' ← pageOfPtr data
  let end' : ℤ := begin' + count
  let h ← get
  let usable ← h.globals.usablePages.getAll begin' end'
  assert (usable = true) (.failed "BitSet__get_all(MemGlobals.usable_pages, begin, end)")
  let anyFree ← h.globals.freePages.getAny begin' end'
  assert (anyFree = false) (.failed "!BitSet__get_any(MemGlobals.free_pages, begin, end)")
  releaseRangeBy sync count.toNat begin'
  modify fun h =>
    { h with globals := { h.globals with freeMemory := h.globals.freeMemory + count * 4096 } }
  sync (setFreePages begin' end' true)

/-- `release_pages`, on bit sets apart from memory. -/
def releasePages (data : U64) (count : ℤ) : Kern Heap Unit := releasePagesBy id data count

/-- `unsafe_mark_memory_usability`. -/
def unsafeMarkMemoryUsability (data : U64) (count : ℤ) (usable : Bool) : Kern Heap Unit := do
  let begin' ← pageOfPtr data
  let end' : ℤ := begin' + count
  let h ← get
  let anyFree ← h.globals.freePages.getAny begin' end'
  assert (anyFree = false)
    (.failed "if you're marking memory usability, the marked pages can't be free")
  let _ ← (h.globals.usablePages.getCount begin' end' : Kern Heap ℤ)
  setUsablePages begin' end' usable

end Dumboss
