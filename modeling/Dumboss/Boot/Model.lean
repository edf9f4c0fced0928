import Dumboss.Allocator.Run

/-!
# The start of the allocator (`memory__init` in `kern/memory.c`)

`memory__init` reads the memory map that the boot loader left, carves the word arrays of the bit sets
off the free entries, and hands what is left of them to `release_pages`.

* `MMapEnt`: an entry of the map; the low four bits of its size are its type;
* `slowSort`, `takeFree`: the free entries are moved to the front, and the others are cut off;
* `allocFromEntries`: carve bytes off the first entry that has enough of them;
* `createMetadata`: the thirteen bit sets.  In this part of the boot they are arrays in memory, at
  addresses that `alloc_from_entries` chose (`MetadataArray`);
* `seedEntries`: the loop that hands the rest of the entries to the allocator.  From here on the bit
  sets are those of `Heap`.

Left out are the log lines, `UNSAFE_HACKY_higher_half_init`, and the page table that is built in the
end.
-/

namespace Dumboss.Boot

open Prog

variable {σ : Type}

/-- `MMapEnt`. -/
structure MMapEnt where
  ptr : U64
  size : U64
  deriving DecidableEq

namespace MMapEnt

/-- `MMapEnt_Size`. -/
def byteSize (e : MMapEnt) : U64 := e.size &&& 0xFFFFFFFFFFFFFFF0#64

/-- `MMapEnt_Type`. -/
def type (e : MMapEnt) : U64 := e.size &&& 0xF#64

/-- `MMapEnt_IsFree`. -/
def isFree (e : MMapEnt) : Bool := e.size &&& 0xF#64 == 1#64

end MMapEnt

/-- `MMAP_FREE`. -/
def mmapFree : U64 := 1#64

/-! ### The free entries -/

/-- The inner loop of `SLOW_SORT`, over the first `n + 1` entries. -/
def sortPass : ℕ → List MMapEnt → List MMapEnt
  | n + 1, left :: right :: rest =>
    if left.type ≠ mmapFree ∧ right.type = mmapFree then right :: sortPass n (left :: rest)
    else left :: sortPass n (right :: rest)
  | _, entries => entries

/-- The outer loop of `SLOW_SORT`: `rightBound` counts down to `1`. -/
def slowSort : ℕ → List MMapEnt → List MMapEnt
  | 0, entries => entries
  | rightBound + 1, entries => slowSort rightBound (sortPass (rightBound + 1) entries)

/-- The loop that cuts the map off at the first entry that is not free, and takes the type out of the
sizes before it. -/
def takeFree : List MMapEnt → List MMapEnt
  | [] => []
  | e :: es => if e.isFree then { e with size := e.byteSize } :: takeFree es else []

/-! ### Carving -/

/-- The state of this part of the boot: the free entries, and memory. -/
structure State where
  mmap : List MMapEnt
  memory : Memory

/-- `align_up` of an unsigned word; the addition wraps around. -/
def alignUp64 (value : U64) (align : ℕ) : Kern σ U64 := do
  assertAlign align
  return BitVec.ofNat 64 ((value.toNat + (align - 1)) % 2 ^ 64 / align * align)

/-- The loop of `alloc_from_entries`. -/
def carve (size : U64) (align : ℕ) : List MMapEnt → Kern σ (Option (U64 × List MMapEnt))
  | [] => return none
  | e :: es => do
    let alignedPtr ← alignUp64 e.ptr align
    let alignedSize := e.size + e.ptr - alignedPtr
    if alignedSize < size then
      return (← carve size align es).map fun r => (r.1, e :: r.2)
    return some (alignedPtr, ⟨alignedPtr + size, alignedSize - size⟩ :: es)

/-- `alloc_from_entries`.  The number of bytes set aside is returned with the pointer. -/
def allocFromEntries (size align : ℤ) : Kern State (U64 × U64) := do
  assert (0 < size ∧ 0 ≤ align) (.failed "_size > 0 && _align >= 0")
  let align := max align.toNat 1
  let size ← alignUp64 (BitVec.ofInt 64 size) align
  match ← carve size align (← get).mmap with
  | some (ptr, mmap) => do
    modify fun s => { s with mmap := mmap }
    return (ptr + kernelSpaceBegin, size)
  | none => throw (.failed "false")

/-! ### The bit sets -/

/-- A bit set of `count` bits at `data`, in a range of `size` bytes. -/
structure MetadataArray where
  data : U64
  size : U64
  count : ℤ

/-- The words of the array: `BitSet__set_all` goes up to the word of the last bit. -/
def MetadataArray.words (a : MetadataArray) : ℕ := ((a.count + 63) / 64).toNat

/-- The loop of `BitSet__set_all`, with `n` words left from `i` on. -/
def setAllWords (data : U64) (value : Bool) : ℕ → ℕ → Kern State Unit
  | 0, _ => return ()
  | n + 1, i => do
    let a := data + BitVec.ofNat 64 (8 * i)
    modify fun s => { s with memory := s.memory.store a 0#64 }
    if value then
      modify fun s => { s with memory := s.memory.store a (~~~s.memory.load a) }
    setAllWords data value n (i + 1)

/-- `alloc_from_entries`, `BitSet__from_raw` and `BitSet__set_all` to `false`. -/
def createBitSet (bytes count : ℤ) : Kern State MetadataArray := do
  let (data, size) ← allocFromEntries bytes 8
  let bits : MetadataArray := ⟨data, size, count⟩
  setAllWords bits.data false bits.words 0
  return bits

/-- The loop that creates the bit sets of the `left` classes from `k` on. -/
def createBuddies (buddyEndPage : ℕ) : ℕ → ℕ → Kern State (List MetadataArray)
  | 0, _ => return []
  | left + 1, k => do
    let buds ← buddyInfo buddyEndPage k
    let bitsetSize ← alignUp buds.bitsetIndex 8
    let bits ← createBitSet (bitsetSize / 8 : ℕ) bitsetSize
    return bits :: (← createBuddies buddyEndPage left (k + 1))

/-- `end_address`. -/
def endAddress (mmap : List MMapEnt) : Kern σ U64 :=
  match mmap.getLast? with
  | some e => return e.ptr + e.byteSize
  | none => throw (.outOfBounds "mmap.data")

/-- `memory__init`, up to the creation of the bit sets: `usable_pages`, `free_pages`, and the `buddies`
of the classes but the last. -/
def createMetadata : Kern State (List MetadataArray) := do
  let endAddress ← endAddress (← get).mmap
  let endPage := (← alignUp64 endAddress 4096) / 4096#64
  modify fun s => { s with mmap := takeFree (slowSort (s.mmap.length - 1) s.mmap) }
  let buddyMax ← alignUp64 endAddress (4096 * 2 ^ classCount)
  let buddyEndPage := buddyMax.toNat / 4096
  let bytes := ((endPage - 1#64) / 8#64 + 1#64).toInt
  let usablePages ← createBitSet bytes buddyEndPage
  let freePages ← createBitSet bytes buddyEndPage
  return usablePages :: freePages :: (← createBuddies buddyEndPage (classCount - 1) 0)

/-! ### Seeding -/

/-- The body of the seeding loop: the pages of an entry are marked as usable and released.  `sync` is
that of `releasePagesBy`. -/
def seedEntryBy (sync : Kern Heap Unit → Kern Heap Unit) (entry : MMapEnt) (availableMemory : ℤ) :
    Kern Heap ℤ := do
  let begin' ← alignUp64 entry.ptr 4096
  let end' ← alignDown (entry.ptr + entry.size).toNat 4096
  let size : ℤ := ((max end' begin'.toNat - begin'.toNat : ℕ) : ℤ)
  sync (setUsablePages (begin'.toNat / 4096 : ℕ) (end' / 4096 : ℕ) true)
  releasePagesBy sync (← kernelPtr begin') (size / 4096)
  return availableMemory + size

/-- The seeding loop. -/
def seedEntriesBy (sync : Kern Heap Unit → Kern Heap Unit) : List MMapEnt → ℤ → Kern Heap ℤ
  | [], availableMemory => return availableMemory
  | entry :: entries, availableMemory => do
    let availableMemory ← seedEntryBy sync entry availableMemory
    seedEntriesBy sync entries availableMemory

/-- The seeding loop and the checks after it.  `fuel` is that of `validateHeap`. -/
def seedBy (sync : Kern Heap Unit → Kern Heap Unit) (entries : List MMapEnt) (fuel : ℕ) :
    Kern Heap ℤ := do
  let availableMemory ← seedEntriesBy sync entries 0
  let h ← get
  assert (availableMemory = h.globals.freeMemory)
    (.failed "available_memory == MemGlobals.free_memory")
  validateHeap fuel
  return availableMemory

/-- The seeding loop, on bit sets apart from memory. -/
def seedEntries (entries : List MMapEnt) (availableMemory : ℤ) : Kern Heap ℤ :=
  seedEntriesBy id entries availableMemory

/-- The seeding loop and the checks after it, on bit sets apart from memory. -/
def seed (entries : List MMapEnt) (fuel : ℕ) : Kern Heap ℤ := seedBy id entries fuel

end Dumboss.Boot
