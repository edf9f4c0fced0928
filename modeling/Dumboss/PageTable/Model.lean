import Dumboss.Machine

/-!
# Page tables (`kern/page_tables.c`)

Four levels of tables of 512 entries.  A nonzero entry holds a physical address and flags; it leads
to the table of the next level, to a 4KB page (on the last level), or, with `PTE_HUGE_PAGE` on the
level before, to a 2MB page.

* `Kernel ρ`: memory, the state `ρ` of the page allocator, and a record of the pages that were taken
  from it and given back for tables;
* `PageSource ρ`: what the page table code relies on when it calls `zeroed_pages(1)`: it gets a
  zeroed page that nothing else uses, or `NULL`;
* `pageTableIndices`, `makePte`, `pteAddress`, `indicesToAddress`;
* `translate`, `mapPage`, `map2MBPage`, `mapRegion`, `regionSize`, `copyMapping`.
-/

namespace Dumboss.PageTable

open Prog

/-- The kernel state as the page table code sees it. -/
structure Kernel (ρ : Type) where
  memory : Memory
  source : ρ
  /-- The results of the calls of `zeroed_pages(1)`, latest first. -/
  obtained : List U64
  /-- The pages given to `release_pages`, latest first. -/
  released : List U64

/-! ### The page source -/

/-- What a call of `zeroed_pages(1)` did: memory in use is as before, and the result is `NULL` or a
zeroed page that was not in use. -/
structure FreshPage (used used' : Set ℕ) (m m' : Memory) (ptr : U64) : Prop where
  words : ∀ p ∈ used, p < windowPages → ∀ i < 512,
    m'.load (cell p i) = m.load (cell p i)
  page : (ptr = 0#64 ∧ used' = used) ∨
    ∃ q, q < windowPages ∧ q ∉ used ∧ ptr = pagePtr q ∧ used' = insert q used ∧
      ∀ i < 512, m'.load (cell q i) = 0#64

/-- An allocator of zeroed pages with the state `ρ`.  `used` are the pages handed out, `Valid` says
which states the allocator can be in; it does not depend on the contents of used pages. -/
structure PageSource (ρ : Type) where
  zeroedPage : Kern (Memory × ρ) U64
  Valid : Memory → ρ → Prop
  used : ρ → Set ℕ
  wp_zeroedPage : ∀ m r, Valid m r → wp zeroedPage
    (fun ptr s => Valid s.1 s.2 ∧ FreshPage (used r) (used s.2) m s.1 ptr) (m, r)
  valid_store : ∀ m r p i v, Valid m r → p ∈ used r → p < windowPages → i < 512 →
    Valid (m.store (cell p i) v) r

/-! ### Entries and indices -/

/-- `PTE_HUGE_PAGE`. -/
def pteHugePage : U64 := 1#64 <<< 7

/-- `PTE_ADDRESS`. -/
def pteAddressBits : U64 := 0x000ffffffffff000#64

/-- `PageTableIndices`. -/
structure PageTableIndices where
  p0 : ℕ
  p1 : ℕ
  p2 : ℕ
  p3 : ℕ
  p4 : ℕ
  deriving DecidableEq

/-- `page_table_indices`. -/
def pageTableIndices (address : U64) : PageTableIndices :=
  let p1 := address >>> 12
  let p2 := p1 >>> 9
  let p3 := p2 >>> 9
  let p4 := p3 >>> 9
  { p0 := address.toNat % 4096
    p1 := p1.toNat % 512
    p2 := p2.toNat % 512
    p3 := p3.toNat % 512
    p4 := p4.toNat % 512 }

variable {σ ρ : Type}

/-- `make_pte`. -/
def makePte (ptr flags : U64) : Kern σ U64 := do
  if ptr = 0#64 then return 0#64
  let address ← physicalAddress ptr
  return (address &&& pteAddressBits) ||| flags

/-- `pte_address`. -/
def pteAddress (entry : U64) : Kern σ U64 := do
  if entry = 0#64 then return 0#64
  let addrBits := entry &&& pteAddressBits
  kernelPtr ((addrBits <<< 16).sshiftRight 16)

/-- `indices_to_address`. -/
def indicesToAddress (indices : PageTableIndices) : U64 :=
  let address := (BitVec.ofNat 64 indices.p4 <<< 39) ||| (BitVec.ofNat 64 indices.p3 <<< 30) |||
    (BitVec.ofNat 64 indices.p2 <<< 21) ||| (BitVec.ofNat 64 indices.p1 <<< 12)
  (address <<< 16).sshiftRight 16

/-- `table->entries[index]`. -/
def loadEntry (table : U64) (index : ℕ) : Kern (Kernel ρ) U64 := do
  return (← get).memory.load (table + BitVec.ofNat 64 (8 * index))

/-- `table->entries[index] = entry`. -/
def storeEntry (table : U64) (index : ℕ) (entry : U64) : Kern (Kernel ρ) Unit :=
  modify fun s => { s with memory := s.memory.store (table + BitVec.ofNat 64 (8 * index)) entry }

/-- `zeroed_pages(1)`. -/
def zeroedPage (src : PageSource ρ) : Kern (Kernel ρ) U64 := fun s =>
  match src.zeroedPage (s.memory, s.source) with
  | .ok (ptr, m, r) =>
    .ok (ptr, { s with memory := m, source := r, obtained := ptr :: s.obtained })
  | .error e => .error e

/-! ### Translation -/

/-- `translate`. -/
def translate (p4 virt : U64) : Kern (Kernel ρ) U64 := do
  if p4 = 0#64 then return 0#64
  let indices := pageTableIndices virt
  let p3 ← pteAddress (← loadEntry p4 indices.p4)
  if p3 = 0#64 then return 0#64
  let p2 ← pteAddress (← loadEntry p3 indices.p3)
  if p2 = 0#64 then return 0#64
  let p2Entry ← loadEntry p2 indices.p2
  let page ← pteAddress p2Entry
  if page = 0#64 then return 0#64
  if p2Entry &&& pteHugePage ≠ 0#64 then
    return page + (BitVec.ofNat 64 indices.p1 <<< 12) + BitVec.ofNat 64 indices.p0
  let address ← pteAddress (← loadEntry page indices.p1)
  return address + BitVec.ofNat 64 indices.p0

/-- The loop of `region_size`; `fuel` bounds the number of pages looked at. -/
def regionSizeLoop (p4 : U64) : ℕ → U64 → U64 → ℕ → Kern (Kernel ρ) ℕ
  | 0, _, _, _ => throw (.outOfBounds "fuel")
  | fuel + 1, virt, expected, count => do
    let addr ← translate p4 virt
    if addr = 0#64 then return count
    if addr ≠ expected then return count
    regionSizeLoop p4 fuel (virt + 4096#64) (expected + 4096#64) (count + 1)

/-- `region_size`.  The kernel window has `2 ^ 35` pages, so no longer run can be found. -/
def regionSize (p4 virt : U64) : Kern (Kernel ρ) ℕ := do
  let expected ← translate p4 virt
  if expected = 0#64 then return 0
  regionSizeLoop p4 (windowPages + 1) virt expected 0

/-! ### Mapping -/

/-- The block that `map_page` and `map_2MB_page` repeat on every level: go to the table that an
entry leads to, and make that table if there is none.  `NULL` if it cannot be made. -/
def nextTable (src : PageSource ρ) (table : U64) (index : ℕ) (flags : U64) :
    Kern (Kernel ρ) U64 := do
  let next ← pteAddress (← loadEntry table index)
  if next ≠ 0#64 then return next
  let next ← zeroedPage src
  if next = 0#64 then return 0#64
  storeEntry table index (← makePte next flags)
  return next

/-- `map_page`. -/
def mapPage (src : PageSource ρ) (p4 virt kernel flags : U64) : Kern (Kernel ρ) Bool := do
  let indices := pageTableIndices virt
  if ¬ (p4 ≠ 0#64 ∧ (← isAligned p4.toNat (2 ^ 12)) = true) then return false
  if ¬ (kernel ≠ 0#64 ∧ (← isAligned kernel.toNat (2 ^ 12)) = true) then return false
  if ¬ (virt ≠ 0#64 ∧ (← isAligned virt.toNat (2 ^ 12)) = true) then return false
  let p3 ← nextTable src p4 indices.p4 flags
  if p3 = 0#64 then return false
  let p2 ← nextTable src p3 indices.p3 flags
  if p2 = 0#64 then return false
  let p1 ← nextTable src p2 indices.p2 flags
  if p1 = 0#64 then return false
  if (← loadEntry p1 indices.p1) ≠ 0#64 then return false
  storeEntry p1 indices.p1 (← makePte kernel flags)
  return true

/-- `map_2MB_page`. -/
def map2MBPage (src : PageSource ρ) (p4 virt kernel flags : U64) : Kern (Kernel ρ) Bool := do
  let indices := pageTableIndices virt
  if ¬ (p4 ≠ 0#64 ∧ (← isAligned p4.toNat (2 ^ 12)) = true) then return false
  if ¬ (kernel ≠ 0#64 ∧ (← isAligned kernel.toNat (2 ^ 21)) = true) then return false
  if ¬ (virt ≠ 0#64 ∧ (← isAligned virt.toNat (2 ^ 21)) = true) then return false
  let p3 ← nextTable src p4 indices.p4 flags
  if p3 = 0#64 then return false
  let p2 ← nextTable src p3 indices.p3 flags
  if p2 = 0#64 then return false
  if (← loadEntry p2 indices.p2) ≠ 0#64 then return false
  storeEntry p2 indices.p2 (← makePte kernel (flags ||| pteHugePage))
  return true

/-- `s64` arithmetic that may wrap. -/
def wrap64 (v : ℤ) : ℤ := Int.bmod v (2 ^ 64)

/-- One round of the loop of `map_region`: the result, and `diff`. -/
def mapRegionStep (src : PageSource ρ) (p4 virt ptr flags : U64) (left : ℤ) :
    Kern (Kernel ρ) (Bool × ℕ) := do
  if (← isAligned virt.toNat (2 ^ 21)) = true ∧ (← isAligned ptr.toNat (2 ^ 21)) = true ∧
      2 ^ 21 ≤ left then
    return (← map2MBPage src p4 virt ptr flags, 2 ^ 21)
  return (← mapPage src p4 virt ptr flags, 2 ^ 12)

/-- The loop of `map_region`; `fuel` bounds the number of rounds. -/
def mapRegionLoop (src : PageSource ρ) (p4 flags : U64) (size : ℤ) :
    ℕ → U64 → U64 → ℤ → Kern (Kernel ρ) Bool
  | 0, _, _, _ => throw (.outOfBounds "fuel")
  | fuel + 1, virt, ptr, mapped => do
    if mapped < size then
      let (res, diff) ← mapRegionStep src p4 virt ptr flags (size - mapped)
      if res = false then return false
      mapRegionLoop src p4 flags size fuel (virt + BitVec.ofNat 64 diff)
        (ptr + BitVec.ofNat 64 diff) (mapped + diff)
    else return true

/-- `map_region`.  Every round maps at least one page, which bounds their number. -/
def mapRegion (src : PageSource ρ) (p4 virt kernel : U64) (count : ℤ) (flags : U64) :
    Kern (Kernel ρ) Bool := do
  if ¬ (p4 ≠ 0#64 ∧ (← isAligned p4.toNat (2 ^ 12)) = true) then return false
  if ¬ (kernel ≠ 0#64 ∧ (← isAligned kernel.toNat (2 ^ 12)) = true) then return false
  if ¬ (virt ≠ 0#64 ∧ (← isAligned virt.toNat (2 ^ 12)) = true) then return false
  let size := wrap64 (count * 4096)
  mapRegionLoop src p4 flags size ((size / 4096).toNat + 1) virt kernel 0

/-- The loop of `copy_mapping`.  Every round takes at least one page off `count`, which bounds their
number.  `virt` is the same in all rounds. -/
def copyMappingLoop (src : PageSource ρ) (dest srcTable virt flags : U64) :
    ℕ → ℤ → Kern (Kernel ρ) Bool
  | 0, _ => throw (.outOfBounds "fuel")
  | fuel + 1, count => do
    if 0 < count then
      let ptr ← translate srcTable virt
      if ptr = 0#64 then return false
      let size ← regionSize srcTable virt
      if size = 0 then return false
      let res ← mapRegion src dest virt ptr (min size count) flags
      if res = false then return false
      copyMappingLoop src dest srcTable virt flags fuel (count - size)
    else return true

/-- `copy_mapping`. -/
def copyMapping (src : PageSource ρ) (dest srcTable virt : U64) (count : ℤ) (flags : U64) :
    Kern (Kernel ρ) Bool := do
  let virt ← alignDown virt.toNat (2 ^ 12)
  copyMappingLoop src dest srcTable (BitVec.ofNat 64 virt) flags (count.toNat + 1) count

end Dumboss.PageTable
