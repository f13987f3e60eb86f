import HdLang.Arith
import HdLang.Lib.ByteMem

/-!
# The heap allocator: `std.rt.alloc`

The allocator of `lib/std/rt/alloc.hd`, statement by statement, over the memory intrinsics of
`lib/std/rt/memory.hd`. Its state is the heap's bytes and size and the module's five bindings.
A page is 64 KiB; the page table has one 4-byte entry for each heap page:

* `0` — a free page, or one that is not yet the allocator's;
* `SMALL + class` — a small page of that class, or a static page when the class is `0`;
* `RUN + count` — the first page of a large run of `count` pages;
* `REST + first` — a later page of the run that starts at page `first`.

Addresses and counts are natural numbers. Every value the allocator computes from its own state
stays below `2^32`, so only the one sum with a caller's size, `size + PAGE - 1`, is taken at the
width of `usize`: it panics in a debug or test build and wraps in a release build
(`types.arith.checked`, `types.arith.release`).
-/

namespace HdLang

open ByteMem

namespace Alloc

/-! ### Constants -/

def PAGE : ℕ := 65536
def LISTS : ℕ := 512
def FREED : ℕ := 256
def SIZES : ℕ := 84
def RECIPROCALS : ℕ := 164
def SMALL : ℕ := 0x40000000
def RUN : ℕ := 0x80000000
def REST : ℕ := 0xc0000000
def LOW : ℕ := 0x3fffffff

/-- The heap and the allocator's bindings. -/
structure Heap where
  /-- The heap's size in pages. -/
  pages : ℕ
  /-- The most pages the host lets the heap have. -/
  limit : ℕ
  /-- The page table's address, 0 until the first allocation. -/
  table : ℕ := 0
  /-- How many pages the table has entries for. -/
  capacity : ℕ := 0
  /-- The pages below this one have their entries set. -/
  known : ℕ := 0
  /-- No page below this one is free. -/
  hint : ℕ := 0
  /-- Every address below this one is null or static data. -/
  heap : ℕ := 0
  /-- The bytes of the heap. -/
  mem : Mem

/-- The panic of an allocation that the host's limit leaves no room for. -/
def exhausted : Stop := .panic "heap-exhausted" "an allocation does not fit the heap"

/-- A computation over the heap. -/
abbrev Run := StateT Heap (Except Stop)

/-! ### The memory intrinsics -/

def load16 (address : ℕ) : Run ℕ := do
  let h ← get
  if address + 2 ≤ h.pages * PAGE then pure (h.mem.load16 address) else throw .outOfBounds

def load32 (address : ℕ) : Run ℕ := do
  let h ← get
  if address + 4 ≤ h.pages * PAGE then pure (h.mem.load32 address) else throw .outOfBounds

def store16 (address value : ℕ) : Run Unit := do
  let h ← get
  if address + 2 ≤ h.pages * PAGE then set { h with mem := h.mem.store16 address value }
  else throw .outOfBounds

def store32 (address value : ℕ) : Run Unit := do
  let h ← get
  if address + 4 ≤ h.pages * PAGE then set { h with mem := h.mem.store32 address value }
  else throw .outOfBounds

def copy (dst src count : ℕ) : Run Unit := do
  let h ← get
  if dst + count ≤ h.pages * PAGE ∧ src + count ≤ h.pages * PAGE then
    set { h with mem := h.mem.copy dst src count }
  else throw .outOfBounds

def fill (dst byte count : ℕ) : Run Unit := do
  let h ← get
  if dst + count ≤ h.pages * PAGE then set { h with mem := h.mem.fill dst byte count }
  else throw .outOfBounds

/-- The heap with `count` more pages, whose bytes are 0. -/
def Heap.grown (h : Heap) (count : ℕ) : Heap :=
  { h with mem := h.mem.fill (h.pages * PAGE) 0 (count * PAGE), pages := h.pages + count }

section

variable (h : Heap) (count : ℕ)
include h count

@[simp] theorem Heap.grown_pages : (h.grown count).pages = h.pages + count :=
  rfl

@[simp] theorem Heap.grown_table : (h.grown count).table = h.table := rfl

@[simp] theorem Heap.grown_capacity :
    (h.grown count).capacity = h.capacity := rfl

@[simp] theorem Heap.grown_known : (h.grown count).known = h.known := rfl

end

/-- Adds `count` pages and gives the size before, or nothing when the heap cannot grow so far. -/
def grow (count : ℕ) : Run (Option ℕ) := do
  let h ← get
  if h.pages + count ≤ h.limit then
    set (h.grown count)
    pure (some h.pages)
  else pure none

/-! ### The page table -/

/-- The bytes of the blocks of each size class, 1 to 20 (`init_classes`). -/
def sizes : List ℕ :=
  [16, 32, 48, 64, 80, 96, 112, 128, 160, 208, 256, 320, 400, 512, 640, 800, 1024, 1280, 1600,
    2048]

/-- The reciprocal of each class's bytes, 1 to 20 (`init_classes`). -/
def reciprocals : List ℕ :=
  [268435456, 134217728, 89478486, 67108864, 53687092, 44739243, 38347923, 33554432, 26843546,
    20648882, 16777216, 13421773, 10737419, 8388608, 6710887, 5368710, 4194304, 3355444, 2684355,
    2097152]

/-- Stores the words `values` from `address` on. -/
def storeWords : ℕ → List ℕ → Run Unit
  | _, [] => pure ()
  | address, value :: values => do
    store32 address value
    storeWords (address + 4) values

def initClasses : Run Unit := do
  let h ← get
  storeWords (h.table + SIZES) sizes
  storeWords (h.table + RECIPROCALS) reciprocals

/-- The bytes of each block of size class `cls`. -/
def classBytes (cls : ℕ) : Run ℕ := do
  let h ← get
  load32 (h.table + SIZES + 4 * (cls - 1))

/-- `class_of`'s loop from `cls` on; `fuel` bounds its turns. -/
def classFrom (size : ℕ) : ℕ → ℕ → Run ℕ
  | 0, _ => throw .diverges
  | fuel + 1, cls => do
    let bytes ← classBytes cls
    if bytes < size then classFrom size fuel (cls + 1) else pure cls

/-- The size class of a small block of `size` bytes, 1 to 20. -/
def classOf (size : ℕ) : Run ℕ :=
  if size ≤ 16 then pure 1
  else if size ≤ 128 then pure ((size + 15) / 16)
  else classFrom size size 9

def head (cls : ℕ) : Run ℕ := do
  let h ← get
  load32 (h.table + 4 * cls)

def setHead (cls page : ℕ) : Run Unit := do
  let h ← get
  store32 (h.table + 4 * cls) page

/-- The entry of page `number`. -/
def entryAt (number : ℕ) : Run ℕ := do
  let h ← get
  load32 (h.table + LISTS + 4 * number)

/-- `set`: makes `entry` the entry of page `number`. -/
def setEntry (number entry : ℕ) : Run Unit := do
  let h ← get
  store32 (h.table + LISTS + 4 * number) entry

def lowerHint (number : ℕ) : Run Unit :=
  modify fun h => if number < h.hint then { h with hint := number } else h

/-- Whether the small page at `page` has no room left for a block of `cls`. -/
def full (page cls : ℕ) : Run Bool := do
  let free ← load32 page
  if free = 0 then
    let bump ← load16 (page + 14)
    let bytes ← classBytes cls
    pure (decide (bump * 16 + bytes > PAGE))
  else pure false

/-- Takes the small page at `page` out of its class's list. -/
def unlink (page cls : ℕ) : Run Unit := do
  let next ← load32 (page + 4)
  let previous ← load32 (page + 8)
  if previous ≠ 0 then store32 (previous + 4) next else setHead cls next
  if next ≠ 0 then store32 (next + 8) previous

/-- Sets the entries of the `count` pages from `number` on to `entry`. -/
def setEntries (entry : ℕ) : ℕ → ℕ → Run Unit
  | _, 0 => pure ()
  | number, count + 1 => do
    setEntry number entry
    setEntries entry (number + 1) count

/-- Sets the entries of the `count` pages from `first` to `entry`, and those from the last known
page up to `first`, which another part of the program grew, to static. -/
def claim (first count entry : ℕ) : Run Unit := do
  let h ← get
  setEntries SMALL h.known (first - h.known)
  setEntries entry first count
  modify fun h => if first + count > h.known then { h with known := first + count } else h

/-- `grown`: grows the heap by `count` pages and gives the first. -/
def growPages (count : ℕ) : Run ℕ := do
  match ← grow count with
  | some first => pure first
  | none => throw exhausted

/-- The first allocation's set-up: a page for the table, whose entries mark every page the heap
had before as static. -/
def start : Run Unit := do
  let number ← growPages 1
  modify fun h =>
    { h with table := number * PAGE, heap := number * PAGE, capacity := (PAGE - LISTS) / 4 }
  initClasses
  claim number 1 SMALL
  modify fun h => { h with hint := h.known }

/-- Moves the table to new pages with room for twice `need` entries, and frees its old pages. -/
def moveTable (need : ℕ) : Run Unit := do
  let count := (LISTS + 8 * need + PAGE - 1) / PAGE
  let first ← growPages count
  let h ← get
  copy (first * PAGE) h.table (LISTS + 4 * h.known)
  let old := h.table / PAGE
  let oldCount := (LISTS + 4 * h.capacity + PAGE - 1) / PAGE
  modify fun h => { h with table := first * PAGE, capacity := (count * PAGE - LISTS) / 4 }
  claim first count SMALL
  claim old oldCount 0
  lowerHint old

/-- Grows the heap by `count` free pages for the allocator and gives the first. -/
def extend (count : ℕ) : Run ℕ := do
  let first ← growPages count
  let h ← get
  if first + count > h.capacity then moveTable (first + count)
  claim first count 0
  pure first

/-- `take`'s scan of the `left` known pages from `number` on: the first page of the free pages
next to each other that end before `number`, and how many they are. -/
def scan (count : ℕ) : ℕ → ℕ → ℕ → ℕ → Run (ℕ × ℕ)
  | 0, _, first, run => pure (first, run)
  | left + 1, number, first, run =>
    if run < count then do
      let entry ← entryAt number
      if entry = 0 then scan count left (number + 1) first (run + 1)
      else scan count left (number + 1) (number + 1) 0
    else pure (first, run)

/-- The first of `count` free pages next to each other, first fit; the heap grows when none fit.
The caller sets their entries. -/
def take (count : ℕ) : Run ℕ := do
  let h ← get
  let (first, run) ← scan count (h.known - h.hint) h.hint h.hint 0
  if run < count then extend count
  else do
    if first = h.hint then modify fun h => { h with hint := first + count }
    pure first

/-! ### Freeing -/

/-- Frees the block at `address`, which `alloc` gave and which is not yet freed. -/
def freeBlock (address : ℕ) : Run Unit := do
  let number := address / PAGE
  let entry ← entryAt number
  let kind := entry / SMALL
  if kind = 2 then do
    let h ← get
    fill (h.table + LISTS + 4 * number) 0 (4 * (entry &&& LOW))
    lowerHint number
  else if kind = 1 ∧ entry ≠ SMALL then do
    let cls := entry &&& LOW
    let page := number * PAGE
    let wasFull ← full page cls
    store32 address (← load32 page)
    store32 page address
    let live := (← load16 (page + 12)) - 1
    store16 (page + 12) live
    -- An empty page returns to the pool unless it heads its class's list.
    let first ← head cls
    if live = 0 ∧ first ≠ page then do
      if ¬wasFull then unlink page cls
      setEntry number 0
      lowerHint number
    else if wasFull then do
      store32 (page + 4) first
      store32 (page + 8) 0
      if first ≠ 0 then store32 (first + 8) page
      setHead cls page
  else pure ()

/-- Frees a live block of size class `cls` to its class's freed list; its page keeps counting it
until `reclaim`. -/
def freeClass (address cls : ℕ) : Run Unit := do
  if cls = 0 then freeBlock address
  else do
    let h ← get
    let place := h.table + FREED + 4 * cls
    store32 address (← load32 place)
    store32 place address

/-- `reclaim`'s inner loop: gives each block of the list that starts at `block` back to its page.
`fuel` bounds its turns. -/
def giveBack : ℕ → ℕ → Run Unit
  | 0, _ => throw .diverges
  | fuel + 1, block =>
    if block = 0 then pure ()
    else do
      let next ← load32 block
      freeBlock block
      giveBack fuel next

/-- `reclaim`'s outer loop over the `left` classes from `cls` on. -/
def reclaimFrom : ℕ → ℕ → Run Unit
  | _, 0 => pure ()
  | cls, left + 1 => do
    let h ← get
    let place := h.table + FREED + 4 * cls
    let block ← load32 place
    store32 place 0
    giveBack (h.pages * PAGE) block
    reclaimFrom (cls + 1) left

/-- Gives every block on the classes' freed lists back to its page. -/
def reclaim : Run Unit := reclaimFrom 1 20

/-! ### Allocating -/

/-- The page that serves class `cls`, new when the class has none with room. -/
def pageOf (cls : ℕ) : Run ℕ := do
  let page ← head cls
  if page ≠ 0 then pure page
  else do
    reclaim
    let page ← head cls
    if page ≠ 0 then pure page
    else do
      let page := (← take 1) * PAGE
      setEntry (page / PAGE) (SMALL + cls)
      fill page 0 14
      store16 (page + 14) 1
      setHead cls page
      pure page

/-- Takes a slot of the small page at `page`, from its free list or past its bump offset. -/
def slotOf (page cls : ℕ) : Run ℕ := do
  let free ← load32 page
  if free ≠ 0 then do
    store32 page (← load32 free)
    pure free
  else do
    let bump := (← load16 (page + 14)) * 16
    store16 (page + 14) ((bump + (← classBytes cls)) / 16)
    pure (page + bump)

/-- A block of size class `cls`: the part that `alloc` and `alloc_class` share. -/
def allocSmall (cls : ℕ) : Run ℕ := do
  let h ← get
  let place := h.table + FREED + 4 * cls
  let freed ← load32 place
  if freed ≠ 0 then do
    store32 place (← load32 freed)
    pure freed
  else do
    let page ← pageOf cls
    let slot ← slotOf page cls
    store16 (page + 12) ((← load16 (page + 12)) + 1)
    if ← full page cls then do
      -- A page that fills is its list's head, the page it took from.
      let next ← load32 (page + 4)
      setHead cls next
      if next ≠ 0 then store32 (next + 8) 0
      store32 (page + 4) 0
    pure slot

/-- A large block: a run of the whole pages that hold `size` bytes. -/
def allocRun (build : Build) (size : ℕ) : Run ℕ := do
  let count := (← minus build (← plus build size PAGE) 1) / PAGE
  reclaim
  let first ← take count
  setEntry first (RUN + count)
  setEntries (REST + first) (first + 1) (count - 1)
  pure (first * PAGE)

/-- Allocates a block of at least `size` bytes and gives its address. -/
def alloc (build : Build) (size : ℕ) : Run ℕ := do
  if (← get).table = 0 then start
  if size > 2048 then allocRun build size
  else do
    let cls ← classOf size
    allocSmall cls

/-- `alloc` where `cls` is the known size class of `size`, or zero for an ordinary allocation. -/
def allocClass (build : Build) (size cls : ℕ) : Run ℕ := do
  if cls = 0 then alloc build size
  else do
    if (← get).table = 0 then start
    allocSmall cls

/-! ### Looking blocks up -/

/-- The address of the block that holds `address`; 0 for an address in static data or in no
block. -/
def blockOf (address : ℕ) : Run ℕ := do
  let number := address / PAGE
  let h ← get
  if number ≥ h.known then pure 0
  else do
    let entry ← entryAt number
    let kind := entry / SMALL
    let page := number * PAGE
    if kind = 2 then pure page
    else if kind = 3 then pure ((entry &&& LOW) * PAGE)
    else if kind = 1 ∧ entry ≠ SMALL ∧ address ≥ page + 16 then do
      let cls := entry &&& LOW
      let index := 4 * (cls - 1)
      let bytes ← load32 (h.table + SIZES + index)
      let reciprocal ← load32 (h.table + RECIPROCALS + index)
      let slot := ((address - page - 16) * reciprocal) >>> 32
      pure (page + 16 + slot * bytes)
    else pure 0

/-- The bytes of the block at `block`: its size class's, or its run's whole pages. -/
def blockBytes (block : ℕ) : Run ℕ := do
  let entry ← entryAt (block / PAGE)
  if entry / SMALL = 2 then pure ((entry &&& LOW) * PAGE) else classBytes (entry &&& LOW)

end Alloc

end HdLang
