import HdLang.Arith
import HdLang.Lib.Loop

/-!
# `UniqMap`

The map of `std.collections` with values that may not be copied. One raw buffer holds the slots, in
order of insertion and with deleted ones among them, and after them an index of two words a slot.
Reading a place moves its value out, and the bytes then hold none; a load or store outside the slots
or the index words, or of a slot that holds no value, stops the run. Memory of a new buffer holds
anything, and whether the heap has room for it is not the map's to say.
-/

namespace HdLang

/-- The most bytes a buffer's room holds. -/
def ROOM : ℕ := 0xfffe0000

/-- What a program is compiled for and runs on, for one type of slots. -/
structure Platform where
  build : Build
  /-- `size_of::[UniqMapSlot[K, V]]()`: a tag and the aligned hash at least, and a value the heap can
  hold. -/
  slotBytes : ℕ
  tagged : 8 ≤ slotBytes
  fits : slotBytes ≤ ROOM
  /-- Whether the heap has the bytes asked for the `n`th time. -/
  grants : ℕ → ℕ → Bool
  /-- What the words hold that the heap gives for the `n`th time. -/
  junk : ℕ → ℕ → ℕ

/-- A type of keys: its hash is consistent with its `==`, which is reflexive (`trait.cmp.reflexive`). -/
structure Keys (K : Type) [BEq K] where
  hash : K → UInt64
  consistent : ∀ a b : K, (a == b) = true → hash a = hash b
  refl : ∀ a : K, (a == a) = true

/-- A run out of memory. -/
def heapExhausted (message : String) : Stop := .panic "heap-exhausted" message

/-- The prelude's `panic`. -/
def explicitPanic (message : String) : Stop := .panic "explicit-panic" message

inductive UniqMapSlot (K V : Type)
  | deleted
  | occupied (hash : ℕ) (key : K) (value : V)
  deriving DecidableEq, Repr

structure UniqMap (K V : Type) where
  /-- How many slots the buffer has room for. -/
  slotCount : ℕ
  /-- What the bytes of each slot hold, if they hold a value. -/
  slots : ℕ → Option (UniqMapSlot K V)
  /-- The words after the slots. -/
  words : ℕ → ℕ
  entryCapacity : ℕ
  size : ℕ
  /-- The slots in use from the start, deleted ones included. -/
  used : ℕ

/-- A program's map, with the values dropped so far and the times the heap was asked for room. -/
structure World (K V : Type) where
  map : UniqMap K V
  dropped : List V
  asked : ℕ

/-- Code with the map as `self`. -/
abbrev Code (K V α : Type) := StateT (World K V) (Except Stop) α

namespace UniqMap

variable {K V α : Type} [BEq K] (platform : Platform) (keys : Keys K)

/-- `size_of::[usize]()`. -/
def WORD : ℕ := 4

def change (f : UniqMap K V → UniqMap K V) : Code K V Unit :=
  modify fun world => { world with map := f world.map }

/-- Runs code with `map` as `self`. -/
def on (map : UniqMap K V) (code : Code K V α) : Code K V (α × UniqMap K V) := fun world => do
  let (result, after) ← code { world with map := map }
  return ((result, after.map), { after with map := world.map })

/-! ### Slots -/

/-- `self.slots.at(index)` is a slot of the buffer. -/
def place (index : ℕ) : Code K V Unit := do
  let map := (← get).map
  if index < map.entryCapacity ∧ index < map.slotCount then pure () else throw .outOfBounds

/-- `self.slots.at(index).as_ref()`. -/
def asRef (index : ℕ) : Code K V (UniqMapSlot K V) := do
  place index
  match (← get).map.slots index with
  | some slot => pure slot
  | none => throw .outOfBounds

def store (index : ℕ) (held : Option (UniqMapSlot K V)) : Code K V Unit :=
  change fun map => { map with slots := Function.update map.slots index held }

/-- `self.slots.at(index).read()`. -/
def read (index : ℕ) : Code K V (UniqMapSlot K V) := do
  let slot ← asRef index
  store index none
  pure slot

/-- `self.slots.at(index).write(slot)`, and a copy of a slot's bytes to there. -/
def write (index : ℕ) (slot : UniqMapSlot K V) : Code K V Unit := do
  place index
  store index (some slot)

/-- Drops a value. -/
def dropValue (value : V) : Code K V Unit :=
  modify fun world => { world with dropped := world.dropped ++ [value] }

/-- Drops a slot that was moved out. -/
def dropSlot : UniqMapSlot K V → Code K V Unit
  | .occupied _ _ value => dropValue value
  | .deleted => pure ()

/-! ### The index -/

/-- `self.index_address(index)` is the address of a word of the index. -/
def indexAddress (index : ℕ) : Code K V Unit := do
  let map := (← get).map
  if map.entryCapacity * platform.slotBytes + index * WORD + WORD ≤
      map.slotCount * platform.slotBytes then pure () else throw .outOfBounds

def indexValue (index : ℕ) : Code K V ℕ := do
  indexAddress platform index
  return (← get).map.words index

def setIndex (index value : ℕ) : Code K V Unit := do
  indexAddress platform index
  change fun map => { map with words := Function.update map.words index (value % USIZE) }

/-- `fill(self.slots.at(self.entry_capacity).address, 0, bytes)`, of whole words. -/
def fillIndex (bytes : ℕ) : Code K V Unit := do
  let map := (← get).map
  if map.entryCapacity * platform.slotBytes + bytes ≤ map.slotCount * platform.slotBytes then
    change fun map =>
      { map with words := fun i => if i * WORD < bytes then 0 else map.words i }
  else throw .outOfBounds

/-- `hash & (self.entry_capacity * 2 - 1)`. -/
def start (hash : ℕ) : Code K V ℕ := do
  let words ← times platform.build (← get).map.entryCapacity 2
  return hash &&& (← minus platform.build words 1)

/-- `usize(hash_of(key))`. -/
def hashOf (key : K) : ℕ := (keys.hash key).toNat % USIZE

/-- `found_hash == hash && found == key` of an occupied slot. -/
def isFor (hash : ℕ) (key : K) : UniqMapSlot K V → Bool
  | .deleted => false
  | .occupied foundHash found _ => foundHash == hash && found == key

/-- The next word of the index of `capacity` words. -/
def next (capacity index : ℕ) : Code K V ℕ := do
  return (← plus platform.build index 1) &&& (← minus platform.build capacity 1)

/-- The loop of `find_index` and of `insert`: from the word `index` on, to a free word or to the slot
of an entry for `key`. -/
def probe (hash : ℕ) (key : K) (capacity : ℕ) (free found : ℕ → Code K V α) :
    (turns index : ℕ) → Code K V α
  | 0, _ => throw .diverges
  | turns + 1, index => do
    let entryPlusOne ← indexValue platform index
    if entryPlusOne = 0 then free index
    else
      let entry ← minus platform.build entryPlusOne 1
      if isFor hash key (← asRef entry) then found entry
      else probe hash key capacity free found turns (← next platform capacity index)

/-- The index of `key`, borrowing every probed slot rather than moving it. -/
def findIndex (key : K) : Code K V (Option ℕ) := do
  if (← get).map.entryCapacity = 0 then return none
  let capacity ← times platform.build (← get).map.entryCapacity 2
  let hash := hashOf keys key
  probe platform hash key capacity (fun _ => pure none) (fun entry => pure (some entry)) capacity
    (← start platform hash)

/-- The loop of `index_entry`. -/
def indexFrom (entry capacity : ℕ) : (turns index : ℕ) → Code K V Unit
  | 0, _ => throw .diverges
  | turns + 1, index => do
    if (← indexValue platform index) = 0 then
      setIndex platform index (← plus platform.build entry 1)
    else indexFrom entry capacity turns (← next platform capacity index)

/-- Adds one occupied entry to this freshly allocated table's compact index. -/
def indexEntry (hash entry : ℕ) : Code K V Unit := do
  let capacity ← times platform.build (← get).map.entryCapacity 2
  indexFrom platform entry capacity capacity (← start platform hash)

/-! ### Allocation -/

/-- `Buffer.new(slots)`: what its words hold. -/
def newBuffer (slots : ℕ) : Code K V (ℕ → ℕ) := do
  let bytes := slots * platform.slotBytes
  if bytes = 0 then return fun _ => 0
  if bytes > ROOM then throw (heapExhausted "a buffer does not fit the heap")
  let asked := (← get).asked
  modify fun world => { world with asked := asked + 1 }
  if platform.grants asked bytes then return platform.junk asked
  throw (heapExhausted "an allocation does not fit the heap")

def allocate (capacity : ℕ) : Code K V (UniqMap K V) := do
  let indexBytes ← times platform.build (← times platform.build capacity 2) WORD
  let filled ← plus platform.build indexBytes platform.slotBytes
  let indexSlots := (← minus platform.build filled 1) / platform.slotBytes
  let slots ← plus platform.build capacity indexSlots
  let words ← newBuffer platform slots
  let fresh : UniqMap K V := ⟨slots, fun _ => none, words, capacity, 0, 0⟩
  return (← on fresh (fillIndex platform indexBytes)).2

/-- The loop of `with_capacity`: `room` doubled until it is not less than `capacity`. -/
def roomFor (capacity : ℕ) : (turns room : ℕ) → Code K V ℕ
  | 0, _ => throw .diverges
  | turns + 1, room =>
    if room < capacity then
      if room * 2 < USIZE then roomFor capacity turns (room * 2)
      else throw (heapExhausted "uniq map capacity does not fit the address space")
    else pure room

/-- `UniqMap::[K, V].with_capacity`. The bytes are counted in `u64`, which they fit. -/
def withCapacity (capacity : ℕ) : Code K V (UniqMap K V) := do
  let room ← (if capacity > 0 then roomFor capacity 32 8 else pure 0 : Code K V ℕ)
  let indexBytes := room * 2 * WORD
  let slots := room + (indexBytes + platform.slotBytes - 1) / platform.slotBytes
  if slots * platform.slotBytes > ROOM then
    throw (heapExhausted "uniq map capacity does not fit the heap")
  allocate platform room

/-- `UniqMap::[K, V].new`. -/
def new : Code K V (UniqMap K V) := allocate platform 8

/-! ### Dropping and replacing a map -/

/-- A loop over the slots in use from `index` on. -/
def overUsed (body : ℕ → Code K V (Option α)) (index : ℕ) : Code K V (Option α × ℕ) := do
  scan .diverges (fun world => world.map.used) body ((← get).map.used + 1) index

/-- `Drop` for the map. -/
def drop : Code K V Unit := do
  _ ← overUsed (α := Unit) (fun index => do dropSlot (← read index); return none) 0

/-- `*self = next`. -/
def assign (next : UniqMap K V) : Code K V Unit := do
  drop
  change fun _ => next

/-- What the loop of `rehash` does with an occupied slot, on the map that it fills. -/
def carry (hash : ℕ) (slot : UniqMapSlot K V) : Code K V Unit := do
  let entry := (← get).map.used
  write entry slot
  let used ← plus platform.build entry 1
  change fun map => { map with used := used }
  indexEntry platform hash entry
  let size ← plus platform.build (← get).map.size 1
  change fun map => { map with size := size }

/-- The loop of `rehash`. -/
def rehashFrom : (turns : ℕ) → (next : UniqMap K V) → (index : ℕ) → Code K V (UniqMap K V)
  | 0, _, _ => throw .diverges
  | turns + 1, next, index => do
    if index < (← get).map.used then
      match ← asRef index with
      | .occupied found key value =>
        let (_, next) ← on next (carry platform found (.occupied found key value))
        rehashFrom turns next (index + 1)
      | .deleted => rehashFrom turns next (index + 1)
    else pure next

def rehash (next : UniqMap K V) : Code K V Unit := do
  let next ← rehashFrom platform ((← get).map.used + 1) next 0
  change fun map => { map with used := 0 }
  assign next

/-- The capacity that `grow` allocates. -/
def grownCapacity : Code K V ℕ := do
  let map := (← get).map
  if map.entryCapacity = 0 then return 8
  let twice ← times platform.build map.size 2
  if twice < map.entryCapacity then return map.entryCapacity
  times platform.build map.entryCapacity 2

def grow : Code K V Unit := do
  let capacity ← grownCapacity platform
  rehash platform (← allocate platform capacity)

/-! ### Operations -/

def getRef (key : K) : Code K V (Option V) := do
  match ← findIndex platform keys key with
  | some index =>
    match ← asRef index with
    | .occupied _ _ value => return some value
    | .deleted => throw (explicitPanic "uniq map found a deleted entry")
  | none => return none

/-- `get_mut`, with a borrower that leaves `f value` in the place of `value`. -/
def getMut (key : K) (f : V → V) : Code K V (Option V) := do
  match ← findIndex platform keys key with
  | some index =>
    match ← asRef index with
    | .occupied hash found value =>
      write index (.occupied hash found (f value))
      return some value
    | .deleted => throw (explicitPanic "uniq map found a deleted entry")
  | none => return none

/-- The rest of `insert`, in a map with room for an entry. -/
def insertEntry (key : K) (value : V) : Code K V (Option V) := do
  let capacity ← times platform.build (← get).map.entryCapacity 2
  let hash := hashOf keys key
  probe platform hash key capacity
    (fun index => do
      let entry := (← get).map.used
      write entry (.occupied hash key value)
      let used ← plus platform.build entry 1
      change fun map => { map with used := used }
      setIndex platform index used
      let size ← plus platform.build (← get).map.size 1
      change fun map => { map with size := size }
      return none)
    (fun entry => do
      match ← read entry with
      | .occupied matchedHash matched old =>
        write entry (.occupied matchedHash matched value)
        return some old
      | .deleted => throw (explicitPanic "uniq map matched a deleted entry"))
    capacity (← start platform hash)

def insert (key : K) (value : V) : Code K V (Option V) := do
  let map := (← get).map
  if map.used = map.entryCapacity then grow platform
  insertEntry platform keys key value

/-- `_ := self.insert(key, value)`. -/
def put (key : K) (value : V) : Code K V Unit := do
  match ← insert platform keys key value with
  | some old => dropValue old
  | none => pure ()

/-- `get_or_insert`, with a borrower that leaves `f value` in the place of `value`. -/
def getOrInsert (key : K) (default : V) (f : V → V) : Code K V V := do
  if (← findIndex platform keys key).isNone then put platform keys key default
  else dropValue default
  match ← getMut platform keys key f with
  | some value => return value
  | none => throw (explicitPanic "uniq map inserted key is absent")

def containsKey (key : K) : Code K V Bool := return (← findIndex platform keys key).isSome

/-- The panic of `collection_capacity_sum`. -/
def capacitySum (left right : ℕ) : Code K V ℕ :=
  if left + right < USIZE then pure (left + right)
  else throw (heapExhausted "collection capacity does not fit the address space")

def reserve (additional : ℕ) : Code K V Unit := do
  let map := (← get).map
  let minimum ← capacitySum map.size additional
  let room ← minus platform.build map.entryCapacity map.used
  if additional ≤ room then return
  let capacity := if minimum > map.entryCapacity then minimum else map.entryCapacity
  rehash platform (← withCapacity platform capacity)

/-- What `retain` does with an entry that is not accepted. -/
def discard (index : ℕ) : Code K V Unit := do
  dropSlot (← read index)
  write index .deleted
  let size ← minus platform.build (← get).map.size 1
  change fun map => { map with size := size }

/-- The loop of `retain`: `keep` answers its calls in turn, `calls` of them so far, with whether the
value stays and what it leaves of it. Gives the entries it was called with. -/
def retainFrom (keep : ℕ → K → V → Bool × V) :
    (turns : ℕ) → (calls : List (K × V)) → (index : ℕ) → Code K V (List (K × V))
  | 0, _, _ => throw .diverges
  | turns + 1, calls, index => do
    if index < (← get).map.used then
      match ← asRef index with
      | .occupied hash key value =>
        let (accepted, value') := keep calls.length key value
        write index (.occupied hash key value')
        if !accepted then discard platform index
        retainFrom keep turns (calls ++ [(key, value)]) (index + 1)
      | .deleted => retainFrom keep turns calls (index + 1)
    else pure calls

def retain (keep : ℕ → K → V → Bool × V) : Code K V (List (K × V)) := do
  retainFrom platform keep ((← get).map.used + 1) [] 0

def extend : List (K × V) → Code K V Unit
  | [] => pure ()
  | (key, value) :: other => do
    put platform keys key value
    extend other

def remove (key : K) : Code K V (Option V) := do
  match ← findIndex platform keys key with
  | none => return none
  | some index =>
    match ← read index with
    | .occupied _ _ value =>
      write index .deleted
      let size ← minus platform.build (← get).map.size 1
      change fun map => { map with size := size }
      return some value
    | .deleted => throw (explicitPanic "uniq map found a deleted entry")

def clear : Code K V Unit := do
  let next ← allocate platform (← get).map.entryCapacity
  assign next

/-! ### Cursors -/

/-- The first `count` calls of a cursor's `next`, which takes the place of the cursor and gives the
place after. -/
def nexts (next : ℕ → Code K V (Option (K × V) × ℕ)) :
    (count index : ℕ) → Code K V (List (Option (K × V)) × ℕ)
  | 0, index => pure ([], index)
  | count + 1, index => do
    let (entry, index) ← next index
    let (entries, index) ← nexts next count index
    return (entry :: entries, index)

/-- `next` of `UniqMapIter`. -/
def iterNext : ℕ → Code K V (Option (K × V) × ℕ) :=
  overUsed fun index => do
    match ← asRef index with
    | .occupied _ key value => return some (key, value)
    | .deleted => return none

/-- `next` of `UniqMapDrain`. -/
def drainNext (last : ℕ) : ℕ → Code K V (Option (K × V) × ℕ) :=
  scan .diverges (fun _ => last)
    (fun index => do
      match ← read index with
      | .occupied _ key value => return some (key, value)
      | .deleted => return none)
    (last + 1)

/-- `Drop` for `UniqMapDrain`. -/
def drainDrop (last index : ℕ) : Code K V Unit := do
  _ ← scan (α := Unit) .diverges (fun _ => last)
    (fun index => do dropSlot (← read index); return none) (last + 1) index
  let words ← times platform.build (← get).map.entryCapacity 2
  fillIndex platform (← times platform.build words WORD)

/-- `drain`, with `count` calls of `next` before the cursor is dropped. -/
def drain (count : ℕ) : Code K V (List (Option (K × V))) := do
  let last := (← get).map.used
  change fun map => { map with size := 0, used := 0 }
  let (entries, index) ← nexts (drainNext last) count 0
  drainDrop platform last index
  return entries

/-- `next` of `UniqMapIntoIter`. -/
def intoIterNext : ℕ → Code K V (Option (K × V) × ℕ) :=
  overUsed fun index => do
    match ← read index with
    | .occupied _ key value =>
      write index .deleted
      let size ← minus platform.build (← get).map.size 1
      change fun map => { map with size := size }
      return some (key, value)
    | .deleted =>
      write index .deleted
      return none

end UniqMap

end HdLang
