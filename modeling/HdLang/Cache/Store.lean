import HdLang.Cache.Disk

/-!
# The packed cache store

The operations of the store as programs over the file system: `publish`, `get`, `touch` and
`maintain`, with what they call. An `Io` program stops at the first error, as `?` does; what a `Drop`
does on the way out is written where the value goes. A loop of `lease` that meets an id in use goes
on at most `attempts` times and then stalls. Sums of `u64` that saturate do so here.
-/

namespace HdLang.Cache

/-- A program of a call. -/
abbrev Prog := Program Cmd Reply

/-- A program that may fail. -/
abbrev Io := ExceptT Error Prog

namespace Io

/-- A step that may fail. -/
def tryExists (name : Name) : Io Bool := ExceptT.mk (Program.call (.tryExists name) .done)
def stat (name : Name) : Io ℕ := ExceptT.mk (Program.call (.stat name) .done)
def openOrCreate (name : Name) : Io Handle := ExceptT.mk (Program.call (.openOrCreate name) .done)
def createNew (name : Name) : Io Handle := ExceptT.mk (Program.call (.createNew name) .done)
def openFile (name : Name) : Io Handle := ExceptT.mk (Program.call (.openFile name) .done)
def len (h : Handle) : Io ℕ := ExceptT.mk (Program.call (.len h) .done)
def readUpTo (h : Handle) (offset limit : ℕ) : Io Bytes :=
  ExceptT.mk (Program.call (.readUpTo h offset limit) .done)
def readExact (h : Handle) (offset len : ℕ) : Io Bytes :=
  ExceptT.mk (Program.call (.readExact h offset len) .done)
def write (h : Handle) (bytes : Bytes) : Io Unit := ExceptT.mk (Program.call (.write h bytes) .done)
def lock (h : Handle) : Io Unit := ExceptT.mk (Program.call (.lock h) .done)
def tryLock (h : Handle) : Io Bool := ExceptT.mk (Program.call (.tryLock h) .done)
def unlock (h : Handle) : Io Unit := ExceptT.mk (Program.call (.unlock h) .done)
def rename (old new : Name) : Io Unit := ExceptT.mk (Program.call (.rename old new) .done)
def remove (name : Name) : Io Unit := ExceptT.mk (Program.call (.remove name) .done)
def createDirAll : Io Unit := ExceptT.mk (Program.call .createDirAll .done)
def readDir : Io (List Name) := ExceptT.mk (Program.call .readDir .done)

/-- A step that does not fail. -/
def ask (c : Cmd) : Io (Reply c) := ExceptT.mk (.call c fun r => .done (.ok r))

/-- The outcome of a program, which goes on after an error. -/
def attempt {α : Type} (x : Io α) : Io (Except Error α) :=
  ExceptT.mk (x.run >>= fun r => .done (.ok r))

/-- What a pure step gives. -/
def of {α : Type} (x : Except Error α) : Io α := ExceptT.mk (.done x)

end Io

open Io

/-! ### Locks, the index and leases -/

def ensureRoot : Io Unit := do
  createDirAll
  if ← ask .isRealDir then
    pure ()
  else
    throw (.invalid "cache pack namespace is not a directory")

/-- The publication lock. -/
def lock : Io Handle := do
  ensureRoot
  let file ← openOrCreate .lock
  Io.lock file
  pure file

/-- `body` under the publication lock, which ends with the scope. -/
def withLock {α : Type} (body : Io α) : Io α := do
  let file ← lock
  let r ← body.attempt
  ask (.close file)
  of r

section Store

variable (checksum : Bytes → Hash128) (attempts : ℕ)

def load : Io Entries := do
  if ← ask .isRealDir then
    match ← (stat .index).attempt with
    | .error .notFound => pure .empty
    | .error e => throw e
    | .ok len =>
      if len > MAX_INDEX then
        throw (.invalid "cache index is not a bounded regular file")
      else do
        let file ← openFile .index
        let bytes ← readUpTo file 0 (MAX_INDEX + 1)
        of (decode checksum bytes)
  else
    pure .empty

/-- Called only under the publication lock. A corrupt index is derived data: start a new one, leaving
active leased packs alone. -/
def recover : Io (Entries × Bool) := do
  match ← (load checksum).attempt with
  | .ok entries => pure (entries, false)
  | .error (.invalid _) => pure (.empty, true)
  | .error e => throw e

def save (entries : Entries) : Io Unit := do
  if entries.isEmpty then
    match ← (remove .index).attempt with
    | .error .notFound => pure ()
    | result => of result
  else do
    let bytes ← of (encode checksum entries)
    let id ← ask .unique
    let result ← Io.attempt do
      let file ← createNew (.tmp id)
      write file bytes
      rename (.tmp id) .index
    if result.isOk then
      of result
    else do
      let _ ← (remove (.tmp id)).attempt
      of result

/-- A live writer owns the file lock before it drops the publication lock. -/
structure Lease where
  id : ℕ
  path : Name
  file : Handle
  committed : Bool

/-- `Lease::drop`. An error removes its uncommitted file; the file closes in any case. -/
def dropLease (lease : Lease) : Io Unit := do
  if lease.committed then
    ask (.close lease.file)
  else do
    let _ ← (unlock lease.file).attempt
    let _ ← (remove lease.path).attempt
    ask (.close lease.file)

/-- Caller holds the publication lock across creation and locking. -/
def lease : ℕ → Io Lease
  | 0 => ask .stall >>= nofun
  | attempts + 1 => do
    let id ← ask .unique
    if ← tryExists (.pack id) then
      lease attempts
    else
      match ← (createNew (.pending id)).attempt with
      | .ok file =>
        let l : Lease := ⟨id, .pending id, file, false⟩
        match ← (Io.lock file).attempt with
        | .ok () => pure l
        | .error e => do
          dropLease l
          throw e
      | .error .alreadyExists => lease attempts
      | .error e => throw e

/-- Caller holds the publication lock. The lease's file is unlocked and named as a pack. -/
def finish (l : Lease) : Io Lease := do
  if ← tryExists (.pack l.id) then
    throw .alreadyExists
  else do
    unlock l.file
    rename l.path (.pack l.id)
    pure { l with path := .pack l.id }

/-! ### Reading -/

/-- An entry used again within this age keeps its mark: one hour. -/
def USE_MARK_AGE : ℕ := 3600

def MAX_HANDLES : ℕ := 64

/-- `Store::open`. -/
def openPack (id : ℕ) : Io Opened := do
  let _ ← stat (.pack id)
  let file ← openFile (.pack id)
  let len ← Io.len file
  pure ⟨file, len⟩

/-- The snapshot that a reader has under the mutex, loaded when there is none. -/
def snapshotOr (guard : Option Snapshot) : Io Snapshot :=
  match guard with
  | some state => pure state
  | none => do
    match ← (load checksum).attempt with
    | .ok entries => pure { Snapshot.default with entries := entries }
    | .error _ => pure Snapshot.default

/-- Notes the use of an entry whose mark is old. -/
def Snapshot.mark (state : Snapshot) (k : Key) (loc : Location) (at_ : ℕ) : Snapshot :=
  if at_ - loc.used > USE_MARK_AGE then { state with touched := state.touched.insert k at_ } else state

/-- The snapshot with the entry's pack open, unless it cannot be opened. -/
def withPack (state : Snapshot) (pack : ℕ) : Io (Option Snapshot) :=
  match state.files.get? pack with
  | some _ => pure (some state)
  | none => do
    match ← (openPack pack).attempt with
    | .error _ => pure none
    | .ok file =>
      let files := if state.files.size ≥ MAX_HANDLES then
        match state.files.entries with
        | [] => state.files
        | (first, _) :: _ => state.files.erase first
      else state.files
      pure (some { state with files := files.insert pack file })

/-- `get` under the mutex. -/
def getFrom (state : Snapshot) (k : Key) : Io (Option Bytes × Snapshot) := do
  match state.entries.get? k with
  | none => pure (none, state)
  | some loc =>
    match ← withPack state loc.pack with
    | none => pure (none, state)
    | some state =>
      match state.files.get? loc.pack with
      | none => pure (none, state)
      | some opened =>
        if loc.len > MAX_ENTRY ∨ loc.offset + loc.len ≥ U64 ∨ loc.offset + loc.len > opened.len then
          pure (none, state)
        else
          match ← (readExact opened.file loc.offset loc.len).attempt with
          | .error _ => pure (none, state)
          | .ok bytes => do
            let at_ ← ask .now
            pure (some bytes, state.mark k loc at_)

def get (kind : EntryKind) (hash : Hash128) : Io (Option Bytes) := do
  let guard ← ask .lockState
  let state ← snapshotOr checksum guard
  let (result, state) ← getFrom state (key kind.asU16 hash)
  ask (.unlockState (some state))
  pure result

def touch (kind : EntryKind) (hash : Hash128) : Io Unit := do
  let guard ← ask .lockState
  let state ← snapshotOr checksum guard
  let at_ ← ask .now
  let k := key kind.asU16 hash
  match state.entries.get? k with
  | none => ask (.unlockState (some state))
  | some loc => ask (.unlockState (some (state.mark k loc at_)))

/-! ### Publishing -/

/-- The entries with the later marks of the snapshot, and whether one changed. -/
def mergeMarks (touched : List (Key × ℕ)) (entries : Entries) : Entries × Bool :=
  touched.foldl (fun (entries, changed) (k, used) =>
    match entries.get? k with
    | some loc =>
      if used > loc.used then (entries.insert k { loc with used := used }, true)
      else (entries, changed)
    | none => (entries, changed)) (entries, false)

def mergeTouches (entries : Entries) : Io (Entries × Bool) := do
  match ← ask .lockState with
  | none => do
    ask (.unlockState none)
    pure (entries, false)
  | some state => do
    ask (.unlockState (some { state with touched := .empty }))
    pure (mergeMarks state.touched.entries entries)

def replace (entries : Entries) : Io Unit := do
  let guard ← ask .lockState
  let touched := match guard with
    | some state => state.touched
    | none => .empty
  ask (.unlockState (some ⟨entries, .empty, touched⟩))

/-- The batch's bytes go to the lease, one after the other. -/
def writeBatch (l : Lease) (at_ : ℕ) : Batch → ℕ → Entries → Io Entries
  | [], _, pending => pure pending
  | (kind, hash, bytes) :: batch, offset, pending => do
    write l.file bytes
    if offset + bytes.length ≥ U64 then
      throw (.invalid "cache pack length overflow")
    else
      writeBatch l at_ batch (offset + bytes.length)
        (pending.insert (key kind.asU16 hash) ⟨l.id, offset, bytes.length, at_⟩)

/-- Under the publication lock: the lease becomes a pack and its entries join the index. The lease
comes back as it is when the scope ends. -/
def commit (l : Lease) (pending : Entries) : Io (Except Error Unit × Lease) := do
  match ← (recover checksum).attempt with
  | .error e => pure (.error e, l)
  | .ok (entries, _) => do
    let (entries, _) ← mergeTouches entries
    let entries := entries.extend pending
    match ← (finish l).attempt with
    | .error e => pure (.error e, l)
    | .ok l =>
      match ← (save checksum entries).attempt with
      | .error e => pure (.error e, l)
      | .ok () => do
        replace entries
        pure (.ok (), { l with committed := true })

/-- From the lease on. -/
def publishLease (l : Lease) (batch : Batch) (at_ : ℕ) : Io (Except Error Unit × Lease) := do
  match ← (writeBatch l at_ batch 0 .empty).attempt with
  | .error e => pure (.error e, l)
  | .ok pending =>
    match ← lock.attempt with
    | .error e => pure (.error e, l)
    | .ok file => do
      let r ← commit checksum l pending
      ask (.close file)
      pure r

def publish (batch : Batch) : Io Unit := do
  if batch.isEmpty then
    pure ()
  else if batch.any fun entry => entry.1 = .clpack ∨ entry.2.2.length > MAX_ENTRY then
    throw (.invalid "cache entry exceeds its size limit or is private")
  else do
    let _ ← of (indexLen batch.length)
    let l ← withLock (lease attempts)
    let at_ ← ask .now
    let (result, l) ← publishLease checksum l batch at_
    dropLease l
    of result

/-! ### Maintenance -/

/-- A saturating sum of `u64`. -/
def satAdd (a b : ℕ) : ℕ := min (a + b) (U64 - 1)

/-- A saturating product of `u64`. -/
def satMul (a b : ℕ) : ℕ := min (a * b) (U64 - 1)

/-- The sizes of the names' files, of the packs that are wanted one by one. -/
def scanNames (wanted : ℕ → Bool) : List Name → ℕ → SortedMap ℕ ℕ → Io (ℕ × SortedMap ℕ ℕ)
  | [], total, sizes => pure (total, sizes)
  | .pack id :: names, total, sizes => do
    let len ← stat (.pack id)
    scanNames wanted names (satAdd total len) (if wanted id then sizes.insert id len else sizes)
  | .index :: names, total, sizes => do
    let len ← stat .index
    scanNames wanted names (satAdd total len) sizes
  | _ :: names, total, sizes => scanNames wanted names total sizes

/-- A row of the entries is in the pack. -/
def names (entries : Entries) (id : ℕ) : Bool := entries.entries.any fun e => e.2.pack = id

def scan : Io (ℕ × SortedMap ℕ ℕ) := do
  let guard ← ask .lockState
  ask (.unlockState guard)
  let wanted := fun id => match guard with
    | some state => names state.entries id
    | none => false
  let list ← readDir
  let result ← scanNames wanted list 0 .empty
  ask .closeDir
  pure result

/-- `deadline.is_some_and(|d| Instant::now() >= d)`. -/
def deadline (bounded : Bool) : Io Bool := if bounded then ask .expired else pure false

/-- Removes a file that no one has locked; whether one was tried before or now. -/
def prune (name : Name) (attempted : Bool) : Io Bool := do
  let file ← openFile name
  match ← (tryLock file).attempt with
  | .ok true => do
    let _ ← (remove name).attempt
    ask (.close file)
    pure true
  | .ok false => do
    ask (.close file)
    pure attempted
  | .error e => do
    ask (.close file)
    throw e

/-- Removes what no row names and no writer leases. -/
def pruneNames (live : ℕ → Bool) (bounded : Bool) : List Name → Bool → Io Unit
  | [], _ => pure ()
  | name :: list, attempted => do
    if ← (if attempted then deadline bounded else pure false) then
      pure ()
    else
      match name with
      | .pack id =>
        if live id then
          pruneNames live bounded list attempted
        else do
          let attempted ← prune name attempted
          pruneNames live bounded list attempted
      | .pending _ => do
        let attempted ← prune name attempted
        pruneNames live bounded list attempted
      | .tmp _ => do
        let _ ← (remove name).attempt
        pruneNames live bounded list true
      | _ => pruneNames live bounded list attempted

def pruneOrphans (live : ℕ → Bool) (bounded : Bool) : Io Unit := do
  let list ← readDir
  pruneNames live bounded list false

/-- The live rows of a pack go to the lease, one after the other. -/
def copyRows (source : Handle) (l : Lease) (id : ℕ) :
    List (Key × Location) → ℕ → Entries → Io Entries
  | [], _, entries => pure entries
  | (k, loc) :: rows, offset, entries => do
    if loc.pack = id then
      let bytes ← readUpTo source loc.offset loc.len
      write l.file bytes
      if bytes.length ≠ loc.len then
        throw (.invalid "truncated cache pack during compaction")
      else
        copyRows source l id rows (offset + loc.len)
          (entries.insert k { loc with pack := l.id, offset := offset })
    else
      copyRows source l id rows offset entries

/-- `compact` from the lease on. -/
def compactLease (source : Handle) (l : Lease) (entries : Entries) (id : ℕ) :
    Io (Except Error Entries × Lease) := do
  match ← (copyRows source l id entries.entries 0 entries).attempt with
  | .error e => pure (.error e, l)
  | .ok entries =>
    match ← (finish l).attempt with
    | .error e => pure (.error e, l)
    | .ok l =>
      match ← (save checksum entries).attempt with
      | .error e => pure (.error e, l)
      | .ok () => pure (.ok entries, { l with committed := true })

def compact (entries : Entries) (id : ℕ) : Io Entries := do
  let source ← openPack id
  let l ← lease attempts
  let (result, l) ← compactLease checksum source.file l entries id
  dropLease l
  of result

/-- Compacts the packs of which enough is dead; the entries and whether the index lacks a change. -/
def compactPacks (cap before : ℕ) (sizes : SortedMap ℕ ℕ) (bounded : Bool) :
    List (ℕ × ℕ) → Entries → Bool → Bool → Io (Entries × Bool)
  | [], entries, _, dirty => pure (entries, dirty)
  | (id, live) :: packs, entries, compacted, dirty => do
    let physical := (sizes.get? id).getD 0
    if live < physical ∧ (before > cap ∨ satMul live 4 < satMul physical 3) then
      if ← (if compacted then deadline bounded else pure false) then
        pure (entries, dirty)
      else do
        let entries ← compact checksum attempts entries id
        compactPacks cap before sizes bounded packs entries true false
    else
      compactPacks cap before sizes bounded packs entries compacted dirty

/-- The index's size, which counts only when there is one. -/
def overhead (entries : Entries) : Except Error ℕ :=
  if entries.isEmpty then .ok 0 else indexLen entries.size

/-- Evicts in this order until the entries and the index are within nine tenths of the cap. -/
def evictFrom (cap : ℕ) : List (ℕ ×ₗ Key) → Entries → ℕ → Except Error Entries
  | [], entries, _ => .ok entries
  | next :: order, entries, live => do
    let extra ← overhead entries
    if satAdd live extra ≤ satMul cap 9 / 10 then
      .ok entries
    else
      match entries.get? (ofLex next).2 with
      | some loc => evictFrom cap order (entries.erase (ofLex next).2) (live - loc.len)
      | none => evictFrom cap order entries live

/-- Evicts the entries of the oldest marks when the live set exceeds the cap. -/
def evict (cap : ℕ) (entries : Entries) : Except Error Entries := do
  let live := (entries.entries.map fun e => e.2.len).sum
  let extra ← overhead entries
  if satAdd live extra > cap then
    let order := (entries.entries.map fun e => (toLex (e.2.used, e.1) : ℕ ×ₗ Key)).mergeSort
    evictFrom cap order entries live
  else
    .ok entries

/-- The live bytes of each pack. -/
def livePerPack (entries : Entries) : SortedMap ℕ ℕ :=
  entries.entries.foldl
    (fun live e => live.insert e.2.pack ((live.get? e.2.pack).getD 0 + e.2.len)) .empty

/-- The rows whose pack is there and long enough. -/
def validRow (sizes : SortedMap ℕ ℕ) (loc : Location) : Bool :=
  match sizes.get? loc.pack with
  | some len => loc.offset + loc.len < U64 ∧ loc.offset + loc.len ≤ len
  | none => false

/-- `maintain` under the publication lock. -/
def maintainLocked (cap : ℕ) (bounded : Bool) : Io (ℕ × ℕ) := do
  let (entries, corrupt) ← recover checksum
  let (entries, marked) ← mergeTouches entries
  replace entries
  let (before, sizes) ← scan
  let valid := entries.filter fun _ loc => validRow sizes loc
  let kept ← of (evict cap valid)
  let dirty := corrupt || marked || (valid.size != entries.size) || (kept.size != valid.size)
  let (entries, dirty) ←
    compactPacks checksum attempts cap before sizes bounded (livePerPack kept).entries kept false
      dirty
  if dirty || entries.isEmpty then
    save checksum entries
  else
    pure ()
  pruneOrphans (names entries) bounded
  replace entries
  let (after, _) ← scan
  pure (before, after)

def maintain (cap : ℕ) (bounded : Bool) : Io (ℕ × ℕ) := do
  if ← ask .isRealDir then
    withLock (maintainLocked checksum attempts cap bounded)
  else
    pure (0, 0)

/-! ### Calls -/

/-- What a call gives. -/
inductive Outcome
  | published (result : Except Error Unit)
  | got (bytes : Option Bytes)
  | touched
  | maintained (result : Except Error (ℕ × ℕ))
  deriving DecidableEq

/-- The program of a call. `get` and `touch` answer every error themselves. -/
def program : Op → Prog Outcome
  | .publish batch => do
    let r ← (publish checksum attempts batch).run
    pure (.published r)
  | .get kind hash => do
    match ← (get checksum kind hash).run with
    | .ok bytes => pure (.got bytes)
    | .error _ => pure (.got none)
  | .touch kind hash => do
    let _ ← (touch checksum kind hash).run
    pure .touched
  | .maintain cap bounded => do
    let r ← (maintain checksum attempts cap bounded).run
    pure (.maintained r)

end Store

end HdLang.Cache
