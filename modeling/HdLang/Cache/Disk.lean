import HdLang.Cache.Index
import HdLang.Lib.Program

/-!
# The file system under the store

The directory of one store, the files it names or once named, the locks on open files, and the
snapshots that the processes keep. A command is one file-system step; `effect` says what it may do.
Creating, renaming and removing a name are atomic, a lock is exclusive and belongs to the open file
that took it, an id is never given out twice, and a file stays readable through the handles that are
open when its name goes. Every step but the question whether the directory is there may fail; a write
that fails may leave a part of its bytes. A directory listing may miss a name only if the name goes
before the listing ends, and may hold names that are gone.

The fields after "history" are read by no step: they record who asked for an id, under which name a
file was made, which files were renamed and which was named as a pack, what each call is, and which
calls replaced the index.
-/

namespace HdLang.Cache

/-- The file names of the store. -/
inductive Name
  | lock
  | index
  /-- `index.<id>.tmp`. -/
  | tmp (id : ℕ)
  /-- `<id>.pending`. -/
  | pending (id : ℕ)
  /-- `<id>.pack`. -/
  | pack (id : ℕ)
  deriving DecidableEq, Repr

/-- An open file, with the call that opened it. -/
structure Handle where
  file : ℕ
  owner : ℕ
  id : ℕ
  deriving DecidableEq, Repr

structure Opened where
  file : Handle
  len : ℕ

structure Snapshot where
  entries : Entries
  files : SortedMap ℕ Opened
  touched : SortedMap Key ℕ

def Snapshot.default : Snapshot := ⟨.empty, .empty, .empty⟩

/-- What is given to a publish. -/
abbrev Batch := List (EntryKind × Hash128 × Bytes)

inductive Op
  | publish (batch : Batch)
  | get (kind : EntryKind) (hash : Hash128)
  | touch (kind : EntryKind) (hash : Hash128)
  /-- `bounded`: there is a time bound. -/
  | maintain (cap : ℕ) (bounded : Bool)

/-- The directory, its files and the processes' memory; `κ` are the processes and calls are
numbered. -/
structure Disk (κ : Type) where
  /-- The directory is there. -/
  root : Bool
  dir : Name → Option ℕ
  data : ℕ → Bytes
  /-- The next file. -/
  files : ℕ
  locks : ℕ → Option Handle
  /-- The next handle. -/
  handles : ℕ
  /-- The names that a call's listing lacks and that are still there. -/
  missed : ℕ → Set Name
  snapshot : κ → Option Snapshot
  /-- The call that holds the mutex of the process's snapshot. -/
  guard : κ → Option ℕ
  -- history
  /-- Who asked for an id. -/
  issued : ℕ → Option ℕ
  /-- The name that a file was made under. -/
  made : ℕ → Option Name
  /-- The file was renamed. -/
  sealed : ℕ → Prop
  /-- The file that was named as a pack. -/
  packed : ℕ → Option ℕ
  calls : ℕ → Option (κ × Op)
  saved : ℕ → Prop

/-- One step of a call. -/
inductive Cmd
  | unique
  | now
  /-- Whether the deadline has passed. -/
  | expired
  | isRealDir
  | createDirAll
  | tryExists (name : Name)
  /-- The length of the file that the name is of. -/
  | stat (name : Name)
  | openOrCreate (name : Name)
  | createNew (name : Name)
  | openFile (name : Name)
  /-- The length of an open file. -/
  | len (h : Handle)
  /-- The bytes from `offset` on, at most `limit` of them. -/
  | readUpTo (h : Handle) (offset limit : ℕ)
  | readExact (h : Handle) (offset len : ℕ)
  | write (h : Handle) (bytes : Bytes)
  | lock (h : Handle)
  | tryLock (h : Handle)
  | unlock (h : Handle)
  | close (h : Handle)
  | rename (old new : Name)
  | remove (name : Name)
  | readDir
  | closeDir
  | lockState
  | unlockState (snapshot : Option Snapshot)
  /-- A loop that goes on. -/
  | stall

@[reducible] def Reply : Cmd → Type
  | .unique | .now => ℕ
  | .expired | .isRealDir => Bool
  | .tryExists _ | .tryLock _ => Except Error Bool
  | .stat _ | .len _ => Except Error ℕ
  | .openOrCreate _ | .createNew _ | .openFile _ => Except Error Handle
  | .readUpTo .. | .readExact .. => Except Error Bytes
  | .createDirAll | .write .. | .lock _ | .unlock _ | .rename .. | .remove _ => Except Error Unit
  | .readDir => Except Error (List Name)
  | .close _ | .closeDir | .unlockState _ => Unit
  | .lockState => Option Snapshot
  | .stall => Empty

namespace Disk

variable {κ : Type} (s : Disk κ)

/-! ### Changes -/

/-- One more handle is out. -/
def opened : Disk κ := { s with handles := s.handles + 1 }

/-- The handle that the next open by call `n` gives. -/
def handle (n file : ℕ) : Handle := ⟨file, n, s.handles⟩

/-- A new file under `name`. -/
def create (name : Name) : Disk κ :=
  { s with
    dir := Function.update s.dir name (some s.files)
    data := Function.update s.data s.files []
    files := s.files + 1
    handles := s.handles + 1
    made := Function.update s.made s.files (some name) }

/-- Bytes at the end of a file. -/
def append (file : ℕ) (bytes : Bytes) : Disk κ :=
  { s with data := Function.update s.data file (s.data file ++ bytes) }

def take (h : Handle) : Disk κ := { s with locks := Function.update s.locks h.file (some h) }

/-- The lock that the handle holds, if any, is free. -/
def release (h : Handle) : Disk κ :=
  { s with
    locks := if s.locks h.file = some h then Function.update s.locks h.file none else s.locks }

/-- The call has replaced the index, if this is its name. -/
def savedBy (n : ℕ) (name : Name) : ℕ → Prop := fun m => s.saved m ∨ (m = n ∧ name = .index)

/-- The file that each pack's name was given to, when `new` gets the file. -/
def packedAs (new : Name) (file : ℕ) : ℕ → Option ℕ :=
  fun id => if new = .pack id then some file else s.packed id

/-- The file of the name `old` is named `new`. -/
def rename (n : ℕ) (old new : Name) (file : ℕ) : Disk κ :=
  { s with
    dir := Function.update (Function.update s.dir new (some file)) old none
    missed := fun m => s.missed m \ {old}
    sealed := fun i => s.sealed i ∨ i = file
    packed := s.packedAs new file
    saved := s.savedBy n new }

def remove (n : ℕ) (name : Name) : Disk κ :=
  { s with
    dir := Function.update s.dir name none
    missed := fun m => s.missed m \ {name}
    saved := s.savedBy n name }

end Disk

/-! ### Effects -/

section Effects

variable {κ : Type} [DecidableEq κ]

/-- A step that fails and changes nothing. -/
def Fails {α : Type} (s : Disk κ) (r : Except Error α) (s' : Disk κ) : Prop :=
  r = .error .other ∧ s' = s

/-- The name has no file. -/
def Missing {α : Type} (s : Disk κ) (name : Name) (r : Except Error α) (s' : Disk κ) : Prop :=
  s.dir name = none ∧ r = .error .notFound ∧ s' = s

def Opens (n : ℕ) (s : Disk κ) (name : Name) (r : Except Error Handle) (s' : Disk κ) : Prop :=
  ∃ i, s.dir name = some i ∧ r = .ok (s.handle n i) ∧ s' = s.opened

def Creates (n : ℕ) (s : Disk κ) (name : Name) (r : Except Error Handle) (s' : Disk κ) : Prop :=
  s.root = true ∧ s.dir name = none ∧ r = .ok (s.handle n s.files) ∧ s' = s.create name

/-- What a step of call `n` of process `p` may do: from `s` it gives the reply and `s'`. -/
def effect (n : ℕ) (p : κ) : (c : Cmd) → Disk κ → Reply c → Disk κ → Prop
  | .unique, s, id, s' =>
    id < 2 ^ 128 ∧ s.issued id = none ∧ s' = { s with issued := Function.update s.issued id (some n) }
  | .now, s, t, s' => t < U64 ∧ s' = s
  | .expired, s, _, s' => s' = s
  | .isRealDir, s, b, s' => b = s.root ∧ s' = s
  | .createDirAll, s, r, s' => (r = .ok () ∧ s' = { s with root := true }) ∨ Fails s r s'
  | .tryExists name, s, r, s' => (r = .ok (s.dir name).isSome ∧ s' = s) ∨ Fails s r s'
  | .stat name, s, r, s' =>
    (∃ i, s.dir name = some i ∧ r = .ok (s.data i).length ∧ s' = s) ∨ Missing s name r s' ∨
      Fails s r s'
  | .openOrCreate name, s, r, s' => Opens n s name r s' ∨ Creates n s name r s' ∨ Fails s r s'
  | .createNew name, s, r, s' =>
    Creates n s name r s' ∨ (s.dir name ≠ none ∧ r = .error .alreadyExists ∧ s' = s) ∨ Fails s r s'
  | .openFile name, s, r, s' => Opens n s name r s' ∨ Missing s name r s' ∨ Fails s r s'
  | .len h, s, r, s' => (r = .ok (s.data h.file).length ∧ s' = s) ∨ Fails s r s'
  | .readUpTo h offset limit, s, r, s' =>
    (r = .ok (((s.data h.file).drop offset).take limit) ∧ s' = s) ∨ Fails s r s'
  | .readExact h offset len, s, r, s' =>
    (offset + len ≤ (s.data h.file).length ∧ r = .ok (((s.data h.file).drop offset).take len) ∧
      s' = s) ∨ Fails s r s'
  | .write h bytes, s, r, s' =>
    (r = .ok () ∧ s' = s.append h.file bytes) ∨
      ∃ part, part <+: bytes ∧ r = .error .other ∧ s' = s.append h.file part
  | .lock h, s, r, s' => (s.locks h.file = none ∧ r = .ok () ∧ s' = s.take h) ∨ Fails s r s'
  | .tryLock h, s, r, s' =>
    (s.locks h.file = none ∧ r = .ok true ∧ s' = s.take h) ∨
      (s.locks h.file ≠ none ∧ r = .ok false ∧ s' = s) ∨ Fails s r s'
  | .unlock h, s, r, s' => (r = .ok () ∧ s' = s.release h) ∨ Fails s r s'
  | .close h, s, _, s' => s' = s.release h
  | .rename old new, s, r, s' =>
    (∃ i, s.dir old = some i ∧ r = .ok () ∧ s' = s.rename n old new i) ∨ Missing s old r s' ∨
      Fails s r s'
  | .remove name, s, r, s' =>
    (s.dir name ≠ none ∧ r = .ok () ∧ s' = s.remove n name) ∨ Missing s name r s' ∨ Fails s r s'
  | .readDir, s, r, s' =>
    (∃ names, r = .ok names ∧
      s' = { s with
        missed := Function.update s.missed n {name | s.dir name ≠ none ∧ name ∉ names} }) ∨
      Fails s r s'
  | .closeDir, s, _, s' => s.missed n = ∅ ∧ s' = s
  | .lockState, s, r, s' =>
    s.guard p = none ∧ r = s.snapshot p ∧ s' = { s with guard := Function.update s.guard p (some n) }
  | .unlockState snapshot, s, _, s' =>
    s' = { s with
      snapshot := Function.update s.snapshot p snapshot
      guard := Function.update s.guard p none }
  | .stall, _, _, _ => False

end Effects

end HdLang.Cache
