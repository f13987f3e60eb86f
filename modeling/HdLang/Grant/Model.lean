import Mathlib.Data.FinEnum
import Mathlib.Data.String.Basic

/-!
# Capability grants

`crates/hd_run/src/grant.rs`: one resolved grant for a program, built from a table and flags, and the
scope checks that a provider asks before it touches a resource.

Paths, entries, hosts and names are their bytes, as the source's string functions see them. How the
operating system resolves a path is a parameter: when the grant is built (`resolvePath`) and again
when a path is checked (`now`), since the files may have changed in between.
-/

namespace HdLang.Grant

/-! ### Text and paths -/

/-- The bytes of a string, or of a path. -/
abbrev Text := List UInt8

/-- `utf8_char_width` -/
def width (b : UInt8) : ℕ :=
  if b < 0x80 then 1
  else if 0xC2 ≤ b ∧ b ≤ 0xDF then 2
  else if 0xE0 ≤ b ∧ b ≤ 0xEF then 3
  else if 0xF0 ≤ b ∧ b ≤ 0xF4 then 4
  else 0

/-- A byte that continues a character. -/
def Continues (b : UInt8) : Prop := 0x80 ≤ b ∧ b ≤ 0xBF

/-- A byte that can be the second after `b`, the first of three or four. -/
def Second (b c : UInt8) : Prop :=
  (if b = 0xE0 then 0xA0 else if b = 0xF0 then 0x90 else 0x80) ≤ c ∧
    c ≤ (if b = 0xED then 0x9F else if b = 0xF4 then 0x8F else 0xBF)

instance (b : UInt8) : Decidable (Continues b) := inferInstanceAs (Decidable (_ ∧ _))

instance (b c : UInt8) : Decidable (Second b c) := inferInstanceAs (Decidable (_ ∧ _))

/-- Whether the bytes begin with a character, and the length of it, or else of what was taken for
the beginning of one. -/
def scan : Text → Bool × ℕ
  | [] => (false, 0)
  | b :: rest =>
    let c := rest.getD 0 0
    let d := rest.getD 1 0
    let e := rest.getD 2 0
    match width b with
    | 1 => (true, 1)
    | 2 => if Continues c then (true, 2) else (false, 1)
    | 3 => if Second b c then if Continues d then (true, 3) else (false, 2) else (false, 1)
    | 4 =>
      if Second b c then
        if Continues d then if Continues e then (true, 4) else (false, 3) else (false, 2)
      else (false, 1)
    | _ => (false, 1)

def lossyFrom : ℕ → Text → Text
  | 0, _ => []
  | _ + 1, [] => []
  | fuel + 1, b :: bs =>
    let (valid, n) := scan (b :: bs)
    (if valid then (b :: bs).take n else [0xEF, 0xBF, 0xBD]) ++ lossyFrom fuel ((b :: bs).drop n)

/-- `to_string_lossy`: each stretch of bytes that is no character gives U+FFFD. -/
def toStringLossy (bytes : Text) : Text := lossyFrom bytes.length bytes

/-- `/` -/
def SLASH : UInt8 := 47

/-- One component of a path. -/
inductive Component
  | root
  | cur
  | parent
  | normal (name : Text)
  deriving DecidableEq, Repr

/-- The component of the text between two slashes; an empty one and a `.` give none. -/
def component (part : Text) : Option Component :=
  if part = [] ∨ part = [46] then none
  else if part = [46, 46] then some .parent
  else some (.normal part)

/-- `path.components()`: a `.` counts only at the start of a relative path. -/
def components (path : Text) : List Component :=
  (if path.head? = some SLASH then [.root]
    else if (path.splitOn SLASH).head? = some [46] then [.cur]
    else []) ++ (path.splitOn SLASH).filterMap component

/-- `base.join(path)` -/
def join (base path : Text) : Text :=
  if path.head? = some SLASH then path
  else if base.getLast?.all (· = SLASH) then base ++ path
  else base ++ [SLASH] ++ path

/-- `path.starts_with(base)` -/
def Inside (path base : Text) : Prop := components base <+: components path

instance (path base : Text) : Decidable (Inside path base) :=
  inferInstanceAs (Decidable (_ <+: _))

/-! ### Grants -/

/-- One trait's value in a table or a flag. -/
inductive GrantValue
  /-- `true`: no limit. -/
  | all
  /-- `false`: a total deny. -/
  | deny
  /-- A list of scope entries. -/
  | scopes (list : List Text)
  deriving DecidableEq, Repr

/-- A trait's resolved limit; a trait with none has no limit. -/
inductive Limit
  /-- Totally denied. -/
  | deny
  /-- Only what these entries cover; path entries are absolute and resolved. -/
  | entries (list : List Text)
  deriving DecidableEq, Repr

/-- A program's grant: the limit of each trait that has one. -/
structure Grants where
  limits : List (String × Limit)
  deriving DecidableEq, Repr

abbrev Table := List (String × GrantValue)

/-- The traits whose scope entries are paths. -/
def PATH_KEYS : List String := ["FsRead", "FsWrite"]

/-- `keys.dedup()` -/
def dedup : List String → List String
  | a :: b :: keys => if a = b then dedup (b :: keys) else a :: dedup (b :: keys)
  | keys => keys

/-- The values of `key`, in their order. -/
def values (table : Table) (key : String) : List GrantValue :=
  (table.filter fun p => p.1 = key).map Prod.snd

section Resolve

variable (resolvePath : Text → Text)

/-- The entries of a list of `key` as a limit holds them. -/
def entries (key : String) (list : List Text) (base : Text) : List Text :=
  list.map fun e => if key ∈ PATH_KEYS then toStringLossy (resolvePath (join base e)) else e

/-- The entries that a value lists. -/
def listed (key : String) (base : Text) : GrantValue → List Text
  | .scopes list => entries resolvePath key list base
  | _ => []

/-- The limit of `key` by Grant Precedence. -/
def resolveKey (table : Table) (tableBase : Text) (flags : Table) (flagBase : Text)
    (key : String) : Option Limit :=
  let inTable := values table key
  let inFlags := values flags key
  if .deny ∈ inTable ++ inFlags then some .deny
  else if inFlags ≠ [] then
    if .all ∈ inFlags then none
    else some (.entries (inFlags.flatMap (listed resolvePath key flagBase)))
  else
    match inTable.getLast? with
    | some (.scopes list) => some (.entries (entries resolvePath key list tableBase))
    | _ => none

/-- Grant Precedence: path entries of the table are relative to `tableBase`, the package directory,
and those of a flag to `flagBase`, the working directory. -/
def resolve (table : Table) (tableBase : Text) (flags : Table) (flagBase : Text) : Grants :=
  let keys := dedup (((table ++ flags).map Prod.fst).mergeSort fun a b => a ≤ b)
  { limits := keys.filterMap fun key =>
      (resolveKey resolvePath table tableBase flags flagBase key).map fun l => (key, l) }

/-- Replaces the limit of `key` by `f` of it, at its first place. -/
def update (key : String) (f : Limit → Limit) : List (String × Limit) → List (String × Limit)
  | [] => []
  | (k, l) :: limits => if k = key then (k, f l) :: limits else (k, l) :: update key f limits

/-- The limit of a trait, or `none` for no limit. -/
def Grants.limit (g : Grants) (key : String) : Option Limit :=
  (g.limits.find? fun p => p.1 = key).map Prod.snd

/-- More entries for a limit that has some. -/
def Limit.extend (resolved : List Text) : Limit → Limit
  | .entries list => .entries (list ++ resolved)
  | .deny => .deny

/-- The directories that the test grant adds to a key: `resolved` to its entries, or alone when
nothing names the key. -/
def addDirs (named : Bool) (g : Grants) (key : String) (resolved : List Text) : Grants :=
  match g.limit key with
  | some _ => { limits := update key (Limit.extend resolved) g.limits }
  | none => if named then g else { limits := g.limits ++ [(key, .entries resolved)] }

/-- The directories of the test grant for `key`. -/
def testDirs (packageDir tempDir : Text) (key : String) : List Text :=
  if key = "FsRead" then [packageDir, tempDir]
  else if key = "FsWrite" then [tempDir]
  else []

/-- Whether the table or a flag names `key`. -/
def named (table flags : Table) (key : String) : Bool := (table ++ flags).any fun p => p.1 = key

/-- The test grant: `FsRead` also covers the package directory and the test case's temporary
directory, and `FsWrite` that temporary directory, unless the trait is denied or has no limit. -/
def forTest (table : Table) (packageDir : Text) (flags : Table) (cwd tempDir : Text) : Grants :=
  ["FsRead", "FsWrite"].foldl
    (fun g key => addDirs (named table flags key) g key
      ((testDirs packageDir tempDir key).map fun d => toStringLossy (resolvePath d)))
    (resolve resolvePath table packageDir flags cwd)

end Resolve

/-! ### Checks -/

/-- `text.strip_prefix(head)` -/
def stripPrefix (head text : Text) : Option Text :=
  if head <+: text then some (text.drop head.length) else none

/-- `text.strip_suffix(tail)` -/
def stripSuffix (tail text : Text) : Option Text :=
  if tail <:+ text then some (text.take (text.length - tail.length)) else none

/-- `text.split_once(c)` -/
def splitOnce (c : UInt8) (text : Text) : Option (Text × Text) :=
  if c ∈ text then some (text.takeWhile (· ≠ c), (text.dropWhile (· ≠ c)).drop 1) else none

/-- `text.rsplit_once(c)` -/
def rsplitOnce (c : UInt8) (text : Text) : Option (Text × Text) :=
  (splitOnce c text.reverse).map fun p => (p.2.reverse, p.1.reverse)

def lower (b : UInt8) : UInt8 := if 65 ≤ b ∧ b ≤ 90 then b + 32 else b

/-- `text.parse::<u16>().ok()` -/
def parsePort (text : Text) : Option ℕ :=
  let digits := if text.head? = some 43 then text.drop 1 else text
  let value := digits.foldl (fun n b => 10 * n + (b.toNat - 48)) 0
  if digits ≠ [] ∧ (∀ b ∈ digits, 48 ≤ b ∧ b ≤ 57) ∧ value < 65536 then some value else none

/-- An entry's host and port: `host`, `host:port`, `[v6]` or `[v6]:port`. -/
def splitHost (entry : Text) : Text × Option ℕ :=
  match stripPrefix [91] entry with
  | some rest =>
    let (host, after) := (splitOnce 93 rest).getD (rest, [])
    (host, (stripPrefix [58] after).bind parsePort)
  | none =>
    match rsplitOnce 58 entry with
    | some (host, port) => if 58 ∉ host then (host, parsePort port) else (entry, none)
    | none => (entry, none)

/-- Whether an entry covers `host` and `port`. -/
def hostCovered (host : Text) (port : Option ℕ) (e : Text) : Bool :=
  let (entryHost, entryPort) := splitHost e
  let hostOk :=
    match stripPrefix [42, 46] entryHost with
    | some suffix =>
      match stripSuffix suffix host with
      | some head => head.getLast? = some 46 ∧ 1 < head.length
      | none => false
    | none => entryHost.map lower = host.map lower
  hostOk && entryPort.all fun p => some p = port

/-- Whether an entry of `key` covers `name`. -/
def nameCovered (key : String) (name e : Text) : Bool :=
  match stripSuffix [42] e with
  | some head => if key = "Env" then head <+: name else e = name
  | none => e = name

namespace Grants

/-- Whether an `FsRead` or `FsWrite` grant covers `path`, relative to `cwd` when relative. -/
def coversPath (now : Text → Text) (g : Grants) (key : String) (path cwd : Text) : Bool :=
  match g.limit key with
  | none => true
  | some .deny => false
  | some (.entries list) => list.any fun e => Inside (now (join cwd path)) e

/-- Whether an `Http` or `Net` grant covers `host` and `port`. -/
def coversHost (g : Grants) (key : String) (host : Text) (port : Option ℕ) : Bool :=
  match g.limit key with
  | none => true
  | some .deny => false
  | some (.entries list) => list.any (hostCovered host port)

/-- Whether an `Env`, `Process` or `Sys` grant covers `name`. -/
def coversName (g : Grants) (key : String) (name : Text) : Bool :=
  match g.limit key with
  | none => true
  | some .deny => false
  | some (.entries list) => list.any (nameCovered key name)

end Grants

end HdLang.Grant
