import HdLang.Lib.Cursor
import HdLang.Lib.Numerals

/-!
# The journal's rows

`crates/hd_run/src/journal.rs`: the framing of rows and the reader that stops at a torn tail.
`journal = Header Row*` and `Row = kind: u8, index: uleb, len: uleb, payload, crc32: u32`.

The byte readers keep the source's `at` as their state. A `?` on a `None` stops a reader with
`Halt.miss`; what would be a Rust panic stops it with another `Halt`, so that a reader which never
panics is one that stops with nothing but `miss`. A `usize` has 64 bits, and its additions are
checked as in a debug build.
-/

namespace HdLang.Journal

open Cursor Leb128 LittleEndian

abbrev Bytes := List UInt8

/-- Row kinds. -/
inductive RowKind
  | header
  | input
  | call
  | finish
  | wake
  | block
  | abort
  | cancel
  | «end»
  deriving DecidableEq, Repr

namespace RowKind

def ALL : List RowKind :=
  [.header, .input, .call, .finish, .wake, .block, .abort, .cancel, .«end»]

/-- `kind as u8`. -/
def toByte : RowKind → UInt8
  | .header => 0
  | .input => 1
  | .call => 2
  | .finish => 3
  | .wake => 4
  | .block => 5
  | .abort => 6
  | .cancel => 7
  | .«end» => 8

end RowKind

/-- One row: its kind, event index and payload bytes. -/
structure Row where
  kind : RowKind
  index : UInt64
  payload : Bytes
  deriving DecidableEq, Repr

/-! ### Writing -/

/-- One of the eight steps of a table entry. -/
def crcBit (c : UInt32) : UInt32 :=
  if c &&& 1 ≠ 0 then (c >>> 1) ^^^ 0xEDB88320 else c >>> 1

/-- The CRC-32 (IEEE) table, one entry per byte value. -/
def CRC_TABLE (i : UInt8) : UInt32 := crcBit^[8] i.toUInt32

/-- CRC-32 (IEEE): the journal checksum. -/
def crc32 (bytes : Bytes) : UInt32 :=
  ~~~ bytes.foldl (fun c b => CRC_TABLE (c ^^^ b.toUInt32).toUInt8 ^^^ (c >>> 8)) (~~~ 0)

def putUleb (out : Bytes) (v : UInt64) : Bytes :=
  if v >>> 7 = 0 then out ++ [(v &&& 0x7f).toUInt8]
  else putUleb (out ++ [(v &&& 0x7f).toUInt8 ||| 0x80]) (v >>> 7)
termination_by v.toNat
decreasing_by
  rename_i h
  rw [UInt64.toNat_shiftRight, Nat.shiftRight_eq_div_pow]
  apply Nat.div_lt_self _ (by decide)
  apply Nat.pos_of_ne_zero
  intro hzero
  apply h
  have hv : v = 0 := UInt64.toNat_inj.mp hzero
  rw [hv]
  rfl

/-- The number of zero bits above the highest one bit. -/
def leadingZeros (v : UInt64) : ℕ := 64 - v.toNat.size

/-- The number of bytes `putUleb` writes for `v`. -/
def ulebLen (v : UInt64) : ℕ := (64 - leadingZeros (max v 1) + 6) / 7

/-- A `u32` in its four bytes. -/
def toLeBytes (v : UInt32) : Bytes := toLe 4 v.toNat

def appendParts (out : Bytes) (kind : RowKind) (index : UInt64) (payload : Bytes) : Bytes :=
  let start := out.length
  let out := out ++ [kind.toByte]
  let out := putUleb out index
  let out := putUleb out (UInt64.ofNat payload.length)
  let out := out ++ payload
  out ++ toLeBytes (crc32 (out.drop start))

/-- Appends one framed row. -/
def append (out : Bytes) (row : Row) : Bytes := appendParts out row.kind row.index row.payload

/-! ### Reading -/

/-- Why a reader stops with no result: `miss` is a `None`, the others are panics. -/
inductive Halt
  | miss
  | overflow
  | outOfRange
  | diverges
  deriving DecidableEq, Repr

/-- The number of values of `usize`. -/
def SIZES : ℕ := 18446744073709551616

/-- A slice has less bytes than this: its length is at most `isize::MAX`. -/
def SLICES : ℕ := 9223372036854775808

abbrev Read (α : Type) := StateT ℕ (Except Halt) α

/-- `option?` -/
def need {α : Type} : Option α → Read α
  | some x => pure x
  | none => throw .miss

/-- `i + n` on `usize`. -/
def plus (i n : ℕ) : Read ℕ := if i + n < SIZES then pure (i + n) else throw .overflow

/-- `b.get(i..j)` -/
def slice (b : Bytes) (i j : ℕ) : Option Bytes :=
  if i ≤ j ∧ j ≤ b.length then some ((b.drop i).take (j - i)) else none

/-- `b[i..j]` -/
def index (b : Bytes) (i j : ℕ) : Read Bytes :=
  if i ≤ j ∧ j ≤ b.length then pure ((b.drop i).take (j - i)) else throw .outOfRange

/-- The turns of `getUleb`, one for each shift. -/
def getUlebFrom (b : Bytes) : List ℕ → UInt64 → Read UInt64
  | [], _ => throw .miss
  | shift :: shifts, v => do
    let i ← get
    let byte ← need b[i]?
    set (← plus i 1)
    let v := v ||| ((byte &&& 0x7f).toUInt64 <<< UInt64.ofNat shift)
    if byte &&& 0x80 = 0 then pure v else getUlebFrom b shifts v

/-- The shifts are `(0..64).step_by(7)`. -/
def getUleb (b : Bytes) : Read UInt64 := getUlebFrom b (List.range' 0 10 7) 0

/-- The row whose kind byte `k` the reader stands at, up to its checksum. -/
def parsed (b : Bytes) (k : UInt8) : Read Row := do
  let start ← get
  set (← plus start 1)
  let kind ← need RowKind.ALL[k.toNat]?
  let index' ← getUleb b
  let len ← getUleb b
  let i ← get
  let payload ← need (slice b i (← plus i len.toNat))
  set (← plus i len.toNat)
  let i ← get
  let crc ← need (slice b i (← plus i 4))
  if ofLe crc = (crc32 (← index b start i)).toNat then
    pure ⟨kind, index', payload⟩
  else throw .miss

/-- The turns of `read`, of at most `fuel`. -/
def readLoop (b : Bytes) : ℕ → List Row → ℕ → Except Halt (List Row × ℕ)
  | 0, _, _ => throw .diverges
  | fuel + 1, rows, start =>
    match b[start]? with
    | none => pure (rows, start)
    | some k =>
      match (parsed b k).run start with
      | .ok (r, i) =>
        if r.index.toNat = rows.length then do
          let (next, _) ← (plus i 4).run i
          readLoop b fuel (rows ++ [r]) next
        else pure (rows, start)
      | .error .miss => pure (rows, start)
      | .error halt => throw halt

/-- Reads rows until the end or the first torn or corrupt row; returns the rows and the length of
the valid prefix, where a writer resumes. A turn passes a byte at least. -/
def read (b : Bytes) : Except Halt (List Row × ℕ) := readLoop b (b.length + 1) [] 0

end HdLang.Journal
