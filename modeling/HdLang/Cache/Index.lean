import HdLang.Lib.Numerals
import HdLang.Lib.SortedMap
import Mathlib.Data.Prod.Lex

/-!
# The index of the packed cache store

The index is a sorted table from logical keys to ranges of packs. `encode` writes it as a header with
a checksum of the rows, then one row of 58 bytes for each entry, and `decode` accepts such a file
only: a table whose rows fit comes back (`decode_encode`), and the rows of every file that is accepted
fit (`decode_fits`). The checksum is a parameter: nothing here depends on which function it is.
-/

namespace HdLang.Cache

open List SortedMap

abbrev Bytes := List UInt8

/-- A number of 128 bits. -/
abbrev Hash128 := Fin (2 ^ 128)

/-- The errors of `io` that the store tells apart. -/
inductive Error
  | notFound
  | alreadyExists
  | invalid (why : String)
  | other
  deriving DecidableEq, Repr

inductive EntryKind
  | iface
  | check
  | checkTest
  | graph
  | pkgres
  | depfiles
  | codepack
  | clpack
  | packhint
  | link
  | cwasm
  | code
  | parse
  | lint
  deriving DecidableEq, Repr

namespace EntryKind

def all : List EntryKind :=
  [.iface, .check, .checkTest, .graph, .pkgres, .depfiles, .codepack, .clpack, .packhint, .link,
    .cwasm, .code, .parse, .lint]

/-- `kind as u16`. -/
def asU16 : EntryKind → ℕ
  | iface => 0
  | check => 1
  | checkTest => 2
  | graph => 3
  | pkgres => 4
  | depfiles => 5
  | codepack => 6
  | clpack => 7
  | packhint => 8
  | link => 9
  | cwasm => 10
  | code => 11
  | parse => 12
  | lint => 13

theorem mem_all (kind : EntryKind) : kind ∈ all := by
  cases kind <;> decide

theorem asU16_lt (kind : EntryKind) : kind.asU16 < 14 := by
  cases kind <;> decide

end EntryKind

/-- A kind and a key. -/
abbrev Key := ℕ ×ₗ ℕ

def key (kind : ℕ) (hash : ℕ) : Key := toLex (kind, hash)

structure Location where
  pack : ℕ
  offset : ℕ
  len : ℕ
  used : ℕ
  deriving DecidableEq, Repr

abbrev Entries := SortedMap Key Location

def MAGIC : Bytes := [72, 68, 80, 65, 67, 75, 48, 49]

def HEADER : ℕ := 32

def ROW : ℕ := 58

def MAX_INDEX : ℕ := 64 * 1024 * 1024

def MAX_ENTRY : ℕ := 64 * 1024 * 1024

/-- The number of values of `u64`. -/
def U64 : ℕ := 2 ^ 64

/-- The kind may be in the index. -/
def indexed (kind : ℕ) : Bool := EntryKind.all.any fun k => k.asU16 = kind ∧ k ≠ .clpack

/-- The row's fields are within their types and its range within the limits. -/
structure Fits (k : Key) (loc : Location) : Prop where
  kind : indexed (ofLex k).1 = true
  hash : (ofLex k).2 < 2 ^ 128
  pack : loc.pack < 2 ^ 128
  len : loc.len ≤ MAX_ENTRY
  range : loc.offset + loc.len < U64
  used : loc.used < U64

theorem lt_of_indexed {kind : ℕ} (h : indexed kind = true) : kind < 256 ^ 2 := by
  obtain ⟨k, -, hk⟩ := any_eq_true.mp h
  have hcode := k.asU16_lt
  have heq : k.asU16 = kind := (of_decide_eq_true hk).1
  omega

/-! ### Encoding -/

open LittleEndian

section Codec

variable (checksum : Bytes → Hash128)

def indexLen (count : ℕ) : Except Error ℕ :=
  if count * ROW + HEADER ≤ MAX_INDEX then .ok (count * ROW + HEADER)
  else .error (.invalid "cache index exceeds its size limit")

def encodeRow (k : Key) (loc : Location) : Bytes :=
  toLe 2 (ofLex k).1 ++ toLe 16 (ofLex k).2 ++ toLe 16 loc.pack ++ toLe 8 loc.offset ++
    toLe 8 loc.len ++ toLe 8 loc.used

def encodeRows (rows : List (Key × Location)) : Bytes :=
  rows.flatMap fun row => encodeRow row.1 row.2

/-- The first 32 bytes: the magic, the number of rows, a zero and the rows' checksum. -/
def header (count : ℕ) (sum : Hash128) : Bytes :=
  MAGIC ++ toLe 4 count ++ toLe 4 0 ++ toLe 16 sum

def encode (entries : Entries) : Except Error Bytes := do
  let _ ← indexLen entries.size
  let rows := encodeRows entries.entries
  .ok (header entries.size (checksum rows) ++ rows)

/-! ### Decoding -/

/-- The bytes of a slice, as a number. -/
def field (bytes : Bytes) (start stop : ℕ) : ℕ := ofLe ((bytes.drop start).take (stop - start))

def decodeRow (row : Bytes) (previous : Option Key) : Except Error (Key × Location) :=
  let k := key (field row 0 2) (field row 2 18)
  if indexed (field row 0 2) = false ∨ previous.any (fun p => k ≤ p) then
    .error (.invalid "invalid or unordered cache index key")
  else
    let loc : Location := ⟨field row 18 34, field row 34 42, field row 42 50, field row 50 58⟩
    if loc.len > MAX_ENTRY ∨ loc.offset + loc.len ≥ U64 then
      .error (.invalid "invalid cache index range")
    else
      .ok (k, loc)

def decodeRows : ℕ → Bytes → Option Key → Entries → Except Error Entries
  | 0, _, _, entries => .ok entries
  | count + 1, bytes, previous, entries => do
    let (k, loc) ← decodeRow (bytes.take ROW) previous
    decodeRows count (bytes.drop ROW) (some k) (entries.insert k loc)

def decode (bytes : Bytes) : Except Error Entries :=
  if bytes.length < HEADER ∨ bytes.take 8 ≠ MAGIC ∨ (bytes.drop 12).take 4 ≠ [0, 0, 0, 0] then
    .error (.invalid "invalid cache index header")
  else do
    let count := field bytes 8 12
    let len ← indexLen count
    if len ≠ bytes.length ∨ (checksum (bytes.drop HEADER)).val ≠ field bytes 16 32 then
      .error (.invalid "invalid cache index length or checksum")
    else
      decodeRows count (bytes.drop HEADER) none .empty

end Codec

/-! ### What is accepted -/

theorem field_lt (bytes : Bytes) (start stop : ℕ) :
    field bytes start stop < 256 ^ (stop - start) := by
  refine Nat.lt_of_lt_of_le (ofLe_lt _) (Nat.pow_le_pow_right (by decide) ?_)
  exact length_take_le _ _

variable {previous : Option Key} {k : Key} {loc : Location}

theorem decodeRow_fits {row : Bytes} (h : decodeRow row previous = .ok (k, loc)) : Fits k loc := by
  unfold decodeRow at h
  dsimp only at h
  split at h
  · cases h
  · next hkind =>
    split at h
    · cases h
    · next hrange =>
      cases h
      rw [not_or] at hkind hrange
      exact
        { kind := Bool.eq_true_of_not_eq_false hkind.1
          hash := field_lt row 2 18
          pack := field_lt row 18 34
          len := Nat.le_of_not_lt hrange.1
          range := Nat.lt_of_not_le hrange.2
          used := field_lt row 50 58 }

variable {bytes : Bytes} {entries : Entries}

theorem decodeRows_fits {count : ℕ} {out : Entries}
    (hentries : ∀ k loc, entries.get? k = some loc → Fits k loc)
    (h : decodeRows count bytes previous entries = .ok out) :
    ∀ k loc, out.get? k = some loc → Fits k loc := by
  induction count generalizing bytes previous entries with
  | zero =>
    cases h
    exact hentries
  | succ count ih =>
    unfold decodeRows at h
    cases hrow : decodeRow (bytes.take ROW) previous with
    | error e =>
      rw [hrow] at h
      cases h
    | ok row =>
      rw [hrow] at h
      refine ih (fun k loc hget => ?_) h
      rw [get?_insert] at hget
      split at hget
      · next heq =>
        cases hget
        exact heq ▸ decodeRow_fits hrow
      · exact hentries k loc hget

variable {checksum : Bytes → Hash128}

theorem decode_fits (h : decode checksum bytes = .ok entries) (hget : entries.get? k = some loc)
    : Fits k loc := by
  unfold decode at h
  split at h
  · cases h
  · cases hlen : indexLen (field bytes 8 12) with
    | error e =>
      simp [hlen, bind, Except.bind] at h
    | ok len =>
      simp only [hlen, bind, Except.bind] at h
      split at h
      · cases h
      · exact decodeRows_fits (fun k loc hk => by cases hk) h k loc hget

theorem decodeRows_size {count : ℕ} {out : Entries}
    (h : decodeRows count bytes previous entries = .ok out) : out.size ≤ entries.size + count := by
  induction count generalizing bytes previous entries with
  | zero =>
    cases h
    exact Nat.le_refl _
  | succ count ih =>
    unfold decodeRows at h
    cases hrow : decodeRow (bytes.take ROW) previous with
    | error e =>
      rw [hrow] at h
      cases h
    | ok row =>
      rw [hrow] at h
      have hinsert := entries.size_insert_le row.1 row.2
      have hrest := ih h
      omega

/-- A file that is accepted is within the limit, as is the number of its rows. -/
theorem decode_limits (h : decode checksum bytes = .ok entries) :
    bytes.length ≤ MAX_INDEX ∧ entries.size * ROW + HEADER ≤ MAX_INDEX := by
  unfold decode at h
  split at h
  · cases h
  · cases hlen : indexLen (field bytes 8 12) with
    | error e =>
      simp [hlen, bind, Except.bind] at h
    | ok len =>
      simp only [hlen, bind, Except.bind] at h
      split at h
      · cases h
      · next hbad =>
        unfold indexLen at hlen
        split at hlen
        · next hlimit =>
          cases hlen
          have hlength := not_not.mp (not_or.mp hbad).1
          have hsize : entries.size ≤ field bytes 8 12 := by
            simpa [size, empty] using decodeRows_size h
          have hrows := Nat.mul_le_mul_right ROW hsize
          omega
        · cases hlen

/-! ### Round trip -/

theorem length_encodeRow (k : Key) (loc : Location) : (encodeRow k loc).length = ROW := by
  simp [encodeRow, ROW]

theorem length_encodeRows (rows : List (Key × Location)) :
    (encodeRows rows).length = rows.length * ROW := by
  induction rows with
  | nil => simp [encodeRows]
  | cons row rows ih =>
    have hcons : encodeRows (row :: rows) = encodeRow row.1 row.2 ++ encodeRows rows := rfl
    rw [hcons, length_append, length_encodeRow, ih, length_cons]
    ring

theorem field_append (before mid after : Bytes) (start stop : ℕ)
    (hstart : before.length = start) (hstop : start + mid.length = stop) :
    field (before ++ (mid ++ after)) start stop = ofLe mid := by
  rw [field, ← hstart, drop_left, ← hstop, ← hstart, Nat.add_sub_cancel_left, take_left]

/-- The row of an entry reads back, after a row with a smaller key. -/
theorem decodeRow_encodeRow (hfits : Fits k loc) (hprevious : ∀ p, previous = some p → p < k) :
    decodeRow (encodeRow k loc) previous = .ok (k, loc) := by
  have hkind : field (encodeRow k loc) 0 2 = (ofLex k).1 := by
    have h := field_append [] (toLe 2 (ofLex k).1)
      (toLe 16 (ofLex k).2 ++ toLe 16 loc.pack ++ toLe 8 loc.offset ++ toLe 8 loc.len ++
        toLe 8 loc.used) 0 2 rfl (by simp)
    rw [ofLe_toLe (lt_of_indexed hfits.kind)] at h
    rw [← h]
    simp [encodeRow]
  have hhash : field (encodeRow k loc) 2 18 = (ofLex k).2 := by
    have h := field_append (toLe 2 (ofLex k).1) (toLe 16 (ofLex k).2)
      (toLe 16 loc.pack ++ toLe 8 loc.offset ++ toLe 8 loc.len ++ toLe 8 loc.used)
      2 18 (by simp) (by simp)
    rw [ofLe_toLe hfits.hash] at h
    rw [← h]
    simp [encodeRow]
  have hpack : field (encodeRow k loc) 18 34 = loc.pack := by
    have h := field_append (toLe 2 (ofLex k).1 ++ toLe 16 (ofLex k).2)
      (toLe 16 loc.pack) (toLe 8 loc.offset ++ toLe 8 loc.len ++ toLe 8 loc.used)
      18 34 (by simp) (by simp)
    rw [ofLe_toLe hfits.pack] at h
    rw [← h]
    simp [encodeRow]
  have hlen : loc.len < 256 ^ 8 := Nat.lt_of_le_of_lt hfits.len (by decide)
  have hoffset : loc.offset < 256 ^ 8 := Nat.lt_of_le_of_lt (Nat.le_add_right _ loc.len) hfits.range
  have hoffset : field (encodeRow k loc) 34 42 = loc.offset := by
    have h := field_append (toLe 2 (ofLex k).1 ++ toLe 16 (ofLex k).2 ++ toLe 16 loc.pack)
      (toLe 8 loc.offset) (toLe 8 loc.len ++ toLe 8 loc.used)
      34 42 (by simp) (by simp)
    rw [ofLe_toLe hoffset] at h
    rw [← h]
    simp [encodeRow]
  have hlen : field (encodeRow k loc) 42 50 = loc.len := by
    have h := field_append (toLe 2 (ofLex k).1 ++ toLe 16 (ofLex k).2 ++ toLe 16 loc.pack ++
      toLe 8 loc.offset) (toLe 8 loc.len) (toLe 8 loc.used)
      42 50 (by simp) (by simp)
    rw [ofLe_toLe hlen] at h
    rw [← h]
    simp [encodeRow]
  have hused : field (encodeRow k loc) 50 58 = loc.used := by
    have h := field_append (toLe 2 (ofLex k).1 ++ toLe 16 (ofLex k).2 ++ toLe 16 loc.pack ++
      toLe 8 loc.offset ++ toLe 8 loc.len) (toLe 8 loc.used) []
      50 58 (by simp) (by simp)
    rw [ofLe_toLe hfits.used] at h
    rw [← h]
    simp [encodeRow]
  have hkey : key (ofLex k).1 (ofLex k).2 = k := rfl
  have horder : previous.any (fun p => decide (k ≤ p)) = false := by
    cases hp : previous with
    | none => rfl
    | some p => simpa using hprevious p hp
  unfold decodeRow
  dsimp only
  rw [hkind, hhash, hpack, hoffset, hlen, hused, hkey, horder, hfits.kind]
  simp [Nat.not_lt.mpr hfits.len, Nat.not_le.mpr hfits.range]

theorem decodeRows_encodeRows {rows : List (Key × Location)}
    (hfits : ∀ row ∈ rows, Fits row.1 row.2) (hsorted : rows.Pairwise fun a b => a.1 < b.1)
    (previous : Option Key) (hprevious : ∀ p, previous = some p → ∀ row ∈ rows, p < row.1)
    (entries : Entries) :
    decodeRows rows.length (encodeRows rows) previous entries =
      .ok (rows.foldl (fun m e => m.insert e.1 e.2) entries) := by
  induction rows generalizing previous entries with
  | nil => rfl
  | cons row rows ih =>
    obtain ⟨hlt, hrest⟩ := pairwise_cons.mp hsorted
    have hcons : encodeRows (row :: rows) = encodeRow row.1 row.2 ++ encodeRows rows := rfl
    have hrow := decodeRow_encodeRow (hfits row mem_cons_self)
      fun p hp => hprevious p hp row mem_cons_self
    have htail := ih (fun r hr => hfits r (mem_cons_of_mem _ hr)) hrest
      (some row.1) (fun p hp r hr => Option.some.inj hp ▸ hlt r hr)
      (entries.insert row.1 row.2)
    rw [length_cons, decodeRows, hcons, take_left' (length_encodeRow _ _),
      drop_left' (length_encodeRow _ _), hrow]
    exact htail

/-- Building a map from the entries of one gives it back. -/
theorem foldl_insert_empty (m : Entries) :
    m.entries.foldl (fun m e => m.insert e.1 e.2) .empty = m :=
  ext_get? fun k => by
    rw [← extend, get?_extend]
    simp

section Header

variable {count : ℕ} {sum : Hash128} {rows : Bytes}

theorem length_header : (header count sum).length = HEADER := by
  simp [header, MAGIC, HEADER]

theorem take_header : (header count sum ++ rows).take 8 = MAGIC := by
  rw [header, append_assoc, append_assoc, append_assoc]
  exact take_left' rfl

theorem pad_header : ((header count sum ++ rows).drop 12).take 4 = [0, 0, 0, 0] := by
  have hsplit : header count sum ++ rows =
      (MAGIC ++ toLe 4 count) ++ (toLe 4 0 ++ (toLe 16 sum ++ rows)) := by
    simp [header]
  have hzero : toLe 4 0 = [0, 0, 0, 0] := by decide
  rw [hsplit, drop_left' (by simp [MAGIC]), take_left' (by simp), hzero]

theorem count_header (hcount : count < 256 ^ 4) : field (header count sum ++ rows) 8 12 = count := by
  have hfield := field_append MAGIC (toLe 4 count)
    (toLe 4 0 ++ toLe 16 sum ++ rows) 8 12 rfl (by simp)
  rw [ofLe_toLe hcount] at hfield
  simpa [header] using hfield

theorem sum_header : field (header count sum ++ rows) 16 32 = sum := by
  have hfield := field_append (MAGIC ++ toLe 4 count ++ toLe 4 0) (toLe 16 sum)
    rows 16 32 (by simp [MAGIC]) (by simp)
  rw [ofLe_toLe sum.isLt] at hfield
  simpa [header] using hfield

end Header

theorem indexLen_ok {count len : ℕ} (h : indexLen count = .ok len) :
    len = count * ROW + HEADER ∧ count < 256 ^ 4 := by
  unfold indexLen at h
  split at h
  · next hlimit =>
    cases h
    refine ⟨rfl, ?_⟩
    simp only [ROW, HEADER, MAX_INDEX] at hlimit
    omega
  · cases h

/-- **Round trip**: an index whose rows fit reads back. -/
theorem decode_encode (hfits : ∀ k loc, entries.get? k = some loc → Fits k loc)
    (h : encode checksum entries = .ok bytes) :
    decode checksum bytes = .ok entries := by
  unfold encode at h
  cases hindex : indexLen entries.size with
  | error e =>
    simp [hindex, bind, Except.bind] at h
  | ok len =>
    obtain ⟨hlen, hcount⟩ := indexLen_ok hindex
    simp only [hindex, bind, Except.bind, Except.ok.injEq] at h
    subst h
    have hrows := decodeRows_encodeRows
      (fun row hrow => hfits row.1 row.2 (mem_iff.mp hrow)) entries.sorted
      none (fun p hp => by cases hp) .empty
    rw [foldl_insert_empty] at hrows
    have hlength : (header entries.size (checksum (encodeRows entries.entries)) ++
        encodeRows entries.entries).length = len := by
      rw [length_append, length_header, length_encodeRows, hlen, size, Nat.add_comm]
    have hlong : ¬len < HEADER := by omega
    unfold decode
    rw [take_header, pad_header, count_header hcount, sum_header, drop_left' length_header, hlength,
      if_neg (by simpa using hlong)]
    dsimp only
    rw [hindex]
    simp only [bind, Except.bind]
    rw [if_neg (by simp)]
    exact hrows

end HdLang.Cache
