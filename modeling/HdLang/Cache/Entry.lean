import HdLang.Lib.Numerals
import Mathlib.Data.BitVec

/-!
# Cache entries

An entry is a header of 64 bytes, a table of sections and their payloads. `encodeEntry` writes one
and `decodeEntry` checks one and splits it: the length and the checksum in the header are those of
what follows it, and a row of the table holds the offset of its payload, which is its length and its
bytes.

The offset is read from the row and may be any number, so the end of the payload's length may lie
past `2^64`, where the reader's sum overflows (`le_panic`).
-/

namespace HdLang.Entry

open List Nat

abbrev Bytes := List UInt8

open LittleEndian

/-! ### Entries -/

inductive EntryKind
  | iface | check | checkTest | graph | pkgres | depfiles | codepack | clpack | packhint | link
  | cwasm | code | parse | lint
  deriving DecidableEq, Repr

/-- `EntryKind::ALL`. -/
def EntryKind.all : List EntryKind :=
  [.iface, .check, .checkTest, .graph, .pkgres, .depfiles, .codepack, .clpack, .packhint, .link,
    .cwasm, .code, .parse, .lint]

/-- `kind as u16`. -/
def EntryKind.number : EntryKind → ℕ
  | iface => 0
  | check => 1
  | checkTest => 2
  | graph => 3
  | pkgres => 4
  | depfiles => 5
  | codepack => 6
  | clpack => 7
  | packhint => 8
  | link => 9
  | cwasm => 10
  | code => 11
  | parse => 12
  | lint => 13

structure EntryHeader where
  kind : EntryKind
  layout : UInt16
  key : BitVec 128
  toolchain : BitVec 128
  payloadLen : UInt64
  checksum : UInt64
  nsections : UInt32
  flags : UInt32
  deriving DecidableEq

/-- A row of the section table. -/
structure SectionEntry where
  kind : UInt16
  flags : UInt16
  rows : UInt32
  offset : UInt64
  deriving DecidableEq

/-- A section to write. -/
structure Section where
  kind : UInt16
  rows : UInt32
  bytes : Bytes
  deriving DecidableEq

def MAGIC : Bytes := [72, 68, 67, 69]
def HEADER_LEN : ℕ := 64
def SECTION_LEN : ℕ := 16

/-- A slice has at most `isize::MAX` bytes. -/
def Fits (bytes : Bytes) : Prop := bytes.length < 2 ^ 63

instance (bytes : Bytes) : Decidable (Fits bytes) := inferInstanceAs (Decidable (_ < _))

/-- The low half of the hash. -/
def checksum (hash : Bytes → BitVec 128) (bytes : Bytes) : UInt64 :=
  ⟨(hash bytes).setWidth 64⟩

/-- A turn of the loop over the sections: a row, and the payload it points to; `none` is the panic
for a section of `2^32` bytes. -/
def pushSection (tableLen : ℕ) (written : Bytes × Bytes) (s : Section) : Option (Bytes × Bytes) :=
  let (body, payload) := written
  let offset := HEADER_LEN + tableLen + payload.length
  if s.bytes.length < 2 ^ 32 then
    some (body ++ toLe 2 s.kind.toNat ++ toLe 2 0 ++ toLe 4 s.rows.toNat ++ toLe 8 offset,
      payload ++ toLe 4 s.bytes.length ++ s.bytes)
  else none

/-- Sections framed into an entry; `none` is a panic, also of a vector past its capacity. -/
def encodeEntry (hash : Bytes → BitVec 128) (kind : EntryKind) (layout : UInt16)
    (key toolchain : BitVec 128) (flags : UInt32) (sections : List Section) : Option Bytes := do
  let tableLen := sections.length * SECTION_LEN
  let (table, payload) ← sections.foldlM (pushSection tableLen) ([], [])
  let body := table ++ payload
  if sections.length < 2 ^ 32 then
    let out := MAGIC ++ toLe 2 kind.number ++ toLe 2 layout.toNat ++ toLe 16 key.toNat ++
      toLe 16 toolchain.toNat ++ toLe 8 body.length ++ toLe 8 (checksum hash body).toNat ++
      toLe 4 sections.length ++ toLe 4 flags.toNat ++ body
    if Fits out then some out else none
  else none

inductive EntryError
  | short
  | magic
  | kind
  | checksum
  | «section»
  deriving DecidableEq, Repr

/-- How reading stops: an entry is rejected, or the reader panics. -/
inductive Halt
  | rejected (e : EntryError)
  | panic
  deriving DecidableEq, Repr

/-- A slice of the entry. -/
structure Slice where
  start : ℕ
  stop : ℕ
  deriving DecidableEq

def Slice.read (s : Slice) (bytes : Bytes) : Bytes := (bytes.drop s.start).take (s.stop - s.start)

/-- `a + b` on `usize`. -/
def add (a b : ℕ) : Except Halt ℕ := if a + b < 2 ^ 64 then .ok (a + b) else .error .panic

/-- `bytes.get(start..stop)`. -/
def get (bytes : Bytes) (start stop : ℕ) : Option Slice :=
  if start ≤ stop ∧ stop ≤ bytes.length then some ⟨start, stop⟩ else none

/-- `n` bytes at `at_`. -/
def le (n : ℕ) (bytes : Bytes) (at_ : ℕ) : Except Halt Bytes := do
  let stop ← add at_ n
  match get bytes at_ stop with
  | some s => .ok (s.read bytes)
  | none => .error (.rejected .short)

/-- The payload at `off`. -/
def payloadAt (bytes : Bytes) (off : ℕ) : Except Halt Slice := do
  let len ← le 4 bytes off
  let start ← add off 4
  let stop ← add start (ofLe len)
  match get bytes start stop with
  | some payload => .ok payload
  | none => .error (.rejected .section)

/-- Row `i` of the table, and its payload. -/
def decodeSection (bytes : Bytes) (i : ℕ) : Except Halt (SectionEntry × Slice) := do
  let at_ := HEADER_LEN + i * SECTION_LEN
  let kind ← le 2 bytes at_
  let flags ← le 2 bytes (at_ + 2)
  let rows ← le 4 bytes (at_ + 4)
  let offset ← le 8 bytes (at_ + 8)
  let payload ← payloadAt bytes (ofLe offset)
  .ok (⟨.ofNat (ofLe kind), .ofNat (ofLe flags), .ofNat (ofLe rows), .ofNat (ofLe offset)⟩, payload)

/-- The rows from `i`, `n` of them. -/
def decodeSections (bytes : Bytes) : ℕ → ℕ → Except Halt (List (SectionEntry × Slice))
  | 0, _ => .ok []
  | n + 1, i => do
    let row ← decodeSection bytes i
    let rows ← decodeSections bytes n (i + 1)
    .ok (row :: rows)

/-- The header, with the checks of it. -/
def decodeHeader (hash : Bytes → BitVec 128) (bytes : Bytes) : Except Halt EntryHeader := do
  if bytes.length < HEADER_LEN then .error (.rejected .short)
  else if bytes.take 4 ≠ MAGIC then .error (.rejected .magic)
  else
    let kindN ← le 2 bytes 4
    match EntryKind.all[ofLe kindN]? with
    | none => .error (.rejected .kind)
    | some kind =>
      let layout ← le 2 bytes 6
      let key ← le 16 bytes 8
      let toolchain ← le 16 bytes 24
      let payloadLen ← le 8 bytes 40
      let sum ← le 8 bytes 48
      let nsections ← le 4 bytes 56
      let flags ← le 4 bytes 60
      if (bytes.drop HEADER_LEN).length ≠ ofLe payloadLen ∨
          (checksum hash (bytes.drop HEADER_LEN)).toNat ≠ ofLe sum then
        .error (.rejected .checksum)
      else
        .ok ⟨kind, .ofNat (ofLe layout), .ofNat _ (ofLe key), .ofNat _ (ofLe toolchain),
          .ofNat (ofLe payloadLen), .ofNat (ofLe sum), .ofNat (ofLe nsections),
          .ofNat (ofLe flags)⟩

/-- An entry checked and split into its header and its sections. -/
def decodeEntry (hash : Bytes → BitVec 128) (bytes : Bytes) :
    Except Halt (EntryHeader × List (SectionEntry × Slice)) := do
  let h ← decodeHeader hash bytes
  let out ← decodeSections bytes h.nsections.toNat 0
  .ok (h, out)

/-! ### Reading -/

section Reading

variable {bytes part rest : Bytes} {at_ n : ℕ}

theorem add_eq {a b : ℕ} (h : a + b < 2 ^ 64) : add a b = .ok (a + b) := if_pos h

theorem drop_next (h : bytes.drop at_ = part ++ rest) : bytes.drop (at_ + part.length) = rest := by
  rw [← drop_drop, h, drop_left]

theorem length_of_drop (h : bytes.drop at_ = part ++ rest) (hpart : part ≠ []) :
    at_ + part.length ≤ bytes.length := by
  have hlen := congrArg List.length h
  have hpos := length_pos_of_ne_nil hpart
  rw [length_drop, length_append] at hlen
  omega

/-- **Reading a part** that stands there. -/
theorem le_of_drop (hfits : Fits bytes) (h : bytes.drop at_ = part ++ rest) (hpart : part ≠ []) :
    le part.length bytes at_ = .ok part := by
  have hlen := length_of_drop h hpart
  have hstop : at_ + part.length < 2 ^ 64 := lt_of_le_of_lt hlen (lt_trans hfits (by decide))
  rw [le, add_eq hstop]
  show (match get bytes at_ (at_ + part.length) with
    | some s => Except.ok (s.read bytes)
    | none => _) = _
  rw [get, if_pos ⟨Nat.le_add_right _ _, hlen⟩]
  show Except.ok ((bytes.drop at_).take (at_ + part.length - at_)) = _
  rw [h, Nat.add_sub_cancel_left, take_left]

theorem le_toLe {value : ℕ} (hfits : Fits bytes) (h : bytes.drop at_ = toLe n value ++ rest)
    (hn : 0 < n) : le n bytes at_ = .ok (toLe n value) := by
  have hne : toLe n value ≠ [] := ne_nil_of_length_pos (by rw [length_toLe]; exact hn)
  have hle := le_of_drop hfits h hne
  rwa [length_toLe] at hle

/-- **How reading `n` bytes ends**: with them, rejected at the end of the entry, or in the sum. -/
theorem le_cases (n : ℕ) (bytes : Bytes) (at_ : ℕ) :
    (at_ + n ≤ bytes.length ∧ le n bytes at_ = .ok ((bytes.drop at_).take n)) ∨
      le n bytes at_ = .error (.rejected .short) ∨
      2 ^ 64 ≤ at_ + n ∧ le n bytes at_ = .error .panic := by
  by_cases hstop : at_ + n < 2 ^ 64
  · rw [le, add_eq hstop]
    show (_ ∧ (match get bytes at_ (at_ + n) with
      | some s => Except.ok (s.read bytes)
      | none => _) = _) ∨ (match get bytes at_ (at_ + n) with
      | some s => Except.ok (s.read bytes)
      | none => _) = _ ∨ _
    by_cases hlen : at_ + n ≤ bytes.length
    · rw [get, if_pos ⟨Nat.le_add_right _ _, hlen⟩]
      refine .inl ⟨hlen, ?_⟩
      show Except.ok ((bytes.drop at_).take (at_ + n - at_)) = _
      rw [Nat.add_sub_cancel_left]
    · rw [get, if_neg fun h => hlen h.2]
      exact .inr (.inl rfl)
  · refine .inr (.inr ⟨not_lt.mp hstop, ?_⟩)
    rw [le, add, if_neg hstop]
    rfl

/-- Reading where the sum cannot overflow does not panic. -/
theorem le_ne_panic (h : at_ + n < 2 ^ 64) : le n bytes at_ ≠ .error .panic := by
  intro hpanic
  obtain ⟨-, hle⟩ | hle | ⟨hlarge, -⟩ := le_cases n bytes at_
  · rw [hpanic] at hle
    cases hle
  · rw [hpanic] at hle
    cases hle
  · omega

theorem of_le_ok (h : le n bytes at_ = .ok part) :
    at_ + n ≤ bytes.length ∧ part = (bytes.drop at_).take n := by
  obtain ⟨hlen, hle⟩ | hle | ⟨-, hle⟩ := le_cases n bytes at_
  · rw [h] at hle
    exact ⟨hlen, Except.ok.inj hle⟩
  · rw [h] at hle
    cases hle
  · rw [h] at hle
    cases hle

variable {α β : Type} {x : Except Halt α} {f : α → Except Halt β}

/-- A computation whose steps do not panic does not. -/
theorem bind_ne_panic (hx : x ≠ .error .panic) (hf : ∀ a, x = .ok a → f a ≠ .error .panic) :
    x >>= f ≠ .error .panic := by
  cases x with
  | error e =>
    intro h
    have he : (Except.error e : Except Halt β) = .error .panic := h
    cases he
    exact hx rfl
  | ok a => exact hf a rfl

theorem ok_then {α β : Type} (a : α) (f : α → Except Halt β) : (Except.ok a >>= f) = f a := rfl

theorem ok_bind {b : β} (h : x >>= f = .ok b) : ∃ a, x = .ok a ∧ f a = .ok b := by
  cases x with
  | error e => cases h
  | ok a => exact ⟨a, rfl, h⟩

end Reading

/-! ### What an entry consists of -/

variable {i : ℕ}

section Layout

variable {hash : Bytes → BitVec 128} {kind : EntryKind} {layout : UInt16}
  {key toolchain : BitVec 128} {flags : UInt32} {sections : List Section} {bytes tail : Bytes}

/-- The row of a section whose payload is at `offset`. -/
def row (offset : ℕ) (s : Section) : Bytes :=
  toLe 2 s.kind.toNat ++ toLe 2 0 ++ toLe 4 s.rows.toNat ++ toLe 8 offset

/-- The table of the sections whose payloads start at `offset`. -/
def table : ℕ → List Section → Bytes
  | _, [] => []
  | offset, s :: sections => row offset s ++ table (offset + (4 + s.bytes.length)) sections

/-- The payloads: each its length and its bytes. -/
def payloads : List Section → Bytes
  | [] => []
  | s :: sections => toLe 4 s.bytes.length ++ (s.bytes ++ payloads sections)

/-- The header of an entry with this body. -/
def header (hash : Bytes → BitVec 128) (kind : EntryKind) (layout : UInt16)
    (key toolchain : BitVec 128) (flags : UInt32) (count : ℕ) (body : Bytes) : Bytes :=
  MAGIC ++ toLe 2 kind.number ++ toLe 2 layout.toNat ++ toLe 16 key.toNat ++
    toLe 16 toolchain.toNat ++ toLe 8 body.length ++ toLe 8 (checksum hash body).toNat ++
    toLe 4 count ++ toLe 4 flags.toNat

/-- The body of an entry with these sections. -/
def body (sections : List Section) : Bytes :=
  table (HEADER_LEN + sections.length * SECTION_LEN) sections ++ payloads sections

variable {count : ℕ}

@[simp] theorem length_header {body : Bytes} :
    (header hash kind layout key toolchain flags count body).length = HEADER_LEN := by
  simp [header, MAGIC, HEADER_LEN]

/-- The loop over the sections writes the table and the payloads, unless a section is too long. -/
theorem foldlM_pushSection (tableLen : ℕ) (written payload : Bytes) :
    sections.foldlM (pushSection tableLen) (written, payload) =
      if ∀ s ∈ sections, s.bytes.length < 2 ^ 32 then
        some (written ++ table (HEADER_LEN + tableLen + payload.length) sections,
          payload ++ payloads sections)
      else none := by
  induction sections generalizing written payload with
  | nil => simp [table, payloads]
  | cons s sections ih =>
    rw [foldlM_cons, pushSection]
    by_cases hs : s.bytes.length < 2 ^ 32
    · rw [if_pos hs]
      show sections.foldlM (pushSection tableLen) (_, _) = _
      rw [ih]
      have hoffset : HEADER_LEN + tableLen + (payload ++ toLe 4 s.bytes.length ++ s.bytes).length =
          HEADER_LEN + tableLen + payload.length + (4 + s.bytes.length) := by
        rw [length_append, length_append, length_toLe]
        omega
      have hall : (∀ s' ∈ s :: sections, s'.bytes.length < 2 ^ 32) ↔
          ∀ s' ∈ sections, s'.bytes.length < 2 ^ 32 := by
        simp only [mem_cons, forall_eq_or_imp, hs, true_and]
      rw [hoffset, if_congr hall.symm rfl rfl]
      simp only [table, row, payloads, append_assoc]
    · rw [if_neg hs, if_neg fun hall => hs (hall s mem_cons_self)]
      rfl

/-- **An entry** is its header and its body; writing it panics exactly when a section, their number
or the entry is too long. -/
theorem encodeEntry_eq :
    encodeEntry hash kind layout key toolchain flags sections =
      if (∀ s ∈ sections, s.bytes.length < 2 ^ 32) ∧ sections.length < 2 ^ 32 ∧
          Fits (header hash kind layout key toolchain flags sections.length (body sections) ++
            body sections) then
        some (header hash kind layout key toolchain flags sections.length (body sections) ++
          body sections)
      else none := by
  rw [encodeEntry]
  show (sections.foldlM (pushSection (sections.length * SECTION_LEN)) ([], []) >>= _) = _
  rw [foldlM_pushSection]
  by_cases hs : ∀ s ∈ sections, s.bytes.length < 2 ^ 32
  · rw [if_pos hs]
    show (if sections.length < 2 ^ 32 then
      if Fits (header hash kind layout key toolchain flags sections.length (body sections) ++
          body sections) then
        some (header hash kind layout key toolchain flags sections.length (body sections) ++
          body sections)
      else none
    else none) = _
    split
    · next hcount =>
      split
      · next hfits => rw [if_pos ⟨hs, hcount, hfits⟩]
      · next hfits => rw [if_neg fun h => hfits h.2.2]
    · next hcount => rw [if_neg fun h => hcount h.2.1]
  · rw [if_neg hs, if_neg fun h => hs h.1]
    rfl

theorem EntryKind.all_number (kind : EntryKind) : EntryKind.all[kind.number]? = some kind := by
  cases kind <;> rfl

theorem EntryKind.number_lt (kind : EntryKind) : kind.number < 256 ^ 2 := by
  cases kind <;> decide

variable {written : Bytes}

/-- **Reading the header** of what a header stands before: the fields, when the length and the
checksum are those of what follows. -/
theorem decodeHeader_header (hcount : count < 2 ^ 32) (hwritten : written.length < 2 ^ 64)
    (hbytes : bytes = header hash kind layout key toolchain flags count written ++ tail)
    (hfits : Fits bytes) :
    decodeHeader hash bytes =
      if tail.length ≠ written.length ∨
          (checksum hash tail).toNat ≠ (checksum hash written).toNat then
        .error (.rejected .checksum)
      else
        .ok ⟨kind, layout, key, toolchain, .ofNat written.length, checksum hash written,
          .ofNat count, flags⟩ := by
  have h₀ : bytes.drop 0 = MAGIC ++ (toLe 2 kind.number ++ (toLe 2 layout.toNat ++
      (toLe 16 key.toNat ++ (toLe 16 toolchain.toNat ++ (toLe 8 written.length ++
        (toLe 8 (checksum hash written).toNat ++ (toLe 4 count ++ (toLe 4 flags.toNat ++
          tail)))))))) := by
    rw [hbytes, header, drop_zero]
    simp only [append_assoc]
  have h₁ : bytes.drop 4 = _ := drop_next h₀
  have h₂ : bytes.drop 6 = _ := drop_next h₁
  have h₃ : bytes.drop 8 = _ := drop_next h₂
  have h₄ : bytes.drop 24 = _ := drop_next h₃
  have h₅ : bytes.drop 40 = _ := drop_next h₄
  have h₆ : bytes.drop 48 = _ := drop_next h₅
  have h₇ : bytes.drop 56 = _ := drop_next h₆
  have h₈ : bytes.drop 60 = _ := drop_next h₇
  have h₉ : bytes.drop 64 = _ := drop_next h₈
  have hlong : ¬bytes.length < HEADER_LEN := by
    rw [hbytes, length_append, length_header]
    omega
  have hmagic : ¬bytes.take 4 ≠ MAGIC := by
    rw [drop_zero] at h₀
    rw [h₀]
    exact not_not.mpr rfl
  have hlayout : ofLe (toLe 2 layout.toNat) = layout.toNat := ofLe_toLe layout.toNat_lt
  have hkey : ofLe (toLe 16 key.toNat) = key.toNat := ofLe_toLe key.isLt
  have htoolchain : ofLe (toLe 16 toolchain.toNat) = toolchain.toNat := ofLe_toLe toolchain.isLt
  have hlen : ofLe (toLe 8 written.length) = written.length := ofLe_toLe hwritten
  have hsum : ofLe (toLe 8 (checksum hash written).toNat) = (checksum hash written).toNat :=
    ofLe_toLe (checksum hash written).toNat_lt
  have hnumber : ofLe (toLe 4 count) = count := ofLe_toLe hcount
  have hflags : ofLe (toLe 4 flags.toNat) = flags.toNat := ofLe_toLe flags.toNat_lt
  rw [decodeHeader, if_neg hlong, if_neg hmagic, le_toLe hfits h₁ (by decide)]
  show (match EntryKind.all[ofLe (toLe 2 kind.number)]? with
    | none => _
    | some kind => _) = _
  rw [ofLe_toLe kind.number_lt, kind.all_number]
  show (le 2 bytes 6 >>= _) = _
  rw [le_toLe hfits h₂ (by decide), ok_then, le_toLe hfits h₃ (by decide), ok_then,
    le_toLe hfits h₄ (by decide), ok_then, le_toLe hfits h₅ (by decide), ok_then,
    le_toLe hfits h₆ (by decide), ok_then, le_toLe hfits h₇ (by decide), ok_then,
    le_toLe hfits h₈ (by decide), ok_then]
  show (if (bytes.drop HEADER_LEN).length ≠ ofLe (toLe 8 written.length) ∨
      (checksum hash (bytes.drop HEADER_LEN)).toNat ≠
        ofLe (toLe 8 (checksum hash written).toNat) then
    Except.error (Halt.rejected .checksum) else Except.ok _) = _
  rw [HEADER_LEN, h₉, hlen, hsum, hlayout, hkey, htoolchain, hnumber, hflags, UInt16.ofNat_toNat,
    BitVec.ofNat_toNat, BitVec.ofNat_toNat, BitVec.setWidth_eq,
    BitVec.setWidth_eq, UInt64.ofNat_toNat, UInt32.ofNat_toNat]

variable {offset : ℕ} {rest : Bytes}

theorem payloadAt_eq (hfits : Fits bytes) (hs : written.length < 2 ^ 32)
    (h : bytes.drop offset = toLe 4 written.length ++ (written ++ rest)) :
    offset < 2 ^ 63 ∧ ∃ payload, payloadAt bytes offset = .ok payload ∧
      payload.read bytes = written := by
  have hsmall : bytes.length < 2 ^ 63 := hfits
  have hlen : ofLe (toLe 4 written.length) = written.length := ofLe_toLe hs
  have hnext : bytes.drop (offset + 4) = written ++ rest := drop_next h
  have hend : offset + 4 + written.length ≤ bytes.length := by
    have hall := congrArg List.length h
    simp only [length_drop, length_append, length_toLe] at hall
    omega
  refine ⟨by omega, ⟨offset + 4, offset + 4 + written.length⟩, ?_, ?_⟩
  · rw [payloadAt, le_toLe hfits h (by decide), ok_then, add_eq (by omega), ok_then, hlen,
      add_eq (by omega), ok_then]
    show (match get bytes (offset + 4) (offset + 4 + written.length) with
      | some payload => Except.ok payload
      | none => _) = _
    rw [get, if_pos ⟨Nat.le_add_right _ _, hend⟩]
  · show (bytes.drop (offset + 4)).take (offset + 4 + written.length - (offset + 4)) = _
    rw [hnext, Nat.add_sub_cancel_left, take_left]

/-- Reading the row of a section, and its payload. -/
theorem decodeSection_row {s : Section} {rest' : Bytes} (hfits : Fits bytes)
    (hs : s.bytes.length < 2 ^ 32)
    (hrow : bytes.drop (HEADER_LEN + i * SECTION_LEN) = row offset s ++ rest)
    (hpayload : bytes.drop offset = toLe 4 s.bytes.length ++ (s.bytes ++ rest')) :
    ∃ e payload, decodeSection bytes i = .ok (e, payload) ∧ e.kind = s.kind ∧ e.flags = 0 ∧
      e.rows = s.rows ∧ payload.read bytes = s.bytes := by
  obtain ⟨hsmall, payload, hread, hbytes⟩ := payloadAt_eq hfits hs hpayload
  have h₁ : bytes.drop (HEADER_LEN + i * SECTION_LEN) = toLe 2 s.kind.toNat ++ (toLe 2 0 ++
      (toLe 4 s.rows.toNat ++ (toLe 8 offset ++ rest))) := by
    rw [hrow, row]
    simp only [append_assoc]
  have h₂ : bytes.drop (HEADER_LEN + i * SECTION_LEN + 2) = _ := drop_next h₁
  have h₃ : bytes.drop (HEADER_LEN + i * SECTION_LEN + 4) = _ := drop_next h₂
  have h₄ : bytes.drop (HEADER_LEN + i * SECTION_LEN + 8) = _ := drop_next h₃
  have hoffset : ofLe (toLe 8 offset) = offset := ofLe_toLe (by omega)
  refine ⟨⟨.ofNat (ofLe (toLe 2 s.kind.toNat)), .ofNat (ofLe (toLe 2 0)),
    .ofNat (ofLe (toLe 4 s.rows.toNat)), .ofNat (ofLe (toLe 8 offset))⟩, payload, ?_, ?_, rfl, ?_,
    hbytes⟩
  · rw [decodeSection]
    show (le 2 bytes (HEADER_LEN + i * SECTION_LEN) >>= _) = _
    rw [le_toLe hfits h₁ (by decide), ok_then, le_toLe hfits h₂ (by decide), ok_then,
      le_toLe hfits h₃ (by decide), ok_then, le_toLe hfits h₄ (by decide), ok_then, hoffset, hread,
      ok_then]
  · show UInt16.ofNat (ofLe (toLe 2 s.kind.toNat)) = _
    rw [ofLe_toLe s.kind.toNat_lt, UInt16.ofNat_toNat]
  · show UInt32.ofNat (ofLe (toLe 4 s.rows.toNat)) = _
    rw [ofLe_toLe s.rows.toNat_lt, UInt32.ofNat_toNat]

/-- **Reading the sections** of an entry gives them in order. -/
theorem decodeSections_table (hfits : Fits bytes) (hs : ∀ s ∈ sections, s.bytes.length < 2 ^ 32)
    (htable : bytes.drop (HEADER_LEN + i * SECTION_LEN) = table offset sections ++ tail)
    (hpayloads : bytes.drop offset = payloads sections) :
    ∃ rows, decodeSections bytes sections.length i = .ok rows ∧ (∀ r ∈ rows, r.1.flags = 0) ∧
      rows.map (fun r => ⟨r.1.kind, r.1.rows, r.2.read bytes⟩) = sections := by
  induction sections generalizing i offset with
  | nil => exact ⟨[], rfl, by simp, rfl⟩
  | cons s sections ih =>
    rw [table, append_assoc] at htable
    rw [payloads] at hpayloads
    obtain ⟨e, payload, hrow, hkind, hflags, hrows, hread⟩ :=
      decodeSection_row hfits (hs s mem_cons_self) htable hpayloads
    have hnext : bytes.drop (HEADER_LEN + (i + 1) * SECTION_LEN) =
        table (offset + (4 + s.bytes.length)) sections ++ tail := by
      rw [add_mul, one_mul, ← add_assoc]
      exact drop_next htable
    have hrest : bytes.drop (offset + (4 + s.bytes.length)) = payloads sections := by
      rw [← add_assoc]
      exact drop_next (drop_next hpayloads)
    obtain ⟨rows, hdecode, hall, hmap⟩ :=
      ih (fun s' hs' => hs s' (mem_cons_of_mem _ hs')) hnext hrest
    refine ⟨(e, payload) :: rows, ?_, ?_, ?_⟩
    · rw [length_cons, decodeSections, hrow]
      show (decodeSections bytes sections.length (i + 1) >>= _) = _
      rw [hdecode]
      rfl
    · exact forall_mem_cons.mpr ⟨hflags, hall⟩
    · rw [map_cons, hmap, hkind, hrows, hread]

theorem length_table :
    (table offset sections).length = sections.length * SECTION_LEN := by
  induction sections generalizing offset with
  | nil => simp [table]
  | cons s sections ih =>
    rw [table, length_append, ih, length_cons]
    simp [row, SECTION_LEN]
    omega

/-- **Reading an entry that was written** gives its header and its sections. -/
theorem decodeEntry_encodeEntry
    (h : encodeEntry hash kind layout key toolchain flags sections = some bytes) :
    ∃ rows, decodeEntry hash bytes = .ok (⟨kind, layout, key, toolchain,
        .ofNat (body sections).length, checksum hash (body sections), .ofNat sections.length,
        flags⟩, rows) ∧ (∀ r ∈ rows, r.1.flags = 0) ∧
      rows.map (fun r => ⟨r.1.kind, r.1.rows, r.2.read bytes⟩) = sections := by
  rw [encodeEntry_eq] at h
  split at h
  · next hall =>
    obtain ⟨hs, hcount, hfits⟩ := hall
    have hbytes := (Option.some.inj h).symm
    rw [← hbytes] at hfits
    have hsmall : bytes.length < 2 ^ 63 := hfits
    have hbody : (body sections).length < 2 ^ 64 := by
      rw [hbytes, length_append] at hsmall
      omega
    have hheader := decodeHeader_header hcount hbody hbytes hfits
    rw [if_neg (by simp)] at hheader
    have hnumber : (UInt32.ofNat sections.length).toNat = sections.length := by
      rw [UInt32.toNat_ofNat', mod_eq_of_lt hcount]
    have hdrop : bytes.drop HEADER_LEN = body sections := by
      rw [hbytes, ← length_header, drop_left]
    have hpayloads : bytes.drop (HEADER_LEN + sections.length * SECTION_LEN) =
        payloads sections := by
      rw [← drop_drop, hdrop, body]
      exact drop_left' length_table
    have htable : bytes.drop (HEADER_LEN + 0 * SECTION_LEN) =
        table (HEADER_LEN + sections.length * SECTION_LEN) sections ++ payloads sections := by
      rw [zero_mul, add_zero]
      exact hdrop
    obtain ⟨rows, hrows, hflags, hmap⟩ := decodeSections_table hfits hs htable hpayloads
    refine ⟨rows, ?_, hflags, hmap⟩
    rw [decodeEntry, hheader]
    show (decodeSections bytes (UInt32.ofNat sections.length).toNat 0 >>= _) = _
    rw [hnumber, hrows]
    rfl
  · cases h

end Layout

/-! ### Every byte string -/

section Total

variable {hash : Bytes → BitVec 128} {bytes : Bytes}

/-- The offset that row `i` of the table holds. -/
def rowOffset (bytes : Bytes) (i : ℕ) : ℕ :=
  ofLe ((bytes.drop (HEADER_LEN + i * SECTION_LEN + 8)).take 8)

/-- **The header is read without a panic.** -/
theorem decodeHeader_ne_panic : decodeHeader hash bytes ≠ .error .panic := by
  have hle {n at_ : ℕ} (h : at_ + n < 2 ^ 64) : le n bytes at_ ≠ .error .panic := le_ne_panic h
  rw [decodeHeader]
  split
  · exact fun h => by cases h
  · split
    · exact fun h => by cases h
    · refine bind_ne_panic (hle (by decide)) fun kindN _ => ?_
      split
      · exact fun h => by cases h
      · refine bind_ne_panic (hle (by decide)) fun layout _ => ?_
        refine bind_ne_panic (hle (by decide)) fun key _ => ?_
        refine bind_ne_panic (hle (by decide)) fun toolchain _ => ?_
        refine bind_ne_panic (hle (by decide)) fun payloadLen _ => ?_
        refine bind_ne_panic (hle (by decide)) fun sum _ => ?_
        refine bind_ne_panic (hle (by decide)) fun nsections _ => ?_
        refine bind_ne_panic (hle (by decide)) fun flags _ => ?_
        split <;> exact fun h => by cases h

/-- A payload is read without a panic when the end of its length is a number of 64 bits. -/
theorem payloadAt_ne_panic {off : ℕ} (hfits : Fits bytes) (h : off + 4 < 2 ^ 64) :
    payloadAt bytes off ≠ .error .panic := by
  have hsmall : bytes.length < 2 ^ 63 := hfits
  refine bind_ne_panic (le_ne_panic h) fun len hlen => ?_
  obtain ⟨hend, hpart⟩ := of_le_ok hlen
  have hlt : ofLe len < 256 ^ 4 := by
    refine lt_of_lt_of_le (ofLe_lt len) (Nat.pow_le_pow_right (by decide) ?_)
    rw [hpart]
    exact length_take_le ..
  rw [add_eq h, ok_then, add_eq (by omega), ok_then]
  split <;> exact fun h => by cases h

/-- A row is read without a panic when its offset does not overflow. -/
theorem decodeSection_ne_panic (hfits : Fits bytes) (hi : i < 2 ^ 32)
    (h : rowOffset bytes i + 4 < 2 ^ 64) : decodeSection bytes i ≠ .error .panic := by
  have hat : HEADER_LEN + i * SECTION_LEN + 16 < 2 ^ 64 := by
    unfold HEADER_LEN SECTION_LEN
    omega
  refine bind_ne_panic (le_ne_panic (by omega)) fun kind _ => ?_
  refine bind_ne_panic (le_ne_panic (by omega)) fun flags _ => ?_
  refine bind_ne_panic (le_ne_panic (by omega)) fun rows _ => ?_
  refine bind_ne_panic (le_ne_panic (by omega)) fun offset hoffset => ?_
  obtain ⟨-, rfl⟩ := of_le_ok hoffset
  exact bind_ne_panic (payloadAt_ne_panic hfits h) fun payload _ h => by cases h

/-- The slices of rows that were read lie in the entry. -/
theorem decodeSections_inside {n : ℕ} {rows : List (SectionEntry × Slice)}
    (h : decodeSections bytes n i = .ok rows) :
    ∀ r ∈ rows, r.2.start ≤ r.2.stop ∧ r.2.stop ≤ bytes.length := by
  induction n generalizing i rows with
  | zero =>
    cases h
    simp
  | succ n ih =>
    obtain ⟨⟨e, payload⟩, hrow, h⟩ := ok_bind h
    obtain ⟨rest, hrest, h⟩ := ok_bind h
    cases h
    refine forall_mem_cons.mpr ⟨?_, ih hrest⟩
    obtain ⟨_, -, hrow⟩ := ok_bind hrow
    obtain ⟨_, -, hrow⟩ := ok_bind hrow
    obtain ⟨_, -, hrow⟩ := ok_bind hrow
    obtain ⟨_, -, hrow⟩ := ok_bind hrow
    obtain ⟨found, hpayload, hrow⟩ := ok_bind hrow
    cases hrow
    obtain ⟨_, -, hpayload⟩ := ok_bind hpayload
    obtain ⟨_, -, hpayload⟩ := ok_bind hpayload
    obtain ⟨_, -, hpayload⟩ := ok_bind hpayload
    split at hpayload
    · next s hget =>
      cases hpayload
      unfold get at hget
      split at hget
      · next hin =>
        cases hget
        exact hin
      · cases hget
    · cases hpayload

/-- Rows are read without a panic when no offset overflows. -/
theorem decodeSections_ne_panic {n : ℕ} (hfits : Fits bytes) (hn : i + n ≤ 2 ^ 32)
    (h : ∀ j < i + n, rowOffset bytes j + 4 < 2 ^ 64) :
    decodeSections bytes n i ≠ .error .panic := by
  induction n generalizing i with
  | zero => exact fun hpanic => by cases hpanic
  | succ n ih =>
    refine bind_ne_panic (decodeSection_ne_panic hfits (by omega) (h i (by omega))) fun row _ => ?_
    refine bind_ne_panic (ih (by omega) fun j hj => h j (by omega)) fun rows _ hpanic => ?_
    cases hpanic

/-- **An entry is read without a panic** when no offset of its table overflows. -/
theorem decodeEntry_ne_panic (hfits : Fits bytes)
    (h : ∀ header, decodeHeader hash bytes = .ok header →
      ∀ i < header.nsections.toNat, rowOffset bytes i + 4 < 2 ^ 64) :
    decodeEntry hash bytes ≠ .error .panic := by
  refine bind_ne_panic decodeHeader_ne_panic fun header hheader => ?_
  have hcount := header.nsections.toNat_lt
  refine bind_ne_panic (decodeSections_ne_panic hfits (by omega) fun i hi =>
    h header hheader i (by omega)) fun rows _ hpanic => ?_
  cases hpanic

end Total

/-! ### Changed entries -/

section Changed

variable {hash : Bytes → BitVec 128} {kind : EntryKind} {layout : UInt16}
  {key toolchain : BitVec 128} {flags : UInt32} {sections : List Section} {bytes tail : Bytes}

/-- **What follows the header of an entry** is rejected when its length or its checksum differs
from the body's. -/
theorem decodeEntry_changed
    (h : encodeEntry hash kind layout key toolchain flags sections = some bytes)
    (hfits : Fits (bytes.take HEADER_LEN ++ tail))
    (htail : tail.length ≠ (body sections).length ∨
      checksum hash tail ≠ checksum hash (body sections)) :
    decodeEntry hash (bytes.take HEADER_LEN ++ tail) = .error (.rejected .checksum) := by
  rw [encodeEntry_eq] at h
  split at h
  · next hall =>
    obtain ⟨-, hcount, hbytes⟩ := hall
    have hsmall : (header hash kind layout key toolchain flags sections.length (body sections) ++
        body sections).length < 2 ^ 63 := hbytes
    rw [length_append] at hsmall
    have hbody : (body sections).length < 2 ^ 64 := by omega
    have htake : bytes.take HEADER_LEN =
        header hash kind layout key toolchain flags sections.length (body sections) := by
      rw [← Option.some.inj h]
      exact take_left' length_header
    rw [htake] at hfits ⊢
    have hheader := decodeHeader_header hcount hbody rfl hfits
    have hrejected : tail.length ≠ (body sections).length ∨
        (checksum hash tail).toNat ≠ (checksum hash (body sections)).toNat :=
      htail.imp_right fun hne heq => hne (UInt64.toNat.inj heq)
    rw [if_pos hrejected] at hheader
    rw [decodeEntry, hheader]
    rfl
  · cases h

theorem decodeEntry_take
    (h : encodeEntry hash kind layout key toolchain flags sections = some bytes) {n : ℕ}
    (hn : n < bytes.length) : ∃ e, decodeEntry hash (bytes.take n) = .error (.rejected e) := by
  have hbytes := h
  rw [encodeEntry_eq] at hbytes
  split at hbytes
  · next hall =>
    have heq := (Option.some.inj hbytes).symm
    have hsmall : bytes.length < 2 ^ 63 := heq ▸ hall.2.2
    have hlen : bytes.length = HEADER_LEN + (body sections).length := by
      rw [heq, length_append, length_header]
    by_cases hshort : n < HEADER_LEN
    · refine ⟨.short, ?_⟩
      rw [decodeEntry, decodeHeader, if_pos (lt_of_le_of_lt (length_take_le n bytes) hshort)]
      rfl
    · have hsplit : bytes.take n =
          bytes.take HEADER_LEN ++ (bytes.drop HEADER_LEN).take (n - HEADER_LEN) := by
        rw [← take_add, Nat.add_sub_cancel' (not_lt.mp hshort)]
      rw [hsplit]
      refine ⟨.checksum, decodeEntry_changed h ?_ (.inl ?_)⟩
      · rw [← hsplit]
        exact lt_of_le_of_lt (length_take_le' ..) hsmall
      · rw [length_take, length_drop]
        omega
  · cases hbytes

/-- **Entry framing**: an entry that can be written is read back exactly, shortened, extended and
changed entries are rejected, reading does not panic while no offset overflows, and the payloads lie
in the entry. -/
theorem entry_framing (hash : Bytes → BitVec 128) :
    (∀ kind layout key toolchain flags sections,
      (encodeEntry hash kind layout key toolchain flags sections = none ↔
        ¬((∀ s ∈ sections, s.bytes.length < 2 ^ 32) ∧ sections.length < 2 ^ 32 ∧
          HEADER_LEN + (body sections).length < 2 ^ 63)) ∧
      ∀ bytes, encodeEntry hash kind layout key toolchain flags sections = some bytes →
        (∃ rows, decodeEntry hash bytes = .ok (⟨kind, layout, key, toolchain,
            .ofNat (bytes.drop HEADER_LEN).length, checksum hash (bytes.drop HEADER_LEN),
            .ofNat sections.length, flags⟩, rows) ∧ (∀ r ∈ rows, r.1.flags = 0) ∧
          rows.map (fun r => ⟨r.1.kind, r.1.rows, r.2.read bytes⟩) = sections) ∧
        (∀ n < bytes.length, ∃ e, decodeEntry hash (bytes.take n) = .error (.rejected e)) ∧
        (∀ extra, extra ≠ [] → Fits (bytes ++ extra) →
          ∃ e, decodeEntry hash (bytes ++ extra) = .error (.rejected e)) ∧
        ∀ tail, Fits (bytes.take HEADER_LEN ++ tail) →
          checksum hash tail ≠ checksum hash (bytes.drop HEADER_LEN) →
          ∃ e, decodeEntry hash (bytes.take HEADER_LEN ++ tail) = .error (.rejected e)) ∧
      (∀ bytes, Fits bytes → (∀ header, decodeHeader hash bytes = .ok header →
        ∀ i < header.nsections.toNat, rowOffset bytes i + 4 < 2 ^ 64) →
        decodeEntry hash bytes ≠ .error .panic) ∧
      ∀ bytes header rows, decodeEntry hash bytes = .ok (header, rows) →
        ∀ r ∈ rows, r.2.start ≤ r.2.stop ∧ r.2.stop ≤ bytes.length := by
  refine ⟨fun kind layout key toolchain flags sections => ⟨?_, fun bytes h => ?_⟩,
    fun bytes hfits h => decodeEntry_ne_panic hfits h, fun bytes header rows h => ?_⟩
  · have hfits : Fits (header hash kind layout key toolchain flags sections.length (body sections)
      ++
        body sections) ↔ HEADER_LEN + (body sections).length < 2 ^ 63 := by
      rw [Fits, List.length_append, length_header]
    rw [encodeEntry_eq, ← hfits]
    split
    · next hall => exact iff_of_false (by simp) (not_not.mpr hall)
    · next hall => exact iff_of_true rfl hall
  · have hdrop : bytes.drop HEADER_LEN = body sections := by
      have hbytes := h
      rw [encodeEntry_eq] at hbytes
      split at hbytes
      · rw [← Option.some.inj hbytes]
        exact List.drop_left' length_header
      · cases hbytes
    have hsplit : bytes = bytes.take HEADER_LEN ++ body sections := by
      rw [← hdrop, List.take_append_drop]
    rw [hdrop]
    refine ⟨decodeEntry_encodeEntry h, fun n hn => decodeEntry_take h hn,
      fun extra hextra hfits => ⟨.checksum, ?_⟩,
      fun tail hfits htail => ⟨.checksum, decodeEntry_changed h hfits (.inr htail)⟩⟩
    have happend : bytes ++ extra = bytes.take HEADER_LEN ++ (body sections ++ extra) := by
      conv_lhs => rw [hsplit]
      rw [List.append_assoc]
    rw [happend] at hfits ⊢
    have hpos := List.length_pos_of_ne_nil hextra
    exact decodeEntry_changed h hfits (.inl (by rw [List.length_append]; omega))
  · obtain ⟨_, -, h⟩ := ok_bind h
    obtain ⟨_, hrows, h⟩ := ok_bind h
    cases h
    exact decodeSections_inside hrows

/-- A hash that tells two bodies apart in its upper half only. -/
def upperHash (bytes : Bytes) : BitVec 128 := if bytes.getLast? = some 1 then 0 else 2 ^ 64

/-- A section of `2^32` bytes is not written, and an entry whose body changes to one with another
hash may be accepted. -/
theorem entry_framing_limits :
    encodeEntry upperHash .iface 0 0 0 0 [⟨0, 0, List.replicate (2 ^ 32) 0⟩] = none ∧
      ∃ bytes changed,
        encodeEntry upperHash .iface 0 0 0 0 [⟨0, 0, [1]⟩] = some bytes ∧
        encodeEntry upperHash .iface 0 0 0 0 [⟨0, 0, [2]⟩] = some changed ∧
        changed.take HEADER_LEN = bytes.take HEADER_LEN ∧
        upperHash (changed.drop HEADER_LEN) ≠ upperHash (bytes.drop HEADER_LEN) ∧
        ∃ header rows, decodeEntry upperHash changed = .ok (header, rows) := by
  refine ⟨?_, ?_⟩
  · rw [encodeEntry_eq, if_neg]
    rintro ⟨hs, -⟩
    have hlen := hs ⟨0, 0, List.replicate (2 ^ 32) 0⟩ List.mem_cons_self
    rw [List.length_replicate] at hlen
    exact lt_irrefl _ hlen
  · have hbytes : ∃ bytes, encodeEntry upperHash .iface 0 0 0 0 [⟨0, 0, [1]⟩] = some bytes ∧
        bytes = header upperHash .iface 0 0 0 0 1 (body [⟨0, 0, [1]⟩]) ++ body [⟨0, 0, [1]⟩] := by
      rw [encodeEntry_eq, if_pos (by decide)]
      exact ⟨_, rfl, rfl⟩
    have hchanged : ∃ bytes, encodeEntry upperHash .iface 0 0 0 0 [⟨0, 0, [2]⟩] = some bytes ∧
        bytes = header upperHash .iface 0 0 0 0 1 (body [⟨0, 0, [2]⟩]) ++ body [⟨0, 0, [2]⟩] := by
      rw [encodeEntry_eq, if_pos (by decide)]
      exact ⟨_, rfl, rfl⟩
    obtain ⟨bytes, hencode, rfl⟩ := hbytes
    obtain ⟨changed, hencode', rfl⟩ := hchanged
    obtain ⟨rows, hrows, -⟩ := decodeEntry_encodeEntry hencode'
    exact ⟨_, _, hencode, hencode', by decide +kernel, by decide +kernel, _, rows, hrows⟩

end Changed

end HdLang.Entry
