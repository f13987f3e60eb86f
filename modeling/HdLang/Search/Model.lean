import HdLang.Arith
import HdLang.Lib.Loop

/-!
# Substring search of `std.text`

The searches of `std.text` over byte strings: Two-Way for the first occurrence (`searcher`,
`search_from`) and Knuth-Morris-Pratt, over both strings read backwards, for the last one
(`byte_rfind`). A read outside a string and a subtraction below zero stop the run; the loops whose end is
not plain from their text are given turns.
-/

namespace HdLang.Search

/-- The bytes of a string. -/
abbrev Bytes : Type := List UInt8

/-- `a - b` -/
def sub (a b : ℕ) : Except Stop ℕ := if b ≤ a then .ok (a - b) else .error overflow

theorem ok_bind {α β : Type} (a : α) (f : α → Except Stop β) : (Except.ok a >>= f) = f a := rfl

/-! ### Byte primitives -/

def bytesAt (text : Bytes) (index : ℕ) : Except Stop UInt8 :=
  match text[index]? with
  | some byte => .ok byte
  | none => .error .outOfBounds

def bytesSlice (text : Bytes) (start stop : ℕ) : Except Stop Bytes :=
  if start ≤ stop ∧ stop ≤ text.length then .ok ((text.drop start).take (stop - start))
  else .error .outOfBounds

/-- `bytes_index`, from `index` on. -/
def bytesIndex (text : Bytes) (byte : UInt8) (index : ℕ) : Except Stop ℕ :=
  if _h : index < text.length then do
    let found ← bytesAt text index
    if found = byte then return index
    else bytesIndex text byte (index + 1)
  else .ok text.length
termination_by text.length - index

/-- `bytes_index_pair`, from `index` on. -/
def bytesIndexPair (text : Bytes) (first last : UInt8) (gap index : ℕ) : Except Stop ℕ :=
  if _h : index < text.length ∧ gap < text.length - index then do
    let left ← bytesAt text index
    let right ← bytesAt text (index + gap)
    if left = first ∧ right = last then return index
    else bytesIndexPair text first last gap (index + 1)
  else .ok text.length
termination_by text.length - index

/-- The loop of `bytes_mismatch`, from `index` on. -/
def bytesMismatchFrom (left right : Bytes) (shorter index : ℕ) : Except Stop ℕ :=
  if _h : index < shorter then do
    let a ← bytesAt left index
    let b ← bytesAt right index
    if a ≠ b then return index
    else bytesMismatchFrom left right shorter (index + 1)
  else .ok shorter
termination_by shorter - index

def bytesMismatch (left right : Bytes) : Except Stop ℕ :=
  let shorter := if left.length < right.length then left.length else right.length
  bytesMismatchFrom left right shorter 0

def bytesMatch (text needle : Bytes) (start : ℕ) : Except Stop Bool := do
  let width := needle.length
  let mismatch ← bytesMismatch (← bytesSlice text start (start + width)) needle
  return decide (mismatch = width)

/-! ### The searcher -/

structure Searcher where
  needle : Bytes
  split : ℕ
  period : ℕ
  periodic : Bool
  byteset : BitVec 64

/-- The state of the loop of `maximal_suffix`. -/
structure Scan where
  left : ℕ
  right : ℕ
  offset : ℕ
  period : ℕ

/-- One turn of the loop of `maximal_suffix`. -/
def maximalSuffixTurn (needle : Bytes) (reversed : Bool) (s : Scan) :
    Except Stop (Scan ⊕ (ℕ × ℕ)) :=
  if s.right + s.offset < needle.length then do
    let a ← bytesAt needle (s.right + s.offset)
    let b ← bytesAt needle (s.left + s.offset)
    if (a < b ∧ reversed = false) ∨ (a > b ∧ reversed = true) then do
      let right := s.right + s.offset + 1
      let period ← sub right s.left
      return .inl ⟨s.left, right, 0, period⟩
    else if a = b then
      if s.offset + 1 = s.period then
        return .inl { s with right := s.right + s.offset + 1, offset := 0 }
      else
        return .inl { s with offset := s.offset + 1 }
    else
      return .inl ⟨s.right, s.right + 1, 0, 1⟩
  else .ok (.inr (s.left, s.period))

def maximalSuffix (turns : ℕ) (needle : Bytes) (reversed : Bool) : Except Stop (ℕ × ℕ) :=
  turning .diverges (maximalSuffixTurn needle reversed) turns ⟨0, 1, 0, 1⟩

/-- The bit of a byte in a byte set. -/
def byteBit (byte : UInt8) : ℕ := (byte &&& 63).toNat

def searcher (turns : ℕ) (needle : Bytes) : Except Stop Searcher := do
  let size := needle.length
  if size < 2 then return ⟨needle, 0, 1, false, 0⟩
  else do
    let low ← maximalSuffix turns needle false
    let high ← maximalSuffix turns needle true
    let split := if low.1 > high.1 then low.1 else high.1
    let period := if low.1 > high.1 then low.2 else high.2
    let periodic ← (if split + period ≤ size then do
      bytesMatch needle (← bytesSlice needle 0 split) period
      else .ok false)
    let right ← sub size split
    let period := if periodic then period else (if split > right then split else right) + 1
    let byteset := needle.foldl (fun byteset byte => byteset ||| (1#64 <<< byteBit byte)) 0
    return ⟨needle, split, period, periodic, byteset⟩

/-! ### The windows -/

inductive Window
  | found (position : ℕ)
  | missing
  | resume (position : ℕ)

/-- The loop over the right part of the needle, from `index` on. -/
def matchRight (needle text : Bytes) (position index : ℕ) : Except Stop ℕ :=
  if _h : index < needle.length then do
    let a ← bytesAt needle index
    let b ← bytesAt text (position + index)
    if a = b then matchRight needle text position (index + 1)
    else return index
  else .ok index
termination_by needle.length - index

/-- The loop over the left part of the needle, backwards from `left`. -/
def matchLeft (needle text : Bytes) (position memory : ℕ) : (left : ℕ) → Except Stop ℕ
  | 0 => .ok 0
  | left + 1 =>
    if left + 1 > memory then do
      let a ← bytesAt needle left
      let b ← bytesAt text (position + left)
      if a = b then matchLeft needle text position memory left
      else return left + 1
    else .ok (left + 1)

/-- The steps that both loops take at a window: the next position and memory, or `none` where the needle
is found. -/
def tryWindow (finder : Searcher) (text : Bytes) (position memory : ℕ) :
    Except Stop (Option (ℕ × ℕ)) := do
  let size := finder.needle.length
  let split := finder.split
  let index ← matchRight finder.needle text position (if memory > split then memory else split)
  if index < size then
    return some ((← sub (position + index) split) + 1, 0)
  else do
    let left ← matchLeft finder.needle text position memory split
    if left > memory then
      if finder.periodic then
        return some (position + finder.period, ← sub size finder.period)
      else
        return some (position + finder.period, 0)
    else return none

/-- The state of the loop of `pair_windows`. -/
structure Pairing where
  position : ℕ
  memory : ℕ
  calls : ℕ
  skipped : ℕ

/-- One turn of the loop of `pair_windows`. -/
def pairTurn (finder : Searcher) (text : Bytes) (first last : UInt8) (s : Pairing) :
    Except Stop (Pairing ⊕ Window) :=
  let size := finder.needle.length
  let stop := text.length
  if s.position + size ≤ stop then do
    let gap ← sub size 1
    let candidate ← bytesIndexPair text first last gap s.position
    let calls := s.calls + 1
    let skipped ← sub (s.skipped + candidate) s.position
    let memory := if candidate ≠ s.position then 0 else s.memory
    if candidate ≠ s.position ∧ candidate + size > stop then return .inr .missing
    else
      match ← tryWindow finder text candidate memory with
      | none => return .inr (.found candidate)
      | some (position, memory) =>
        if calls = 8 then
          if skipped < 512 then return .inr (.resume position)
          else return .inl ⟨position, memory, 0, 0⟩
        else return .inl ⟨position, memory, calls, skipped⟩
  else .ok (.inr .missing)

def pairWindows (turns : ℕ) (finder : Searcher) (text : Bytes) (start : ℕ) :
    Except Stop Window := do
  let first ← bytesAt finder.needle 0
  let last ← bytesAt finder.needle (← sub finder.needle.length 1)
  turning .diverges (pairTurn finder text first last) turns ⟨start, 0, 0, 0⟩

/-- One turn of the loop of `plain_windows`, over a position and the memory. -/
def plainTurn (finder : Searcher) (text : Bytes) (bound : ℕ) (s : ℕ × ℕ) :
    Except Stop ((ℕ × ℕ) ⊕ Window) :=
  let size := finder.needle.length
  if s.1 + size ≤ bound then do
    let tail ← bytesAt text (← sub (s.1 + size) 1)
    if (finder.byteset >>> byteBit tail) &&& 1#64 = 0#64 then
      return .inl (s.1 + size, 0)
    else
      match ← tryWindow finder text s.1 s.2 with
      | none => return .inr (.found s.1)
      | some next => return .inl next
  else .ok (.inr (if s.1 + size > text.length then .missing else .resume s.1))

def plainWindows (turns : ℕ) (finder : Searcher) (text : Bytes) (start stop : ℕ) :
    Except Stop Window := do
  let limit ← sub (stop + finder.needle.length) 1
  let bound := if limit < text.length then limit else text.length
  turning .diverges (plainTurn finder text bound) turns (start, 0)

/-- One turn of the loop of `search_from`. -/
def searchTurn (turns : ℕ) (finder : Searcher) (text : Bytes) (position : ℕ) :
    Except Stop (ℕ ⊕ Option ℕ) :=
  if position + finder.needle.length ≤ text.length then do
    match ← pairWindows turns finder text position with
    | .found found => return .inr (some found)
    | .missing => return .inr none
    | .resume resumed =>
      match ← plainWindows turns finder text resumed (resumed + 4096) with
      | .found found => return .inr (some found)
      | .missing => return .inr none
      | .resume next => return .inl next
  else .ok (.inr none)

def searchFrom (turns : ℕ) (finder : Searcher) (text : Bytes) (start : ℕ) :
    Except Stop (Option ℕ) :=
  let size := finder.needle.length
  let stop := text.length
  if start > stop ∨ size > stop - start then .ok none
  else if size = 0 then .ok (some start)
  else if size = 1 then do
    let found ← bytesIndex text (← bytesAt finder.needle 0) start
    return if found < stop then some found else none
  else turning .diverges (searchTurn turns finder text) turns start

/-! ### The last occurrence -/

/-- The byte `index` places before the end. -/
def bytesBack (text : Bytes) (index : ℕ) : Except Stop UInt8 := do
  bytesAt text (← sub (← sub text.length 1) index)

/-- `fail[index]` -/
def failAt (fail : List ℕ) (index : ℕ) : Except Stop ℕ :=
  match fail[index]? with
  | some border => .ok border
  | none => .error .outOfBounds

/-- The loop that falls back from `matched` to a border that `byte` continues. -/
def fallBack (turns : ℕ) (needle : Bytes) (fail : List ℕ) (byte : UInt8) (matched : ℕ) :
    Except Stop ℕ :=
  turning .diverges (fun matched =>
    if matched > 0 then do
      if byte ≠ (← bytesBack needle matched) then
        return .inl (← failAt fail (matched - 1))
      else return .inr matched
    else .ok (.inr matched)) turns matched

/-- The number of bytes matched after `byte`. -/
def advanceMatch (turns : ℕ) (needle : Bytes) (fail : List ℕ) (byte : UInt8) (matched : ℕ) :
    Except Stop ℕ := do
  let matched ← fallBack turns needle fail byte matched
  if byte = (← bytesBack needle matched) then return matched + 1 else return matched

/-- The loop that fills `fail`, from `index` on. -/
def failFrom (turns : ℕ) (needle : Bytes) (fail : List ℕ) (matched index : ℕ) :
    Except Stop (List ℕ) :=
  if _h : index < needle.length then do
    let matched ← advanceMatch turns needle fail (← bytesBack needle index) matched
    failFrom turns needle (fail ++ [matched]) matched (index + 1)
  else .ok fail
termination_by needle.length - index

/-- The loop over the text of `byte_rfind`, from `at` on. -/
def rfindFrom (turns : ℕ) (text needle : Bytes) (fail : List ℕ) (matched index : ℕ) :
    Except Stop (Option ℕ) :=
  if _h : index < text.length then do
    let matched ← advanceMatch turns needle fail (← bytesBack text index) matched
    if matched = needle.length then return some (← sub text.length (index + 1))
    else rfindFrom turns text needle fail matched (index + 1)
  else .ok none
termination_by text.length - index

def byteRfind (turns : ℕ) (text needle : Bytes) : Except Stop (Option ℕ) :=
  let size := needle.length
  let stop := text.length
  if size > stop then .ok none
  else if size = 0 then .ok (some stop)
  else do
    let fail ← failFrom turns needle [0] 0 1
    rfindFrom turns text needle fail 0 0

end HdLang.Search
