import HdLang.Num.Halves
import HdLang.Lib.HashFunctions

/-!
# `std.digest`

`Sha256` takes a message in pieces: `update` compresses each block that fills and keeps the bytes
behind it, and `finish` pads a copy of them. A hasher with an outer pad is HMAC's. The lists are
those of the source, and reading one behind its end is a panic.
-/

namespace HdLang.Digest

open HdLang.Num

/-- A `u8`. -/
abbrev Byte : Type := BitVec 8

/-- A `u32`. -/
abbrev Word : Type := BitVec 32

/-- `xs[i]` -/
def item {α : Type} (xs : List α) (i : ℕ) : Except Stop α :=
  match xs[i]? with
  | some x => .ok x
  | none => .error (.panic "index-out-of-bounds" "")

/-- `word >> count` in `u32` -/
def shrU32 (word : Word) (count : ℕ) : Except Stop Word := IntType.u32.shr word count

/-- `word << count` in `u32` -/
def shlU32 (word : Word) (count : ℕ) : Except Stop Word := IntType.u32.shl word count

def rotateRight (word : Word) (count : ℕ) : Except Stop Word := do
  return (← shrU32 word count) ||| (← shlU32 word (32 - count))

def initialState : List Word :=
  [0x6a09e667, 0xbb67ae85, 0x3c6ef372, 0xa54ff53a, 0x510e527f, 0x9b05688c, 0x1f83d9ab, 0x5be0cd19]

def roundConstants : List Word := [
    0x428a2f98, 0x71374491, 0xb5c0fbcf, 0xe9b5dba5, 0x3956c25b, 0x59f111f1, 0x923f82a4, 0xab1c5ed5,
    0xd807aa98, 0x12835b01, 0x243185be, 0x550c7dc3, 0x72be5d74, 0x80deb1fe, 0x9bdc06a7, 0xc19bf174,
    0xe49b69c1, 0xefbe4786, 0x0fc19dc6, 0x240ca1cc, 0x2de92c6f, 0x4a7484aa, 0x5cb0a9dc, 0x76f988da,
    0x983e5152, 0xa831c66d, 0xb00327c8, 0xbf597fc7, 0xc6e00bf3, 0xd5a79147, 0x06ca6351, 0x14292967,
    0x27b70a85, 0x2e1b2138, 0x4d2c6dfc, 0x53380d13, 0x650a7354, 0x766a0abb, 0x81c2c92e, 0x92722c85,
    0xa2bfe8a1, 0xa81a664b, 0xc24b8b70, 0xc76c51a3, 0xd192e819, 0xd6990624, 0xf40e3585, 0x106aa070,
    0x19a4c116, 0x1e376c08, 0x2748774c, 0x34b0bcb5, 0x391c0cb3, 0x4ed8aa4a, 0x5b9cca4f, 0x682e6ff3,
    0x748f82ee, 0x78a5636f, 0x84c87814, 0x8cc70208, 0x90befffa, 0xa4506ceb, 0xbef9a3f7, 0xc67178f2]

/-- `u32(byte)` -/
def ofByte (byte : Byte) : Word := byte.setWidth 32

/-- The first sixteen words of the schedule: the words of the block from `at`. -/
def loadWord (block : List Byte) (start t : ℕ) : Except Stop Word := do
  let index := start + 4 * t
  let b0 ← shlU32 (ofByte (← item block index)) 24
  let b1 ← shlU32 (ofByte (← item block (index + 1))) 16
  let b2 ← shlU32 (ofByte (← item block (index + 2))) 8
  return b0 ||| b1 ||| b2 ||| ofByte (← item block (index + 3))

/-- Word `t` of the schedule, from those before it. -/
def nextWord (schedule : List Word) (t : ℕ) : Except Stop Word := do
  let low ← item schedule (t - 15)
  let high ← item schedule (t - 2)
  let s0 := (← rotateRight low 7) ^^^ (← rotateRight low 18) ^^^ (← shrU32 low 3)
  let s1 := (← rotateRight high 17) ^^^ (← rotateRight high 19) ^^^ (← shrU32 high 10)
  return (← item schedule (t - 16)) + s0 + (← item schedule (t - 7)) + s1

/-- The schedule up to a word. -/
def scheduleTo (block : List Byte) (start : ℕ) : ℕ → Except Stop (List Word)
  | 0 => return []
  | t + 1 => do
    let schedule ← scheduleTo block start t
    return schedule ++ [← (if t < 16 then loadWord block start t else nextWord schedule t)]

/-- The variables `a` to `h` of `compress`. -/
abbrev Vars : Type := HashFunctions.Sha.Vars

/-- The loop of `compress` up to a round. -/
def roundsTo (schedule rounds : List Word) (vars : Vars) : ℕ → Except Stop Vars
  | 0 => return vars
  | t + 1 => do
    let ⟨a, b, c, d, e, f, g, h⟩ ← roundsTo schedule rounds vars t
    let sum1 := (← rotateRight e 6) ^^^ (← rotateRight e 11) ^^^ (← rotateRight e 25)
    let choice := (e &&& f) ^^^ (~~~e &&& g)
    let first := h + sum1 + choice + (← item rounds t) + (← item schedule t)
    let sum0 := (← rotateRight a 2) ^^^ (← rotateRight a 13) ^^^ (← rotateRight a 22)
    let majority := (a &&& b) ^^^ (a &&& c) ^^^ (b &&& c)
    let second := sum0 + majority
    return ⟨first + second, a, b, c, d + first, e, f, g⟩

/-- The variables of a state. -/
def varsOf (state : List Word) : Except Stop Vars := do
  return ⟨← item state 0, ← item state 1, ← item state 2, ← item state 3, ← item state 4, ← item
    state 5,
    ← item state 6, ← item state 7⟩

def compress (state : List Word) (block : List Byte) (start : ℕ) (rounds : List Word) :
    Except Stop (List Word) := do
  let schedule ← scheduleTo block start 64
  let before ← varsOf state
  let vars ← roundsTo schedule rounds before 64
  return [before.a + vars.a, before.b + vars.b, before.c + vars.c, before.d + vars.d,
    before.e + vars.e, before.f + vars.f, before.g + vars.g, before.h + vars.h]

structure Sha256 where
  state : List Word
  block : List Byte
  length : U64
  rounds : List Word
  outer : List Byte
  deriving DecidableEq

namespace Sha256

def new : Sha256 := ⟨initialState, [], 0, roundConstants, []⟩

/-- The loop of `update`: the state and the block after more bytes. -/
def feed (rounds : List Word) : List Word × List Byte → List Byte → Except Stop
  (List Word × List Byte)
  | pair, [] => return pair
  | (state, block), byte :: bytes => do
    let block := block ++ [byte]
    if block.length = 64 then feed rounds (← compress state block 0 rounds, []) bytes
    else feed rounds (state, block) bytes

def update (h : Sha256) (bytes : List Byte) : Except Stop Sha256 := do
  let (state, block) ← feed h.rounds (h.state, h.block) bytes
  return { h with length := h.length + BitVec.ofNat 64 bytes.length, block, state }

/-- `while last.len() % 64 != 56: last.push(0)` -/
def padZeros : ℕ → List Byte → Except Stop (List Byte)
  | 0, _ => .error .diverges
  | fuel + 1, last => if last.length % 64 ≠ 56 then padZeros fuel (last ++ [0]) else return last

/-- The eight bytes of the length, from one on. -/
def pushLength (bits : U64) (last : List Byte) : ℕ → Except Stop (List Byte)
  | 0 => return last
  | index + 1 => do
    let last ← pushLength bits last index
    return last ++ [(← shrU64 bits (56 - 8 * index)).setWidth 8]

/-- The blocks of the padded message from `at` on. -/
def compressFrom (last : List Byte) (rounds : List Word) : ℕ → List Word → ℕ → Except Stop
  (List Word)
  | 0, _, _ => .error .diverges
  | fuel + 1, state, start =>
    if start < last.length then do
      compressFrom last rounds fuel (← compress state last start rounds) (start + 64)
    else return state

def finishPlain (h : Sha256) : Except Stop (List Byte) := do
  let last ← padZeros 64 (h.block ++ [128])
  let bits ← shlU64 h.length 3
  let last ← pushLength bits last 8
  let state ← compressFrom last h.rounds (last.length + 1) h.state 0
  state.flatMapM fun word => do
    return [(← shrU32 word 24).setWidth 8, (← shrU32 word 16).setWidth 8, (← shrU32 word 8).setWidth
      8,
      word.setWidth 8]

/-- `finish`: HMAC's outer hash is finished by a call of `finish`, in at most so many calls. -/
def finishIn : ℕ → Sha256 → Except Stop (List Byte)
  | 0, _ => .error .diverges
  | depth + 1, h => do
    let inner ← h.finishPlain
    if h.outer.length = 0 then return inner
    else finishIn depth (← (← new.update h.outer).update inner)

def finish (h : Sha256) : Except Stop (List Byte) := finishIn 2 h

def sha256 (bytes : List Byte) : Except Stop (List Byte) := do (← new.update bytes).finish

/-- `while block_key.len() < 64: block_key.push(0)` -/
def fillKey : ℕ → List Byte → Except Stop (List Byte)
  | 0, _ => .error .diverges
  | fuel + 1, key => if key.length < 64 then fillKey fuel (key ++ [0]) else return key

def hmac (key : List Byte) : Except Stop Sha256 := do
  let blockKey ← (if 64 < key.length then sha256 key else return key)
  let blockKey ← fillKey 65 blockKey
  let innerPad := blockKey.map (· ^^^ 0x36)
  let outerPad := blockKey.map (· ^^^ 0x5c)
  let hasher ← new.update innerPad
  return { hasher with outer := outerPad }

/-- A call on a hasher. -/
inductive Call
  | update (bytes : List Byte)
  | finish

/-- The digests that a sequence of calls gives, and the hasher after it. -/
def run (h : Sha256) : List Call → Except Stop (List (List Byte) × Sha256)
  | [] => return ([], h)
  | .update bytes :: calls => do run (← h.update bytes) calls
  | .finish :: calls => do
    let digest ← h.finish
    let (digests, h) ← run h calls
    return (digest :: digests, h)

end Sha256

end HdLang.Digest
