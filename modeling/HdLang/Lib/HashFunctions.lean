import Mathlib.Data.BitVec

/-!
# Hash functions of byte strings

The one-shot definitions of 64-bit FNV-1a, of HalfSipHash-1-3 with a 32-bit result, of SHA-256 and
of HMAC over it. HalfSipHash is also cut at any place: `HalfSip.absorbAll_append` feeds a string in
two parts.
-/

namespace HashFunctions

open List

/-- A byte. -/
abbrev Octet : Type := BitVec 8

/-- A 32-bit word. -/
abbrev Word : Type := BitVec 32

/-! ## FNV-1a -/

namespace Fnv

/-- One byte into the state. -/
def mix (state : BitVec 64) (byte : Octet) : BitVec 64 :=
  (state ^^^ byte.setWidth 64) * 0x100000001b3

/-- 64-bit FNV-1a. -/
def fnv1a (bytes : List Octet) : BitVec 64 := bytes.foldl mix 0xcbf29ce484222325

end Fnv

/-! ## HalfSipHash -/

namespace HalfSip

/-- The four lanes. -/
@[ext] structure Lanes where
  v0 : Word
  v1 : Word
  v2 : Word
  v3 : Word

/-- A round. -/
def Lanes.round (l : Lanes) : Lanes :=
  let v0 := l.v0 + l.v1
  let v1 := l.v1.rotateLeft 5 ^^^ v0
  let v0 := v0.rotateLeft 16
  let v2 := l.v2 + l.v3
  let v3 := l.v3.rotateLeft 8 ^^^ v2
  let v0 := v0 + v3
  let v3 := v3.rotateLeft 7 ^^^ v0
  let v2 := v2 + v1
  let v1 := v1.rotateLeft 13 ^^^ v2
  let v2 := v2.rotateLeft 16
  ⟨v0, v1, v2, v3⟩

/-- One message word into the lanes, with one round. -/
def Lanes.absorb (l : Lanes) (m : Word) : Lanes :=
  let l := Lanes.round { l with v3 := l.v3 ^^^ m }
  { l with v0 := l.v0 ^^^ m }

/-- Bytes as a little-endian word. -/
def word : List Octet → Word
  | [] => 0
  | byte :: bytes => byte.setWidth 32 ||| (word bytes <<< 8)

/-- The full words of a string into the lanes, and the bytes left over. -/
def Lanes.absorbAll : Lanes → List Octet → Lanes × List Octet
  | l, b0 :: b1 :: b2 :: b3 :: rest => (l.absorb (word [b0, b1, b2, b3])).absorbAll rest
  | l, rest => (l, rest)

/-- The lanes of a key. -/
def initial (key : BitVec 64) : Lanes :=
  let k0 : Word := key.setWidth 32
  let k1 : Word := (key >>> 32).setWidth 32
  ⟨k0, k1, k0 ^^^ 0x6c796765, k1 ^^^ 0x74656462⟩

/-- The last word, with the length on top, and the finishing rounds. -/
def Lanes.finish (l : Lanes) (rest : List Octet) (length : ℕ) : Word :=
  let l := l.absorb (word rest ||| (BitVec.ofNat 32 (length % 256) <<< 24))
  let l := (Lanes.round { l with v2 := l.v2 ^^^ 0xff }).round.round
  l.v1 ^^^ l.v3

/-- HalfSipHash-1-3 with a 32-bit result. -/
def halfSipHash (key : BitVec 64) (bytes : List Octet) : Word :=
  let (l, rest) := (initial key).absorbAll bytes
  l.finish rest bytes.length

theorem word_snoc (bytes : List Octet) (byte : Octet) :
    word (bytes ++ [byte]) = word bytes ||| (byte.setWidth 32 <<< (8 * bytes.length)) := by
  induction bytes with
  | nil => simp [word]
  | cons b bytes ih =>
    rw [cons_append, word, ih, word, BitVec.or_assoc, length_cons, Nat.mul_succ,
      BitVec.shiftLeft_add, BitVec.shiftLeft_or_distrib]

variable {l : Lanes} {bytes more : List Octet}

theorem absorbAll_left (l : Lanes) (bytes : List Octet) :
    (l.absorbAll bytes).2.length = bytes.length % 4 := by
  fun_induction Lanes.absorbAll l bytes with
  | case1 l b0 b1 b2 b3 rest ih =>
    rw [ih]
    simp only [length_cons]
    omega
  | case2 l rest hrest =>
    match rest, hrest with
    | [], _ => rfl
    | [_], _ => rfl
    | [_, _], _ => rfl
    | [_, _, _], _ => rfl
    | b0 :: b1 :: b2 :: b3 :: rest, h => exact (h b0 b1 b2 b3 rest rfl).elim

theorem absorbAll_of_lt (h : bytes.length < 4) : l.absorbAll bytes = (l, bytes) := by
  match bytes, h with
  | [], _ => rfl
  | [_], _ => rfl
  | [_, _], _ => rfl
  | [_, _, _], _ => rfl

theorem absorbAll_append (l : Lanes) (bytes more : List Octet) :
    l.absorbAll (bytes ++ more) = (l.absorbAll bytes).1.absorbAll ((l.absorbAll bytes).2 ++ more) :=
      by
  fun_induction Lanes.absorbAll l bytes with
  | case1 l b0 b1 b2 b3 rest ih =>
    rw [cons_append, cons_append, cons_append, cons_append, Lanes.absorbAll, ih]
  | case2 l rest hrest => rfl

theorem absorbAll_snoc (l : Lanes) (bytes : List Octet) (byte : Octet) :
    l.absorbAll (bytes ++ [byte]) =
      if bytes.length % 4 = 3 then
        ((l.absorbAll bytes).1.absorb (word ((l.absorbAll bytes).2 ++ [byte])), [])
      else ((l.absorbAll bytes).1, (l.absorbAll bytes).2 ++ [byte]) := by
  rw [absorbAll_append]
  have hleft := absorbAll_left l bytes
  generalize l.absorbAll bytes = state at *
  obtain ⟨l', left⟩ := state
  split
  · next hfull =>
    rw [hfull] at hleft
    obtain ⟨b0, b1, b2, rfl⟩ := length_eq_three.mp hleft
    rfl
  · next hpart =>
    refine absorbAll_of_lt ?_
    rw [length_append, length_singleton]
    have hlength : left.length = bytes.length % 4 := hleft
    show left.length + 1 < 4
    omega

end HalfSip

/-! ## SHA-256 -/

namespace Sha

/-- The largest number of `bits` bits above `low` whose `e`-th power is at most `n`. -/
def rootFrom (e n : ℕ) : (bits low : ℕ) → ℕ
  | 0, low => low
  | bits + 1, low =>
    rootFrom e n bits (if (low + 2 ^ bits) ^ e ≤ n then low + 2 ^ bits else low)

/-- The first 32 bits of the fractional part of the `e`-th root of `p`, a root below 16. -/
def rootFraction (e p : ℕ) : Word := BitVec.ofNat 32 (rootFrom e (p * 2 ^ (32 * e)) 36 0)

/-- The first 64 primes. -/
def primes : List ℕ :=
  [2, 3, 5, 7, 11, 13, 17, 19, 23, 29, 31, 37, 41, 43, 47, 53, 59, 61, 67, 71, 73, 79, 83, 89, 97,
    101,
    103, 107, 109, 113, 127, 131, 137, 139, 149, 151, 157, 163, 167, 173, 179, 181, 191, 193, 197,
      199,
    211, 223, 227, 229, 233, 239, 241, 251, 257, 263, 269, 271, 277, 281, 283, 293, 307, 311]

/-- The constants of the rounds. -/
def constants : List Word := primes.map (rootFraction 3)

/-- The eight working variables, and the hash value. -/
@[ext] structure Vars where
  a : Word
  b : Word
  c : Word
  d : Word
  e : Word
  f : Word
  g : Word
  h : Word

/-- The variables as a list. -/
def Vars.list (v : Vars) : List Word := [v.a, v.b, v.c, v.d, v.e, v.f, v.g, v.h]

/-- The hash value of no block. -/
def initial : Vars where
  a := rootFraction 2 2
  b := rootFraction 2 3
  c := rootFraction 2 5
  d := rootFraction 2 7
  e := rootFraction 2 11
  f := rootFraction 2 13
  g := rootFraction 2 17
  h := rootFraction 2 19

def ch (x y z : Word) : Word := (x &&& y) ^^^ (~~~x &&& z)

def maj (x y z : Word) : Word := (x &&& y) ^^^ (x &&& z) ^^^ (y &&& z)

def bigSigma0 (x : Word) : Word := x.rotateRight 2 ^^^ x.rotateRight 13 ^^^ x.rotateRight 22

def bigSigma1 (x : Word) : Word := x.rotateRight 6 ^^^ x.rotateRight 11 ^^^ x.rotateRight 25

def sigma0 (x : Word) : Word := x.rotateRight 7 ^^^ x.rotateRight 18 ^^^ (x >>> 3)

def sigma1 (x : Word) : Word := x.rotateRight 17 ^^^ x.rotateRight 19 ^^^ (x >>> 10)

/-- Four bytes as a big-endian word. -/
def bigEndian (b0 b1 b2 b3 : Octet) : Word := b0 ++ b1 ++ b2 ++ b3

/-- Word `t` of a block. -/
def wordAt (block : List Octet) (t : ℕ) : Word :=
  bigEndian (block.getD (4 * t) 0) (block.getD (4 * t + 1) 0) (block.getD (4 * t + 2) 0)
    (block.getD (4 * t + 3) 0)

/-- The message schedule of a block. -/
def schedule (block : List Octet) (t : ℕ) : Word :=
  if t < 16 then wordAt block t
  else sigma1 (schedule block (t - 2)) + schedule block (t - 7) + sigma0 (schedule block (t - 15)) +
    schedule block (t - 16)
termination_by t
decreasing_by all_goals omega

/-- A round, with its constant and its word of the schedule. -/
def Vars.round (v : Vars) (k w : Word) : Vars :=
  let t1 := v.h + bigSigma1 v.e + ch v.e v.f v.g + k + w
  let t2 := bigSigma0 v.a + maj v.a v.b v.c
  ⟨t1 + t2, v.a, v.b, v.c, v.d + t1, v.e, v.f, v.g⟩

/-- The rounds of a block before round `t`. -/
def Vars.rounds (v : Vars) (block : List Octet) : ℕ → Vars
  | 0 => v
  | t + 1 => (v.rounds block t).round (constants.getD t 0) (schedule block t)

def Vars.add (v w : Vars) : Vars :=
  ⟨v.a + w.a, v.b + w.b, v.c + w.c, v.d + w.d, v.e + w.e, v.f + w.f, v.g + w.g, v.h + w.h⟩

/-- A block of 64 bytes into the hash value. -/
def Vars.compress (v : Vars) (block : List Octet) : Vars := v.add (v.rounds block 64)

/-- The whole blocks of a string into the hash value. -/
def Vars.absorb (v : Vars) (bytes : List Octet) : Vars :=
  if 64 ≤ bytes.length then (v.compress (bytes.take 64)).absorb (bytes.drop 64) else v
termination_by bytes.length
decreasing_by rw [List.length_drop]; omega

/-- A length in bits as eight bytes, the high one first. -/
def lengthBytes (bits : BitVec 64) : List Octet :=
  (List.range 8).map fun i => (bits >>> (56 - 8 * i)).setWidth 8

/-- The padded message: a one bit, the fewest zeros that leave room for the length, and the length
in bits. The standard is for messages of fewer than `2^64` bits. -/
def pad (message : List Octet) : List Octet :=
  message ++ 0x80 :: List.replicate ((119 - message.length % 64) % 64) 0 ++
    lengthBytes (BitVec.ofNat 64 (8 * message.length))

/-- The bytes of a hash value, each word's high byte first. -/
def Vars.bytes (v : Vars) : List Octet :=
  v.list.flatMap fun w : Word => [(w >>> 24).setWidth 8, (w >>> 16).setWidth 8, (w >>> 8).setWidth
    8,
    w.setWidth 8]

/-- SHA-256. -/
def sha256 (message : List Octet) : List Octet := (initial.absorb (pad message)).bytes

/-- The key block of HMAC: a key longer than a block is hashed, and zeros fill the block. -/
def keyBlock (key : List Octet) : List Octet :=
  let key := if 64 < key.length then sha256 key else key
  key ++ List.replicate (64 - key.length) 0

/-- HMAC-SHA256. -/
def hmac (key message : List Octet) : List Octet :=
  sha256 ((keyBlock key).map (· ^^^ 0x5c) ++ sha256 ((keyBlock key).map (· ^^^ 0x36) ++ message))

variable {v : Vars} {bytes more : List Octet}

theorem absorb_of_lt (h : bytes.length < 64) : v.absorb bytes = v := by
  rw [Vars.absorb, if_neg (by omega)]

theorem absorb_of_le (h : 64 ≤ bytes.length) :
    v.absorb bytes = (v.compress (bytes.take 64)).absorb (bytes.drop 64) := by
  rw [Vars.absorb, if_pos h]

/-- The bytes behind the last whole block. -/
def tail (bytes : List Octet) : List Octet := bytes.drop (64 * (bytes.length / 64))

theorem length_tail (bytes : List Octet) : (tail bytes).length = bytes.length % 64 := by
  rw [tail, length_drop]
  omega

/-- A string fed in two parts: the bytes behind the last whole block wait for the second. -/
theorem absorb_append (v : Vars) (bytes more : List Octet) :
    v.absorb (bytes ++ more) = (v.absorb bytes).absorb (tail bytes ++ more) := by
  induction hn : bytes.length / 64 generalizing v bytes with
  | zero =>
    have hlt : bytes.length < 64 := by omega
    rw [absorb_of_lt hlt, tail, hn, Nat.mul_zero, drop_zero]
  | succ n ih =>
    have hle : 64 ≤ bytes.length := by omega
    have hdrop : (bytes.drop 64).length = bytes.length - 64 := length_drop
    have htail : tail (bytes.drop 64) = tail bytes := by
      rw [tail, tail, drop_drop, hdrop]
      congr 1
      omega
    rw [absorb_of_le (by rw [length_append]; omega), absorb_of_le hle, take_append_of_le_length hle,
      drop_append_of_le_length hle,
      ih _ _ (by omega), htail]

theorem tail_append (bytes more : List Octet) : tail (bytes ++ more) = tail (tail bytes ++ more) :=
    by
  have hlength := length_tail bytes
  have hwhole : bytes ++ more = bytes.take (64 * (bytes.length / 64)) ++ (tail bytes ++ more) := by
    rw [← append_assoc, tail, take_append_drop]
  have htake : (bytes.take (64 * (bytes.length / 64))).length = 64 * (bytes.length / 64) := by
    rw [length_take]
    omega
  calc tail (bytes ++ more) = (bytes.take (64 * (bytes.length / 64)) ++ (tail bytes ++ more)).drop
          (64 * ((bytes ++ more).length / 64)) := by rw [tail, ← hwhole]
    _ = (bytes.take (64 * (bytes.length / 64)) ++ (tail bytes ++ more)).drop
          ((bytes.take (64 * (bytes.length / 64))).length + 64 * ((tail bytes ++ more).length / 64))
          := by
        rw [htake, length_append, length_append, hlength]
        congr 1
        omega
    _ = tail (tail bytes ++ more) := drop_length_add_append _

end Sha

end HashFunctions
