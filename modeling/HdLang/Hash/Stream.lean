import HdLang.Hash.Model
import HdLang.Lib.HashFunctions

/-!
# The hashers hash the byte stream

A `BucketHasher` that was written some bytes has the lanes of the full words among them, the bytes
left over as its word, and their number as its count. Every way of writing pushes bytes one by one,
so how the calls divide them does not matter, and the string path reads the same words.
-/

namespace HdLang.Hash

open HdLang.Num HashFunctions HashFunctions.HalfSip List Nat HalfSip

/-! ### The bytes of a call -/

/-- The bytes of an integer, the low one first. -/
def littleEndian (value : U64) : ℕ → List Byte
  | 0 => []
  | width + 1 => value.setWidth 8 :: littleEndian (value >>> 8) width

/-- The bytes that a call writes. -/
def Write.bytes : Write → List Byte
  | .write bytes => bytes
  | .integer method value => littleEndian (bits value) method.width
  | .writeStr text => text

variable {text rest : List Byte} {index : ℕ}

theorem bytesAt_eq {byte : Byte} (h : text.drop index = byte :: rest) :
    bytesAt text index = .ok byte ∧ text.drop (index + 1) = rest := by
  have hget : text[index]? = some byte := by rw [← List.head?_drop, h, List.head?_cons]
  refine ⟨by rw [bytesAt, hget], ?_⟩
  rw [← tail_drop, h, tail_cons]

/-! ### FNV-1a -/

/-- The product by the prime from the halves of the state. -/
theorem fnvMix_eq (state : U64) (byte : Byte) : fnvMix state byte = .ok (Fnv.mix state byte) := by
  unfold fnvMix Fnv.mix
  show (mulU64 ((state ^^^ ofByte byte) &&& 0xFFFFFFFF) (wide 435) >>= _) =
    Except.ok ((state ^^^ ofByte byte) * _)
  generalize state ^^^ ofByte byte = mixed
  have hproduct : (wide (half mixed) * wide 435).toNat = (half mixed).toNat * 435 :=
    toNat_mul_wide _ 435
  have hfirst : (wide (half mixed) * wide 256).toNat = (half mixed).toNat * 256 :=
    toNat_mul_wide _ 256
  have hsecond : (wide (half (mixed >>> 32)) * wide 435).toNat = (half (mixed >>> 32)).toNat * 435
    :=
    toNat_mul_wide _ 435
  have hlow : (half mixed).toNat = mixed.toNat % 2 ^ 32 := BitVec.toNat_setWidth ..
  have hhigh : (half (mixed >>> 32)).toNat = mixed.toNat / 2 ^ 32 := by
    rw [← toNat_wide, wide_high, BitVec.toNat_ushiftRight, shiftRight_eq_div_pow]
  have hlt := mixed.isLt
  rw [and_mask, mulU64_wide, ok_bind]
  show (mulU64 (wide (half mixed)) (wide 256) >>= _) = _
  rw [mulU64_wide, ok_bind]
  show (shrU64 mixed 32 >>= fun high => mulU64 high (wide 435) >>= _) = _
  rw [shrU64_eq (by decide), ok_bind, ← wide_high, mulU64_wide, ok_bind]
  generalize wide (half mixed) * wide 435 = product at *
  generalize wide (half mixed) * wide 256 = first at *
  generalize wide (half (mixed >>> 32)) * wide 435 = second at *
  rw [hlow] at hproduct hfirst
  rw [hhigh] at hsecond
  have hcarry : (product >>> 32).toNat = product.toNat / 2 ^ 32 := by
    rw [BitVec.toNat_ushiftRight, shiftRight_eq_div_pow]
  have hsum : (first + second).toNat = first.toNat + second.toNat :=
    BitVec.toNat_add_of_lt (by omega)
  rw [addU64_eq (by omega), ok_bind, shrU64_eq (by decide), ok_bind, addU64_eq (by omega), ok_bind]
  have htotal : (first + second + product >>> 32).toNat =
      first.toNat + second.toNat + product.toNat / 2 ^ 32 := by
    rw [BitVec.toNat_add_of_lt (by omega), hsum, hcarry]
  show (shlU64 ((first + second + product >>> 32) &&& 0xFFFFFFFF) 32 >>= _) = _
  rw [shlU64_eq (by decide), ok_bind, pure_eq]
  refine congrArg Except.ok (BitVec.eq_of_toNat_eq ?_)
  show (_ ||| (product &&& 0xFFFFFFFF)).toNat = _
  rw [and_mask, and_mask, BitVec.toNat_or, BitVec.toNat_shiftLeft, toNat_wide, toNat_wide, half,
    half,
    BitVec.toNat_setWidth, BitVec.toNat_setWidth, htotal, BitVec.toNat_mul, shiftLeft_eq]
  have hhalf : (first.toNat + second.toNat + product.toNat / 2 ^ 32) % 2 ^ 32 * 2 ^ 32 < 2 ^ 64 :=
    by
    omega
  have hprime : (1099511628211 : BitVec 64).toNat = 1099511628211 := rfl
  rw [mod_eq_of_lt hhalf, ← shiftLeft_eq, ← shiftLeft_add_eq_or_of_lt (mod_lt _ (by decide)),
    shiftLeft_eq, hprime]
  clear htotal hsum hcarry hhalf hprime hlow hhigh
  omega

theorem toByte_and (rest : U64) : toByte (rest &&& 255) = rest.setWidth 8 := by
  apply BitVec.eq_of_toNat_eq
  have hand : (rest &&& 255).toNat = rest.toNat % 2 ^ 8 := and_two_pow_sub_one_eq_mod rest.toNat 8
  rw [toByte, BitVec.toNat_setWidth, BitVec.toNat_setWidth, hand, mod_mod]

theorem ofByte_low (rest : U64) : ofByte (rest.setWidth 8) = rest &&& 255 := by
  apply BitVec.eq_of_toNat_eq
  have hand : (rest &&& 255).toNat = rest.toNat % 2 ^ 8 := and_two_pow_sub_one_eq_mod rest.toNat 8
  rw [ofByte, BitVec.toNat_setWidth, BitVec.toNat_setWidth, hand]
  omega

namespace DefaultHasher

theorem write_eq (state : U64) (bytes : List Byte) :
    write state bytes = .ok (bytes.foldl Fnv.mix state) := by
  induction bytes generalizing state with
  | nil => rfl
  | cons byte bytes ih =>
    rw [write, fnvMix_eq, ok_bind, ih]
    rfl

theorem writeInteger_eq (state rest : U64) (width : ℕ) :
    writeInteger state rest width = write state (littleEndian rest width) := by
  induction width generalizing state rest with
  | zero => rfl
  | succ width ih =>
    rw [writeInteger, toByte_and, fnvMix_eq, ok_bind, shrU64_eq (by decide), ok_bind, ih,
      littleEndian,
      write, fnvMix_eq, ok_bind]

theorem writeStrFrom_eq (text : List Byte) (state : U64) (index left : ℕ)
    (h : index + left = text.length) :
    writeStrFrom text state index left = write state (text.drop index) := by
  induction left generalizing state index with
  | zero => rw [drop_of_length_le (by omega)]; rfl
  | succ left ih =>
    have hlt : index < text.length := by omega
    obtain ⟨hbyte, hrest⟩ := bytesAt_eq (drop_eq_getElem_cons hlt)
    rw [writeStrFrom, hbyte, ok_bind, fnvMix_eq, ok_bind, ih _ _ (by omega),
      drop_eq_getElem_cons hlt, write, fnvMix_eq, ok_bind]

theorem call_eq (state : U64) (c : Write) : call state c = write state c.bytes := by
  cases c with
  | write bytes => rfl
  | integer method value => exact writeInteger_eq state (bits value) method.width
  | writeStr text => exact writeStrFrom_eq text state 0 text.length (zero_add _)

/-- **The default hasher is FNV-1a** of the bytes written, however the calls divide them. -/
theorem calls_eq (state : U64) (cs : List Write) :
    calls state cs = .ok ((cs.flatMap Write.bytes).foldl Fnv.mix state) := by
  induction cs generalizing state with
  | nil => rfl
  | cons c cs ih =>
    rw [calls, call_eq, write_eq, ok_bind, ih, flatMap_cons, List.foldl_append]

end DefaultHasher

/-! ### HalfSipHash -/

/-- The lanes in `u64`s. -/
def lanes (l : Lanes) : U64 × U64 × U64 × U64 := (wide l.v0, wide l.v1, wide l.v2, wide l.v3)

theorem masked (x : U64) : x &&& 4294967295 = wide (half x) := and_mask x

variable {k : ℕ}

theorem half_rotated (w : BitVec 32) {j : ℕ} (hk : k < 32) (hj : j = 32 - k) :
    half ((wide w <<< k) ||| (wide w >>> j)) = w.rotateLeft k := hj ▸ half_rotate w hk

/-- The round in `u64`s, with no sum that overflows. -/
theorem sipRound_eq (l : Lanes) :
    sipRound (wide l.v0) (wide l.v1) (wide l.v2) (wide l.v3) = .ok (lanes l.round) := by
  have hshl : ∀ (a : U64) {k : ℕ}, k < 64 → shlU64 a k = .ok (a <<< k) := fun _ _ => shlU64_eq
  have hshr : ∀ (a : U64) {k : ℕ}, k < 64 → shrU64 a k = .ok (a >>> k) := fun _ _ => shrU64_eq
  unfold sipRound
  simp only [addU64_wide, ok_bind, masked, half_add, half_wide, wide_xor, pure_eq,
    hshl _ (by decide : 5 < 64), hshr _ (by decide : 27 < 64), half_rotated _ (by decide : 5 < 32)
      rfl,
    hshl _ (by decide : 16 < 64), hshr _ (by decide : 16 < 64), half_rotated _ (by decide : 16 < 32)
      rfl,
    hshl _ (by decide : 8 < 64), hshr _ (by decide : 24 < 64), half_rotated _ (by decide : 8 < 32)
      rfl,
    hshl _ (by decide : 7 < 64), hshr _ (by decide : 25 < 64), half_rotated _ (by decide : 7 < 32)
      rfl,
    hshl _ (by decide : 13 < 64), hshr _ (by decide : 19 < 64), half_rotated _ (by decide : 13 < 32)
      rfl]
  rfl

theorem stringRound_eq (a b c d : U64) : stringRound a b c d = sipRound a b c d := rfl

namespace BucketHasher

/-- The hasher with these lanes, the bytes left over and the count. -/
def holding (l : Lanes) (left : List Byte) (count : ℕ) : BucketHasher :=
  ⟨wide l.v0, wide l.v1, wide l.v2, wide l.v3, wide (HalfSip.word left), count⟩

theorem absorb_eq (l : Lanes) (left : List Byte) (count : ℕ) (m : BitVec 32) :
    (holding l left count).absorb (wide m) = .ok (holding (l.absorb m) [] count) := by
  rw [absorb]
  show (sipRound (wide l.v0) (wide l.v1) (wide l.v2) (wide l.v3 ^^^ wide m) >>= _) = _
  rw [wide_xor]
  have hround := sipRound_eq { l with v3 := l.v3 ^^^ m }
  simp only at hround
  rw [hround, ok_bind, pure_eq]
  simp only [lanes, wide_xor]
  rfl

/-- The hasher after some bytes. -/
def after (seed : U64) (bytes : List Byte) : BucketHasher :=
  holding ((initial seed).absorbAll bytes).1 ((initial seed).absorbAll bytes).2 bytes.length

theorem new_eq (seed : U64) : new seed = .ok (after seed []) := by
  rw [new, masked, shrU64_eq (by decide), ok_bind, pure_eq, ← wide_high]
  show Except.ok (BucketHasher.mk _ _ (wide (half seed) ^^^ wide 1819895653)
    (wide (half (seed >>> 32)) ^^^ wide 1952801890) _ _) = _
  rw [wide_xor, wide_xor]
  rfl

theorem ofByte_shiftLeft (byte : Byte) (hk : k < 4) :
    ofByte byte <<< (8 * k) = wide (byte.setWidth 32 <<< (8 * k)) := by
  apply BitVec.eq_of_toNat_eq
  have hbyte : byte.toNat < 2 ^ 8 := byte.isLt
  have hpow : 2 ^ (8 * k) ≤ 2 ^ 24 := Nat.pow_le_pow_right (by decide) (by omega)
  have hlt : byte.toNat * 2 ^ (8 * k) < 2 ^ 8 * 2 ^ 24 := Nat.mul_lt_mul_of_lt_of_le hbyte hpow
    (by decide)
  rw [toNat_wide, BitVec.toNat_shiftLeft, BitVec.toNat_shiftLeft, ofByte,
    BitVec.toNat_setWidth_of_le (by decide), BitVec.toNat_setWidth_of_le (by decide),
    Nat.shiftLeft_eq, Nat.mod_eq_of_lt (by omega), Nat.mod_eq_of_lt (by omega)]

theorem put_eq (seed : U64) (bytes : List Byte) (byte : Byte) :
    (after seed bytes).put (ofByte byte) =
      if bytes.length + 1 < USIZE then .ok (after seed (bytes ++ [byte])) else .error overflow := by
  have hand : ∀ n : ℕ, n &&& 3 = n % 4 := fun n => and_two_pow_sub_one_eq_mod n 2
  have hleft := absorbAll_left (initial seed) bytes
  have hsnoc := absorbAll_snoc (initial seed) bytes byte
  unfold after at *
  generalize hstate : (initial seed).absorbAll bytes = state at *
  obtain ⟨l, left⟩ := state
  have hword : wide (HalfSip.word left) ||| (ofByte byte <<< (8 * (bytes.length % 4))) =
      wide (HalfSip.word (left ++ [byte])) := by
    have hlength : left.length = bytes.length % 4 := hleft
    rw [ofByte_shiftLeft byte (mod_lt _ (by decide)), word_snoc, hlength]
    exact BitVec.setWidth_or.symm
  unfold put
  show (shlU64 (ofByte byte) ((bytes.length &&& 3) * 8) >>= fun shifted =>
    addUsize bytes.length 1 >>= _) = _
  rw [hand, mul_comm, shlU64_eq (by omega), ok_bind, addUsize]
  split
  · next hfits =>
    rw [ok_bind, hand, hsnoc]
    show (if _ then absorb (holding l left (bytes.length + 1)) (wide (HalfSip.word left) ||| _) else
      _) = _
    rw [hword]
    by_cases hfull : bytes.length % 4 = 3
    · rw [if_pos (by omega), if_pos hfull, absorb_eq, length_append, length_singleton]
    · rw [if_neg (by omega), if_neg hfull, pure_eq, length_append, length_singleton]
      show Except.ok (BucketHasher.mk _ _ _ _ (wide (HalfSip.word left) ||| _) _) = _
      rw [hword]
      rfl
  · rfl

theorem write_eq (seed : U64) (bytes more : List Byte) (h : bytes.length < USIZE) :
    (after seed bytes).write more =
      if bytes.length + more.length < USIZE then .ok (after seed (bytes ++ more))
      else .error overflow := by
  induction more generalizing bytes with
  | nil =>
    rw [length_nil, add_zero, if_pos h, append_nil]
    rfl
  | cons byte more ih =>
    rw [write, put_eq, length_cons]
    by_cases hfits : bytes.length + 1 < USIZE
    · rw [if_pos hfits, ok_bind, ih _ (by rwa [length_append, length_singleton]), length_append,
        length_singleton, append_assoc, singleton_append]
      simp only [add_assoc, add_comm 1]
    · rw [if_neg hfits, if_neg (by omega)]
      rfl

theorem writeInteger_eq (h : BucketHasher) (rest : U64) (width : ℕ) :
    h.writeInteger rest width = h.write (littleEndian rest width) := by
  induction width generalizing h rest with
  | zero => rfl
  | succ width ih =>
    rw [writeInteger, littleEndian, write, ofByte_low]
    refine congrArg (h.put (rest &&& 255) >>= ·) (funext fun h' => ?_)
    rw [shrU64_eq (by decide), ok_bind, ih]

theorem writeStrFrom_eq (text : List Byte) (h : BucketHasher) (index left : ℕ)
    (hleft : index + left = text.length) :
    writeStrFrom text h index left = h.write (text.drop index) := by
  induction left generalizing h index with
  | zero => rw [drop_of_length_le (by omega)]; rfl
  | succ left ih =>
    have hlt : index < text.length := by omega
    obtain ⟨hbyte, hrest⟩ := bytesAt_eq (drop_eq_getElem_cons hlt)
    rw [writeStrFrom, hbyte, ok_bind, drop_eq_getElem_cons hlt, write]
    exact congrArg _ (funext fun h' => ih h' (index + 1) (by omega))

theorem call_eq (h : BucketHasher) (c : Write) : h.call c = h.write c.bytes := by
  cases c with
  | write bytes => rfl
  | integer method value => exact writeInteger_eq h (bits value) method.width
  | writeStr text => exact writeStrFrom_eq text h 0 text.length (zero_add _)

theorem calls_eq (seed : U64) (bytes : List Byte) (cs : List Write) (h : bytes.length < USIZE) :
    (after seed bytes).calls cs =
      if bytes.length + (cs.flatMap Write.bytes).length < USIZE then
        .ok (after seed (bytes ++ cs.flatMap Write.bytes))
      else .error overflow := by
  induction cs generalizing bytes with
  | nil =>
    rw [flatMap_nil, append_nil, length_nil, add_zero, if_pos h]
    rfl
  | cons c cs ih =>
    rw [calls, call_eq, write_eq _ _ _ h, flatMap_cons, length_append]
    by_cases hfits : bytes.length + c.bytes.length < USIZE
    · rw [if_pos hfits, ok_bind, ih _ (by rwa [length_append]), length_append, append_assoc,
        add_assoc]
    · rw [if_neg hfits, if_neg (by omega)]
      rfl

theorem length_shiftLeft (n : ℕ) :
    BitVec.ofNat 64 (n &&& 255) <<< 24 = wide (BitVec.ofNat 32 (n % 256) <<< 24) := by
  have hand : n &&& 255 = n % 256 := and_two_pow_sub_one_eq_mod n 8
  apply BitVec.eq_of_toNat_eq
  rw [hand, toNat_wide, BitVec.toNat_shiftLeft, BitVec.toNat_shiftLeft, BitVec.toNat_ofNat,
    BitVec.toNat_ofNat, shiftLeft_eq, shiftLeft_eq]
  omega

theorem finish_eq (seed : U64) (bytes : List Byte) :
    (after seed bytes).finish = .ok (halfSipHash seed bytes) := by
  unfold after halfSipHash
  generalize (initial seed).absorbAll bytes = state
  obtain ⟨l, left⟩ := state
  rw [finish]
  show (shlU64 (BitVec.ofNat 64 (bytes.length &&& 255)) 24 >>= fun top =>
    (holding l left bytes.length).absorb (wide (HalfSip.word left) ||| top) >>= _) = _
  have hword : wide (HalfSip.word left) ||| wide (BitVec.ofNat 32 (bytes.length % 256) <<< 24) =
      wide (HalfSip.word left ||| BitVec.ofNat 32 (bytes.length % 256) <<< 24) :=
        BitVec.setWidth_or.symm
  rw [shlU64_eq (by decide), ok_bind, length_shiftLeft, hword, absorb_eq, ok_bind]
  show _ = Except.ok (l.finish left bytes.length)
  unfold Lanes.finish
  generalize l.absorb (HalfSip.word left ||| BitVec.ofNat 32 (bytes.length % 256) <<< 24) = l'
  show (sipRound (wide l'.v0) (wide l'.v1) (wide l'.v2 ^^^ wide 255) (wide l'.v3) >>= _) = _
  rw [wide_xor]
  have hround := sipRound_eq { l' with v2 := l'.v2 ^^^ 255 }
  simp only at hround
  rw [hround, ok_bind]
  show (sipRound (wide _) (wide _) (wide _) (wide _) >>= _) = _
  rw [sipRound_eq, ok_bind]
  show (sipRound (wide _) (wide _) (wide _) (wide _) >>= _) = _
  rw [sipRound_eq, ok_bind, pure_eq]
  show Except.ok (half (wide _ ^^^ wide _)) = _
  rw [wide_xor, half_wide]

/-- **The bucket hasher is HalfSipHash-1-3** of the bytes written, however the calls divide them,
when the count of the bytes is a `usize`. -/
theorem digest_eq (seed : U64) (cs : List Write) :
    (do
      let h ← new seed
      let h ← h.calls cs
      h.finish) =
      if (cs.flatMap Write.bytes).length < USIZE then
        .ok (halfSipHash seed (cs.flatMap Write.bytes))
      else .error overflow := by
  rw [new_eq, ok_bind, calls_eq _ _ _ (by decide), nil_append, length_nil, zero_add]
  split
  · rw [ok_bind, finish_eq]
  · rfl

end BucketHasher

/-! ### The string path -/

theorem wide_or (v w : BitVec 32) : wide v ||| wide w = wide (v ||| w) := BitVec.setWidth_or.symm

theorem append_eq_word (b0 b1 b2 b3 : Byte) : b3 ++ b2 ++ b1 ++ b0 = HalfSip.word [b0, b1, b2, b3]
    := by
  simp only [word]
  ext i hi
  simp only [BitVec.getElem_or, BitVec.getElem_setWidth, BitVec.getElem_shiftLeft]
  grind

theorem loadU32_eq {b0 b1 b2 b3 : Byte} (h : text.drop index = b0 :: b1 :: b2 :: b3 :: rest) :
    loadU32 text index = .ok (HalfSip.word [b0, b1, b2, b3]) ∧ text.drop (index + 4) = rest := by
  obtain ⟨h0, h⟩ := bytesAt_eq h
  obtain ⟨h1, h⟩ := bytesAt_eq h
  obtain ⟨h2, h⟩ := bytesAt_eq h
  obtain ⟨h3, h⟩ := bytesAt_eq h
  refine ⟨?_, h⟩
  rw [loadU32, h0, ok_bind, h1, ok_bind, h2, ok_bind, h3, ok_bind, pure_eq, append_eq_word]

variable {key : List Byte} {i : ℕ}

/-- The last word is the bytes left over, under the length. -/
theorem lastWord_eq (h : (key.drop i).length < 4) :
    lastWord key i = .ok (wide (HalfSip.word (key.drop i) |||
      BitVec.ofNat 32 (key.length % 256) <<< 24)) := by
  have hrest : key.length - i = (key.drop i).length := length_drop.symm
  have hplace : ∀ (byte : Byte) {k : ℕ}, k < 4 →
      ofByte byte <<< (8 * k) = wide (byte.setWidth 32 <<< (8 * k)) := fun byte _ =>
    BucketHasher.ofByte_shiftLeft byte
  have hfirst : ∀ byte : Byte, ofByte byte = wide (byte.setWidth 32) := fun byte => by
    simpa using hplace byte (by decide : 0 < 4)
  unfold lastWord
  show (shlU64 (BitVec.ofNat 64 (key.length &&& 255)) 24 >>= _) = _
  rw [shlU64_eq (by decide), ok_bind, BucketHasher.length_shiftLeft]
  generalize BitVec.ofNat 32 (key.length % 256) <<< 24 = top
  rw [hrest]
  have hone : ∀ b0 : Byte, word [b0] = b0.setWidth 32 := fun b0 => by simp [word]
  have htwo : ∀ b0 b1 : Byte, word [b0, b1] = b0.setWidth 32 ||| b1.setWidth 32 <<< 8 :=
    fun b0 b1 => by rw [← hone]; exact word_snoc [b0] b1
  have hthree : ∀ b0 b1 b2 : Byte, word [b0, b1, b2] =
      b0.setWidth 32 ||| b1.setWidth 32 <<< 8 ||| b2.setWidth 32 <<< 16 :=
    fun b0 b1 b2 => by rw [← htwo]; exact word_snoc [b0, b1] b2
  generalize hleft : key.drop i = left at *
  rcases left with _ | ⟨b0, _ | ⟨b1, _ | ⟨b2, _ | ⟨b3, left⟩⟩⟩⟩
  · show Except.ok (wide top) = Except.ok (wide (0 ||| top))
    exact congrArg (fun w => Except.ok (wide w)) (BitVec.zero_or).symm
  · obtain ⟨h0, -⟩ := bytesAt_eq hleft
    show (bytesAt key i >>= fun byte => Except.ok (wide top ||| ofByte byte)) = _
    rw [h0, ok_bind, hfirst, wide_or, hone, BitVec.or_comm]
  · obtain ⟨h0, h⟩ := bytesAt_eq hleft
    obtain ⟨h1, -⟩ := bytesAt_eq h
    show (bytesAt key i >>= fun byte => bytesAt key (i + 1) >>= fun byte' =>
      shlU64 (ofByte byte') 8 >>= fun second => Except.ok (wide top ||| ofByte byte ||| second)) = _
    rw [h0, ok_bind, h1, ok_bind, shlU64_eq (by decide), ok_bind, hfirst, hplace b1
      (by decide : 1 < 4),
      wide_or, wide_or, htwo, BitVec.or_comm top, BitVec.or_assoc, BitVec.or_comm top,
        BitVec.or_assoc]
  · obtain ⟨h0, h⟩ := bytesAt_eq hleft
    obtain ⟨h1, h⟩ := bytesAt_eq h
    obtain ⟨h2, -⟩ := bytesAt_eq h
    show (bytesAt key i >>= fun byte => bytesAt key (i + 1) >>= fun byte' =>
      shlU64 (ofByte byte') 8 >>= fun second => bytesAt key (i + 2) >>= fun byte'' =>
      shlU64 (ofByte byte'') 16 >>= fun third =>
        Except.ok (wide top ||| ofByte byte ||| second ||| third)) = _
    rw [h0, ok_bind, h1, ok_bind, shlU64_eq (by decide), ok_bind, h2, ok_bind, shlU64_eq
      (by decide),
      ok_bind, hfirst, hplace b1 (by decide : 1 < 4), hplace b2 (by decide : 2 < 4), wide_or,
        wide_or,
      wide_or, hthree, BitVec.or_comm _ top, BitVec.or_assoc top, BitVec.or_assoc top]
  · simp only [length_cons] at h
    omega

/-- The lanes after the last word. -/
def lastLanes (l : Lanes) (bytes : List Byte) (length : ℕ) : Lanes :=
  (l.absorbAll bytes).1.absorb
    (HalfSip.word (l.absorbAll bytes).2 ||| BitVec.ofNat 32 (length % 256) <<< 24)

theorem stringRound_lanes (l : Lanes) (m : BitVec 32) :
    stringRound (wide l.v0) (wide l.v1) (wide l.v2) (wide l.v3 ^^^ wide m) =
      .ok (lanes (Lanes.round { l with v3 := l.v3 ^^^ m })) := by
  rw [stringRound_eq, wide_xor]
  exact sipRound_eq { l with v3 := l.v3 ^^^ m }

theorem exists_four (bytes : List Byte) (h : 4 ≤ bytes.length) :
    ∃ b0 b1 b2 b3 rest, bytes = b0 :: b1 :: b2 :: b3 :: rest := by
  match bytes, h with
  | b0 :: b1 :: b2 :: b3 :: rest, _ => exact ⟨b0, b1, b2, b3, rest, rfl⟩

/-- The loop over the words of a string: its index is a `usize`. -/
theorem stringFrom_eq {fuel : ℕ} (l : Lanes) (hword : i % 4 = 0) (hle : i ≤ key.length)
    (hbound : i + 4 ≤ USIZE) (hfuel : key.length < i + 4 * fuel) :
    stringFrom key fuel i (lanes l) =
      if key.length + 4 < USIZE then .ok (lanes (lastLanes l (key.drop i) key.length))
      else .error overflow := by
  have hsize : USIZE = 4294967296 := rfl
  induction fuel generalizing i l with
  | zero => omega
  | succ fuel ih =>
    rw [lanes, stringFrom, addUsize]
    by_cases hindex : i + 4 < USIZE
    · rw [if_pos hindex, ok_bind]
      by_cases hfull : i + 4 ≤ key.length
      · rw [if_pos hfull]
        obtain ⟨b0, b1, b2, b3, rest, hdrop⟩ := exists_four (key.drop i)
          (by rw [length_drop]; omega)
        obtain ⟨hload, hrest⟩ := loadU32_eq hdrop
        rw [hload, ok_bind]
        show (stringRound (wide l.v0) (wide l.v1) (wide l.v2)
          (wide l.v3 ^^^ wide (word [b0, b1, b2, b3])) >>= _) = _
        rw [stringRound_lanes, ok_bind]
        show stringFrom key fuel (i + 4) (wide _ ^^^ wide _, _, _, _) = _
        rw [wide_xor]
        have hnext := ih (i := i + 4) (l.absorb (word [b0, b1, b2, b3])) (by omega) hfull
          (by omega) (by omega)
        rw [hrest] at hnext
        rw [hdrop]
        exact hnext
      · rw [if_neg hfull]
        have hleft : (key.drop i).length < 4 := by
          rw [length_drop]
          omega
        rw [lastWord_eq hleft, ok_bind]
        show (stringRound (wide l.v0) (wide l.v1) (wide l.v2) (wide l.v3 ^^^ wide _) >>= _) = _
        rw [stringRound_lanes, ok_bind, if_pos (by omega)]
        show Except.ok (wide _ ^^^ wide _, _, _, _) = _
        rw [wide_xor, lastLanes, absorbAll_of_lt hleft]
        rfl
    · rw [if_neg hindex, if_neg (by omega)]
      rfl

/-- **A string's bucket hash is the digest of its bytes**, when its index stays a `usize`. -/
theorem stringBucketHash_eq (seed : U64) (key : List Byte) :
    stringBucketHash seed key =
      if key.length + 4 < USIZE then .ok (halfSipHash seed key) else .error overflow := by
  have hstart : (seed &&& 4294967295, seed >>> 32, (seed &&& 4294967295) ^^^ 1819895653,
      (seed >>> 32) ^^^ 1952801890) = lanes (initial seed) := by
    rw [masked, ← wide_high]
    show (wide _, wide _, wide _ ^^^ wide 1819895653, wide _ ^^^ wide 1952801890) = _
    rw [wide_xor, wide_xor]
    rfl
  unfold stringBucketHash
  show (shrU64 seed 32 >>= fun high => stringFrom key (key.length + 1) 0 (seed &&& 4294967295, high,
    (seed &&& 4294967295) ^^^ 1819895653, high ^^^ 1952801890) >>= _) = _
  rw [shrU64_eq (by decide), ok_bind, hstart, stringFrom_eq _ rfl (zero_le _) (by decide)
    (by omega)]
  split
  · rw [ok_bind, drop_zero]
    show _ = Except.ok (((initial seed).absorbAll key).1.finish _ key.length)
    unfold Lanes.finish
    rw [← lastLanes]
    generalize lastLanes (initial seed) key key.length = l
    show (stringRound (wide l.v0) (wide l.v1) (wide l.v2 ^^^ wide 255) (wide l.v3) >>= _) = _
    have hround := sipRound_eq { l with v2 := l.v2 ^^^ 255 }
    simp only at hround
    rw [wide_xor, stringRound_eq, hround, ok_bind]
    show (stringRound (wide _) (wide _) (wide _) (wide _) >>= _) = _
    rw [stringRound_eq, sipRound_eq, ok_bind]
    show (stringRound (wide _) (wide _) (wide _) (wide _) >>= _) = _
    rw [stringRound_eq, sipRound_eq, ok_bind]
    show Except.ok (half (wide _ ^^^ wide _)) = _
    rw [wide_xor, half_wide]
  · rfl

/-- **No product of the integer path overflows.** -/
theorem intBucketHash_ok (seed value : U64) : ∃ hash, intBucketHash seed value = .ok hash := by
  have height : ∀ w : BitVec 32, wide w ^^^ 8 = wide (w ^^^ 8) := fun w => wide_xor w 8
  have hhigh : ∀ a : U64, shrU64 a 32 = .ok (wide (half (a >>> 32))) := fun a => by
    rw [shrU64_eq (by decide), wide_high]
  unfold intBucketHash
  simp only [masked, hhigh, ok_bind, height, wide_xor, mulU64_wide, pure_eq]
  exact ⟨_, rfl⟩

/-- The digest of a sequence of calls on a fresh `BucketHasher`. -/
def digest (seed : U64) (cs : List Write) : Except Stop (BitVec 32) := do
  let h ← BucketHasher.new seed
  let h ← h.calls cs
  h.finish

theorem flatMap_replicate_length (n : ℕ) :
    ((List.replicate n (Write.integer .writeU64 (0 : BitVec 64))).flatMap Write.bytes).length = n *
      8 := by
  induction n with
  | zero => rfl
  | succ n ih =>
    rw [replicate_succ, flatMap_cons, length_append, ih, succ_mul, add_comm]
    rfl

end HdLang.Hash
