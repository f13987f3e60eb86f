import HdLang.Encoding.Model
import Mathlib.Tactic.Ring

/-!
# Hex text

The loops write into a buffer of the size that is needed, so each is a walk of the list it reads
(`hexText`, `hexBytes`). A byte's two symbols are read back as the byte, and two symbols that are read
are those of the byte read, in either case.
-/

namespace HdLang.Encoding

open List

variable {α β : Type}

@[simp] theorem ok_bind (a : α) (f : α → Except Panic β) :
    ((.ok a : Except Panic α) >>= f) = f a := rfl

@[simp] theorem error_bind (p : Panic) (f : α → Except Panic β) :
    ((.error p : Except Panic α) >>= f) = .error p := rfl

theorem usize_eq {build : Build} {n : ℕ} (h : n < USIZE) : usize build n = .ok n := if_pos h

/-! ### Buffers -/

variable {list : List UInt8} {i : ℕ}

theorem read_eq {b : UInt8} (h : list[i]? = some b) :
    read list i = .ok b := by
  rw [read, h]

theorem read_append (front : List UInt8) (b : UInt8) (rest : List UInt8) :
    read (front ++ b :: rest) front.length = .ok b :=
  read_eq (by simp)

theorem zeroes_succ (n : ℕ) : zeroes (n + 1) = 0 :: zeroes n := rfl

/-- Writing the first byte that is not written yet. -/
theorem write_append (front : List UInt8) (x : UInt8) (rest : List UInt8) (b : UInt8) :
    write (front ++ x :: rest) front.length b = .ok (front ++ [b] ++ rest) := by
  rw [write, if_pos (by simp), set_append_right _ _ le_rfl, Nat.sub_self, set_cons_zero,
    append_assoc, singleton_append]

theorem write_next {front : List UInt8} {n : ℕ} (hi : i = front.length) (b : UInt8) :
    write (front ++ zeroes (n + 1)) i b = .ok (front ++ [b] ++ zeroes n) := by
  rw [hi, zeroes_succ, write_append]

theorem write_full (h : list.length ≤ i) (b : UInt8) :
    write list i b = .error .indexOutOfBounds :=
  if_neg (Nat.not_lt.mpr h)

/-! ### Digits -/

/-- A fact about every byte, from the 256 of them. -/
theorem forall_byte {P : UInt8 → Prop} (h : ∀ n < 256, P (UInt8.ofNat n)) (b : UInt8) : P b := by
  have hb := h b.toNat b.toNat_lt
  rwa [UInt8.ofNat_toNat] at hb

/-- A byte in lower case. -/
def lowerByte (code : UInt8) : UInt8 := if 65 ≤ code ∧ code ≤ 90 then code + 32 else code

/-- The 256 bytes and the pairs of digits, checked one by one. -/
theorem hexTable :
    (∀ n < 256, hexValue (hexSymbol (UInt8.ofNat n >>> 4)).toNat = ((UInt8.ofNat n >>> 4).toNat : ℤ) ∧
      hexValue (hexSymbol (UInt8.ofNat n &&& 15)).toNat = ((UInt8.ofNat n &&& 15).toNat : ℤ) ∧
      UInt8.ofInt (((UInt8.ofNat n >>> 4).toNat : ℤ) * 16 + ((UInt8.ofNat n &&& 15).toNat : ℤ)) =
        UInt8.ofNat n) ∧
    (∀ n < 256, ¬hexValue (UInt8.ofNat n).toNat < 0 →
      ∃ m < 16, hexValue (UInt8.ofNat n).toNat = (m : ℕ) ∧
        hexSymbol (UInt8.ofNat m) = lowerByte (UInt8.ofNat n)) ∧
    ∀ high < 16, ∀ low < 16,
      UInt8.ofInt ((high : ℕ) * 16 + (low : ℕ)) >>> 4 = UInt8.ofNat high ∧
        UInt8.ofInt ((high : ℕ) * 16 + (low : ℕ)) &&& 15 = UInt8.ofNat low := by
  decide +kernel

theorem hexValue_symbols (b : UInt8) :
    hexValue (hexSymbol (b >>> 4)).toNat = ((b >>> 4).toNat : ℤ) ∧
      hexValue (hexSymbol (b &&& 15)).toNat = ((b &&& 15).toNat : ℤ) ∧
      UInt8.ofInt (((b >>> 4).toNat : ℤ) * 16 + ((b &&& 15).toNat : ℤ)) = b := by
  revert b
  exact forall_byte hexTable.1

/-- What is read as a digit is the symbol of its value, in either case. -/
theorem hexSymbol_value (code : UInt8) (h : ¬hexValue code.toNat < 0) :
    ∃ n < 16, hexValue code.toNat = (n : ℕ) ∧ hexSymbol (UInt8.ofNat n) = lowerByte code := by
  revert code
  exact forall_byte hexTable.2.1

theorem nibbles : ∀ high < 16, ∀ low < 16,
    UInt8.ofInt ((high : ℕ) * 16 + (low : ℕ)) >>> 4 = UInt8.ofNat high ∧
      UInt8.ofInt ((high : ℕ) * 16 + (low : ℕ)) &&& 15 = UInt8.ofNat low := hexTable.2.2

/-! ### Encoding -/

/-- The two symbols of a byte. -/
def hexPair (byte : UInt8) : List UInt8 := [hexSymbol (byte >>> 4), hexSymbol (byte &&& 15)]

/-- The hex text of the bytes. -/
def hexText (bytes : List UInt8) : List UInt8 := bytes.flatMap hexPair

theorem hexText_cons (byte : UInt8) (bytes : List UInt8) :
    hexText (byte :: bytes) = hexSymbol (byte >>> 4) :: hexSymbol (byte &&& 15) :: hexText bytes :=
  rfl

theorem hexText_length (bytes : List UInt8) : (hexText bytes).length = bytes.length * 2 := by
  induction bytes with
  | nil => rfl
  | cons byte bytes ih =>
    rw [hexText_cons, length_cons, length_cons, ih, length_cons]
    ring

theorem hexEncodeFrom_eq (front rest codes : List UInt8) (hcodes : codes.length = front.length * 2) :
    hexEncodeFrom (front ++ rest) front.length (codes ++ zeroes (rest.length * 2)) =
      .ok (codes ++ hexText rest) := by
  induction rest generalizing front codes with
  | nil =>
    rw [hexEncodeFrom, dif_neg (by simp)]
    rfl
  | cons byte rest ih =>
    have hroom : (byte :: rest).length * 2 = rest.length * 2 + 1 + 1 := by
      rw [length_cons]
      ring
    rw [hexEncodeFrom, dif_pos (by simp), read_append, ok_bind, hroom, write_next hcodes.symm,
      ok_bind, write_next (by simp [hcodes]), ok_bind]
    have hnext := ih (front ++ [byte])
      (codes ++ [hexSymbol (byte >>> 4)] ++ [hexSymbol (byte &&& 15)]) (by
        simp only [length_append, length_singleton, hcodes]
        ring)
    rw [length_append, length_singleton, append_assoc front, singleton_append] at hnext
    rw [hnext, hexText_cons]
    simp

theorem hexEncode_eq {build : Build} {bytes : List UInt8} (h : bytes.length * 2 < USIZE) :
    hexEncode build bytes = .ok (hexText bytes) := by
  rw [hexEncode, usize_eq h, ok_bind]
  exact hexEncodeFrom_eq [] bytes [] rfl

/-! ### Decoding -/

/-- The bytes that hex text of even length writes, or the first error; `index` is the offset of the
text. -/
def hexBytes (index : ℕ) : List UInt8 → Except DecodeError (List UInt8)
  | high :: low :: rest =>
    if hexValue high.toNat < 0 then .error (.invalidCharacter index)
    else if hexValue low.toNat < 0 then .error (.invalidCharacter (index + 1))
    else
      (hexBytes (index + 2) rest).map
        (UInt8.ofInt (hexValue high.toNat * 16 + hexValue low.toNat) :: ·)
  | _ => .ok []

theorem hexDecodeFrom_eq (front rest bytes : List UInt8) (hfront : front.length = bytes.length * 2)
    (hrest : rest.length % 2 = 0) :
    hexDecodeFrom (front ++ rest) front.length (bytes ++ zeroes (rest.length / 2)) =
      .ok ((hexBytes front.length rest).map (bytes ++ ·)) := by
  match rest with
  | [] =>
    rw [hexDecodeFrom, dif_neg (by simp)]
    rfl
  | [_] => simp at hrest
  | high :: low :: rest =>
    have hroom : (high :: low :: rest).length / 2 = rest.length / 2 + 1 := by
      simp only [length_cons]
      omega
    have hsecond : read (front ++ high :: low :: rest) (front.length + 1) = .ok low := by
      have hread := read_append (front ++ [high]) low rest
      rwa [length_append, length_singleton, append_assoc, singleton_append] at hread
    rw [hexDecodeFrom, dif_pos (by simp), read_append, ok_bind, hsecond]
    dsimp only
    by_cases hhigh : hexValue high.toNat < 0
    · rw [if_pos hhigh, hexBytes, if_pos hhigh]
      rfl
    · rw [if_neg hhigh, ok_bind]
      by_cases hlow : hexValue low.toNat < 0
      · rw [if_pos hlow, hexBytes, if_neg hhigh, if_pos hlow]
        rfl
      · have hplace : front.length / 2 = bytes.length := by omega
        rw [if_neg hlow, hroom, write_next hplace, ok_bind, hexBytes, if_neg hhigh, if_neg hlow]
        have hnext := hexDecodeFrom_eq (front ++ [high, low]) rest
          (bytes ++ [UInt8.ofInt (hexValue high.toNat * 16 + hexValue low.toNat)])
          (by simp [hfront]; omega) (by simp at hrest; omega)
        rw [length_append, append_assoc front] at hnext
        refine hnext.trans ?_
        show Except.ok (Except.map _ (hexBytes (front.length + 2) rest)) = _
        cases hexBytes (front.length + 2) rest with
        | error e => rfl
        | ok found => simp [Except.map]

variable {text : List UInt8}

theorem hexDecode_even (h : text.length % 2 = 0) :
    hexDecode text = .ok (hexBytes 0 text) := by
  have hrun := hexDecodeFrom_eq [] text [] rfl h
  rw [hexDecode, if_neg (not_not.mpr h)]
  refine hrun.trans ?_
  cases hexBytes 0 text <;> rfl

theorem hexDecode_odd (h : ¬text.length % 2 = 0) :
    hexDecode text = .ok (.error (.invalidLength text.length)) := if_pos h

theorem hexBytes_hexText (index : ℕ) (bytes : List UInt8) :
    hexBytes index (hexText bytes) = .ok bytes := by
  induction bytes generalizing index with
  | nil => rfl
  | cons byte bytes ih =>
    obtain ⟨hhigh, hlow, hbyte⟩ := hexValue_symbols byte
    rw [hexText_cons, hexBytes, hhigh, hlow, if_neg (by omega), if_neg (by omega), ih, hbyte]
    rfl

/-- Text that is read is, in lower case, the text of what is read. -/
theorem hexText_of_hexBytes {index : ℕ} {text bytes : List UInt8} (heven : text.length % 2 = 0)
    (h : hexBytes index text = .ok bytes) : hexText bytes = text.map lowerByte := by
  match text with
  | [] =>
    cases h
    rfl
  | [_] => simp at heven
  | high :: low :: rest =>
    rw [hexBytes] at h
    by_cases hhigh : hexValue high.toNat < 0
    · rw [if_pos hhigh] at h
      cases h
    · rw [if_neg hhigh] at h
      by_cases hlow : hexValue low.toNat < 0
      · rw [if_pos hlow] at h
        cases h
      · rw [if_neg hlow] at h
        cases hfound : hexBytes (index + 2) rest with
        | error e =>
          rw [hfound] at h
          cases h
        | ok found =>
          rw [hfound] at h
          cases h
          obtain ⟨m, hm, hhighValue, hhighSymbol⟩ := hexSymbol_value high hhigh
          obtain ⟨n, hn, hlowValue, hlowSymbol⟩ := hexSymbol_value low hlow
          obtain ⟨hupper, hlower⟩ := nibbles m hm n hn
          rw [hexText_cons, hhighValue, hlowValue, hupper, hlower, hhighSymbol, hlowSymbol,
            hexText_of_hexBytes (by simp at heven; omega) hfound, map_cons, map_cons]

theorem hexBytes_error {index : ℕ} {text : List UInt8} {e : DecodeError}
    (h : hexBytes index text = .error e) : e.position < index + text.length := by
  match text with
  | [] => cases h
  | [_] => cases h
  | high :: low :: rest =>
    rw [hexBytes] at h
    by_cases hhigh : hexValue high.toNat < 0
    · rw [if_pos hhigh] at h
      cases h
      show index < _
      simp
    · rw [if_neg hhigh] at h
      by_cases hlow : hexValue low.toNat < 0
      · rw [if_pos hlow] at h
        cases h
        show index + 1 < _
        simp
      · rw [if_neg hlow] at h
        cases hfound : hexBytes (index + 2) rest with
        | error e' =>
          rw [hfound] at h
          cases h
          have := hexBytes_error hfound
          simp only [length_cons]
          omega
        | ok found =>
          rw [hfound] at h
          cases h

end HdLang.Encoding
