import HdLang.Encoding.Hex
import HdLang.Lib.Numerals

/-!
# Base64 text

Bytes are a numeral in base 256 and symbols one in base 64. `encode` writes the numeral of the bytes,
shifted by the pad bits (`value_sextets`). The loop of `decode` keeps that the bytes written, followed
by the bits in its buffer, are the numeral of the symbols read (`Reads`), so at its end a buffer of
zero bits leaves the bytes whose symbols were read.
-/

namespace HdLang.Encoding

open Positional List Nat

/-! ### Bits -/

theorem or_eq_add {a b i : ℕ} (hb : b < 2 ^ i) : a <<< i ||| b = a * 2 ^ i + b := by
  rw [← shiftLeft_add_eq_or_of_lt hb, shiftLeft_eq]

theorem group_eq {a b c : ℕ} (hb : b < 256) (hc : c < 256) :
    a <<< 16 ||| b <<< 8 ||| c = a * 65536 + b * 256 + c := by
  have hhigh : a <<< 16 ||| b <<< 8 = (a * 256 + b) <<< 8 := by
    rw [or_eq_add (by rw [shiftLeft_eq]; omega), shiftLeft_eq, shiftLeft_eq]
    ring
  rw [hhigh, or_eq_add (by omega)]
  ring

theorem and_63 (n : ℕ) : n &&& 63 = n % 64 := and_two_pow_sub_one_eq_mod n 6

/-! ### Symbols -/

namespace Base64

variable (self : Base64)

/-- The 64 symbols and the 256 bytes, checked one by one. -/
theorem alphabet : (∀ n < 64, self.value (self.symbol n) = n ∧ self.symbol n ≠ 61 ∧
      self.symbol n < 128) ∧
    (∀ n < 256, ¬self.value (UInt8.ofNat n) < 0 → (self.value (UInt8.ofNat n)).toNat < 64 ∧
      self.symbol (self.value (UInt8.ofNat n)).toNat = UInt8.ofNat n) ∧ self.value 61 < 0 := by
  cases self <;> decide +kernel

theorem value_symbol {n : ℕ} (hn : n < 64) : self.value (self.symbol n) = n :=
  (self.alphabet.1 n hn).1

theorem symbol_value {code : UInt8} (h : ¬self.value code < 0) :
    (self.value code).toNat < 64 ∧ self.symbol (self.value code).toNat = code := by
  revert code
  apply forall_byte
  exact self.alphabet.2.1

theorem value_pad : self.value 61 < 0 := self.alphabet.2.2

end Base64

/-! ### The symbols of bytes -/

/-- The six-bit values that `encode` writes symbols of. -/
def sextets : List UInt8 → List ℕ
  | a :: b :: c :: rest =>
    let group := a.toNat <<< 16 ||| b.toNat <<< 8 ||| c.toNat
    [group >>> 18, group >>> 12 &&& 63, group >>> 6 &&& 63, group &&& 63] ++ sextets rest
  | [a, b] =>
    let group := a.toNat <<< 16 ||| b.toNat <<< 8
    [group >>> 18, group >>> 12 &&& 63, group >>> 6 &&& 63]
  | [a] =>
    let group := a.toNat <<< 16
    [group >>> 18, group >>> 12 &&& 63]
  | [] => []

/-- The bytes as digits. -/
def octets (bytes : List UInt8) : List ℕ := bytes.map UInt8.toNat

theorem octets_lt {bytes : List UInt8} {d : ℕ} (hd : d ∈ octets bytes) : d < 256 := by
  obtain ⟨b, -, rfl⟩ := mem_map.mp hd
  exact b.toNat_lt

theorem octets_injective {bytes bytes' : List UInt8} (h : octets bytes = octets bytes') :
    bytes = bytes' :=
  map_injective_iff.mpr (fun _ _ => UInt8.toNat_inj.mp) h

/-- How many bits pad the last symbol. -/
def padBits (bytes : List UInt8) : ℕ := (sextets bytes).length * 6 - bytes.length * 8

/-- There are the fewest symbols that hold the bytes. -/
theorem sextets_length (bytes : List UInt8) :
    (sextets bytes).length = (bytes.length * 4 + 2) / 3 := by
  match bytes with
  | a :: b :: c :: rest =>
    rw [sextets, length_append, sextets_length rest]
    simp only [length_cons, length_nil]
    omega
  | [a, b] => simp [sextets]
  | [a] => simp [sextets]
  | [] => rfl

theorem sextets_of_group {g : ℕ} (hg : g < 16777216) :
    g >>> 18 < 64 ∧ g >>> 12 &&& 63 < 64 ∧ g >>> 6 &&& 63 < 64 ∧ g &&& 63 < 64 ∧
      ((g >>> 18 * 64 + (g >>> 12 &&& 63)) * 64 + (g >>> 6 &&& 63)) * 64 + (g &&& 63) = g := by
  simp only [and_63, shiftRight_eq_div_pow]
  omega

theorem sextets_lt (bytes : List UInt8) : ∀ d ∈ sextets bytes, d < 64 := by
  match bytes with
  | a :: b :: c :: rest =>
    have ha := a.toNat_lt
    have hb := b.toNat_lt
    have hc := c.toNat_lt
    have hgroup := group_eq (a := a.toNat) hb hc
    obtain ⟨h₀, h₁, h₂, h₃, -⟩ := sextets_of_group
      (g := a.toNat <<< 16 ||| b.toNat <<< 8 ||| c.toNat) (by omega)
    intro d hd
    rw [sextets, mem_append] at hd
    obtain hd | hd := hd
    · simp only [mem_cons, not_mem_nil, or_false] at hd
      obtain rfl | rfl | rfl | rfl := hd
      · exact h₀
      · exact h₁
      · exact h₂
      · exact h₃
    · exact sextets_lt rest d hd
  | [a, b] =>
    have ha := a.toNat_lt
    have hb := b.toNat_lt
    have hgroup := group_eq (a := a.toNat) hb (c := 0) (by omega)
    rw [or_zero] at hgroup
    obtain ⟨h₀, h₁, h₂, -, -⟩ := sextets_of_group (g := a.toNat <<< 16 ||| b.toNat <<< 8) (by omega)
    intro d hd
    simp only [sextets, mem_cons, not_mem_nil, or_false] at hd
    obtain rfl | rfl | rfl := hd
    · exact h₀
    · exact h₁
    · exact h₂
  | [a] =>
    have ha := a.toNat_lt
    obtain ⟨h₀, h₁, -, -, -⟩ := sextets_of_group (g := a.toNat <<< 16) (by rw [shiftLeft_eq]; omega)
    intro d hd
    simp only [sextets, mem_cons, not_mem_nil, or_false] at hd
    obtain rfl | rfl := hd
    · exact h₀
    · exact h₁
  | [] => exact fun d hd => absurd hd not_mem_nil

theorem value_two (s₀ s₁ : ℕ) : value 64 [s₀, s₁] = s₀ * 64 + s₁ := by
  simp [value_cons]

theorem value_three (s₀ s₁ s₂ : ℕ) : value 64 [s₀, s₁, s₂] = (s₀ * 64 + s₁) * 64 + s₂ := by
  simp only [value_cons, value_nil, length_cons, length_nil]
  ring

theorem value_four (s₀ s₁ s₂ s₃ : ℕ) :
    value 64 [s₀, s₁, s₂, s₃] = ((s₀ * 64 + s₁) * 64 + s₂) * 64 + s₃ := by
  simp only [value_cons, value_nil, length_cons, length_nil]
  ring

/-- **The symbols of bytes** are the numeral of the bytes, shifted by the pad bits. -/
theorem value_sextets (bytes : List UInt8) :
    value 64 (sextets bytes) = value 256 (octets bytes) * 2 ^ padBits bytes := by
  match bytes with
  | a :: b :: c :: rest =>
    have ha := a.toNat_lt
    have hb := b.toNat_lt
    have hc := c.toNat_lt
    have hgroup := group_eq (a := a.toNat) hb hc
    obtain ⟨-, -, -, -, hg⟩ := sextets_of_group
      (g := a.toNat <<< 16 ||| b.toNat <<< 8 ||| c.toNat) (by omega)
    have hlen := sextets_length rest
    have hpad : padBits (a :: b :: c :: rest) = padBits rest := by
      unfold padBits
      rw [sextets_length, sextets_length]
      simp only [length_cons]
      omega
    have hshift : 64 ^ (sextets rest).length = 256 ^ rest.length * 2 ^ padBits rest := by
      rw [show (64 : ℕ) = 2 ^ 6 from rfl, show (256 : ℕ) = 2 ^ 8 from rfl, ← pow_mul, ← pow_mul,
        ← pow_add]
      congr 1
      unfold padBits
      omega
    have hoctets : value 256 (octets (a :: b :: c :: rest)) =
        (a.toNat * 65536 + b.toNat * 256 + c.toNat) * 256 ^ rest.length +
          value 256 (octets rest) := by
      simp only [octets, map_cons, value_cons, length_cons, length_map]
      ring
    rw [sextets, value_append, value_four, hg, hgroup, hshift, value_sextets rest, hpad, hoctets]
    ring
  | [a, b] =>
    have ha := a.toNat_lt
    have hb := b.toNat_lt
    have hgroup := group_eq (a := a.toNat) hb (c := 0) (by omega)
    rw [or_zero] at hgroup
    have hoctets : value 256 (octets [a, b]) = a.toNat * 256 + b.toNat := by
      simp [octets, value_cons]
    have hpad : padBits [a, b] = 2 := by simp [padBits, sextets]
    simp only [sextets, value_three, hoctets, hpad, hgroup, and_63, shiftRight_eq_div_pow]
    omega
  | [a] =>
    have ha := a.toNat_lt
    have hoctets : value 256 (octets [a]) = a.toNat := by simp [octets]
    have hpad : padBits [a] = 4 := by simp [padBits, sextets]
    simp only [sextets, value_two, hoctets, hpad, and_63, shiftRight_eq_div_pow, shiftLeft_eq]
    omega
  | [] => rfl

/-! ### Encoding -/

namespace Base64

variable (self : Base64)

/-- The `=` that end the text of so many bytes. -/
def padding (size : ℕ) : List UInt8 :=
  if self.padded then List.replicate ((3 - size % 3) % 3) 61 else []

/-- The text of the bytes. -/
def text (bytes : List UInt8) : List UInt8 :=
  (sextets bytes).map self.symbol ++ self.padding bytes.length

theorem read_at (front rest : List UInt8) {i : ℕ} {b : UInt8} (h : rest[i]? = some b) :
    read (front ++ rest) (front.length + i) = .ok b :=
  read_eq (by rw [List.getElem?_append_right (Nat.le_add_right _ _), Nat.add_sub_cancel_left, h])

/-- The symbols of the bytes. -/
def symbols (bytes : List UInt8) : List UInt8 := (sextets bytes).map self.symbol

theorem symbols_length (bytes : List UInt8) :
    (self.symbols bytes).length = (bytes.length * 4 + 2) / 3 := by
  rw [symbols, length_map, sextets_length]

theorem encodeGroups_eq (front whole last codes : List UInt8) (extra : ℕ)
    (hwhole : whole.length % 3 = 0) (hlast : last.length < 3) :
    self.encodeGroups (front ++ (whole ++ last)) front.length codes.length
        (codes ++ zeroes (whole.length / 3 * 4 + extra)) =
      .ok (front.length + whole.length, codes.length + (self.symbols whole).length,
        codes ++ self.symbols whole ++ zeroes extra) := by
  match whole with
  | [] =>
    rw [encodeGroups, dif_neg (by simp; omega)]
    simp [symbols, sextets]
  | [_] => simp at hwhole
  | [_, _] => simp at hwhole
  | a :: b :: c :: whole =>
    have hroom : (a :: b :: c :: whole).length / 3 * 4 + extra =
        whole.length / 3 * 4 + extra + 1 + 1 + 1 + 1 := by
      simp only [length_cons]
      omega
    have h₀ : read (front ++ (a :: b :: c :: whole ++ last)) front.length = .ok a :=
      read_append front a _
    have h₁ : read (front ++ (a :: b :: c :: whole ++ last)) (front.length + 1) = .ok b :=
      read_at front _ rfl
    have h₂ : read (front ++ (a :: b :: c :: whole ++ last)) (front.length + 2) = .ok c :=
      read_at front _ rfl
    have hnext := encodeGroups_eq (front ++ [a, b, c]) whole last
      (codes ++ self.symbols [a, b, c]) extra (by simp at hwhole; omega) hlast
    rw [encodeGroups, dif_pos (by simp), h₀, ok_bind, h₁, ok_bind, h₂, ok_bind]
    dsimp only
    rw [hroom, write_next rfl, ok_bind, write_next (by simp), ok_bind, write_next (by simp), ok_bind,
      write_next (by simp), ok_bind]
    simp only [symbols, sextets, append_assoc, cons_append, nil_append, length_append, map_cons,
      map_nil, length_cons,
      length_nil, zero_add, length_map] at hnext ⊢
    rw [hnext, Except.ok.injEq, Prod.mk.injEq, Prod.mk.injEq]
    exact ⟨by omega, by omega, rfl⟩

theorem sextets_append (whole last : List UInt8) (hwhole : whole.length % 3 = 0) :
    sextets (whole ++ last) = sextets whole ++ sextets last := by
  match whole with
  | [] => rfl
  | [_] => simp at hwhole
  | [_, _] => simp at hwhole
  | a :: b :: c :: whole =>
    show sextets (a :: b :: c :: (whole ++ last)) = _
    rw [sextets, sextets, sextets_append whole last (by simp at hwhole; omega), append_assoc]

/-- Bytes are whole groups of three, and fewer than three more. -/
theorem exists_groups (bytes : List UInt8) :
    ∃ whole last, bytes = whole ++ last ∧ whole.length % 3 = 0 ∧ last.length < 3 := by
  refine ⟨bytes.take (bytes.length / 3 * 3), bytes.drop (bytes.length / 3 * 3),
    (take_append_drop _ _).symm, ?_, ?_⟩
  · rw [length_take]
    omega
  · rw [length_drop]
    omega

theorem text_length (bytes : List UInt8) :
    (self.text bytes).length = (bytes.length * 4 + 2) / 3 + (self.padding bytes.length).length := by
  rw [text, length_append, length_map, sextets_length]

/-- **`encode`** of bytes whose text has a size. -/
theorem encode_eq {build : Build} {bytes : List UInt8} (h : (self.text bytes).length < USIZE) :
    self.encode build bytes = .ok (self.text bytes) := by
  obtain ⟨whole, last, rfl, hwhole, hlast⟩ := exists_groups bytes
  have hgroups : ∀ extra, self.encodeGroups (whole ++ last) 0 0
      (zeroes (whole.length / 3 * 4 + extra)) =
      .ok (whole.length, (self.symbols whole).length, self.symbols whole ++ zeroes extra) := by
    intro extra
    have hrun := self.encodeGroups_eq [] whole last [] extra hwhole hlast
    simpa using hrun
  have hsize : (whole ++ last).length / 3 = whole.length / 3 := by
    rw [length_append]
    omega
  have hrest : (whole ++ last).length - whole.length / 3 * 3 = last.length := by
    rw [length_append]
    omega
  have hmod : (whole ++ last).length % 3 = last.length := by
    rw [length_append]
    omega
  have htext : self.text (whole ++ last) =
      self.symbols whole ++ self.symbols last ++ self.padding (whole ++ last).length := by
    rw [text, sextets_append whole last hwhole, map_append]
    rfl
  have hlen := self.text_length (whole ++ last)
  rw [length_append] at hlen
  unfold encode
  dsimp only
  rw [hsize, hrest, usize_eq (by omega), ok_bind]
  rw [padding, ← length_append, hmod] at hlen
  rw [padding, hmod] at htext
  match last with
  | [] =>
    rw [length_nil, if_neg (by simp), ok_bind, ← add_zero (whole.length / 3 * 4), hgroups, ok_bind,
      if_neg (by simp), if_neg (by simp), htext]
    cases self.padded <;> simp [symbols, sextets, zeroes]
  | [a] =>
    have ha : read (whole ++ [a]) whole.length = .ok a := read_append whole a []
    rw [length_singleton, if_pos (by simp)]
    cases hpad : self.padded with
    | false =>
      rw [hpad] at hlen htext
      simp only [length_append, length_singleton, Bool.false_eq_true, if_false, length_nil] at hlen
      rw [if_neg Bool.false_ne_true, usize_eq (by omega), ok_bind, hgroups, ok_bind]
      dsimp only
      rw [if_pos rfl, ha, ok_bind]
      rw [write_next rfl, ok_bind, write_next (by simp), ok_bind, if_neg Bool.false_ne_true, htext]
      simp [symbols, sextets, zeroes]
    | true =>
      rw [hpad] at hlen htext
      simp only [length_append, length_singleton, if_true, length_replicate] at hlen
      rw [if_pos rfl, usize_eq (by omega), ok_bind, hgroups, ok_bind]
      dsimp only
      rw [if_pos rfl, ha, ok_bind]
      rw [write_next rfl, ok_bind, write_next (by simp), ok_bind, if_pos rfl, write_next (by simp),
        ok_bind, write_next (by simp), htext]
      simp [symbols, sextets, zeroes]
  | [a, b] =>
    have ha : read (whole ++ [a, b]) whole.length = .ok a := read_append whole a [b]
    have hb : read (whole ++ [a, b]) (whole.length + 1) = .ok b := read_at whole _ rfl
    have htwo : [a, b].length = 2 := rfl
    rw [htwo, if_pos (by simp)]
    cases hpad : self.padded with
    | false =>
      rw [hpad] at hlen htext
      simp only [length_append, htwo, Bool.false_eq_true, if_false, length_nil] at hlen
      rw [if_neg Bool.false_ne_true, usize_eq (by omega), ok_bind, hgroups, ok_bind]
      dsimp only
      rw [if_neg (by simp), if_pos rfl, ha, ok_bind, hb, ok_bind]
      rw [write_next rfl, ok_bind, write_next (by simp), ok_bind, write_next (by simp), ok_bind,
        if_neg Bool.false_ne_true, htext]
      simp [symbols, sextets, zeroes]
    | true =>
      rw [hpad] at hlen htext
      simp only [length_append, htwo, if_true, length_replicate] at hlen
      rw [if_pos rfl, usize_eq (by omega), ok_bind, hgroups, ok_bind]
      dsimp only
      rw [if_neg (by simp), if_pos rfl, ha, ok_bind, hb, ok_bind]
      rw [write_next rfl, ok_bind, write_next (by simp), ok_bind, write_next (by simp), ok_bind,
        if_pos rfl, write_next (by simp), htext]
      simp [symbols, sextets, zeroes]

end Base64

end HdLang.Encoding
