import HdLang.Encoding.Base64

/-!
# Base64 decoding

The loop of `decode` over a text, in a buffer of any size: it ends at the first code that is no symbol,
at the first byte that the buffer has no room for, or with the bytes of the symbols read.
-/

namespace HdLang.Encoding

open Positional List UInt8

/-- `s` holds the bits of the symbols `ns`: the bytes `done` are written, in a buffer with room for
`room` more, and the bits that are left are in `buffer`. -/
structure Reads (ns : List ℕ) (done : List UInt8) (room : ℕ) (s : Base64.DecodeState) : Prop where
  bytes : s.bytes = done ++ zeroes room
  place : s.place = done.length
  value : value 256 (octets done) * 2 ^ s.bits + s.buffer = value 64 ns
  buffer_lt : s.buffer < 2 ^ s.bits
  bits : ns.length * 6 = done.length * 8 + s.bits
  bits_lt : s.bits < 8

namespace Reads

variable {ns : List ℕ} {done : List UInt8} {room : ℕ} {s : Base64.DecodeState} {n : ℕ}

theorem start (room : ℕ) : Reads [] [] room ⟨0, 0, 0, zeroes room⟩ where
  bytes := rfl
  place := rfl
  value := rfl
  buffer_lt := Nat.one_pos
  bits := rfl
  bits_lt := Nat.zero_lt_succ 7

theorem keep (h : Reads ns done room s) (hn : n < 64) (hshort : s.bits + 6 < 8) :
    Reads (ns ++ [n]) done room ⟨s.buffer <<< 6 ||| n, s.bits + 6, s.place, s.bytes⟩ where
  __ := h
  value := by
    have hpow : 2 ^ (s.bits + 6) = 2 ^ s.bits * 64 := pow_add 2 s.bits 6
    show _ * 2 ^ (s.bits + 6) + (s.buffer <<< 6 ||| n) = _
    rw [or_eq_add hn, value_concat, ← h.value, hpow]
    ring
  buffer_lt := by
    have hlt := h.buffer_lt
    have hpow : 2 ^ (s.bits + 6) = 2 ^ s.bits * 64 := pow_add 2 s.bits 6
    show s.buffer <<< 6 ||| n < 2 ^ (s.bits + 6)
    rw [or_eq_add hn, hpow]
    omega
  bits := by
    have hbits := h.bits
    show (ns ++ [n]).length * 6 = done.length * 8 + (s.bits + 6)
    rw [length_append, length_singleton]
    omega
  bits_lt := hshort

theorem emit (h : Reads ns done (room + 1) s) (hn : n < 64) (hfull : s.bits + 6 ≥ 8) :
    Reads (ns ++ [n])
      (done ++ [UInt8.ofNat ((s.buffer <<< 6 ||| n) >>> (s.bits + 6 - 8))]) room
      ⟨(s.buffer <<< 6 ||| n) &&& (1 <<< (s.bits + 6 - 8) - 1), s.bits + 6 - 8, s.place + 1,
        done ++ [UInt8.ofNat ((s.buffer <<< 6 ||| n) >>> (s.bits + 6 - 8))] ++ zeroes room⟩ := by
  have hlt := h.buffer_lt
  have hbits := h.bits
  have hbitsLt := h.bits_lt
  obtain ⟨left, hleft⟩ : ∃ left, s.bits + 6 = left + 8 := ⟨s.bits + 6 - 8, by omega⟩
  have hback : s.bits + 6 - 8 = left := by omega
  have hpow : 2 ^ s.bits * 64 = 2 ^ left * 256 := by
    have hbefore : 2 ^ (s.bits + 6) = 2 ^ s.bits * 64 := pow_add 2 s.bits 6
    have hafter : 2 ^ (left + 8) = 2 ^ left * 256 := pow_add 2 left 8
    rw [← hbefore, hleft, hafter]
  have hword : s.buffer <<< 6 ||| n = s.buffer * 64 + n := or_eq_add hn
  have hwordLt : s.buffer * 64 + n < 2 ^ left * 256 := by omega
  have hdiv : (s.buffer * 64 + n) / 2 ^ left < 256 := Nat.div_lt_of_lt_mul hwordLt
  have hsplit : (s.buffer * 64 + n) / 2 ^ left * 2 ^ left + (s.buffer * 64 + n) % 2 ^ left =
      s.buffer * 64 + n := Nat.div_add_mod' _ _
  have hmask : (s.buffer * 64 + n) &&& (1 <<< left - 1) = (s.buffer * 64 + n) % 2 ^ left := by
    rw [Nat.one_shiftLeft, Nat.and_two_pow_sub_one_eq_mod]
  rw [hback, hword, hmask, Nat.shiftRight_eq_div_pow]
  refine ⟨rfl, ?_, ?_, Nat.mod_lt _ (Nat.two_pow_pos left), ?_, ?_⟩
  · rw [length_append, length_singleton, h.place]
  · show Positional.value 256 (octets (done ++ [ofNat ((s.buffer * 64 + n) / 2 ^ left)])) *
      2 ^ left + (s.buffer * 64 + n) % 2 ^ left = _
    have hbyte : (ofNat ((s.buffer * 64 + n) / 2 ^ left)).toNat =
        (s.buffer * 64 + n) / 2 ^ left := toNat_ofNat_of_lt' hdiv
    rw [octets, map_append, map_singleton, hbyte, value_concat, value_concat, ← h.value]
    calc (Positional.value 256 (done.map toNat) * 256 + (s.buffer * 64 + n) / 2 ^ left) *
          2 ^ left + (s.buffer * 64 + n) % 2 ^ left
        = Positional.value 256 (done.map toNat) * (2 ^ left * 256) +
          ((s.buffer * 64 + n) / 2 ^ left * 2 ^ left + (s.buffer * 64 + n) % 2 ^ left) := by ring
      _ = Positional.value 256 (done.map toNat) * (2 ^ s.bits * 64) +
          (s.buffer * 64 + n) := by rw [hsplit, hpow]
      _ = (Positional.value 256 (octets done) * 2 ^ s.bits + s.buffer) * 64 + n := by
          rw [octets]
          ring
  · rw [length_append, length_append, length_singleton, length_singleton]
    show (ns.length + 1) * 6 = (done.length + 1) * 8 + left
    omega
  · show left < 8
    omega

theorem length_eq (h : Reads ns done room s) : done.length = ns.length * 6 / 8 := by
  have hbits := h.bits
  have hbitsLt := h.bits_lt
  omega

end Reads

namespace Base64

variable (self : Base64)

/-- The values of the symbols. -/
def values (codes : List UInt8) : List ℕ := codes.map fun code => (self.value code).toNat

/-- The error of the first code that is no symbol; `index` is the offset of the codes. -/
def problem (index : ℕ) : List UInt8 → Option DecodeError
  | [] => none
  | code :: codes =>
    if code = 61 then some (.invalidPadding index)
    else if self.value code < 0 then some (.invalidCharacter index)
    else problem (index + 1) codes

/-- How many symbols the codes start with. -/
def symbolCount : List UInt8 → ℕ
  | [] => 0
  | code :: codes => if self.value code < 0 then 0 else symbolCount codes + 1

/-- **The loop of `decode`** panics when the symbols before the first problem fill more bytes than
there is room for, and else gives the first problem, or the bytes of the symbols. -/
theorem decodeFrom_spec {codes : List UInt8} {front tail done : List UInt8} {ns : List ℕ} {room : ℕ}
    {s : DecodeState} (h : Reads ns done room s) {text : List UInt8} {stop : ℕ}
    (htext : text = front ++ (codes ++ tail)) (hstop : stop = front.length + codes.length) :
    (done.length + room < (ns.length + self.symbolCount codes) * 6 / 8 ∧
        self.decodeFrom text stop front.length s = .error .indexOutOfBounds) ∨
      ((ns.length + self.symbolCount codes) * 6 / 8 ≤ done.length + room ∧
        ∃ e, self.problem front.length codes = some e ∧
          self.decodeFrom text stop front.length s = .ok (.error e)) ∨
      ((ns.length + self.symbolCount codes) * 6 / 8 ≤ done.length + room ∧
        self.problem front.length codes = none ∧
        ∃ done' room' s', self.decodeFrom text stop front.length s = .ok (.ok s') ∧
          Reads (ns ++ self.values codes) done' room' s' ∧
          done'.length + room' = done.length + room) := by
  induction codes generalizing front ns done room s with
  | nil =>
    have hlen := h.length_eq
    refine .inr (.inr ⟨?_, rfl, done, room, s, ?_, ?_, rfl⟩)
    · show (ns.length + 0) * 6 / 8 ≤ _
      omega
    · rw [decodeFrom, dif_neg (by simp [hstop])]
    · rwa [values, map_nil, append_nil]
  | cons code codes ih =>
    have hread : read text front.length = .ok code := by
      rw [htext]
      exact read_append front code (codes ++ tail)
    have hlen := h.length_eq
    rw [decodeFrom, dif_pos (by simp [hstop]), hread, ok_bind, problem, symbolCount]
    by_cases hpad : code = 61
    · have hvalue : self.value code < 0 := hpad ▸ self.value_pad
      rw [if_pos hpad, if_pos hpad, if_pos hvalue]
      exact .inr (.inl ⟨by omega, _, rfl, rfl⟩)
    · rw [if_neg hpad, if_neg hpad]
      by_cases hvalue : self.value code < 0
      · rw [if_pos hvalue, if_pos hvalue, if_pos hvalue]
        exact .inr (.inl ⟨by omega, _, rfl, rfl⟩)
      · rw [if_neg hvalue, if_neg hvalue, if_neg hvalue]
        have hn := (self.symbol_value hvalue).1
        have hfront : text = front ++ [code] ++ (codes ++ tail) := by rw [htext]; simp
        have hnext : front.length + 1 = (front ++ [code]).length := by simp
        have hstop' : stop = (front ++ [code]).length + codes.length := by
          rw [hstop]
          simp
          omega
        have hns : ns ++ self.values (code :: codes) =
            ns ++ [(self.value code).toNat] ++ self.values codes := by simp [values]
        have hcount : ns.length + (self.symbolCount codes + 1) =
            (ns ++ [(self.value code).toNat]).length + self.symbolCount codes := by
          simp
          omega
        dsimp only
        rw [hns, hcount]
        by_cases hfull : s.bits + 6 ≥ 8
        · rw [if_pos hfull]
          cases room with
          | zero =>
            have hbytes : s.bytes.length ≤ s.place := by
              rw [h.bytes, h.place]
              simp [zeroes]
            rw [write_full hbytes]
            refine .inl ⟨?_, rfl⟩
            have hbits := h.bits
            rw [length_append, length_singleton]
            omega
          | succ room =>
            rw [h.bytes, write_next h.place, ok_bind, hnext]
            have hroom : (done ++ [UInt8.ofNat ((s.buffer <<< 6 ||| (self.value code).toNat) >>>
                (s.bits + 6 - 8))]).length + room = done.length + (room + 1) := by
              simp
              omega
            have hrun := ih (h.emit hn hfull) hfront hstop'
            rw [hroom] at hrun
            exact hrun
        · rw [if_neg hfull, hnext]
          exact ih (h.keep hn (by omega)) hfront hstop'

end Base64

end HdLang.Encoding
