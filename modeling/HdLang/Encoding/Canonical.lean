import HdLang.Encoding.Decode

/-!
# Canonical text

`decode` accepts only what `encode` writes, and `hex_decode` that in either case, unless the size of
the result does not fit a `usize` on the way: `decode` computes six times the number of symbols. The
condition for each is exact (`decoding_exact`).
-/

namespace HdLang.Encoding

open Positional List Nat

variable {bytes : List UInt8}

namespace Base64

variable (self : Base64) {build : Build} {index : ℕ} {codes pads text : List UInt8}

/-! ### Symbols at the front of a text -/

theorem symbolCount_le (codes : List UInt8) : self.symbolCount codes ≤ codes.length := by
  induction codes with
  | nil => exact le_rfl
  | cons code codes ih =>
    rw [symbolCount, length_cons]
    split <;> omega

theorem value_of_lt_symbolCount {codes : List UInt8} {i : ℕ} {code : UInt8}
    (hi : i < self.symbolCount codes) (hcode : codes[i]? = some code) : ¬self.value code < 0 := by
  induction codes generalizing i with
  | nil => cases hcode
  | cons head codes ih =>
    rw [symbolCount] at hi
    split at hi
    · exact absurd hi (not_lt_zero i)
    · next hhead =>
      cases i with
      | zero =>
        cases hcode
        exact hhead
      | succ i => exact ih (by omega) hcode

theorem problem_none {codes : List UInt8} (h : self.problem index codes = none) :
    self.symbolCount codes = codes.length ∧ ∀ code ∈ codes, ¬self.value code < 0 := by
  induction codes generalizing index with
  | nil => exact ⟨rfl, fun code hcode => absurd hcode not_mem_nil⟩
  | cons head codes ih =>
    rw [problem] at h
    split at h
    · cases h
    · split at h
      · cases h
      · next hhead =>
        obtain ⟨hcount, hall⟩ := ih h
        rw [symbolCount, if_neg hhead, hcount]
        exact ⟨rfl, forall_mem_cons.mpr ⟨hhead, hall⟩⟩

theorem problem_of_symbols {codes : List UInt8} (h : ∀ code ∈ codes, ¬self.value code < 0) :
    self.problem index codes = none := by
  induction codes generalizing index with
  | nil => rfl
  | cons head codes ih =>
    obtain ⟨hhead, hall⟩ := forall_mem_cons.mp h
    have hpad : head ≠ 61 := fun heq => hhead (heq ▸ self.value_pad)
    rw [problem, if_neg hpad, if_neg hhead, ih hall]

theorem problem_some {codes : List UInt8} {e : DecodeError}
    (h : self.problem index codes = some e) :
    e.position = index + self.symbolCount codes ∧ e ≠ .invalidLength e.position ∧
      ∃ code, codes[self.symbolCount codes]? = some code ∧ self.value code < 0 := by
  induction codes generalizing index with
  | nil => cases h
  | cons head codes ih =>
    rw [problem] at h
    rw [symbolCount]
    split at h
    · next hpad =>
      have hvalue : self.value head < 0 := hpad ▸ self.value_pad
      cases h
      rw [if_pos hvalue]
      exact ⟨rfl, (fun h => by cases h), head, rfl, hvalue⟩
    · split at h
      · next hvalue =>
        cases h
        rw [if_pos hvalue]
        exact ⟨rfl, (fun h => by cases h), head, rfl, hvalue⟩
      · next hvalue =>
        obtain ⟨hposition, hkind, code, hcode, hbad⟩ := ih h
        rw [if_neg hvalue]
        exact ⟨by omega, hkind, code, hcode, hbad⟩

/-! ### Where the padding starts -/

/-- The text's length is refused, or it is symbols and the padding that their number asks for. -/
theorem symbolsEnd_spec (text : List UInt8) :
    self.symbolsEnd text = .ok (.error (.invalidLength text.length)) ∨
      ∃ codes, text = codes ++ self.padding (codes.length * 6 / 8) ∧ codes.length % 4 ≠ 1 ∧
        self.symbolsEnd text = .ok (.ok codes.length) := by
  unfold symbolsEnd padding
  dsimp only
  cases hpad : self.padded with
  | false =>
    rw [if_neg Bool.false_ne_true]
    by_cases hmod : text.length % 4 = 1
    · exact .inl (if_pos hmod)
    · exact .inr ⟨text, (append_nil _).symm, hmod, if_neg hmod⟩
  | true =>
    rw [if_pos rfl]
    by_cases hmod : text.length % 4 ≠ 0
    · exact .inl (if_pos hmod)
    · rw [if_neg hmod]
      refine .inr ?_
      by_cases hpos : text.length > 0
      · rw [if_pos hpos]
        obtain ⟨front, x, y, rfl⟩ : ∃ front x y, text = front ++ [x, y] := by
          obtain rfl | ⟨init, y, rfl⟩ := text.eq_nil_or_concat
          · exact absurd hpos (lt_irrefl 0)
          · obtain rfl | ⟨front, x, rfl⟩ := init.eq_nil_or_concat
            · exact absurd (not_not.mp hmod) (by simp)
            · exact ⟨front, x, y, by simp⟩
        have hlen : (front ++ [x, y]).length = front.length + 2 := by simp
        have hmod' : (front.length + 2) % 4 = 0 := hlen ▸ not_not.mp hmod
        have hlast : read (front ++ [x, y]) ((front ++ [x, y]).length - 1) = .ok y := by
          rw [hlen]
          exact read_at front _ rfl
        have hsecond : read (front ++ [x, y]) ((front ++ [x, y]).length - 2) = .ok x := by
          rw [hlen]
          exact read_append front x [y]
        rw [hlast, ok_bind]
        by_cases hy : y = 61
        · rw [if_pos hy, hsecond, ok_bind]
          by_cases hx : x = 61
          · rw [if_pos hx, hy, hx]
            refine ⟨front, ?_, by omega, by simp⟩
            rw [if_pos rfl, show (3 - front.length * 6 / 8 % 3) % 3 = 2 by omega]
            rfl
          · rw [if_neg hx, hy]
            refine ⟨front ++ [x], ?_, by simp; omega, by simp⟩
            rw [if_pos rfl, length_append, length_singleton,
              show (3 - (front.length + 1) * 6 / 8 % 3) % 3 = 1 by omega]
            simp
        · rw [if_neg hy]
          refine ⟨front ++ [x, y], ?_, by omega, rfl⟩
          rw [if_pos rfl, hlen, show (3 - (front.length + 2) * 6 / 8 % 3) % 3 = 0 by omega]
          simp
      · have hnil : text = [] := eq_nil_of_length_eq_zero (by omega)
        rw [if_neg hpos, hnil]
        exact ⟨[], rfl, by simp, rfl⟩

/-- Symbols and the padding that their number asks for. -/
theorem symbolsEnd_eq (hmod : codes.length % 4 ≠ 1) (hcodes : ∀ code ∈ codes, code ≠ 61) :
    self.symbolsEnd (codes ++ self.padding (codes.length * 6 / 8)) = .ok (.ok codes.length) := by
  unfold symbolsEnd padding
  dsimp only
  cases hpad : self.padded with
  | false =>
    rw [if_neg Bool.false_ne_true, if_neg Bool.false_ne_true, append_nil, if_neg hmod]
  | true =>
    rw [if_pos rfl, if_pos rfl]
    obtain rfl | ⟨front, x, rfl⟩ := codes.eq_nil_or_concat
    · rfl
    rw [concat_eq_append] at hmod hcodes ⊢
    have hx : x ≠ 61 := hcodes x (by simp)
    have hlen : (front ++ [x]).length = front.length + 1 := by simp
    rw [hlen] at hmod ⊢
    have hcases : front.length % 4 = 3 ∨ front.length % 4 = 1 ∨ front.length % 4 = 2 := by omega
    obtain hfull | htwo | hone := hcases
    · have hread : read (front ++ [x]) (front.length + 1 - 1) = .ok x := read_append front x []
      rw [show (3 - (front.length + 1) * 6 / 8 % 3) % 3 = 0 by omega, replicate_zero, append_nil,
        hlen, if_neg (by omega), if_pos (by omega), hread, ok_bind, if_neg hx]
    · have hlast : read (front ++ [x] ++ [61, 61]) (front.length + 3 - 1) = .ok 61 := by
        rw [append_assoc]
        exact read_at front _ rfl
      have hsecond : read (front ++ [x] ++ [61, 61]) (front.length + 3 - 2) = .ok 61 := by
        rw [append_assoc]
        exact read_at front _ rfl
      have htotal : (front ++ [x] ++ [61, 61]).length = front.length + 3 := by simp
      rw [show (3 - (front.length + 1) * 6 / 8 % 3) % 3 = 2 by omega,
        show replicate 2 (61 : UInt8) = [61, 61] from rfl, htotal, if_neg (by omega),
        if_pos (by omega), hlast, ok_bind, if_pos rfl, hsecond, ok_bind, if_pos rfl]
      rfl
    · have hlast : read (front ++ [x] ++ [61]) (front.length + 2 - 1) = .ok 61 := by
        rw [append_assoc]
        exact read_at front _ rfl
      have hsecond : read (front ++ [x] ++ [61]) (front.length + 2 - 2) = .ok x := by
        rw [append_assoc]
        exact read_append front x [61]
      have htotal : (front ++ [x] ++ [61]).length = front.length + 2 := by simp
      rw [show (3 - (front.length + 1) * 6 / 8 % 3) % 3 = 1 by omega,
        show replicate 1 (61 : UInt8) = [61] from rfl, htotal, if_neg (by omega),
        if_pos (by omega), hlast, ok_bind, if_pos rfl, hsecond, ok_bind, if_neg hx]
      rfl

/-! ### Decoding -/

theorem values_lt {codes : List UInt8} (h : ∀ code ∈ codes, ¬self.value code < 0) :
    ∀ d ∈ self.values codes, d < 64 := by
  intro d hd
  obtain ⟨code, hcode, rfl⟩ := mem_map.mp hd
  exact (self.symbol_value (h code hcode)).1

theorem map_values {codes : List UInt8} (h : ∀ code ∈ codes, ¬self.value code < 0) :
    (self.values codes).map self.symbol = codes := by
  rw [values, map_map]
  exact (map_congr_left fun code hcode => (self.symbol_value (h code hcode)).2).trans (map_id codes)

/-- The symbols are the numeral of the bytes, and zero pad bits after it. -/
structure Writes (variant : Base64) (codes bytes : List UInt8) : Prop where
  length : bytes.length = codes.length * 6 / 8
  value : Positional.value 64 (variant.values codes) =
    Positional.value 256 (octets bytes) * 2 ^ (codes.length * 6 - bytes.length * 8)

/-- What a text of symbols decodes to when the buffer has room for the bytes before its first
problem. -/
inductive Outcome (variant : Base64) (codes : List UInt8) :
    Except DecodeError (List UInt8) → Prop
  | problem {e : DecodeError} (h : variant.problem 0 codes = some e) :
      Outcome variant codes (.error e)
  | padding (h : variant.problem 0 codes = none) (hpos : 0 < codes.length)
      (hwrites : ∀ bytes, ¬variant.Writes codes bytes) :
      Outcome variant codes (.error (.invalidPadding (codes.length - 1)))
  | bytes (bytes : List UInt8) (h : variant.problem 0 codes = none)
      (hwrites : variant.Writes codes bytes) : Outcome variant codes (.ok bytes)

theorem values_length (codes : List UInt8) : (self.values codes).length = codes.length :=
  length_map _

theorem decode_eq {bitCount : ℕ} (hend : self.symbolsEnd text = .ok (.ok codes.length))
    (hsize : usize build (codes.length * 6) = .ok bitCount) :
    self.decode build text = (do
      match ← self.decodeFrom text codes.length 0 ⟨0, 0, 0, zeroes (bitCount / 8)⟩ with
      | .error e => .ok (.error e)
      | .ok s =>
        if s.buffer ≠ 0 then .ok (.error (.invalidPadding (codes.length - 1)))
        else .ok (.ok s.bytes)) := by
  unfold decode
  rw [hend, ok_bind]
  dsimp only
  rw [hsize]
  rfl

/-- **`decode`** of symbols and padding, into a buffer of any size. -/
theorem decode_spec {bitCount : ℕ} (htext : text = codes ++ pads)
    (hend : self.symbolsEnd text = .ok (.ok codes.length))
    (hsize : usize build (codes.length * 6) = .ok bitCount) (hle : bitCount ≤ codes.length * 6) :
    (bitCount / 8 < self.symbolCount codes * 6 / 8 ∧
        self.decode build text = .error .indexOutOfBounds) ∨
      (self.symbolCount codes * 6 / 8 ≤ bitCount / 8 ∧
        ∃ result, self.Outcome codes result ∧ self.decode build text = .ok result) := by
  have hrun := @decodeFrom_spec self codes [] pads _ _ _ _ (Reads.start (bitCount / 8)) text codes.length
    htext (by simp)
  rw [self.decode_eq hend hsize]
  simp only [length_nil, Nat.zero_add, nil_append] at hrun
  obtain ⟨hsmall, hpanic⟩ | ⟨hroom, e, hproblem, herror⟩ |
    ⟨hroom, hproblem, done, room, s, hok, hreads, htotal⟩ := hrun
  · rw [hpanic]
    exact .inl ⟨hsmall, rfl⟩
  · rw [herror]
    exact .inr ⟨hroom, _, .problem hproblem, rfl⟩
  · rw [hok]
    refine .inr ⟨hroom, ?_⟩
    obtain ⟨hcount, hall⟩ := self.problem_none hproblem
    have hdone := hreads.length_eq
    have hbits := hreads.bits
    rw [self.values_length] at hdone hbits
    have hbitsEq : s.bits = codes.length * 6 - done.length * 8 := by omega
    have hvalue := hreads.value
    rw [hbitsEq] at hvalue
    show ∃ result, _ ∧ (if s.buffer ≠ 0 then _ else _) = _
    by_cases hbuffer : s.buffer = 0
    · have hfull : room = 0 := by omega
      have hbytes : s.bytes = done := by
        rw [hreads.bytes, hfull]
        exact append_nil _
      rw [if_neg (not_not.mpr hbuffer), hbytes]
      rw [hbuffer, Nat.add_zero] at hvalue
      exact ⟨_, .bytes _ hproblem ⟨hdone, hvalue.symm⟩, rfl⟩
    · rw [if_pos hbuffer]
      have hlt := hreads.buffer_lt
      rw [hbitsEq] at hlt
      refine ⟨_, .padding hproblem ?_ ?_, rfl⟩
      · by_contra hzero
        rw [Nat.eq_zero_of_not_pos hzero] at hlt
        simp at hlt
        exact hbuffer hlt
      · intro bytes hwrites
        -- the buffer is what the numeral of the symbols leaves modulo the pad bits
        have heq := hwrites.value
        rw [hwrites.length, ← hdone, ← hvalue] at heq
        apply hbuffer
        have hmod := congrArg (· % 2 ^ (codes.length * 6 - done.length * 8)) heq
        rwa [mul_add_mod', mod_eq_of_lt hlt, mul_mod_left] at hmod

theorem symbols_of_bytes {n m : ℕ} (hm : m = n * 6 / 8) (hmod : n % 4 ≠ 1) :
    (m * 4 + 2) / 3 = n := by
  obtain ⟨k, hk⟩ : ∃ k, n = 4 * k ∨ n = 4 * k + 2 ∨ n = 4 * k + 3 := ⟨n / 4, by omega⟩
  omega

/-- **Symbols that write bytes** are the bytes' own symbols. -/
theorem Writes.symbols_eq {self : Base64} (h : self.Writes codes bytes)
    (hmod : codes.length % 4 ≠ 1) (hcodes : ∀ code ∈ codes, ¬self.value code < 0) :
    codes = self.symbols bytes := by
  have hsame : (self.values codes).length = (sextets bytes).length := by
    rw [self.values_length, sextets_length, symbols_of_bytes h.length hmod]
  have hpad : padBits bytes = codes.length * 6 - bytes.length * 8 := by
    rw [padBits, ← hsame, self.values_length]
  have hvalues : self.values codes = sextets bytes := by
    apply value_inj (by decide : 1 < 64) hsame (self.values_lt hcodes) (sextets_lt bytes)
    rw [h.value, value_sextets, hpad]
  rw [symbols, ← hvalues, self.map_values hcodes]

theorem values_symbols (bytes : List UInt8) : self.values (self.symbols bytes) = sextets bytes := by
  rw [values, symbols, map_map]
  refine (map_congr_left fun n hn => ?_).trans (map_id _)
  show (self.value (self.symbol n)).toNat = n
  rw [self.value_symbol (sextets_lt bytes n hn), Int.toNat_natCast]

theorem writes_symbols (bytes : List UInt8) : self.Writes (self.symbols bytes) bytes where
  length := by
    rw [self.symbols_length]
    omega
  value := by
    have hpad : padBits bytes = (self.symbols bytes).length * 6 - bytes.length * 8 := by
      rw [padBits, symbols, length_map]
    rw [self.values_symbols, value_sextets, hpad]

theorem Writes.inj {self : Base64} {bytes' : List UInt8} (h : self.Writes codes bytes)
    (h' : self.Writes codes bytes') : bytes = bytes' := by
  have hlen : bytes.length = bytes'.length := h.length.trans h'.length.symm
  have heq := h.value.symm.trans h'.value
  rw [hlen] at heq
  apply octets_injective
  apply value_inj (by decide : 1 < 256)
  · rw [octets, octets, length_map, length_map, hlen]
  · exact fun d => octets_lt
  · exact fun d => octets_lt
  · exact eq_of_mul_eq_mul_right (Nat.two_pow_pos _) heq

theorem symbols_valid {code : UInt8} (h : code ∈ self.symbols bytes) :
    ¬self.value code < 0 := by
  obtain ⟨n, hn, rfl⟩ := mem_map.mp h
  rw [self.value_symbol (sextets_lt bytes n hn)]
  omega

/-! ### The exact conditions -/

/-- An error of a text of `size` bytes: it is at a position of the text, or says that the text ends
too early. -/
def Within (size : ℕ) (e : DecodeError) : Prop := e.position < size ∨ e = .invalidLength size

/-- `decode` gives the bytes whose text it is given, or an error within the text. -/
def DecodesExactly (build : Build) (text : List UInt8) : Prop :=
  match self.decode build text with
  | .ok (.ok bytes) => self.encode build bytes = .ok text
  | .ok (.error e) => Within text.length e
  | .error _ => False

/-- The size of the decoded bytes is computed without overflow; or it wraps in a release build, and
the text has a code that is no symbol before the buffer is full. -/
def Fits (build : Build) (text : List UInt8) : Prop :=
  ∀ stop, self.symbolsEnd text = .ok (.ok stop) →
    stop * 6 < USIZE ∨
      build = .release ∧ ∃ i < stop, ∃ code, text[i]? = some code ∧ self.value code < 0 ∧
        i * 6 / 8 ≤ stop * 6 % USIZE / 8

/-- The bytes are encoded, and the text decodes to them. -/
def RoundTrips (build : Build) (bytes : List UInt8) : Prop :=
  (do
    let text ← self.encode build bytes
    self.decode build text) = .ok (.ok bytes)

theorem text_eq (bytes : List UInt8) :
    self.text bytes = self.symbols bytes ++ self.padding bytes.length := rfl

theorem padding_length (size : ℕ) : (self.padding size).length ≤ 2 := by
  unfold padding
  split
  · rw [length_replicate]
    omega
  · exact zero_le 2

theorem Outcome.exact {self : Base64} {result : Except DecodeError (List UInt8)}
    (h : self.Outcome codes result) (htext : text = codes ++ self.padding (codes.length * 6 / 8))
    (hmod : codes.length % 4 ≠ 1) :
    match result with
    | .ok found => text = self.text found
    | .error e => Within text.length e := by
  have hle : codes.length ≤ text.length := by
    rw [htext, length_append]
    exact le_add_right _ _
  cases h with
  | problem h =>
    obtain ⟨hposition, -, code, hcode, -⟩ := self.problem_some h
    have hlt := (List.getElem?_eq_some_iff.mp hcode).1
    exact .inl (by omega)
  | padding h hpos hwrites =>
    refine .inl ?_
    show codes.length - 1 < text.length
    omega
  | bytes found h hwrites =>
    have hcodes := hwrites.symbols_eq hmod (self.problem_none h).2
    show text = self.text found
    rw [htext, text_eq, ← hwrites.length, ← hcodes]

/-- A number of bits that wraps is too small by whole bytes. -/
theorem wrapped_lt {n : ℕ} (h : USIZE ≤ n) : n % USIZE / 8 < n / 8 := by
  unfold USIZE at h ⊢
  omega

/-- What `decode` does with a text whose length it does not refuse. -/
theorem decode_cases (htext : text = codes ++ self.padding (codes.length * 6 / 8))
    (hend : self.symbolsEnd text = .ok (.ok codes.length)) :
    (self.decode build text = .error .integerOverflow ∧ USIZE ≤ codes.length * 6 ∧
        build ≠ .release) ∨
      (self.decode build text = .error .indexOutOfBounds ∧ USIZE ≤ codes.length * 6 ∧
        codes.length * 6 % USIZE / 8 < self.symbolCount codes * 6 / 8) ∨
      ((codes.length * 6 < USIZE ∨ build = .release ∧
          self.symbolCount codes * 6 / 8 ≤ codes.length * 6 % USIZE / 8) ∧
        ∃ result, self.Outcome codes result ∧ self.decode build text = .ok result) := by
  have hcount := self.symbolCount_le codes
  by_cases hfits : codes.length * 6 < USIZE
  · have hrun := self.decode_spec htext hend (@usize_eq build _ hfits) le_rfl
    obtain ⟨hsmall, -⟩ | ⟨-, hrun⟩ := hrun
    · have := Nat.div_le_div_right (c := 8) (Nat.mul_le_mul_right 6 hcount)
      omega
    · exact .inr (.inr ⟨.inl hfits, hrun⟩)
  · by_cases hbuild : build = .release
    · have hsize : usize build (codes.length * 6) = .ok (codes.length * 6 % USIZE) := by
        rw [usize, if_neg hfits, if_pos hbuild]
      obtain ⟨hsmall, hpanic⟩ | ⟨hroom, hrun⟩ := self.decode_spec htext hend hsize (mod_le _ _)
      · exact .inr (.inl ⟨hpanic, Nat.le_of_not_lt hfits, hsmall⟩)
      · exact .inr (.inr ⟨.inr ⟨hbuild, hroom⟩, hrun⟩)
    · refine .inl ⟨?_, Nat.le_of_not_lt hfits, hbuild⟩
      unfold decode
      rw [hend, ok_bind]
      dsimp only
      rw [usize, if_neg hfits, if_neg hbuild]
      rfl

/-- A text that decodes is the text of its bytes, and the symbols' number times six fits. -/
theorem text_of_decode (h : self.decode build text = .ok (.ok bytes)) :
    text = self.text bytes ∧ (bytes.length * 4 + 2) / 3 * 6 < USIZE := by
  obtain hbad | ⟨codes, htext, hmod, hend⟩ := self.symbolsEnd_spec text
  · unfold decode at h
    rw [hbad] at h
    cases h
  · obtain ⟨hpanic, -, -⟩ | ⟨hpanic, -, -⟩ | ⟨hfits, result, houtcome, hrun⟩ :=
      @decode_cases self build _ _ htext hend
    · rw [hpanic] at h
      cases h
    · rw [hpanic] at h
      cases h
    · rw [hrun, Except.ok.injEq] at h
      subst h
      refine ⟨houtcome.exact htext hmod, ?_⟩
      cases houtcome with
      | bytes _ hproblem hwrites =>
        rw [symbols_of_bytes hwrites.length hmod]
        obtain hfits | ⟨-, hroom⟩ := hfits
        · exact hfits
        · -- every code is a symbol, so a size that wrapped is too small
          rw [(self.problem_none hproblem).1] at hroom
          by_contra hover
          exact absurd hroom (Nat.not_le.mpr (wrapped_lt (Nat.le_of_not_lt hover)))

theorem encode_text (h : (bytes.length * 4 + 2) / 3 * 6 < USIZE) :
    self.encode build bytes = .ok (self.text bytes) := by
  apply encode_eq
  have hpad := self.padding_length bytes.length
  rw [text_length]
  unfold USIZE at h ⊢
  omega

/-- **`decode`** is exact for the texts that fit, and for no other. -/
theorem decodesExactly_iff (build : Build) (text : List UInt8) :
    self.DecodesExactly build text ↔ self.Fits build text := by
  obtain hbad | ⟨codes, htext, hmod, hend⟩ := self.symbolsEnd_spec text
  · have hrun : self.decode build text = .ok (.error (.invalidLength text.length)) := by
      unfold decode
      rw [hbad]
      rfl
    unfold DecodesExactly Fits
    rw [hrun, hbad]
    exact ⟨fun _ stop h => (nomatch h), fun _ => .inr rfl⟩
  · have hcount := self.symbolCount_le codes
    have hget : ∀ i < codes.length, text[i]? = codes[i]? := fun i hi => by
      rw [htext, List.getElem?_append_left hi]
    have hfits : self.Fits build text ↔ codes.length * 6 < USIZE ∨
        build = .release ∧ ∃ i < codes.length, ∃ code, text[i]? = some code ∧
          self.value code < 0 ∧ i * 6 / 8 ≤ codes.length * 6 % USIZE / 8 := by
      unfold Fits
      rw [hend]
      constructor
      · exact fun h => h _ rfl
      · intro h stop hstop
        cases hstop
        exact h
    rw [hfits]
    unfold DecodesExactly
    obtain ⟨hpanic, hover, hbuild⟩ | ⟨hpanic, hover, hsmall⟩ | ⟨hroom, result, houtcome, hrun⟩ :=
      @decode_cases self build _ _ htext hend
    · rw [hpanic]
      exact ⟨False.elim, fun h => h.elim (Nat.not_lt.mpr hover) fun h => hbuild h.1⟩
    · rw [hpanic]
      refine ⟨False.elim, fun h => h.elim (Nat.not_lt.mpr hover) ?_⟩
      rintro ⟨-, i, hi, code, hcode, hbad, hle⟩
      -- a code that is no symbol stands after the symbols counted
      have hge : self.symbolCount codes ≤ i := by
        by_contra hlt
        rw [hget i hi] at hcode
        exact self.value_of_lt_symbolCount (Nat.lt_of_not_le hlt) hcode hbad
      have := Nat.div_le_div_right (c := 8) (Nat.mul_le_mul_right 6 hge)
      omega
    · rw [hrun]
      have hexact := houtcome.exact htext hmod
      constructor
      · intro _
        obtain hsize | ⟨hbuild, hroom⟩ := hroom
        · exact .inl hsize
        · cases hproblem : self.problem 0 codes with
          | some e =>
            obtain ⟨-, -, code, hcode, hbad⟩ := self.problem_some hproblem
            have hlt := (List.getElem?_eq_some_iff.mp hcode).1
            exact .inr ⟨hbuild, _, hlt, code, (hget _ hlt).trans hcode, hbad, hroom⟩
          | none =>
            rw [(self.problem_none hproblem).1] at hroom
            refine .inl (Nat.lt_of_not_le fun hover => ?_)
            exact absurd hroom (Nat.not_le.mpr (wrapped_lt hover))
      · intro _
        cases result with
        | error e => exact hexact
        | ok bytes =>
          have hsize := (self.text_of_decode hrun).2
          show self.encode build bytes = .ok text
          rw [self.encode_text hsize, ← show text = self.text bytes from hexact]

/-- **Every byte list** whose symbols' number times six fits round-trips, and no other. -/
theorem roundTrips_iff (build : Build) (bytes : List UInt8) :
    self.RoundTrips build bytes ↔ (bytes.length * 4 + 2) / 3 * 6 < USIZE := by
  unfold RoundTrips
  constructor
  · intro h
    cases hencode : self.encode build bytes with
    | error p =>
      rw [hencode] at h
      cases h
    | ok text =>
      rw [hencode] at h
      exact (self.text_of_decode h).2
  · intro h
    have hlen := self.symbols_length bytes
    have hmod : (self.symbols bytes).length % 4 ≠ 1 := by omega
    have hback : (self.symbols bytes).length * 6 / 8 = bytes.length := by omega
    have hvalid : ∀ code ∈ self.symbols bytes, ¬self.value code < 0 :=
      fun code hcode => self.symbols_valid hcode
    have hnoPad : ∀ code ∈ self.symbols bytes, code ≠ 61 :=
      fun code hcode heq => hvalid code hcode (heq ▸ self.value_pad)
    have hend := self.symbolsEnd_eq hmod hnoPad
    have htext : self.text bytes =
        self.symbols bytes ++ self.padding ((self.symbols bytes).length * 6 / 8) := by
      rw [hback, text_eq]
    rw [← htext] at hend
    rw [self.encode_text h, ok_bind]
    rw [← hlen] at h
    obtain ⟨-, hover, -⟩ | ⟨-, hover, -⟩ | ⟨-, result, houtcome, hrun⟩ :=
      @decode_cases self build _ _ htext hend
    · exact absurd h (not_lt.mpr hover)
    · exact absurd h (not_lt.mpr hover)
    · rw [hrun]
      have hnone := @problem_of_symbols self 0 _ hvalid
      cases houtcome with
      | problem hproblem =>
        rw [hnone] at hproblem
        cases hproblem
      | padding _ _ hwrites => exact absurd (self.writes_symbols bytes) (hwrites bytes)
      | bytes found _ hwrites => rw [hwrites.inj (self.writes_symbols bytes)]

theorem decode_inj {text text' : List UInt8} (h : self.decode build text = .ok (.ok bytes))
    (h' : self.decode build text' = .ok (.ok bytes)) : text = text' :=
  (self.text_of_decode h).1.trans (self.text_of_decode h').1.symm

end Base64

/-! ### Hex -/

theorem write_length {list list' : List UInt8} {i : ℕ} {b : UInt8} (h : write list i b = .ok list') :
    list'.length = list.length := by
  unfold write at h
  split at h
  · cases h
    exact length_set
  · cases h

theorem hexEncodeFrom_length {codes codes' : List UInt8} {index : ℕ}
    (h : hexEncodeFrom bytes index codes = .ok codes') : codes'.length = codes.length := by
  induction hleft : bytes.length - index generalizing index codes with
  | zero =>
    rw [hexEncodeFrom, dif_neg (by omega)] at h
    cases h
    rfl
  | succ left ih =>
    have hlt : index < bytes.length := by omega
    rw [hexEncodeFrom, dif_pos hlt, read_eq (getElem?_eq_getElem hlt), ok_bind] at h
    cases hfirst : write codes (index * 2) (hexSymbol (bytes[index] >>> 4)) with
    | error p =>
      rw [hfirst] at h
      cases h
    | ok codes₁ =>
      rw [hfirst, ok_bind] at h
      cases hsecond : write codes₁ (index * 2 + 1) (hexSymbol (bytes[index] &&& 15)) with
      | error p =>
        rw [hsecond] at h
        cases h
      | ok codes₂ =>
        rw [hsecond, ok_bind] at h
        rw [ih h (by omega), write_length hsecond, write_length hfirst]

/-- `hex_decode` gives the bytes whose text is the text it is given in lower case, or an error
within the text. -/
def HexDecodesExactly (build : Build) (text : List UInt8) : Prop :=
  match hexDecode text with
  | .ok (.ok bytes) => hexEncode build bytes = .ok (text.map lowerByte)
  | .ok (.error e) => Base64.Within text.length e
  | .error _ => False

/-- The bytes are encoded as hex, and the text decodes to them. -/
def HexRoundTrips (build : Build) (bytes : List UInt8) : Prop :=
  (do
    let text ← hexEncode build bytes
    hexDecode text) = .ok (.ok bytes)

/-- Hex text that decodes is, in lower case, the text of its bytes. -/
theorem hexText_of_decode {text : List UInt8} (h : hexDecode text = .ok (.ok bytes)) :
    hexText bytes = text.map lowerByte := by
  by_cases heven : text.length % 2 = 0
  · rw [hexDecode_even heven, Except.ok.injEq] at h
    exact hexText_of_hexBytes heven h
  · rw [hexDecode_odd heven] at h
    cases h

theorem length_of_hexDecode {text : List UInt8} (h : hexDecode text = .ok (.ok bytes)) :
    bytes.length * 2 = text.length := by
  have hlen := congrArg length (hexText_of_decode h)
  rwa [hexText_length, length_map] at hlen

theorem hexDecodesExactly (build : Build) {text : List UInt8} (hsize : text.length < USIZE) :
    HexDecodesExactly build text := by
  unfold HexDecodesExactly
  by_cases heven : text.length % 2 = 0
  · have hrun := hexDecode_even heven
    rw [hrun]
    cases hfound : hexBytes 0 text with
    | error e =>
      have hposition := hexBytes_error hfound
      exact .inl (by omega)
    | ok bytes =>
      rw [hfound] at hrun
      have hlen := length_of_hexDecode hrun
      show hexEncode build bytes = _
      rw [hexEncode_eq (hlen ▸ hsize), hexText_of_decode hrun]
  · rw [hexDecode_odd heven]
    exact .inr rfl

theorem hexRoundTrips_iff (build : Build) (bytes : List UInt8) :
    HexRoundTrips build bytes ↔ bytes.length * 2 < USIZE := by
  unfold HexRoundTrips
  constructor
  · intro h
    unfold hexEncode usize at h
    by_cases hsize : bytes.length * 2 < USIZE
    · exact hsize
    · rw [if_neg hsize] at h
      by_cases hbuild : build = .release
      · rw [if_pos hbuild, ok_bind] at h
        cases hrun : hexEncodeFrom bytes 0 (zeroes (bytes.length * 2 % USIZE)) with
        | error p =>
          rw [hrun] at h
          cases h
        | ok text =>
          rw [hrun] at h
          have htext := hexEncodeFrom_length hrun
          rw [zeroes, length_replicate, ← length_of_hexDecode h] at htext
          rw [htext]
          exact mod_lt _ (by decide)
      · rw [if_neg hbuild] at h
        cases h
  · intro h
    have heven : (hexText bytes).length % 2 = 0 := by
      rw [hexText_length, mul_mod_left]
    rw [hexEncode_eq h, ok_bind, hexDecode_even heven, hexBytes_hexText]

/-! ### The encodings together -/

/-- **When `std.encoding` is exact.** Base64 text decodes to the bytes whose text it is, or to an
error within it, exactly when it fits; bytes round-trip through Base64 exactly when six times the
number of their symbols is a `usize`; and two texts never decode alike. Hex text always decodes to the
bytes whose text it is in lower case, or to an error within it, and bytes round-trip through hex
exactly when the size of their text is a `usize`. -/
theorem decoding_exact (build : Build) (variant : Base64) (text bytes : List UInt8) :
    (variant.DecodesExactly build text ↔ variant.Fits build text) ∧
      (variant.RoundTrips build bytes ↔ (bytes.length * 4 + 2) / 3 * 6 < USIZE) ∧
      (∀ text', variant.decode build text = .ok (.ok bytes) →
        variant.decode build text' = .ok (.ok bytes) → text = text') ∧
      (HexRoundTrips build bytes ↔ bytes.length * 2 < USIZE) ∧
      (text.length < USIZE → HexDecodesExactly build text) :=
  ⟨variant.decodesExactly_iff build text, variant.roundTrips_iff build bytes,
    fun _ h h' => variant.decode_inj h h', hexRoundTrips_iff build bytes,
    hexDecodesExactly build⟩

theorem not_decodesExactly_of_overflow {text : List UInt8} {n : ℕ} (hlen : text.length = n)
    (hmod : n % 4 ≠ 1) (hover : ¬n * 6 < USIZE) :
    ¬Base64.standardNoPad.DecodesExactly .debug text := by
  have hend : Base64.standardNoPad.symbolsEnd text = .ok (.ok n) := by
    unfold Base64.symbolsEnd
    rw [hlen]
    exact (if_neg Bool.false_ne_true).trans (if_neg hmod)
  have hsize : usize .debug (n * 6) = .error .integerOverflow := by
    unfold usize
    rw [if_neg hover]
    rfl
  have hrun : Base64.standardNoPad.decode .debug text = .error .integerOverflow := by
    unfold Base64.decode
    rw [hend, ok_bind]
    dsimp only
    rw [hsize, error_bind]
  unfold Base64.DecodesExactly
  rw [hrun]
  exact id

/-- The `A`s that 536870913 zero bytes encode to do not decode. -/
theorem not_decodesExactly_zeroes :
    ¬Base64.standardNoPad.DecodesExactly .debug (List.replicate 715827884 65) :=
  not_decodesExactly_of_overflow List.length_replicate (by decide) (by decide)

end HdLang.Encoding
