import HdLang.Journal.Model

/-!
# What the framing of a row means

The bytes of one row, as the reader may meet them (`Framed`: its numbers need not be the shortest),
and the one way in which a reader can panic on what it meets (`Claims`: a length that takes the
position past the last `usize`). `parsed` is settled by these two: it gives a row exactly where
`Framed` bytes stand, and it panics exactly where `Claims` bytes do.
-/

namespace HdLang.Journal

open Cursor Leb128 LittleEndian Ensures List Nat UInt64

variable {b bs f g : Bytes} {i j : ℕ} {v : UInt64} {row : Row}

/-! ### Numbers -/

/-- `getUleb` reads the bytes as `v`: there are ten at most, and bits past the 64th are lost. -/
def Uleb (bs : Bytes) (v : UInt64) : Prop :=
  Form bs ∧ bs.length ≤ 10 ∧ v = UInt64.ofNat (value bs)

theorem uleb_encode (v : UInt64) : Uleb (encode v.toNat) v := by
  refine ⟨form_encode _, ?_, ?_⟩
  · rw [length_encode_le v.toNat 9]
    exact lt_of_lt_of_le v.toNat_lt (by decide)
  · rw [value_encode, UInt64.ofNat_toNat]

theorem putUleb_eq (out : Bytes) (v : UInt64) : putUleb out v = out ++ encode v.toNat := by
  have hshift : ∀ v : UInt64, (v >>> 7).toNat = v.toNat / 128 := by
    intro v
    rw [UInt64.toNat_shiftRight, Nat.shiftRight_eq_div_pow]
    rfl
  have hlow : ∀ v : UInt64, (v &&& 0x7f).toUInt8.toNat = v.toNat % 128 := by
    intro v
    rw [UInt64.toNat_toUInt8, UInt64.toNat_and]
    show (v.toNat &&& 2 ^ 7 - 1) % 2 ^ 8 = v.toNat % 128
    rw [and_two_pow_sub_one_eq_mod]
    omega
  have hhigh : ∀ x : UInt8, x.toNat < 128 → x ||| 0x80 = UInt8.ofNat (x.toNat + 128) := by
    intro x hx
    apply UInt8.toNat.inj
    have hor : 2 ^ 7 * 1 + x.toNat = 2 ^ 7 * 1 ||| x.toNat := two_pow_add_eq_or_of_lt hx 1
    rw [UInt8.toNat_or, UInt8.toNat_ofNat', Nat.or_comm]
    show 2 ^ 7 * 1 ||| x.toNat = _
    rw [← hor]
    omega
  have hzero : ∀ v : UInt64, v >>> 7 = 0 ↔ v.toNat < 128 := by
    intro v
    rw [← UInt64.toNat_inj, hshift]
    show v.toNat / 128 = 0 ↔ _
    omega
  induction out, v using putUleb.induct with
  | case1 out v h =>
    have hv : v.toNat < 128 := (hzero v).mp h
    rw [putUleb, if_pos h, encode_of_lt hv]
    congr 2
    apply UInt8.toNat.inj
    rw [hlow, UInt8.toNat_ofNat']
    omega
  | case2 out v h ih =>
    have hv : ¬v.toNat < 128 := fun hlt => h ((hzero v).mpr hlt)
    rw [putUleb, if_neg h, ih, encode_of_le (Nat.not_lt.mp hv), hshift,
      hhigh _ (by rw [hlow]; omega), hlow, append_assoc, singleton_append]

theorem ulebLen_eq (v : UInt64) : ulebLen v = (encode v.toNat).length := by
  have hmax : (max v 1).toNat = max v.toNat 1 := by
    show (if v ≤ 1 then 1 else v).toNat = max v.toNat 1
    by_cases h : v ≤ 1
    · have hle : v.toNat ≤ 1 := h
      rw [if_pos h, max_eq_right hle]
      rfl
    · have hle : ¬v.toNat ≤ 1 := h
      rw [if_neg h, max_eq_left (by omega)]
  have hsize : (max v.toNat 1).size ≤ 64 := by
    rw [size_le, max_lt_iff]
    exact ⟨v.toNat_lt, by decide⟩
  rw [length_encode, ulebLen, leadingZeros, hmax]
  omega

/-- One shift of `getUleb`: the byte's low bits go above what is there, as far as they fit. -/
theorem accumulate {byte : UInt8} {s : ℕ} (hs : s ≤ 63) (hv : v.toNat < 2 ^ s) :
    v ||| ((byte &&& 0x7f).toUInt64 <<< UInt64.ofNat s) =
      UInt64.ofNat (v.toNat + 2 ^ s * (byte.toNat % 128)) := by
  have hlow : (byte &&& 0x7f).toUInt64.toNat = byte.toNat % 128 := by
    rw [UInt8.toNat_toUInt64, UInt8.toNat_and]
    exact and_two_pow_sub_one_eq_mod byte.toNat 7
  have hshift : (UInt64.ofNat s).toNat % 64 = s := by
    rw [UInt64.toNat_ofNat']
    omega
  have hsplit : (2 : ℕ) ^ 64 = 2 ^ s * 2 ^ (64 - s) := by
    rw [← pow_add]
    congr 1
    omega
  have hfit : v.toNat + 2 ^ s * (byte.toNat % 128 % 2 ^ (64 - s)) < 2 ^ 64 := by
    have hrem : byte.toNat % 128 % 2 ^ (64 - s) < 2 ^ (64 - s) := mod_lt _ (Nat.two_pow_pos _)
    calc
      v.toNat + 2 ^ s * (byte.toNat % 128 % 2 ^ (64 - s))
        < 2 ^ s + 2 ^ s * (byte.toNat % 128 % 2 ^ (64 - s)) := Nat.add_lt_add_right hv _
      _ = 2 ^ s * (byte.toNat % 128 % 2 ^ (64 - s) + 1) := by ring
      _ ≤ 2 ^ s * 2 ^ (64 - s) := Nat.mul_le_mul_left _ hrem
      _ = 2 ^ 64 := hsplit.symm
  apply UInt64.toNat.inj
  rw [UInt64.toNat_or, UInt64.toNat_shiftLeft, hlow, hshift, UInt64.toNat_ofNat', Nat.shiftLeft_eq,
    Nat.mul_comm, hsplit, mul_mod_mul_left, Nat.or_comm, ← two_pow_add_eq_or_of_lt hv,
    ← hsplit, Nat.add_comm, ← mod_eq_of_lt hfit, hsplit]
  rw [add_mod, mul_mod_mul_left, add_mod (v.toNat) (2 ^ s * _), mul_mod_mul_left, mod_mod]

/-- A byte that another may follow is not the tenth, so nothing of it is lost. -/
theorem accumulated (byte : UInt8) {s : ℕ} (hs : s ≤ 56) (hv : v.toNat < 2 ^ s) :
    (UInt64.ofNat (v.toNat + 2 ^ s * (byte.toNat % 128))).toNat =
        v.toNat + 2 ^ s * (byte.toNat % 128) ∧
      (UInt64.ofNat (v.toNat + 2 ^ s * (byte.toNat % 128))).toNat < 2 ^ (s + 7) := by
  have hlow : byte.toNat % 128 < 128 := mod_lt _ (by decide)
  have hfit : v.toNat + 2 ^ s * (byte.toNat % 128) < 2 ^ (s + 7) := by
    calc
      v.toNat + 2 ^ s * (byte.toNat % 128) < 2 ^ s + 2 ^ s * (byte.toNat % 128) :=
        Nat.add_lt_add_right hv _
      _ = 2 ^ s * (byte.toNat % 128 + 1) := by ring
      _ ≤ 2 ^ s * 128 := Nat.mul_le_mul_left _ hlow
      _ = 2 ^ (s + 7) := (pow_add 2 s 7).symm
  have hword : v.toNat + 2 ^ s * (byte.toNat % 128) < 2 ^ 64 :=
    lt_of_lt_of_le hfit (Nat.pow_le_pow_right (by decide) (by omega))
  rw [toNat_ofNat', mod_eq_of_lt hword]
  exact ⟨rfl, hfit⟩

theorem and_high_eq_zero (byte : UInt8) : byte &&& 0x80 = 0 ↔ byte.toNat < 128 := by
  have hall : ∀ n < 256, UInt8.ofNat n &&& 0x80 = 0 ↔ n < 128 := by decide +kernel
  have h := hall byte.toNat (UInt8.toNat_lt byte)
  rwa [UInt8.ofNat_toNat] at h

/-! ### Single steps of a reader -/

section Steps

variable {α : Type} {E : Halt → Prop} {k : ℕ}

theorem need_ensures {x : Option α} {Q : α → ℕ → Prop} :
    Ensures E (need x) Q i ↔ match x with
      | some a => Q a i
      | none => E .miss := by
  cases x with
  | none => exact throw_iff
  | some a => exact pure_iff

theorem plus_ensures {n : ℕ} {Q : ℕ → ℕ → Prop} :
    Ensures E (plus i n) Q k ↔ if i + n < SIZES then Q (i + n) k else E .overflow := by
  by_cases h : i + n < SIZES
  · rw [plus, if_pos h, if_pos h, pure_iff]
  · rw [plus, if_neg h, if_neg h, throw_iff]

theorem plus_run {n : ℕ} (h : i + n < SIZES) : (plus i n).run k = .ok (i + n, k) := by
  rw [plus, if_pos h]
  rfl

theorem slice_eq (h : Spans b i j bs) : slice b i j = some bs := by
  have hle : i ≤ j := by rw [h.eq_add]; exact le_add_right _ _
  rw [slice, if_pos ⟨hle, h.le_length⟩, h.take_drop_eq]

theorem index_eq (h : Spans b i j bs) : index b i j = pure bs := by
  have hle : i ≤ j := by rw [h.eq_add]; exact le_add_right _ _
  rw [index, if_pos ⟨hle, h.le_length⟩, h.take_drop_eq]

theorem spans_of_slice (h : slice b i j = some bs) : Spans b i j bs := by
  rw [slice] at h
  split at h
  next hle =>
    rw [← Option.some.inj h]
    exact Spans.of_le hle.1 hle.2
  next => exact absurd h (by simp)

end Steps

/-! ### `getUleb` -/

theorem getUlebFrom_run {n s : ℕ} (hform : Form bs) (hlen : bs.length ≤ n) (hs : s + 7 * n = 70)
    (hv : v.toNat < 2 ^ s) (hspans : Spans b i j bs) (hj : j < SIZES) :
    (getUlebFrom b (List.range' s n 7) v).run i =
      .ok (UInt64.ofNat (v.toNat + 2 ^ s * value bs), j) := by
  induction bs generalizing n s v i with
  | nil => exact hform.elim
  | cons byte bs ih =>
    obtain ⟨n, rfl⟩ : ∃ m, n = m + 1 := ⟨n - 1, by rw [length_cons] at hlen; omega⟩
    rw [length_cons] at hlen
    have hrest : Spans b (i + 1) j bs := (show Spans b i j ([byte] ++ bs) from hspans).split.2
    have hnext : i + 1 < SIZES := by
      have := hspans.eq_add
      rw [length_cons] at this
      omega
    have hturn : (getUlebFrom b (List.range' s (n + 1) 7) v).run i =
        (if byte &&& 0x80 = 0 then
          (pure (v ||| ((byte &&& 0x7f).toUInt64 <<< ofNat s)) : Read UInt64)
        else getUlebFrom b (List.range' (s + 7) n 7)
          (v ||| ((byte &&& 0x7f).toUInt64 <<< ofNat s))).run (i + 1) := by
      rw [List.range'_succ, getUlebFrom]
      show ((need b[i]?).run i >>= _) = _
      rw [hspans.getElem?_eq]
      show ((plus i 1).run i >>= _) = _
      rw [plus_run hnext]
      rfl
    rw [hturn, accumulate (by omega) hv]
    by_cases hbyte : byte.toNat < 128
    · have hnil : bs = [] := (form_cons_of_lt hbyte).mp hform
      subst hnil
      rw [if_pos ((and_high_eq_zero byte).mpr hbyte), hspans.eq_add, value, value, Nat.mul_zero,
        Nat.add_zero]
      rfl
    · rw [if_neg (fun h => hbyte ((and_high_eq_zero byte).mp h))]
      have hform' : Form bs := (form_cons_of_le (Nat.not_lt.mp hbyte)).mp hform
      have hpos : 0 < bs.length := length_pos_iff.mpr hform'.ne_nil
      obtain ⟨hword, hfit⟩ := accumulated byte (show s ≤ 56 by omega) hv
      rw [ih (n := n) hform' (by omega) (by omega) hfit hrest, hword, value, pow_add]
      congr 3
      ring

theorem getUleb_reads (h : Uleb bs v) : Reads SIZES getUleb bs v := by
  intro pre post hlen
  have hrun := getUlebFrom_run (v := 0) h.1 h.2.1 rfl (by decide)
    (⟨pre, post, rfl, rfl, rfl⟩ : Spans (pre ++ bs ++ post) _ _ bs) hlen
  rw [h.2.2, getUleb, hrun]
  simp

theorem getUlebFrom_ensures {n s : ℕ} (hs : s + 7 * n = 70) (hv : 0 < n → v.toNat < 2 ^ s)
    (hi : i ≤ b.length) (hb : b.length < SIZES) :
    Ensures (· = .miss) (getUlebFrom b (List.range' s n 7) v)
      (fun w j => ∃ bs, Spans b i j bs ∧ Form bs ∧ bs.length ≤ n ∧
        w = UInt64.ofNat (v.toNat + 2 ^ s * value bs)) i := by
  induction n generalizing s v i with
  | zero => exact throw_iff.mpr rfl
  | succ n ih =>
    rw [List.range'_succ, getUlebFrom]
    simp only [bind_iff, get_iff, need_ensures, set_iff, plus_ensures]
    cases hbyte : b[i]? with
    | none => trivial
    | some byte =>
      have hone := Spans.of_getElem? hbyte
      have hlt : i + 1 < SIZES := lt_of_le_of_lt hone.le_length hb
      simp only [if_pos hlt, ite_iff, pure_iff, and_high_eq_zero,
        accumulate (show s ≤ 63 by omega) (hv (by omega))]
      refine ⟨fun hlow => ⟨[byte], hone, hlow, by simp, ?_⟩, fun hhigh => ?_⟩
      · rw [value, value, Nat.mul_zero, Nat.add_zero]
      · cases n with
        | zero => exact throw_iff.mpr rfl
        | succ n =>
          obtain ⟨hword, hfit⟩ := accumulated byte (show s ≤ 56 by omega) (hv (by omega))
          apply (ih (by omega) (fun _ => hfit) hone.le_length).mono
          rintro w j ⟨bs, hspans, hform, hlen, rfl⟩
          refine ⟨byte :: bs, hone.append hspans, ?_, ?_, ?_⟩
          · exact (form_cons_of_le (Nat.not_lt.mp hhigh)).mpr hform
          · rw [length_cons]
            omega
          · rw [hword, value, pow_add]
            congr 1
            ring

theorem getUleb_ensures (hi : i ≤ b.length) (hb : b.length < SIZES) :
    Ensures (· = .miss) (getUleb b) (fun w j => ∃ bs, Spans b i j bs ∧ Uleb bs w) i := by
  apply (getUlebFrom_ensures (n := 10) (s := 0) rfl (fun _ => by decide) hi hb).mono
  rintro w j ⟨bs, hspans, hform, hlen, hw⟩
  refine ⟨bs, hspans, hform, hlen, ?_⟩
  rw [hw]
  simp

/-! ### Rows -/

/-- The bytes of a row before its payload: its kind, its index and the length `len`. -/
def Head (kind : RowKind) (ix len : UInt64) (h : Bytes) : Prop :=
  ∃ bs cs, Uleb bs ix ∧ Uleb cs len ∧ h = kind.toByte :: (bs ++ cs)

/-- `f` is the row, framed. -/
def Framed (row : Row) (f : Bytes) : Prop :=
  ∃ h, Head row.kind row.index (UInt64.ofNat row.payload.length) h ∧
    f = h ++ row.payload ++ toLeBytes (crc32 (h ++ row.payload))

/-- At `i` stands the head of a row whose payload would end past the last `usize`. -/
def Claims (b : Bytes) (i : ℕ) : Prop :=
  ∃ kind ix len h j, Head kind ix len h ∧ Spans b i j h ∧ SIZES ≤ j + len.toNat

theorem all_toByte (kind : RowKind) : RowKind.ALL[kind.toByte.toNat]? = some kind := by
  cases kind <;> rfl

theorem toByte_of_all {k : UInt8} {kind : RowKind} (h : RowKind.ALL[k.toNat]? = some kind) :
    k = kind.toByte := by
  have hlt : k.toNat < 9 := (List.getElem?_eq_some_iff.mp h).1
  have hall : ∀ n < 9, ∀ kind, RowKind.ALL[n]? = some kind → UInt8.ofNat n = kind.toByte := by
    decide
  rw [← hall k.toNat hlt kind h, UInt8.ofNat_toNat]

@[simp] theorem length_toLeBytes (v : UInt32) : (toLeBytes v).length = 4 := length_toLe 4 _

theorem ofLe_toLeBytes (v : UInt32) : ofLe (toLeBytes v) = v.toNat :=
  ofLe_toLe (lt_of_lt_of_le v.toNat_lt (by decide))

/-- The head of a row is read to the position after it. -/
theorem parsed_head {kind : RowKind} {ix len : UInt64} {h : Bytes} (hhead : Head kind ix len h)
    (hspans : Spans b i j h) (hj : j < SIZES) :
    ∃ k, b[i]? = some k ∧ (parsed b k).run i = (do
      let payload ← need (slice b j (← plus j len.toNat))
      set (← plus j len.toNat)
      let n ← get
      let crc ← need (slice b n (← plus n 4))
      if ofLe crc = (crc32 (← index b i n)).toNat then
        pure ⟨kind, ix, payload⟩
      else throw .miss : Read Row).run j := by
  obtain ⟨bs, cs, hbs, hcs, rfl⟩ := hhead
  have htail : Spans b (i + 1) j (bs ++ cs) :=
    (show Spans b i j ([kind.toByte] ++ (bs ++ cs)) from hspans).split.2
  have hix := getUleb_reads hbs
  have hlen := getUleb_reads hcs
  have hmid : i + 1 + bs.length < SIZES := by
    have := htail.eq_add
    rw [length_append] at this
    omega
  refine ⟨kind.toByte, hspans.getElem?_eq, ?_⟩
  rw [parsed]
  show ((plus i 1).run i >>= _) = _
  rw [plus_run (by omega)]
  show ((need RowKind.ALL[kind.toByte.toNat]?).run (i + 1) >>= _) = _
  rw [all_toByte]
  show ((getUleb b).run (i + 1) >>= _) = _
  rw [hix.run_eq htail.split.1 hmid]
  show ((getUleb b).run (i + 1 + bs.length) >>= _) = _
  rw [hlen.run_eq htail.split.2 hj]
  rfl

theorem parsed_of_framed (h : Framed row f) (hspans : Spans b i j f) (hj : j < SIZES) :
    ∃ k n, b[i]? = some k ∧ (parsed b k).run i = .ok (row, n) ∧ n + 4 = j := by
  obtain ⟨hd, hhead, rfl⟩ := h
  rw [append_assoc] at hspans
  have hend := hspans.eq_add
  simp only [length_append, length_toLeBytes] at hend
  have hlen : (ofNat row.payload.length).toNat = row.payload.length := by
    rw [toNat_ofNat', mod_eq_of_lt]
    show row.payload.length < SIZES
    omega
  obtain ⟨hfirst, hrest⟩ := hspans.split
  obtain ⟨hpayload, hcrc⟩ := hrest.split
  obtain ⟨k, hk, hrun⟩ := parsed_head hhead hfirst (by omega)
  refine ⟨k, i + hd.length + row.payload.length, hk, ?_, by omega⟩
  rw [hrun, hlen]
  show ((plus (i + hd.length) row.payload.length).run _ >>= _) = _
  rw [plus_run (by omega)]
  show ((need (slice b (i + hd.length) (i + hd.length + row.payload.length))).run _ >>= _) = _
  rw [slice_eq hpayload]
  show ((plus (i + hd.length) row.payload.length).run _ >>= _) = _
  rw [plus_run (by omega)]
  show ((plus (i + hd.length + row.payload.length) 4).run _ >>= _) = _
  rw [plus_run (by omega)]
  have hcrc' : i + hd.length + row.payload.length + 4 = j := by omega
  show ((need (slice b (i + hd.length + row.payload.length) _)).run _ >>= _) = _
  rw [hcrc', slice_eq hcrc]
  show ((index b i (i + hd.length + row.payload.length)).run _ >>= _) = _
  rw [index_eq (hfirst.append hpayload)]
  show (if ofLe (toLeBytes (crc32 (hd ++ row.payload))) = (crc32 (hd ++ row.payload)).toNat then _
    else _ : Read Row).run _ = _
  rw [if_pos (ofLe_toLeBytes _)]
  rfl

theorem parsed_of_claims (h : Claims b i) (hb : b.length < SIZES) :
    ∃ k, b[i]? = some k ∧ (parsed b k).run i = .error .overflow := by
  obtain ⟨kind, ix, len, hd, j, hhead, hspans, hlen⟩ := h
  obtain ⟨k, hk, hrun⟩ := parsed_head hhead hspans (lt_of_le_of_lt hspans.le_length hb)
  refine ⟨k, hk, ?_⟩
  rw [hrun]
  show ((plus j len.toNat).run j >>= _) = _
  rw [plus, if_neg (not_lt.mpr hlen)]
  rfl

/-- Why `parsed` may stop at `i`. -/
def Stops (b : Bytes) (i : ℕ) (halt : Halt) : Prop :=
  halt = .miss ∨ halt = .overflow ∧ Claims b i

theorem stops_miss : Stops b i .miss := Or.inl rfl

/-- What `parsed` gives is a row whose bytes it passed by, and it panics at a claim only. -/
theorem parsed_ensures {k : UInt8} (hk : b[i]? = some k) (hb : b.length < SLICES) :
    Ensures (Stops b i) (parsed b k) (fun row n => ∃ f, Framed row f ∧ Spans b i (n + 4) f) i := by
  have hone := Spans.of_getElem? hk
  have hroom : ∀ n ≤ b.length, n + 4 < SIZES := by
    intro n hn
    rw [SIZES]
    rw [SLICES] at hb
    omega
  have hb' : b.length < SIZES := lt_of_le_of_lt (le_add_right _ 4) (hroom _ (le_refl _))
  have hi : i + 1 < SIZES := lt_of_le_of_lt hone.le_length hb'
  rw [parsed]
  simp only [bind_iff, get_iff, set_iff, plus_ensures, if_pos hi, need_ensures]
  cases hkind : RowKind.ALL[k.toNat]? with
  | none => exact stops_miss
  | some kind =>
    obtain rfl := toByte_of_all hkind
    apply ((getUleb_ensures hone.le_length hb').weaken fun halt h => Or.inl h).mono
    rintro ix n ⟨bs, hbs, hix⟩
    apply ((getUleb_ensures hbs.le_length hb').weaken fun halt h => Or.inl h).mono
    rintro len m ⟨cs, hcs, hlen⟩
    have hhead : Head kind ix len (kind.toByte :: (bs ++ cs)) := ⟨bs, cs, hix, hlen, rfl⟩
    have hspans : Spans b i m (kind.toByte :: (bs ++ cs)) := hone.append (hbs.append hcs)
    by_cases hfit : m + len.toNat < SIZES
    · simp only [if_pos hfit]
      cases hpayload : slice b m (m + len.toNat) with
      | none => exact stops_miss
      | some payload =>
        have hp := spans_of_slice hpayload
        have hcount : payload.length = len.toNat := by
          have := hp.eq_add
          omega
        have hbody := hspans.append hp
        simp only [if_pos (hroom _ hp.le_length)]
        cases hcrc : slice b (m + len.toNat) (m + len.toNat + 4) with
        | none => exact stops_miss
        | some crc =>
          have hc := spans_of_slice hcrc
          have hfour : crc.length = 4 := by
            have := hc.eq_add
            omega
          simp only [index_eq hbody, pure_iff, ite_iff, throw_iff]
          refine ⟨fun heq => ?_, fun _ => stops_miss⟩
          have hbytes : crc = toLeBytes (crc32 (kind.toByte :: (bs ++ cs) ++ payload)) := by
            rw [toLeBytes, ← heq, ← hfour, toLe_ofLe]
          have hhead' : Head kind ix (UInt64.ofNat payload.length) (kind.toByte :: (bs ++ cs)) := by
            rw [hcount, UInt64.ofNat_toNat]
            exact hhead
          refine ⟨_, ⟨_, hhead', rfl⟩, ?_⟩
          show Spans b i (m + len.toNat + 4) (kind.toByte :: (bs ++ cs) ++ payload ++
              toLeBytes (crc32 (kind.toByte :: (bs ++ cs) ++ payload)))
          rw [← hbytes]
          exact hbody.append hc
    · simp only [if_neg hfit]
      exact Or.inr ⟨rfl, kind, ix, len, _, m, hhead, hspans, not_lt.mp hfit⟩

end HdLang.Journal
