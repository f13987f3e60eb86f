import Mathlib.Algebra.Order.Group.Nat
import Mathlib.Data.List.Basic

/-!
# UTF-8

The form of a scalar value is `String.utf8EncodeChar`; `encode` is that of a text. Here are the
forms in plain arithmetic, and `first`, the sequence that a list of bytes begins with: it is a
scalar's form exactly where the list begins with one (`first_eq_scalar_iff`), and cut exactly where
the list ends inside a sequence (`first_eq_cut_iff`). So forms are told from one another by their
beginnings (`encode_append_inj`).
-/

namespace Utf8

open List Nat UInt8

/-- The UTF-8 form of a text. -/
def encode (text : List Char) : List UInt8 := text.flatMap String.utf8EncodeChar

@[simp] theorem encode_nil : encode [] = [] := rfl

@[simp] theorem encode_cons (c : Char) (text : List Char) :
    encode (c :: text) = String.utf8EncodeChar c ++ encode text := rfl

@[simp] theorem encode_append (left right : List Char) :
    encode (left ++ right) = encode left ++ encode right := flatMap_append

/-- The bytes are the form of a text. -/
def WellFormed (bytes : List UInt8) : Prop := ∃ text, encode text = bytes

/-- A byte that continues a sequence. -/
def Continues (b : UInt8) : Prop := 128 ≤ b.toNat ∧ b.toNat < 192

instance (b : UInt8) : Decidable (Continues b) := inferInstanceAs (Decidable (_ ∧ _))

/-! ### Forms in plain arithmetic -/

section Forms

variable {c : Char}

theorem toNat_ofNat {n : ℕ} (h : n < 256) : (UInt8.ofNat n).toNat = n := by
  rw [toNat_ofNat', mod_eq_of_lt h]

theorem eq_ofNat {b : UInt8} {n : ℕ} (h : b.toNat = n) : b = UInt8.ofNat n := by
  rw [← h, UInt8.ofNat_toNat]

theorem toNat_lt (c : Char) : c.toNat < 55296 ∨ 57343 < c.toNat ∧ c.toNat < 1114112 := c.valid

theorem utf8EncodeChar_one (h : c.toNat < 128) :
    String.utf8EncodeChar c = [UInt8.ofNat c.toNat] := by
  have hle : c.val.toNat ≤ 127 := le_of_lt_succ h
  rw [String.utf8EncodeChar, if_pos hle]
  rfl

theorem utf8EncodeChar_two (hlow : 128 ≤ c.toNat) (h : c.toNat < 2048) :
    String.utf8EncodeChar c =
      [UInt8.ofNat (192 + c.toNat / 64), UInt8.ofNat (128 + c.toNat % 64)] := by
  have hgt : ¬ c.val.toNat ≤ 127 := Nat.not_le_of_lt hlow
  have hle : c.val.toNat ≤ 2047 := Nat.le_of_lt_succ h
  have hlead : c.val.toNat / 64 % 32 + 192 = 192 + c.val.toNat / 64 := by omega
  rw [String.utf8EncodeChar, if_neg hgt, if_pos hle, hlead, Nat.add_comm _ 128]
  rfl

theorem utf8EncodeChar_three (hlow : 2048 ≤ c.toNat) (h : c.toNat < 65536) :
    String.utf8EncodeChar c =
      [UInt8.ofNat (224 + c.toNat / 4096), UInt8.ofNat (128 + c.toNat / 64 % 64),
        UInt8.ofNat (128 + c.toNat % 64)] := by
  have hgt : ¬ c.val.toNat ≤ 2047 := Nat.not_le_of_lt hlow
  have hone : ¬ c.val.toNat ≤ 127 := by omega
  have hle : c.val.toNat ≤ 65535 := Nat.le_of_lt_succ h
  have hlead : c.val.toNat / 4096 % 16 + 224 = 224 + c.val.toNat / 4096 := by omega
  rw [String.utf8EncodeChar, if_neg hone, if_neg hgt, if_pos hle, hlead, Nat.add_comm _ 128,
    Nat.add_comm _ 128]
  rfl

theorem utf8EncodeChar_four (hlow : 65536 ≤ c.toNat) :
    String.utf8EncodeChar c =
      [UInt8.ofNat (240 + c.toNat / 262144), UInt8.ofNat (128 + c.toNat / 4096 % 64),
        UInt8.ofNat (128 + c.toNat / 64 % 64), UInt8.ofNat (128 + c.toNat % 64)] := by
  have hgt : ¬ c.val.toNat ≤ 65535 := Nat.not_le_of_lt hlow
  have hone : ¬ c.val.toNat ≤ 127 := by omega
  have htwo : ¬ c.val.toNat ≤ 2047 := by omega
  have hlead : c.val.toNat / 262144 % 8 + 240 = 240 + c.val.toNat / 262144 := by
    have hlt : c.val.toNat < 1114112 := by
      have h := toNat_lt c
      change c.val.toNat < 55296 ∨ 57343 < c.val.toNat ∧ c.val.toNat < 1114112 at h
      omega
    omega
  rw [String.utf8EncodeChar, if_neg hone, if_neg htwo, if_neg hgt, hlead, Nat.add_comm _ 128,
    Nat.add_comm _ 128, Nat.add_comm _ 128]
  rfl

end Forms

/-! ### The sequence that bytes begin with -/

/-- What a list of bytes begins with. -/
inductive First
  | scalar (c : Char)
  /-- A sequence that the list ends inside. -/
  | cut
  | malformed
  deriving DecidableEq

/-- A lead byte: the bytes that follow it, its part of the scalar value, and the lowest value that
needs so many. -/
def lead (b : ℕ) : Option (ℕ × ℕ × ℕ) :=
  if 240 ≤ b ∧ b ≤ 244 then some (3, b - 240, 65536)
  else if 224 ≤ b ∧ b < 240 then some (2, b - 224, 2048)
  else if 194 ≤ b ∧ b < 224 then some (1, b - 192, 128)
  else none

/-- The scalar value of a sequence, from what was read of it. -/
@[grind =] def continued (lowest : ℕ) : (n point : ℕ) → List UInt8 → First
  | 0, point, _ =>
    if lowest ≤ point ∧ point.isValidChar then .scalar (Char.ofNat point) else .malformed
  | _ + 1, _, [] => .cut
  | n + 1, point, b :: bytes =>
    if Continues b then continued lowest n (point * 64 + b.toNat - 128) bytes else .malformed

/-- The sequence that the bytes begin with. -/
@[grind =] def first : List UInt8 → First
  | [] => .cut
  | b :: bytes =>
    if b.toNat < 128 then .scalar (Char.ofNat b.toNat)
    else match lead b.toNat with
      | some (n, point, lowest) => continued lowest n point bytes
      | none => .malformed

/-- The bytes end inside a sequence: a lead byte, and fewer continuation bytes than it needs. -/
def EndsInside (bytes : List UInt8) : Prop :=
  ∃ b rest, bytes = b :: rest ∧ (∀ b' ∈ rest, Continues b') ∧
    (194 ≤ b.toNat ∧ b.toNat < 224 ∧ rest.length < 1 ∨
      224 ≤ b.toNat ∧ b.toNat < 240 ∧ rest.length < 2 ∨
      240 ≤ b.toNat ∧ b.toNat ≤ 244 ∧ rest.length < 3)

/-! ### What `first` finds -/

section Found

variable {lowest n point : ℕ} {b : UInt8} {c : Char} {bytes : List UInt8}

/-- The value of continuation bytes, after what was read of the value. -/
def valueOf (point : ℕ) (rest : List UInt8) : ℕ :=
  rest.foldl (fun point b => point * 64 + b.toNat - 128) point

@[simp] theorem valueOf_nil : valueOf point [] = point := rfl

@[simp] theorem valueOf_cons {rest : List UInt8} :
    valueOf point (b :: rest) = valueOf (point * 64 + b.toNat - 128) rest := foldl_cons ..

theorem ofNat_toNat_of_isValidChar (h : n.isValidChar) : (Char.ofNat n).toNat = n := by
  rw [Char.ofNat, dif_pos h]
  rfl

theorem isValidChar_toNat (c : Char) : c.toNat.isValidChar := c.valid

theorem continued_eq_cut_iff : continued lowest n point bytes = .cut ↔
    bytes.length < n ∧ ∀ b ∈ bytes, Continues b := by
  induction n generalizing point bytes with
  | zero =>
    have hne : continued lowest 0 point bytes ≠ .cut := by
      rw [continued]
      split <;> exact First.noConfusion
    exact iff_of_false hne (fun h => not_lt_zero _ h.1)
  | succ n ih =>
    cases bytes with
    | nil => simp [continued]
    | cons b bytes =>
      rw [continued, length_cons, forall_mem_cons, add_lt_add_iff_right]
      split
      next h => rw [ih, and_iff_right h]
      next h => exact iff_of_false First.noConfusion (fun hc => h hc.2.1)

theorem continued_eq_scalar_iff : continued lowest n point bytes = .scalar c ↔
    ∃ rest post, bytes = rest ++ post ∧ rest.length = n ∧ (∀ b ∈ rest, Continues b) ∧
      lowest ≤ c.toNat ∧ valueOf point rest = c.toNat := by
  induction n generalizing point bytes with
  | zero =>
    rw [continued]
    constructor
    · intro h
      split at h
      next hv =>
        obtain rfl : Char.ofNat point = c := First.scalar.inj h
        refine ⟨[], bytes, rfl, rfl, by simp, ?_, ?_⟩
        · rw [ofNat_toNat_of_isValidChar hv.2]
          exact hv.1
        · exact (ofNat_toNat_of_isValidChar hv.2).symm
      next => cases h
    · rintro ⟨rest, post, -, hlen, -, hlow, hval⟩
      rw [length_eq_zero_iff.mp hlen] at hval
      obtain rfl : point = c.toNat := hval
      rw [if_pos ⟨hlow, isValidChar_toNat c⟩, Char.ofNat_toNat]
  | succ n ih =>
    cases bytes with
    | nil =>
      refine iff_of_false First.noConfusion ?_
      rintro ⟨rest, post, hbytes, hlen, -⟩
      rw [(append_eq_nil_iff.mp hbytes.symm).1] at hlen
      exact Nat.noConfusion hlen
    | cons b bytes =>
      rw [continued]
      split
      next hb =>
        rw [ih]
        constructor
        · rintro ⟨rest, post, rfl, hlen, hall, hlow, hval⟩
          refine ⟨b :: rest, post, rfl, ?_, ?_, hlow, valueOf_cons.trans hval⟩
          · rw [length_cons, hlen]
          · exact forall_mem_cons.mpr ⟨hb, hall⟩
        · rintro ⟨rest, post, hbytes, hlen, hall, hlow, hval⟩
          cases rest with
          | nil => exact Nat.noConfusion hlen
          | cons b' rest =>
            obtain ⟨rfl, rfl⟩ := List.cons.inj hbytes
            rw [valueOf_cons] at hval
            refine ⟨rest, post, rfl, Nat.succ.inj hlen, fun x hx => ?_, hlow, hval⟩
            exact hall x (mem_cons_of_mem _ hx)
      next hb =>
        refine iff_of_false First.noConfusion ?_
        rintro ⟨rest, post, hbytes, hlen, hall, -⟩
        cases rest with
        | nil => exact Nat.noConfusion hlen
        | cons b' rest =>
          obtain ⟨rfl, rfl⟩ := List.cons.inj hbytes
          exact hb (hall b mem_cons_self)

theorem lead_eq_some_iff {k n point lowest : ℕ} : lead k = some (n, point, lowest) ↔
    (194 ≤ k ∧ k < 224 ∧ n = 1 ∧ point = k - 192 ∧ lowest = 128) ∨
      (224 ≤ k ∧ k < 240 ∧ n = 2 ∧ point = k - 224 ∧ lowest = 2048) ∨
      (240 ≤ k ∧ k ≤ 244 ∧ n = 3 ∧ point = k - 240 ∧ lowest = 65536) := by
  unfold lead
  split_ifs <;> simp only [Option.some.injEq, Prod.mk.injEq, false_iff] <;> omega

theorem first_eq_cut_iff (hne : bytes ≠ []) : first bytes = .cut ↔ EndsInside bytes := by
  cases bytes with
  | nil => exact absurd rfl hne
  | cons b bytes =>
    have hends : EndsInside (b :: bytes) ↔ (∀ b' ∈ bytes, Continues b') ∧
        (194 ≤ b.toNat ∧ b.toNat < 224 ∧ bytes.length < 1 ∨
          224 ≤ b.toNat ∧ b.toNat < 240 ∧ bytes.length < 2 ∨
          240 ≤ b.toNat ∧ b.toNat ≤ 244 ∧ bytes.length < 3) := by
      constructor
      · rintro ⟨b', rest, heq, h⟩
        obtain ⟨rfl, rfl⟩ := List.cons.inj heq
        exact h
      · exact fun h => ⟨b, bytes, rfl, h⟩
    rw [hends, first]
    split
    next h =>
      refine iff_of_false First.noConfusion ?_
      rintro ⟨-, h⟩
      omega
    next h =>
      cases hlead : lead b.toNat with
      | none =>
        refine iff_of_false First.noConfusion ?_
        rintro ⟨-, h⟩
        unfold lead at hlead
        split_ifs at hlead
        omega
      | some t =>
        obtain ⟨n, point, lowest⟩ := t
        show continued lowest n point bytes = .cut ↔ _
        rw [continued_eq_cut_iff, and_comm]
        refine and_congr_right fun _ => ?_
        obtain ⟨h1, h2, rfl, -⟩ | ⟨h1, h2, rfl, -⟩ | ⟨h1, h2, rfl, -⟩ := lead_eq_some_iff.mp hlead
        all_goals omega

theorem first_utf8EncodeChar_append (c : Char) (post : List UInt8) :
    first (String.utf8EncodeChar c ++ post) = .scalar c := by
  have hc := toNat_lt c
  obtain h | h | h | h : c.toNat < 128 ∨ (128 ≤ c.toNat ∧ c.toNat < 2048) ∨
      (2048 ≤ c.toNat ∧ c.toNat < 65536) ∨ 65536 ≤ c.toNat := by omega
  · rw [utf8EncodeChar_one h, singleton_append, first, toNat_ofNat (by omega), if_pos h,
      Char.ofNat_toNat]
  · have hlead : lead (192 + c.toNat / 64) = some (1, c.toNat / 64, 128) :=
      lead_eq_some_iff.mpr (.inl ⟨by omega, by omega, rfl, by omega, rfl⟩)
    rw [utf8EncodeChar_two h.1 h.2, cons_append, first, toNat_ofNat (by omega), if_neg (by omega),
      hlead]
    refine continued_eq_scalar_iff.mpr ⟨[ofNat (128 + c.toNat % 64)], post, rfl, rfl, ?_, h.1, ?_⟩
    · simp only [mem_singleton, forall_eq, Continues, toNat_ofNat (n := 128 + c.toNat % 64)
        (by omega)]
      omega
    · simp only [valueOf_cons, valueOf_nil, toNat_ofNat (n := 128 + c.toNat % 64) (by omega)]
      omega
  · have hlead : lead (224 + c.toNat / 4096) = some (2, c.toNat / 4096, 2048) :=
      lead_eq_some_iff.mpr (.inr (.inl ⟨by omega, by omega, rfl, by omega, rfl⟩))
    have hsecond := toNat_ofNat (n := 128 + c.toNat / 64 % 64) (by omega)
    have hthird := toNat_ofNat (n := 128 + c.toNat % 64) (by omega)
    rw [utf8EncodeChar_three h.1 h.2, cons_append, first, toNat_ofNat (by omega), if_neg (by omega),
      hlead]
    refine continued_eq_scalar_iff.mpr ⟨[ofNat (128 + c.toNat / 64 % 64),
      ofNat (128 + c.toNat % 64)], post, rfl, rfl, ?_, h.1, ?_⟩
    · simp only [forall_mem_cons, not_mem_nil, false_implies, forall_const, and_true, Continues,
        hsecond, hthird]
      omega
    · simp only [valueOf_cons, valueOf_nil, hsecond, hthird]
      omega
  · have hlead : lead (240 + c.toNat / 262144) = some (3, c.toNat / 262144, 65536) :=
      lead_eq_some_iff.mpr (.inr (.inr ⟨by omega, by omega, rfl, by omega, rfl⟩))
    have hsecond := toNat_ofNat (n := 128 + c.toNat / 4096 % 64) (by omega)
    have hthird := toNat_ofNat (n := 128 + c.toNat / 64 % 64) (by omega)
    have hfourth := toNat_ofNat (n := 128 + c.toNat % 64) (by omega)
    rw [utf8EncodeChar_four h, cons_append, first, toNat_ofNat (by omega), if_neg (by omega), hlead]
    refine continued_eq_scalar_iff.mpr ⟨[ofNat (128 + c.toNat / 4096 % 64),
      ofNat (128 + c.toNat / 64 % 64), ofNat (128 + c.toNat % 64)],
      post, rfl, rfl, ?_, h, ?_⟩
    · simp only [forall_mem_cons, not_mem_nil, false_implies, forall_const, and_true, Continues,
        hsecond, hthird, hfourth]
      omega
    · simp only [valueOf_cons, valueOf_nil, hsecond, hthird, hfourth]
      omega

/-- A list begins with a scalar exactly where it begins with its form. -/
theorem first_eq_scalar_iff :
    first bytes = .scalar c ↔ ∃ post, bytes = String.utf8EncodeChar c ++ post := by
  refine ⟨fun h => ?_, fun ⟨post, hbytes⟩ => hbytes ▸ first_utf8EncodeChar_append c post⟩
  cases bytes with
  | nil => cases h
  | cons b bytes =>
    rw [first] at h
    split at h
    next hb =>
      obtain rfl : Char.ofNat b.toNat = c := First.scalar.inj h
      have hnat : (Char.ofNat b.toNat).toNat = b.toNat :=
        ofNat_toNat_of_isValidChar (.inl (by omega))
      refine ⟨bytes, ?_⟩
      rw [utf8EncodeChar_one (hnat.symm ▸ hb), hnat, UInt8.ofNat_toNat, singleton_append]
    next hb =>
      split at h
      next n point lowest hlead =>
        obtain ⟨rest, post, rfl, hlen, hall, hlow, hval⟩ := continued_eq_scalar_iff.mp h
        refine ⟨post, ?_⟩
        have hc := toNat_lt c
        obtain ⟨h1, h2, rfl, hpoint, rfl⟩ | ⟨h1, h2, rfl, hpoint, rfl⟩ |
          ⟨h1, h2, rfl, hpoint, rfl⟩ := lead_eq_some_iff.mp hlead
        · obtain ⟨x, rfl⟩ := length_eq_one_iff.mp hlen
          obtain ⟨hx, hx'⟩ := hall x (by simp)
          rw [valueOf_cons, valueOf_nil] at hval
          rw [utf8EncodeChar_two hlow (by omega),
            eq_ofNat (b := b) (n := 192 + c.toNat / 64) (by omega),
            eq_ofNat (b := x) (n := 128 + c.toNat % 64) (by omega)]
          rfl
        · obtain ⟨x, y, rfl⟩ := length_eq_two.mp hlen
          obtain ⟨hx, hx'⟩ := hall x (by simp)
          obtain ⟨hy, hy'⟩ := hall y (by simp)
          rw [valueOf_cons, valueOf_cons, valueOf_nil] at hval
          rw [utf8EncodeChar_three hlow (by omega),
            eq_ofNat (b := b) (n := 224 + c.toNat / 4096) (by omega),
            eq_ofNat (b := x) (n := 128 + c.toNat / 64 % 64) (by omega),
            eq_ofNat (b := y) (n := 128 + c.toNat % 64) (by omega)]
          rfl
        · obtain ⟨x, y, z, rfl⟩ := length_eq_three.mp hlen
          obtain ⟨hx, hx'⟩ := hall x (by simp)
          obtain ⟨hy, hy'⟩ := hall y (by simp)
          obtain ⟨hz, hz'⟩ := hall z (by simp)
          rw [valueOf_cons, valueOf_cons, valueOf_cons, valueOf_nil] at hval
          rw [utf8EncodeChar_four hlow, eq_ofNat (b := b) (n := 240 + c.toNat / 262144) (by omega),
            eq_ofNat (b := x) (n := 128 + c.toNat / 4096 % 64) (by omega),
            eq_ofNat (b := y) (n := 128 + c.toNat / 64 % 64) (by omega),
            eq_ofNat (b := z) (n := 128 + c.toNat % 64) (by omega)]
          rfl
      next => cases h

end Found

/-! ### Texts are told apart by their forms -/

section Texts

variable {c : Char} {bytes : List UInt8}

theorem utf8EncodeChar_append_inj {c c' : Char} {post post' : List UInt8}
    (h : String.utf8EncodeChar c ++ post = String.utf8EncodeChar c' ++ post') :
    c = c' ∧ post = post' := by
  have hfirst := first_utf8EncodeChar_append c post
  rw [h, first_utf8EncodeChar_append] at hfirst
  obtain rfl : c' = c := First.scalar.inj hfirst
  exact ⟨rfl, append_cancel_left h⟩

/-- A text whose form is at the beginning of another's is at its beginning. -/
theorem encode_append_inj {text text' : List Char} {post : List UInt8}
    (h : encode text ++ post = encode text') :
    ∃ more, text' = text ++ more ∧ post = encode more := by
  induction text generalizing text' with
  | nil => exact ⟨text', rfl, h⟩
  | cons c text ih =>
    cases text' with
    | nil =>
      rw [encode_cons, encode_nil, append_assoc] at h
      exact absurd (append_eq_nil_iff.mp h).1 String.utf8EncodeChar_ne_nil
    | cons c' text' =>
      rw [encode_cons, encode_cons, append_assoc] at h
      obtain ⟨rfl, htail⟩ := utf8EncodeChar_append_inj h
      obtain ⟨more, rfl, hpost⟩ := ih htail
      exact ⟨more, rfl, hpost⟩

/-- A form is followed by a form exactly where the whole is one. -/
theorem wellFormed_append_iff (text : List Char) :
    WellFormed (encode text ++ bytes) ↔ WellFormed bytes := by
  constructor
  · rintro ⟨text', h⟩
    obtain ⟨more, rfl, hmore⟩ := encode_append_inj h.symm
    exact ⟨more, hmore.symm⟩
  · rintro ⟨more, rfl⟩
    exact ⟨text ++ more, encode_append text more⟩

/-- Bytes that are the form of a text begin with a scalar, or are none. -/
theorem WellFormed.first_ne (h : WellFormed bytes) (hne : bytes ≠ []) :
    ∃ c, first bytes = .scalar c := by
  obtain ⟨text, rfl⟩ := h
  cases text with
  | nil => exact absurd rfl hne
  | cons c text => exact ⟨c, first_utf8EncodeChar_append c (encode text)⟩

/-- The longest beginning of the bytes that is well-formed ends at `n`. -/
def LongestAt (bytes : List UInt8) (n : ℕ) : Prop :=
  n ≤ bytes.length ∧ WellFormed (bytes.take n) ∧
    ∀ m ≤ bytes.length, WellFormed (bytes.take m) → m ≤ n

/-- A text's form followed by no scalar is the longest beginning. -/
theorem longestAt_of_first {text : List Char} (h : ∀ c, first bytes ≠ .scalar c) :
    LongestAt (encode text ++ bytes) (encode text).length := by
  refine ⟨?_, ⟨text, (take_left ..).symm⟩, fun m hm hwell => ?_⟩
  · rw [length_append]
    exact Nat.le_add_right _ _
  · by_contra hlt
    obtain ⟨k, rfl⟩ := Nat.exists_eq_add_of_lt (Nat.lt_of_not_le hlt)
    rw [Nat.add_assoc, take_length_add_append, wellFormed_append_iff] at hwell
    cases bytes with
    | nil =>
      rw [append_nil] at hm
      omega
    | cons b bytes =>
      obtain ⟨c, hc⟩ := hwell.first_ne (by simp)
      obtain ⟨post, hpost⟩ := first_eq_scalar_iff.mp hc
      refine h c (first_eq_scalar_iff.mpr ⟨post ++ (b :: bytes).drop (k + 1), ?_⟩)
      rw [← append_assoc, ← hpost, take_append_drop]

theorem LongestAt.wellFormed_iff {n : ℕ} (h : LongestAt bytes n) :
    WellFormed bytes ↔ n = bytes.length := by
  constructor
  · intro hwell
    refine le_antisymm h.1 (h.2.2 _ le_rfl ?_)
    rwa [take_length]
  · rintro rfl
    rw [← take_length (l := bytes)]
    exact h.2.1

/-- A form is a lead byte and the bytes it needs, which continue it and hold the value. -/
theorem exists_form (c : Char) : ∃ b rest, String.utf8EncodeChar c = b :: rest ∧
    (∀ x ∈ rest, Continues x) ∧
      (b.toNat < 128 ∧ rest = [] ∧ b.toNat = c.toNat ∨
        ∃ n point lowest, lead b.toNat = some (n, point, lowest) ∧ rest.length = n ∧
          valueOf point rest = c.toNat) := by
  have hfirst := first_utf8EncodeChar_append c []
  rw [append_nil] at hfirst
  cases hform : String.utf8EncodeChar c with
  | nil => exact absurd hform String.utf8EncodeChar_ne_nil
  | cons b rest =>
    rw [hform, first] at hfirst
    refine ⟨b, rest, rfl, ?_⟩
    split at hfirst
    next hb =>
      have hnat : (Char.ofNat b.toNat).toNat = b.toNat :=
        ofNat_toNat_of_isValidChar (.inl (by omega))
      rw [First.scalar.inj hfirst] at hnat
      rw [utf8EncodeChar_one (hnat.symm ▸ hb)] at hform
      obtain rfl : [] = rest := (List.cons.inj hform).2
      exact ⟨by simp, .inl ⟨hb, rfl, hnat.symm⟩⟩
    next hb =>
      split at hfirst
      next n point lowest hlead =>
        obtain ⟨rest', post, hrest, hlen, hall, hlow, hval⟩ := continued_eq_scalar_iff.mp hfirst
        have hshort : first (b :: rest') = .scalar c := by
          rw [first, if_neg hb, hlead]
          exact continued_eq_scalar_iff.mpr ⟨rest', [], (append_nil _).symm, hlen, hall, hlow, hval⟩
        obtain ⟨post', hpost'⟩ := first_eq_scalar_iff.mp hshort
        have hnil : post = [] := by
          have hlength := congrArg List.length hpost'
          rw [hform, hrest] at hlength
          simp only [length_cons, length_append] at hlength
          exact eq_nil_of_length_eq_zero (by omega)
        rw [hnil, append_nil] at hrest
        rw [hrest]
        exact ⟨hall, .inr ⟨n, point, lowest, hlead, hlen, hval⟩⟩
      next => cases hfirst

/-- A form does not begin with a byte that continues one. -/
theorem head_encode {b : UInt8} {text : List Char} (h : (encode text).head? = some b) :
    ¬ Continues b := by
  cases text with
  | nil => cases h
  | cons c text =>
    obtain ⟨b', rest, hform, -, hb⟩ := exists_form c
    rw [encode_cons, hform] at h
    obtain rfl : b' = b := Option.some.inj h
    unfold Continues
    obtain ⟨hlow, -⟩ | ⟨n, point, lowest, hlead, -⟩ := hb
    · omega
    · have hclass := lead_eq_some_iff.mp hlead
      omega

end Texts

end Utf8
