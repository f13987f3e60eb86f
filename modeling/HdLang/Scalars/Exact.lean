import HdLang.Scalars.Model

/-!
# The decoder, the cursors and the encoders agree

A turn of the decoder finds what the bytes begin with (`sequenceAt_eq`), so `utf8_valid_len` ends at
the end of the longest well-formed beginning and `from_utf8` accepts exactly the forms of texts.
Over such a form the cursors give the text, and both encoders write the form again
(`fromUtf8_exact`).
-/

namespace HdLang.Scalars

open Num.IntType Search Utf8 List Nat

/-! ### Small steps -/

section Steps

variable {bytes rest : Bytes} {b byte : UInt8} {index point : ℕ}

theorem bytesAt_append (before after : Bytes) (b : UInt8) :
    bytesAt (before ++ b :: after) before.length = .ok b := by
  rw [bytesAt, List.getElem?_append_right le_rfl, Nat.sub_self]
  rfl

theorem bytesAt_of_drop (h : bytes.drop index = b :: rest) : bytesAt bytes index = .ok b := by
  have hget : bytes[index]? = some b := by
    rw [← List.head?_drop, h]
    rfl
  rw [bytesAt, hget]

theorem continuationByte_iff : continuationByte byte = true ↔ Continues byte := by
  rw [continuationByte, Bool.and_eq_true, decide_eq_true_iff, decide_eq_true_iff]
  rfl

theorem scalarValue_iff : scalarValue (point : ℤ) = true ↔ point.isValidChar := by
  simp only [scalarValue, Bool.and_eq_true, Bool.or_eq_true, decide_eq_true_iff, Nat.isValidChar]
  omega

theorem extend_eq (hpoint : point < 2097152) (hbyte : Continues byte) :
    extend (point : ℤ) byte = .ok ((point * 64 + byte.toNat - 128 : ℕ) : ℤ) := by
  obtain ⟨hlow, hhigh⟩ := hbyte
  have hshift : i32.Holds ((point : ℤ) * 64) := holds_i32_iff.mpr (by omega)
  have hadd : i32.Holds ((point : ℤ) * 64 + i32Of byte) := holds_i32_iff.mpr (by
    unfold i32Of
    omega)
  have hsub : i32.Holds ((point : ℤ) * 64 + i32Of byte - 128) := holds_i32_iff.mpr (by
    unfold i32Of
    omega)
  have hvalue : (point : ℤ) * 64 + i32Of byte - 128 =
      ((point * 64 + byte.toNat - 128 : ℕ) : ℤ) := by
    unfold i32Of
    omega
  rw [extend, checked_eq hshift, ok_bind, checked_eq hadd, ok_bind, checked_eq hsub, hvalue]

/-- A value with room for more bytes of six bits is small. -/
theorem small_of_room {n : ℕ} (h : (point + 1) * 64 ^ (n + 1) ≤ 2097152) : point < 2097152 := by
  have hpow : 1 ≤ 64 ^ (n + 1) := one_le_pow _ _ (by omega)
  calc
    point < (point + 1) * 1 := by omega
    _ ≤ (point + 1) * 64 ^ (n + 1) := mul_le_mul_left _ hpow
    _ ≤ 2097152 := h

/-- A continuation byte takes six bits of the room. -/
theorem room_extend {n : ℕ} (hbyte : Continues byte) (h : (point + 1) * 64 ^ (n + 1) ≤ 2097152) :
    (point * 64 + byte.toNat - 128 + 1) * 64 ^ n ≤ 2097152 := by
  have hhigh := hbyte.2
  calc
    (point * 64 + byte.toNat - 128 + 1) * 64 ^ n ≤ (point + 1) * 64 * 64 ^ n :=
      mul_le_mul_right _ (by omega)
    _ = (point + 1) * 64 ^ (n + 1) := by rw [mul_assoc, ← pow_succ']
    _ ≤ 2097152 := h

end Steps

/-! ### Decoding -/

/-- What a turn makes of what the bytes begin with. -/
def kind (width : ℕ) : First → Sequence
  | .scalar _ => .scalar width
  | .cut => .truncated
  | .malformed => .invalid

section Decoding

variable {bytes : Bytes} {index : ℕ}

theorem continuations_eq {lowest width n nth point : ℕ} (hin : index + nth ≤ bytes.length)
    (hwidth : width = nth + n) (hpoint : (point + 1) * 64 ^ n ≤ 2097152) :
    continuations bytes index width lowest nth point =
      .ok (kind width (continued lowest n point (bytes.drop (index + nth)))) := by
  induction n generalizing nth point with
  | zero =>
    rw [continuations, dif_neg (by omega), continued]
    by_cases hvalid : lowest ≤ point ∧ point.isValidChar
    · have hok : ¬ ((point : ℤ) < lowest ∨ ¬ scalarValue point = true) := by
        rw [scalarValue_iff, not_or, not_not]
        exact ⟨by omega, hvalid.2⟩
      rw [if_neg hok, if_pos hvalid]
      rfl
    · have hbad : (point : ℤ) < lowest ∨ ¬ scalarValue point = true := by
        rw [scalarValue_iff]
        by_cases hlow : lowest ≤ point
        · exact .inr fun h => hvalid ⟨hlow, h⟩
        · exact .inl (by omega)
      rw [if_pos hbad, if_neg hvalid]
      rfl
  | succ n ih =>
    rw [continuations, dif_pos (by omega)]
    by_cases hend : index + nth ≥ bytes.length
    · rw [if_pos hend, drop_eq_nil_of_le hend, continued]
      rfl
    · have hlt : index + nth < bytes.length := Nat.lt_of_not_le hend
      have hdrop := drop_eq_getElem_cons hlt
      generalize bytes[index + nth] = byte at hdrop
      rw [if_neg hend, hdrop, bytesAt_of_drop hdrop, continued, ok_bind]
      by_cases hbyte : Continues byte
      · rw [if_pos (continuationByte_iff.mpr hbyte), if_pos hbyte, extend_eq (small_of_room hpoint)
          hbyte,
          ok_bind]
        exact ih hlt (by omega) (room_extend hbyte hpoint)
      · rw [if_neg (fun h => hbyte (continuationByte_iff.mp h)), if_neg hbyte]
        rfl

theorem sequenceAt_eq (hindex : index < bytes.length) :
    ∃ width, sequenceAt bytes index = .ok (kind width (first (bytes.drop index))) ∧
      ∀ c, first (bytes.drop index) = .scalar c → width = (String.utf8EncodeChar c).length := by
  have hdrop := drop_eq_getElem_cons hindex
  generalize bytes[index] = b at hdrop
  generalize hrest : bytes.drop (index + 1) = rest at hdrop
  have hwidth : ∀ c, first (b :: rest) = .scalar c → (String.utf8EncodeChar c).length =
      if b.toNat < 128 then 1 else if b.toNat < 224 then 2 else if b.toNat < 240 then 3 else 4 := by
    intro c hc
    obtain ⟨post, hpost⟩ := first_eq_scalar_iff.mp hc
    obtain ⟨b', rest', hform, -, hb'⟩ := exists_form c
    rw [hform] at hpost
    obtain ⟨rfl, -⟩ := List.cons.inj hpost
    rw [hform, length_cons]
    obtain ⟨hlow, rfl, -⟩ | ⟨n, point, lowest, hlead, rfl, -⟩ := hb'
    · rw [if_pos hlow, length_nil]
    · have hclass := lead_eq_some_iff.mp hlead
      split_ifs <;> omega
  have hcontinue : ∀ n point lowest : ℕ, lead b.toNat = some (n, point, lowest) →
      i32.checked point = .ok (point : ℤ) ∧ continuations bytes index (1 + n) lowest 1 point =
          .ok (kind (1 + n) (continued lowest n point rest)) := by
    intro n point lowest hlead
    rw [← hrest]
    obtain ⟨hlow, hhigh, rfl, hpoint, -⟩ | ⟨hlow, hhigh, rfl, hpoint, -⟩ |
      ⟨hlow, hhigh, rfl, hpoint, -⟩ := lead_eq_some_iff.mp hlead
    all_goals
      refine ⟨checked_eq (holds_i32_iff.mpr (by omega)), continuations_eq hindex rfl ?_⟩
      omega
  rw [sequenceAt, bytesAt_of_drop hdrop, hdrop, ok_bind]
  by_cases hascii : b.toNat < 128
  · refine ⟨1, ?_, fun c hc => ?_⟩
    · rw [if_pos (by unfold i32Of; omega), first, if_pos hascii]
      rfl
    · rw [hwidth c hc, if_pos hascii]
  · rw [if_neg (by unfold i32Of; omega)]
    rw [first, if_neg hascii] at hwidth ⊢
    cases hlead : lead b.toNat with
    | none =>
      unfold lead at hlead
      split_ifs at hlead with h4 h3 h2
      rw [if_neg (by unfold i32Of; omega), if_neg (by unfold i32Of; omega),
        if_neg (by unfold i32Of; omega)]
      exact ⟨0, rfl, fun c hc => nomatch hc⟩
    | some t =>
      obtain ⟨n, point, lowest⟩ := t
      obtain ⟨hchecked, hrun⟩ := hcontinue n point lowest hlead
      rw [hlead] at hwidth
      refine ⟨1 + n, ?_, fun c hc => ?_⟩
      · obtain ⟨hlow, hhigh, rfl, hpoint, rfl⟩ | ⟨hlow, hhigh, rfl, hpoint, rfl⟩ |
          ⟨hlow, hhigh, rfl, hpoint, rfl⟩ := lead_eq_some_iff.mp hlead
        · have hsub : i32Of b - 192 = (point : ℤ) := by unfold i32Of; omega
          rw [if_neg (by unfold i32Of; omega), if_neg (by unfold i32Of; omega),
            if_pos (by unfold i32Of; omega), hsub, hchecked]
          exact hrun
        · have hsub : i32Of b - 224 = (point : ℤ) := by unfold i32Of; omega
          rw [if_neg (by unfold i32Of; omega), if_pos (by unfold i32Of; omega), hsub, hchecked]
          exact hrun
        · have hsub : i32Of b - 240 = (point : ℤ) := by unfold i32Of; omega
          rw [if_pos (by unfold i32Of; omega), hsub, hchecked]
          exact hrun
      · rw [hwidth c hc]
        have hclass := lead_eq_some_iff.mp hlead
        split_ifs <;> omega

/-- A well-formed beginning goes on where a scalar follows it, and is the longest where none does.
-/
theorem longestAt_of_take (hle : index ≤ bytes.length) (hwell : WellFormed (bytes.take index))
    (hfirst : ∀ c, first (bytes.drop index) ≠ .scalar c) : LongestAt bytes index := by
  obtain ⟨text, htext⟩ := hwell
  have hlen : (encode text).length = index := by
    rw [htext, length_take, min_eq_left hle]
  have hlongest := @longestAt_of_first _ text hfirst
  rwa [htext, take_append_drop, ← htext, hlen] at hlongest

theorem wellFormed_take_add {c : Char} (hwell : WellFormed (bytes.take index))
    (hfirst : first (bytes.drop index) = .scalar c) :
    index + (String.utf8EncodeChar c).length ≤ bytes.length ∧
      WellFormed (bytes.take (index + (String.utf8EncodeChar c).length)) := by
  obtain ⟨text, htext⟩ := hwell
  obtain ⟨post, hpost⟩ := first_eq_scalar_iff.mp hfirst
  have hpos : 0 < (String.utf8EncodeChar c).length :=
    length_pos_iff.mpr String.utf8EncodeChar_ne_nil
  have hlen : bytes.length - index = (String.utf8EncodeChar c).length + post.length := by
    rw [← length_drop, hpost, length_append]
  refine ⟨by omega, text ++ [c], ?_⟩
  rw [encode_append, htext, take_add, hpost, take_left, encode_cons, encode_nil, append_nil]

/-- `utf8_valid_len` ends at the end of the longest well-formed beginning. -/
theorem utf8ValidLen_eq (bytes : Bytes) :
    ∃ n, utf8ValidLen bytes = .ok n ∧ LongestAt bytes n := by
  refine turning_ends (fun i => i ≤ bytes.length ∧ WellFormed (bytes.take i)) (LongestAt bytes)
    (fun i => bytes.length - i) (fun i hinv => ?_) ⟨zero_le _, [], rfl⟩ (lt_succ_self _)
  obtain ⟨hle, hwell⟩ := hinv
  by_cases hlt : i < bytes.length
  · obtain ⟨width, hturn, hwidth⟩ := sequenceAt_eq hlt
    rw [utf8ValidLenTurn, if_pos hlt, hturn, ok_bind]
    cases hfirst : first (bytes.drop i) with
    | scalar c =>
      obtain ⟨hin, hnext⟩ := wellFormed_take_add hwell hfirst
      have hpos : 0 < (String.utf8EncodeChar c).length :=
        length_pos_iff.mpr String.utf8EncodeChar_ne_nil
      obtain rfl := hwidth c hfirst
      refine ⟨_, rfl, fun i' hi' => ?_, fun n hn => (nomatch hn)⟩
      obtain rfl : _ = i' := Sum.inl.inj hi'
      exact ⟨⟨hin, hnext⟩, by omega⟩
    | cut =>
      refine ⟨_, rfl, fun i' hi' => (nomatch hi'), fun n hn => ?_⟩
      obtain rfl : i = n := Sum.inr.inj hn
      exact longestAt_of_take hle hwell fun c hc => by rw [hfirst] at hc; cases hc
    | malformed =>
      refine ⟨_, rfl, fun i' hi' => (nomatch hi'), fun n hn => ?_⟩
      obtain rfl : i = n := Sum.inr.inj hn
      exact longestAt_of_take hle hwell fun c hc => by rw [hfirst] at hc; cases hc
  · obtain rfl : i = bytes.length := by omega
    rw [utf8ValidLenTurn, if_neg hlt]
    refine ⟨_, rfl, fun i' hi' => (nomatch hi'), fun n hn => ?_⟩
    obtain rfl : bytes.length = n := Sum.inr.inj hn
    refine longestAt_of_take le_rfl hwell fun c hc => ?_
    rw [drop_length] at hc
    cases hc

/-- `from_utf8` accepts the bytes, or names what follows their longest well-formed beginning. -/
theorem fromUtf8_eq {n : ℕ} (hlen : utf8ValidLen bytes = .ok n) (hlongest : LongestAt bytes n) :
    fromUtf8 bytes = .ok (if n = bytes.length then .ok bytes
      else if first (bytes.drop n) = .cut then .error (.truncated n)
      else .error (.invalidSequence n)) := by
  rw [fromUtf8, hlen, ok_bind, turning, fromUtf8Turn]
  by_cases hlt : n < bytes.length
  · have hnone : ∀ c, first (bytes.drop n) ≠ .scalar c := by
      intro c hc
      obtain ⟨hin, hnext⟩ := wellFormed_take_add hlongest.2.1 hc
      have hpos : 0 < (String.utf8EncodeChar c).length :=
        length_pos_iff.mpr String.utf8EncodeChar_ne_nil
      have hmost := hlongest.2.2 _ hin hnext
      omega
    obtain ⟨width, hturn, -⟩ := sequenceAt_eq hlt
    rw [if_pos hlt, hturn, ok_bind, if_neg (Nat.ne_of_lt hlt)]
    cases hfirst : first (bytes.drop n) with
    | scalar c => exact absurd hfirst (hnone c)
    | cut => rfl
    | malformed => rfl
  · rw [if_neg hlt, if_pos (Nat.le_antisymm hlongest.1 (Nat.le_of_not_lt hlt))]

end Decoding

/-! ### Cursors -/

section Cursors

variable {before : Bytes} {c : Char} {text : List Char}

/-- The offsets of the characters of a text, from that of the first on. -/
def indexed (start : ℕ) : List Char → List (ℕ × Char)
  | [] => []
  | c :: text => (start, c) :: indexed (start + (String.utf8EncodeChar c).length) text

theorem scalarEndFrom_eq (before : Bytes) (text : List Char) {rest : Bytes} (hrest : ∀ b ∈ rest, Continues b) :
    scalarEndFrom (before ++ rest ++ encode text) before.length =
      .ok (before.length + rest.length) := by
  induction rest generalizing before with
  | nil =>
    rw [append_nil, scalarEndFrom, length_nil]
    cases hform : encode text with
    | nil => rw [append_nil, dif_neg (lt_irrefl _), add_zero]
    | cons b post =>
      have hhead : (encode text).head? = some b := by
        rw [hform]
        rfl
      have hb : ¬ Continues b := head_encode hhead
      rw [dif_pos (by simp), bytesAt_append, ok_bind,
        if_neg (fun h => hb (continuationByte_iff.mp h))]
      rfl
  | cons b rest ih =>
    have hb := hrest b mem_cons_self
    have hnext := ih (before ++ [b]) fun x hx => hrest x (mem_cons_of_mem _ hx)
    rw [append_assoc, append_assoc, singleton_append] at hnext
    rw [append_assoc, cons_append, scalarEndFrom, dif_pos (by simp), bytesAt_append, ok_bind,
      if_pos (continuationByte_iff.mpr hb)]
    rw [length_append, length_singleton] at hnext
    rw [hnext, length_cons, add_assoc, add_comm 1]

theorem scalarAtFrom_eq (before post : Bytes) {rest : Bytes} {start width index point : ℕ}
    (hrest : ∀ b ∈ rest, Continues b) (hbefore : before.length = start + index)
    (hwidth : width = index + rest.length) (hpoint : (point + 1) * 64 ^ rest.length ≤ 2097152) :
    scalarAtFrom (before ++ rest ++ post) start width index point =
      .ok (valueOf point rest : ℤ) := by
  induction rest generalizing before index point with
  | nil =>
    rw [scalarAtFrom, dif_neg (by simp [hwidth]), valueOf_nil]
  | cons b rest ih =>
    have hb := hrest b mem_cons_self
    rw [length_cons] at hwidth hpoint
    have hstep := @ih (before ++ [b]) (index + 1) (point * 64 + b.toNat - 128)
      (fun x hx => hrest x (mem_cons_of_mem _ hx)) (by simp [hbefore, add_assoc])
      (by omega) (room_extend hb hpoint)
    rw [append_assoc before, singleton_append] at hstep
    rw [scalarAtFrom, dif_pos (by omega), ← hbefore, append_assoc before, cons_append,
      bytesAt_append, ok_bind, extend_eq (small_of_room hpoint) hb, ok_bind, ← cons_append,
      ← append_assoc, hstep, valueOf_cons]

theorem length_utf8EncodeChar_pos : 0 < (String.utf8EncodeChar c).length :=
  length_pos_iff.mpr String.utf8EncodeChar_ne_nil

/-- `scalar_end` of a scalar's start is the end of its form. -/
theorem scalarEnd_eq :
    scalarEnd (before ++ String.utf8EncodeChar c ++ encode text) before.length =
      .ok (before.length + (String.utf8EncodeChar c).length) := by
  obtain ⟨b, rest, hform, hrest, -⟩ := exists_form c
  have hrun := scalarEndFrom_eq (before ++ [b]) text hrest
  rw [append_assoc before, singleton_append, length_append, length_singleton] at hrun
  rw [scalarEnd, hform, hrun, length_cons, add_assoc, add_comm 1]

/-- `scalar_at` of a scalar's start is the scalar. -/
theorem scalarAt_eq {post : Bytes} :
    scalarAt (before ++ String.utf8EncodeChar c ++ post) before.length = .ok (c.toNat : ℤ) := by
  obtain ⟨b, rest, hform, hrest, hb⟩ := exists_form c
  have hread : bytesAt (before ++ (b :: rest) ++ post) before.length = .ok b := by
    rw [append_assoc, cons_append, bytesAt_append]
  rw [hform, scalarAt, hread, ok_bind]
  obtain ⟨hlow, -, hval⟩ | ⟨n, point, lowest, hlead, hlen, hval⟩ := hb
  · rw [if_pos (by unfold i32Of; omega), i32Of, hval]
    rfl
  · have hrun : ∀ width, width = 1 + n → (point + 1) * 64 ^ n ≤ 2097152 →
        scalarAtFrom (before ++ (b :: rest) ++ post) before.length width 1 point =
          .ok (c.toNat : ℤ) := by
      intro width hwidth hpoint
      have hlength : (before ++ [b]).length = before.length + 1 := length_append
      have hsize : width = 1 + rest.length := by rw [hwidth, hlen]
      have hat := scalarAtFrom_eq (before ++ [b]) post hrest hlength hsize (hlen ▸ hpoint)
      rwa [append_assoc before, singleton_append, hval] at hat
    obtain ⟨hlow, hhigh, rfl, hpoint, -⟩ | ⟨hlow, hhigh, rfl, hpoint, -⟩ |
      ⟨hlow, hhigh, rfl, hpoint, -⟩ := lead_eq_some_iff.mp hlead
    · have hsub : i32Of b - 192 = (point : ℤ) := by unfold i32Of; omega
      rw [if_neg (by unfold i32Of; omega), if_pos (by unfold i32Of; omega), hsub,
        checked_eq (holds_i32_iff.mpr (by omega)), ok_bind]
      exact hrun 2 rfl (by omega)
    · have hsub : i32Of b - 224 = (point : ℤ) := by unfold i32Of; omega
      rw [if_neg (by unfold i32Of; omega), if_neg (by unfold i32Of; omega),
        if_pos (by unfold i32Of; omega), hsub, checked_eq (holds_i32_iff.mpr (by omega)), ok_bind]
      exact hrun 3 rfl (by omega)
    · have hsub : i32Of b - 240 = (point : ℤ) := by unfold i32Of; omega
      rw [if_neg (by unfold i32Of; omega), if_neg (by unfold i32Of; omega),
        if_neg (by unfold i32Of; omega), hsub, checked_eq (holds_i32_iff.mpr (by omega)), ok_bind]
      exact hrun 4 rfl (by omega)

theorem charFromScalar_eq (c : Char) : charFromScalar (u32Of (c.toNat : ℤ)) = some c := by
  have hc := toNat_lt c
  have hcast : u32Of (c.toNat : ℤ) = c.toNat := by
    unfold u32Of
    omega
  rw [hcast, charFromScalar, if_pos (isValidChar_toNat c), Char.ofNat_toNat]

/-- A turn of `chars` gives the character at the cursor, and moves it behind. -/
theorem next_eq : Chars.next ⟨before ++ String.utf8EncodeChar c ++ encode text, before.length⟩ =
    .ok (some c, ⟨before ++ String.utf8EncodeChar c ++ encode text,
      before.length + (String.utf8EncodeChar c).length⟩) := by
  have hpos := length_utf8EncodeChar_pos (c := c)
  have hlt : ¬ before.length ≥ (before ++ String.utf8EncodeChar c ++ encode text).length := by
    simp only [length_append]
    omega
  rw [Chars.next, if_neg hlt, scalarAt_eq, ok_bind, scalarEnd_eq, ok_bind, charFromScalar_eq]
  rfl

theorem nextIndexed_eq :
    Chars.nextIndexed ⟨before ++ String.utf8EncodeChar c ++ encode text, before.length⟩ =
      .ok (some (before.length, c), ⟨before ++ String.utf8EncodeChar c ++ encode text,
        before.length + (String.utf8EncodeChar c).length⟩) := by
  have hpos := length_utf8EncodeChar_pos (c := c)
  have hlt : ¬ before.length ≥ (before ++ String.utf8EncodeChar c ++ encode text).length := by
    simp only [length_append]
    omega
  rw [Chars.nextIndexed, if_neg hlt]
  dsimp only
  rw [scalarEnd_eq, ok_bind, scalarAt_eq, ok_bind, charFromScalar_eq]
  rfl

/-- A cursor over the form of a text, whose turns give what `items` says, collects all of it. -/
theorem collect_eq {α : Type} (next : Chars → Except Stop (Option α × Chars)) (item : ℕ → Char → α)
    (hnext : ∀ before c text,
      next ⟨before ++ String.utf8EncodeChar c ++ encode text, before.length⟩ =
        .ok (some (item before.length c), ⟨before ++ String.utf8EncodeChar c ++ encode text,
          before.length + (String.utf8EncodeChar c).length⟩))
    (hnone : ∀ bytes, next ⟨bytes, bytes.length⟩ = .ok (none, ⟨bytes, bytes.length⟩))
    (before : Bytes) {turns : ℕ} (hturns : (encode text).length < turns) :
    collect next turns ⟨before ++ encode text, before.length⟩ =
      .ok ((indexed before.length text).map fun p => item p.1 p.2) := by
  induction text generalizing before turns with
  | nil =>
    obtain ⟨turns, rfl⟩ : ∃ t, turns = t + 1 := ⟨turns - 1, by omega⟩
    rw [encode_nil, append_nil, collect, hnone]
    rfl
  | cons c text ih =>
    obtain ⟨turns, rfl⟩ : ∃ t, turns = t + 1 := ⟨turns - 1, by omega⟩
    have hpos := length_utf8EncodeChar_pos (c := c)
    have hless : (encode text).length < turns := by
      rw [encode_cons, length_append] at hturns
      omega
    have hmore := ih (before ++ String.utf8EncodeChar c) hless
    rw [length_append] at hmore
    rw [encode_cons, ← append_assoc, collect, hnext, ok_bind]
    show (do return item before.length c :: (← collect next turns _)) = _
    rw [hmore]
    rfl

theorem map_snd_indexed (start : ℕ) (text : List Char) :
    (indexed start text).map (fun p => p.2) = text := by
  induction text generalizing start with
  | nil => rfl
  | cons c text ih => rw [indexed, map_cons, ih]

theorem chars_encode (text : List Char) : chars (encode text) = .ok text := by
  have hrun := collect_eq Chars.next (fun _ c => c) (fun _ _ _ => next_eq)
    (fun bytes => if_pos le_rfl) [] (lt_succ_self (encode text).length)
  rwa [map_snd_indexed] at hrun

theorem charIndices_encode (text : List Char) :
    charIndices (encode text) = .ok (indexed 0 text) := by
  have hrun := collect_eq Chars.nextIndexed (fun i c => (i, c)) (fun _ _ _ => nextIndexed_eq)
    (fun bytes => if_pos le_rfl) [] (lt_succ_self (encode text).length)
  rwa [map_id'] at hrun

end Cursors

/-! ### Encoding -/

section Encoding

variable {c : Char} {text : List Char} {before after room : Bytes}

theorem charWidth_eq (c : Char) : charWidth c = (String.utf8EncodeChar c).length := by
  rw [charWidth]
  split_ifs with h1 h2 h3
  · rw [utf8EncodeChar_one h1]
    rfl
  · rw [utf8EncodeChar_two (by omega) h2]
    rfl
  · rw [utf8EncodeChar_three (by omega) h3]
    rfl
  · rw [utf8EncodeChar_four (by omega)]
    rfl

theorem pushChar_eq (bytes : Bytes) (c : Char) :
    pushChar bytes c = bytes ++ String.utf8EncodeChar c := by
  rw [pushChar]
  split_ifs with h1 h2 h3
  · rw [utf8EncodeChar_one h1]
    rfl
  · rw [utf8EncodeChar_two (by omega) h2, append_assoc]
    rfl
  · rw [utf8EncodeChar_three (by omega) h3, append_assoc, append_assoc]
    rfl
  · rw [utf8EncodeChar_four (by omega), append_assoc, append_assoc, append_assoc]
    rfl

theorem foldl_pushChar (text : List Char) (bytes : Bytes) :
    text.foldl pushChar bytes = bytes ++ encode text := by
  induction text generalizing bytes with
  | nil => rw [foldl_nil, encode_nil, append_nil]
  | cons c text ih => rw [foldl_cons, ih, pushChar_eq, append_assoc, encode_cons]

theorem storeU8_eq (before after : Bytes) (old byte : UInt8) :
    storeU8 (before ++ old :: after) before.length byte = .ok (before ++ byte :: after) := by
  rw [storeU8, if_pos (by simp), set_append_right _ _ le_rfl, Nat.sub_self]
  rfl

theorem storeU8_add (done : Bytes) (old byte : UInt8) {k : ℕ} (hk : k = done.length) :
    storeU8 (before ++ (done ++ old :: after)) (before.length + k) byte =
      .ok (before ++ (done ++ byte :: after)) := by
  have hstore := storeU8_eq (before ++ done) after old byte
  rwa [append_assoc, append_assoc, length_append, ← hk] at hstore

theorem storeU8_second (a old byte : UInt8) :
    storeU8 (before ++ a :: old :: after) (before.length + 1) byte =
      .ok (before ++ a :: byte :: after) := storeU8_add [a] old byte rfl

theorem storeU8_third (a b old byte : UInt8) :
    storeU8 (before ++ a :: b :: old :: after) (before.length + 2) byte =
      .ok (before ++ a :: b :: byte :: after) := storeU8_add [a, b] old byte rfl

theorem storeU8_fourth (a b c old byte : UInt8) :
    storeU8 (before ++ a :: b :: c :: old :: after) (before.length + 3) byte =
      .ok (before ++ a :: b :: c :: byte :: after) := storeU8_add [a, b, c] old byte rfl

/-- `write_char_sized` fills exactly the `char_width` bytes of its room. -/
theorem writeCharSized_eq (before after : Bytes) (hroom : room.length = charWidth c) :
    writeCharSized (before ++ room ++ after) c before.length =
      .ok (before ++ String.utf8EncodeChar c ++ after) := by
  rw [charWidth_eq] at hroom
  rw [writeCharSized, append_assoc, append_assoc]
  split_ifs with h1 h2 h3
  · rw [utf8EncodeChar_one h1] at hroom ⊢
    obtain ⟨x, rfl⟩ := length_eq_one_iff.mp hroom
    exact storeU8_eq before after x _
  · rw [utf8EncodeChar_two (by omega) h2] at hroom ⊢
    obtain ⟨x, y, rfl⟩ := length_eq_two.mp hroom
    rw [cons_append, storeU8_eq, ok_bind]
    exact storeU8_second _ y _
  · rw [utf8EncodeChar_three (by omega) h3] at hroom ⊢
    obtain ⟨x, y, z, rfl⟩ := length_eq_three.mp hroom
    rw [cons_append, storeU8_eq, ok_bind]
    rw [cons_append, storeU8_second, ok_bind]
    exact storeU8_third _ _ z _
  · rw [utf8EncodeChar_four (by omega)] at hroom ⊢
    obtain ⟨x, y, z, w, rfl⟩ := length_eq_four.mp hroom
    rw [cons_append, storeU8_eq, ok_bind]
    rw [cons_append, storeU8_second, ok_bind]
    rw [cons_append, storeU8_third, ok_bind]
    exact storeU8_fourth _ _ _ w _

/-- The characters written one after another are the form of the text. -/
theorem writeChars_eq (before : Bytes) (hroom : room.length = (text.map charWidth).sum) :
    writeChars (before ++ room ++ after) before.length text =
      .ok (before ++ encode text ++ after) := by
  induction text generalizing before room with
  | nil =>
    obtain rfl : room = [] := eq_nil_of_length_eq_zero hroom
    rfl
  | cons c text ih =>
    rw [map_cons, sum_cons] at hroom
    have htake : (room.take (charWidth c)).length = charWidth c := by
      rw [length_take]
      omega
    have hdrop : (room.drop (charWidth c)).length = (text.map charWidth).sum := by
      rw [length_drop]
      omega
    have hfill := writeCharSized_eq before (room.drop (charWidth c) ++ after) htake
    have hrest := ih (before ++ String.utf8EncodeChar c) hdrop
    rw [← append_assoc, append_assoc before, take_append_drop] at hfill
    rw [length_append, ← charWidth_eq] at hrest
    rw [writeChars, hfill, ok_bind, ← append_assoc, hrest, encode_cons, ← append_assoc]

end Encoding

/-! ### Decoding and encoding together -/

/-- `from_utf8` accepts exactly the well-formed bytes; otherwise its error names the end of the
longest well-formed beginning, as `utf8_valid_len` does, and says whether the bytes end inside a
sequence. On the form of a text the cursors give its characters and their offsets, and pushing or
writing them gives the form. -/
theorem fromUtf8_exact (bytes : Bytes) :
    (∃ n, utf8ValidLen bytes = .ok n ∧ LongestAt bytes n ∧
      (WellFormed bytes → fromUtf8 bytes = .ok (.ok bytes)) ∧
      (¬ WellFormed bytes → EndsInside (bytes.drop n) →
        fromUtf8 bytes = .ok (.error (.truncated n))) ∧
      (¬ WellFormed bytes → ¬ EndsInside (bytes.drop n) →
        fromUtf8 bytes = .ok (.error (.invalidSequence n)))) ∧
    ∀ text, encode text = bytes →
      chars bytes = .ok text ∧ charIndices bytes = .ok (indexed 0 text) ∧
      text.foldl pushChar [] = bytes ∧
      ∀ before room after : Bytes, room.length = (text.map charWidth).sum →
        writeChars (before ++ room ++ after) before.length text = .ok (before ++ bytes ++ after) :=
          by
  constructor
  · obtain ⟨n, hlen, hlongest⟩ := utf8ValidLen_eq bytes
    have hresult := fromUtf8_eq hlen hlongest
    have hrest : ¬ WellFormed bytes → n ≠ bytes.length ∧ bytes.drop n ≠ [] := by
      intro hwell
      have hne : n ≠ bytes.length := fun h => hwell (hlongest.wellFormed_iff.mpr h)
      refine ⟨hne, fun h => ?_⟩
      exact hne (Nat.le_antisymm hlongest.1 (List.drop_eq_nil_iff.mp h))
    refine ⟨n, hlen, hlongest, fun hwell => ?_, fun hwell hinside => ?_, fun hwell hinside => ?_⟩
    · rw [hresult, if_pos (hlongest.wellFormed_iff.mp hwell)]
    · obtain ⟨hne, hdrop⟩ := hrest hwell
      rw [hresult, if_neg hne, if_pos ((first_eq_cut_iff hdrop).mpr hinside)]
    · obtain ⟨hne, hdrop⟩ := hrest hwell
      rw [hresult, if_neg hne, if_neg fun h => hinside ((first_eq_cut_iff hdrop).mp h)]
  · rintro text rfl
    refine ⟨chars_encode text, charIndices_encode text, ?_, fun before room after hroom => ?_⟩
    · rw [foldl_pushChar, List.nil_append]
    · exact writeChars_eq before hroom

end HdLang.Scalars
