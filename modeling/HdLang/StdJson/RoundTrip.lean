import HdLang.Lib.Numerals
import HdLang.StdJson.Render
import Mathlib.Data.Nat.Digits.Lemmas

/-!
# Written values read back

What stands at an offset is said of the rest of the text there (`text.drop i`), so that no proof adds
up lengths. `string_spec` and `number_spec` read a string and a number back, and `render_reads` a
value, by the levels of its nesting.
-/

namespace HdLang.StdJson

open List Ensures Option

variable {F : Type} {E : Stop JsonError → Prop} {text s : Text} {i : ℕ}

/-! ### Where the parser stands -/

theorem nothing {p : UInt8 → Prop} : ∀ byte ∈ ([] : Text), p byte := fun _ h => nomatch h

theorem get_of_drop {byte : UInt8} (h : text.drop i = byte :: s) : text[i]? = some byte := by
  rw [← head?_drop, h, head?_cons]

theorem drop_of_drop {front : Text} (h : text.drop i = front ++ s) :
    text.drop (i + front.length) = s := by
  rw [← drop_drop, h, drop_left]

theorem drop_succ_of_drop {byte : UInt8} (h : text.drop i = byte :: s) : text.drop (i + 1) = s :=
  drop_of_drop (show text.drop i = [byte] ++ s from h)

theorem get_of_drop_nil (h : text.drop i = []) : text[i]? = none := by
  rw [← head?_drop, h, head?_nil]

/-- The whitespace of JSON. -/
def white (byte : UInt8) : Bool := byte == 32 || byte == 9 || byte == 10 || byte == 13

/-- `s` is whitespace alone. -/
def White (s : Text) : Prop := ∀ byte ∈ s, white byte = true

/-- `s` begins with no byte that `p` holds of. -/
def Starts (p : UInt8 → Bool) (s : Text) : Prop := ∀ byte ∈ s.head?, p byte = false

variable {p : UInt8 → Bool} {run : Text}

theorem takeWhile_run (hrun : ∀ byte ∈ run, p byte = true) (hs : Starts p s)
    : (run ++ s).takeWhile p = run := by
  rw [takeWhile_append_of_pos hrun]
  cases s with
  | nil => rw [takeWhile_nil, append_nil]
  | cons byte s => rw [takeWhile_cons_of_neg (by rw [hs byte rfl]; decide), append_nil]

theorem starts_cons {byte : UInt8} (h : white byte = false) : Starts white (byte :: s) :=
  fun _ hb => some.inj hb ▸ h

variable {space : Text}

theorem skipSpace_spec (hspace : White space) (hs : Starts white s) (h : text.drop i = space ++ s) :
    Ensures E (skipSpace text) (fun _ j => text.drop j = s) i := by
  refine Ensures.modify_iff.mpr ?_
  show text.drop (i + ((text.drop i).takeWhile white).length) = s
  rw [h, takeWhile_run hspace hs]
  exact drop_of_drop h

/-- Past any whitespace, and on with the offset. -/
theorem space_spec {α : Type} {f : ℕ → StateT ℕ (Except (Stop JsonError)) α} {Q : α → ℕ → Prop}
    (hspace : White space) (hs : Starts white s) (h : text.drop i = space ++ s)
    (hf : ∀ j, text.drop j = s → Ensures E (f j) Q j) :
    Ensures E (do skipSpace text; let index ← get; f index) Q i :=
  bind_iff.mpr ((skipSpace_spec hspace hs h).mono fun _ j hj => bind_iff.mpr (get_iff.mpr (hf j hj)))

theorem set_pure {α : Type} {a : α} {Q : α → ℕ → Prop} {j : ℕ} (h : Q a j) :
    Ensures E (do set j; return a) Q i :=
  bind_iff.mpr (set_iff.mpr (pure_iff.mpr h))

variable {literal : Text}

theorem wordFrom_eq (h : text.drop i = literal ++ s) :
    wordFrom text literal i = .ok (i + literal.length) := by
  induction literal generalizing i with
  | nil => rfl
  | cons byte literal ih =>
    rw [wordFrom, if_pos (get_of_drop h), ih (drop_succ_of_drop h), length_cons, Nat.add_assoc,
      Nat.add_comm 1]

theorem word_spec {value : Json F} (h : text.drop i = literal ++ s) :
    Ensures E (word text literal value) (fun found j => found = value ∧ text.drop j = s) i := by
  rw [word, bind_iff, get_iff, wordFrom_eq h]
  exact set_pure ⟨rfl, drop_of_drop h⟩

/-! ### Strings -/

/-- `s` has no special byte. -/
def Plain (s : Text) : Prop := ∀ byte ∈ s, special byte = false

/-- The text of a byte inside a string. -/
def escaped (byte : UInt8) : Text := if special byte then escapeText byte else [byte]

theorem bytesIndexJson_run (hrun : Plain run) (hs : ∀ byte ∈ s.head?, special byte = true)
    (h : text.drop i = run ++ s) :
    bytesIndexJson text i = i + run.length := by
  rw [bytesIndexJson, h]
  clear h
  induction run with
  | nil =>
    cases s with
    | nil => rfl
    | cons byte s => rw [nil_append, findIdx_cons, hs byte rfl]; rfl
  | cons byte run ih =>
    obtain ⟨hbyte, hrest⟩ := forall_mem_cons.mp hrun
    rw [cons_append, findIdx_cons, hbyte, cond_false, length_cons]
    exact congrArg (· + 1) (ih hrest)

theorem bytesSlice_run (h : text.drop i = run ++ s) :
    bytesSlice text i (i + run.length) = run := by
  rw [bytesSlice, h, Nat.add_sub_cancel_left, take_left]

theorem hexValue_symbols (byte : UInt8) (h : byte < 32) :
    hexValue (hexSymbol (byte >>> 4)).toNat = (byte.toNat / 16 : ℕ) ∧
      hexValue (hexSymbol (byte &&& 15)).toNat = (byte.toNat % 16 : ℕ) := by
  have hall : ∀ n < 32, hexValue (hexSymbol (UInt8.ofNat n >>> 4)).toNat = (n / 16 : ℕ) ∧
      hexValue (hexSymbol (UInt8.ofNat n &&& 15)).toNat = (n % 16 : ℕ) := by decide
  have := hall byte.toNat h
  rwa [UInt8.ofNat_toNat] at this

variable {byte : UInt8}

theorem hexFrom_digit (offset : ℕ) {left digit : ℕ} {value : ℤ}
    (hget : text[i + offset]? = some byte) (hdigit : hexValue byte.toNat = digit) :
    hexFrom text i (left + 1) offset value =
      hexFrom text i left (offset + 1) (value * 16 + digit) := by
  rw [hexFrom, hget]
  show (if hexValue byte.toNat < 0 then _ else _ : ℤ) = _
  rw [hdigit, if_neg (not_lt.mpr digit.cast_nonneg)]

/-- The four digits of an escaped control character. -/
theorem hex4_eq (hbyte : byte < 32)
    (h : text.drop i = [48, 48, hexSymbol (byte >>> 4), hexSymbol (byte &&& 15)] ++ s) :
    hex4 text i = byte.toNat := by
  obtain ⟨hhigh, hlow⟩ := hexValue_symbols byte hbyte
  have h₁ := drop_succ_of_drop h
  have h₂ := drop_succ_of_drop h₁
  have hzero : hexValue (48 : UInt8).toNat = (0 : ℕ) := rfl
  rw [hex4, hexFrom_digit 0 (get_of_drop h) hzero, hexFrom_digit 1 (get_of_drop h₁) hzero,
    hexFrom_digit 2 (get_of_drop h₂) hhigh,
    hexFrom_digit 3 (get_of_drop (drop_succ_of_drop h₂)) hlow, hexFrom]
  omega

/-- `escapeText` of a special byte, read by `escape`. -/
theorem escape_spec (hbyte : special byte = true) (h : text.drop i = escapeText byte ++ s) :
    ∃ symbol next, text[i]? = some 92 ∧ text[i + 1]? = some symbol ∧
      escape text i symbol = .ok ([byte], next) ∧ text.drop next = s := by
  have hpair : ∀ symbol, escapeText byte = [92, symbol] →
      escape text i symbol = .ok ([byte], i + 2) →
      ∃ symbol next, text[i]? = some 92 ∧ text[i + 1]? = some symbol ∧
        escape text i symbol = .ok ([byte], next) ∧ text.drop next = s := by
    intro symbol htext hescape
    rw [htext] at h
    exact ⟨symbol, i + 2, get_of_drop h, get_of_drop (drop_succ_of_drop h), hescape, drop_of_drop h⟩
  by_cases hshort : byte ∈ [34, 92, 8, 12, 10, 13, 9]
  · simp only [mem_cons, not_mem_nil, or_false] at hshort
    obtain rfl | rfl | rfl | rfl | rfl | rfl | rfl := hshort
    · exact hpair 34 rfl rfl
    · exact hpair 92 rfl rfl
    · exact hpair 98 rfl rfl
    · exact hpair 102 rfl rfl
    · exact hpair 110 rfl rfl
    · exact hpair 114 rfl rfl
    · exact hpair 116 rfl rfl
  · -- any other special byte is a control character
    have hcontrol : byte < 32 := by
      simp only [special, Bool.or_eq_true, beq_iff_eq, decide_eq_true_eq] at hbyte
      simp only [mem_cons, not_or] at hshort
      tauto
    have htext : escapeText byte =
        ([92, 117] : Text) ++ [48, 48, hexSymbol (byte >>> 4), hexSymbol (byte &&& 15)] := by
      simp only [mem_cons, not_mem_nil, or_false, not_or] at hshort
      simp [escapeText, hshort]
    rw [htext, append_assoc] at h
    have hdigits := drop_of_drop h
    have hhex : hex4 text (i + 2) = byte.toNat := hex4_eq hcontrol hdigits
    have hlt : byte.toNat < 32 := hcontrol
    refine ⟨117, i + 2 + 4, get_of_drop h, get_of_drop (drop_succ_of_drop h), ?_,
      drop_of_drop hdigits⟩
    have hself : scalarText byte.toNat = [byte] := by
      rw [scalarText, if_pos (by omega)]
      exact congrArg (fun b => [b]) (UInt8.ofNat_toNat (x := byte))
    unfold escape
    simp only [hhex]
    rw [if_neg (by decide), if_neg (by decide), if_neg (by decide), if_neg (by decide),
      if_neg (by decide), if_neg (by decide), if_neg (by decide), if_neg (by decide),
      if_pos trivial, if_neg (by omega), if_neg (by omega), if_neg (by omega),
      if_neg (by omega), Int.toNat_natCast, hself]

theorem escapeText_head (byte : UInt8) : ∃ rest, escapeText byte = 92 :: rest := by
  unfold escapeText
  repeat' split
  all_goals exact ⟨_, rfl⟩

variable {t : Text}

/-- A run and what is left of a string, one byte further. -/
theorem run_next (hbyte : special byte = false) (hrun : Plain run) :
    Plain (run ++ [byte]) ∧
      run ++ ((byte :: t).flatMap escaped ++ s) = (run ++ [byte]) ++ (t.flatMap escaped ++ s) := by
  constructor
  · intro b hb
    obtain hb | hb := mem_append.mp hb
    · exact hrun b hb
    · rwa [mem_singleton.mp hb]
  · rw [flatMap_cons, escaped, if_neg (by rw [hbyte]; decide)]
    simp only [append_assoc]

variable {fuel plain index : ℕ}

/-- The loop reads what is left of a string, `run` of it passed already. -/
theorem escapedFrom_spec {parts : Text} {k : ℕ} (hrun : Plain run)
    (h : text.drop plain = run ++ (t.flatMap escaped ++ 34 :: s))
    (hindex : bytesIndexJson text index = bytesIndexJson text plain) (hfuel : t.length < fuel) :
    Ensures E (escapedFrom text fuel parts plain index)
      (fun found j => found = parts ++ run ++ t ∧ text.drop j = s) k := by
  induction t generalizing run parts fuel plain index with
  | nil =>
    obtain ⟨fuel, rfl⟩ := Nat.exists_eq_succ_of_ne_zero (Nat.ne_of_gt hfuel)
    have hstop := bytesIndexJson_run (s := 34 :: s) hrun (fun byte hb => some.inj hb ▸ rfl) h
    have hquote := drop_of_drop h
    rw [escapedFrom, hindex, hstop]
    rw [get_of_drop hquote]
    show Ensures E (if (34 : UInt8) = 34 then _ else _) _ _
    rw [if_pos rfl, bytesSlice_run h]
    exact set_pure ⟨by rw [append_nil], drop_succ_of_drop hquote⟩
  | cons byte t ih =>
    rw [length_cons] at hfuel
    cases hbyte : special byte with
    | false =>
      obtain ⟨hrun', heq⟩ := run_next (s := 34 :: s) (t := t) hbyte hrun
      rw [heq] at h
      refine (ih hrun' h hindex (by omega)).mono fun found j hfound => ⟨?_, hfound.2⟩
      rw [hfound.1]
      simp only [append_assoc, singleton_append]
    | true =>
      obtain ⟨fuel, rfl⟩ := Nat.exists_eq_succ_of_ne_zero (Nat.ne_of_gt (Nat.zero_lt_of_lt hfuel))
      rw [flatMap_cons, escaped, if_pos hbyte, append_assoc] at h
      obtain ⟨rest, hrest⟩ := escapeText_head byte
      have hstop := bytesIndexJson_run hrun (fun b hb => by
        rw [hrest] at hb
        exact some.inj hb ▸ rfl) h
      obtain ⟨symbol, next, hslash, hsymbol, hescape, hnext⟩ := escape_spec hbyte (drop_of_drop h)
      rw [escapedFrom, hindex, hstop]
      rw [hslash]
      show Ensures E (if (92 : UInt8) = 34 then _ else if (92 : UInt8) < 32 then _ else _) _ _
      rw [if_neg (by decide), if_neg (by decide), hsymbol]
      dsimp only
      rw [hescape, bytesSlice_run h]
      refine (ih nothing hnext rfl (by omega)).mono fun found j hfound => ⟨?_, hfound.2⟩
      rw [hfound.1]
      simp only [append_assoc, singleton_append]

theorem length_le_escaped (t : Text) : t.length ≤ (t.flatMap escaped).length := by
  induction t with
  | nil => exact Nat.le_refl _
  | cons byte t ih =>
    have hpos : 0 < (escaped byte).length := by
      unfold escaped
      obtain ⟨rest, hrest⟩ := escapeText_head byte
      split
      · rw [hrest]
        exact Nat.succ_pos _
      · exact Nat.one_pos
    rw [flatMap_cons, length_append, length_cons]
    omega

/-- The first special byte of a string ends it or begins an escape. -/
theorem first_special (hrun : Plain run)
    (h : text.drop plain = run ++ (t.flatMap escaped ++ 34 :: s)) :
    text[bytesIndexJson text plain]? = some 34 ∨ text[bytesIndexJson text plain]? = some 92 := by
  induction t generalizing run with
  | nil =>
    rw [bytesIndexJson_run hrun (fun byte (hb : byte ∈ (34 :: s).head?) =>
      some.inj hb ▸ rfl) h]
    exact .inl (get_of_drop (drop_of_drop h))
  | cons byte t ih =>
    cases hbyte : special byte with
    | false =>
      obtain ⟨hrun', heq⟩ := run_next (s := 34 :: s) (t := t) hbyte hrun
      exact ih hrun' (h.trans heq)
    | true =>
      obtain ⟨rest, hrest⟩ := escapeText_head byte
      rw [flatMap_cons, escaped, if_pos hbyte, hrest] at h
      rw [bytesIndexJson_run hrun (fun byte (hb : byte ∈ (92 :: _).head?) =>
        some.inj hb ▸ rfl) h]
      exact .inr (get_of_drop (drop_of_drop h))

theorem string_spec (h : text.drop i = 34 :: (t.flatMap escaped ++ 34 :: s)) :
    Ensures E (string text) (fun found j => found = t ∧ text.drop j = s) i := by
  have hstart : text.drop (i + 1) = [] ++ (t.flatMap escaped ++ 34 :: s) := drop_succ_of_drop h
  have hnone : ∀ b ∈ ([] : Text), special b = false := fun _ hb => by cases hb
  have hlen : t.length < text.length + 1 := by
    have hle := length_le_escaped t
    have hdrop := congrArg length hstart
    rw [length_drop, nil_append, length_append] at hdrop
    omega
  rw [string, bind_iff, get_iff]
  dsimp only
  obtain hbyte | hbyte := first_special hnone hstart
  · have hloop : Ensures E (escapedFrom text (text.length + 1) [] (i + 1) (i + 1))
        (fun found j => found = t ∧ text.drop j = s) i := escapedFrom_spec hnone hstart rfl hlen
    rw [escapedFrom] at hloop
    simp only [hbyte] at hloop ⊢
    exact hloop
  · rw [hbyte]
    refine escapedFrom_spec hnone hstart ?_ hlen
    obtain ⟨hlt, hslash⟩ := List.getElem?_eq_some_iff.mp hbyte
    have hdrop := drop_eq_getElem_cons hlt
    rw [hslash] at hdrop
    exact bytesIndexJson_run hnone (fun byte (hb : byte ∈ (92 :: _).head?) =>
      some.inj hb ▸ rfl) hdrop

/-! ### Writing strings -/

theorem escapeRuns_spec {out : Text} (hrun : Plain run) (h : text.drop plain = run ++ t)
    (hfuel : t.length < fuel) :
    (escapeRuns text fuel out plain (bytesIndexJson text plain)).1 ++
        text.drop (escapeRuns text fuel out plain (bytesIndexJson text plain)).2 =
      out ++ run ++ t.flatMap escaped := by
  induction t generalizing run out fuel plain with
  | nil =>
    obtain ⟨fuel, rfl⟩ := Nat.exists_eq_succ_of_ne_zero (Nat.ne_of_gt hfuel)
    rw [bytesIndexJson_run hrun (fun b (hb : b ∈ ([] : Text).head?) => nomatch hb) h, escapeRuns,
      get_of_drop_nil (drop_of_drop h)]
    rw [h, flatMap_nil, append_assoc]
  | cons byte t ih =>
    rw [length_cons] at hfuel
    cases hbyte : special byte with
    | false =>
      obtain ⟨hrun', heq⟩ := run_next (s := []) (t := t) hbyte hrun
      rw [ih hrun' (by rw [h, append_assoc, singleton_append]) (by omega)]
      rw [append_nil, append_nil] at heq
      rw [append_assoc, ← heq, append_assoc]
    | true =>
      obtain ⟨fuel, rfl⟩ := Nat.exists_eq_succ_of_ne_zero (Nat.ne_of_gt (Nat.zero_lt_of_lt hfuel))
      rw [bytesIndexJson_run hrun (fun b (hb : b ∈ (byte :: t).head?) =>
          some.inj hb ▸ hbyte) h, escapeRuns,
        get_of_drop (drop_of_drop h)]
      have hout : (if plain + run.length > plain then
          out ++ bytesSlice text plain (plain + run.length) else out) = out ++ run := by
        rw [bytesSlice_run h]
        split
        · rfl
        · next hempty => rw [eq_nil_of_length_eq_zero (by omega : run.length = 0), append_nil]
      dsimp only
      rw [hout, ih nothing (drop_succ_of_drop (drop_of_drop h))
        (by omega), flatMap_cons, escaped, if_pos hbyte, append_nil]
      simp only [append_assoc]

theorem pushEscaped_eq (out t : Text) : pushEscaped out t = out ++ t.flatMap escaped := by
  have h : (escapeRuns t (t.length + 1) out 0 (bytesIndexJson t 0)).1 ++
      t.drop (escapeRuns t (t.length + 1) out 0 (bytesIndexJson t 0)).2 =
      out ++ [] ++ t.flatMap escaped :=
    escapeRuns_spec nothing rfl (Nat.lt_succ_self _)
  rw [append_nil] at h
  rw [← h, pushEscaped]
  obtain ⟨written, plain⟩ := escapeRuns t (t.length + 1) out 0 (bytesIndexJson t 0)
  dsimp only
  split
  · next hzero =>
    rw [hzero, drop_zero]
    split
    · rfl
    · next hempty => rw [eq_nil_of_length_eq_zero (by omega : t.length = 0), append_nil]
  · split
    · rw [bytesSlice, take_of_length_le (by rw [length_drop])]
    · next hend => rw [drop_of_length_le (by omega), append_nil]

theorem pushQuoted_eq (out t : Text) :
    pushQuoted out t = out ++ 34 :: (t.flatMap escaped ++ [34]) := by
  rw [pushQuoted, pushEscaped_eq, append_assoc, append_assoc]
  rfl

/-! ### Numbers -/

/-- The symbol of a digit. -/
def symbol (digit : ℕ) : UInt8 := (48 + digit).toUInt8

theorem toNat_symbol {digit : ℕ} (h : digit < 10) : (symbol digit).toNat = 48 + digit :=
  Nat.mod_eq_of_lt (by omega)

theorem isDigit_symbol {digit : ℕ} (h : digit < 10) : isDigit (symbol digit) = true := by
  have hall : ∀ d < 10, isDigit (symbol d) = true := by decide
  exact hall digit h

theorem value_le_append (front back : List ℕ) :
    Positional.value 10 front ≤ Positional.value 10 (front ++ back) := by
  rw [Positional.value_append]
  exact (Nat.le_mul_of_pos_right _ (Nat.pow_pos (by decide))).trans (Nat.le_add_right _ _)

/-- Digits that write a `u64`, some of them read already. -/
theorem wholeDigits_eq {front back : List ℕ} (hback : ∀ d ∈ back, d < 10) (hs : Starts isDigit s)
    (hfits : Positional.value 10 (front ++ back) ≤ u64Max) :
    wholeDigits (back.map symbol ++ s) i (Positional.value 10 front) false =
      (i + back.length, Positional.value 10 (front ++ back), false) := by
  induction back generalizing front i with
  | nil =>
    rw [map_nil, nil_append, append_nil]
    cases s with
    | nil => rfl
    | cons byte s => rw [wholeDigits, hs byte rfl]; rfl
  | cons d back ih =>
    obtain ⟨hd, hback⟩ := forall_mem_cons.mp hback
    have hnext : Positional.value 10 front * 10 + d = Positional.value 10 (front ++ [d]) :=
      (Positional.value_concat d).symm
    have hsplit : front ++ d :: back = (front ++ [d]) ++ back := by simp
    have hle := value_le_append (front ++ [d]) back
    rw [hsplit] at hfits ⊢
    rw [map_cons, cons_append, wholeDigits, if_pos (isDigit_symbol hd)]
    show (if _ > (u64Max - ((symbol d).toNat - 48)) / 10 then _ else _ : ℕ × ℕ × Bool) = _
    rw [toNat_symbol hd, Nat.add_sub_cancel_left, if_neg (by omega), hnext, ih hback hfits,
      length_cons, Nat.add_assoc, Nat.add_comm 1]

/-- The text ends, or a comma, a bracket or a new line comes, as behind every value. -/
def Ends (s : Text) : Prop := ∀ byte ∈ s.head?, byte ∈ ([44, 93, 125, 10] : Text)

theorem Ends.starts (h : Ends s) (hp : ∀ byte ∈ ([44, 93, 125, 10] : Text), p byte = false)
    : Starts p s :=
  fun byte hbyte => hp byte (h byte hbyte)

theorem digits_lt (n : ℕ) : ∀ d ∈ (digits n).reverse, d < 10 := by
  intro d hd
  rw [mem_reverse, digits] at hd
  split at hd
  · rw [mem_singleton.mp hd]
    decide
  · exact Nat.digits_lt_base (by decide) hd

theorem value_digits (n : ℕ) : Positional.value 10 (digits n).reverse = n := by
  rw [Positional.value, reverse_reverse, digits]
  split
  · next hzero => rw [hzero]; rfl
  · exact Nat.ofDigits_digits 10 n

/-- The first digit, which is 0 in the text of 0 alone. -/
theorem digits_head (n : ℕ) : ∃ d ds, (digits n).reverse = d :: ds ∧ (d = 0 → n = 0) := by
  by_cases hn : n = 0
  · exact ⟨0, [], by rw [hn]; rfl, fun _ => hn⟩
  · have hne := (Nat.digits_ne_nil_iff_ne_zero (b := 10)).mpr hn
    have hlast := Nat.getLast_digit_ne_zero 10 hn
    rw [digits, if_neg hn]
    refine ⟨_, _, (cons_head_tail (by rwa [ne_eq, reverse_eq_nil_iff])).symm, fun hzero => ?_⟩
    rw [head_reverse] at hzero
    exact absurd hzero hlast

variable {n : ℕ}

/-- The whole part of a number is all that is written of an integer. -/
theorem whole_decimal (hn : n ≤ u64Max) (hs : Ends s) (h : text.drop i = decimal n ++ s) :
    whole text i = .ok (i + (decimal n).length, n, false) := by
  have hdecimal : decimal n = (digits n).reverse.map symbol := rfl
  have hvalue : Positional.value 10 ([] ++ (digits n).reverse) = n := value_digits n
  have hdigits :=
    wholeDigits_eq (i := i) (digits_lt n) (hs.starts (by simp [isDigit])) (hvalue.trans_le hn)
  rw [hvalue, ← hdecimal, ← h, Positional.value_nil, ← length_map symbol, ← hdecimal] at hdigits
  obtain ⟨d, ds, hrev, hzero⟩ := digits_head n
  have hd : d < 10 := digits_lt n d (hrev ▸ mem_cons_self)
  have hget : text[i]? = some (symbol d) := by
    rw [hdecimal, hrev] at h
    exact get_of_drop h
  unfold whole
  rw [hget]
  dsimp only
  split
  · next h48 =>
    have hn0 : n = 0 := hzero (by
      have := congrArg UInt8.toNat h48
      rw [toNat_symbol hd] at this
      exact Nat.add_left_cancel this)
    rw [hn0]
    rfl
  · rw [if_pos (isDigit_symbol hd), hdigits]

variable {floats : Floats F}

/-- The text of `f` is that of a number, which reads as `f`. -/
structure ReadsBack (floats : Floats F) (f : F) : Prop where
  head : ∃ byte rest, floats.text f = byte :: rest ∧ (byte = 45 ∨ isDigit byte = true)
  number : ∀ {text s : Text} {i : ℕ}, Ends s → text.drop i = floats.text f ++ s →
    number floats text i = .ok (.float f, i + (floats.text f).length)

/-- A `u64` below zero an `i64`, or a float that reads back. -/
def Number.Fits (floats : Floats F) : Number F → Prop
  | .negative value => -signLimit ≤ value ∧ value < 0
  | .nonNegative value => value ≤ u64Max
  | .float value => ReadsBack floats value

theorem decimal_head (n : ℕ) : ∃ byte rest, decimal n = byte :: rest ∧ isDigit byte = true := by
  obtain ⟨d, ds, hrev, -⟩ := digits_head n
  refine ⟨symbol d, ds.map symbol, ?_, isDigit_symbol (digits_lt n d (hrev ▸ mem_cons_self))⟩
  rw [decimal, hrev]
  rfl

/-- An integer in range, with no fraction and no exponent behind it. -/
theorem number_eq {negative : Bool} {j : ℕ} (hnegative : decide (text[i]? = some 45) = negative)
    (hwhole : whole text (if negative then i + 1 else i) = .ok (j, n, false)) (hs : Ends s)
    (hj : text.drop j = s) (hn : negative = true → n ≤ signLimit ∧ n ≠ 0) :
    number floats text i = .ok (if negative then .fromI64 (-n) else .nonNegative n, j) := by
  have hne : ∀ {byte : UInt8}, byte ∉ ([44, 93, 125, 10] : Text) → text[j]? ≠ some byte := by
    intro byte hbyte heq
    rw [← head?_drop, hj] at heq
    exact hbyte (hs byte heq)
  have hfraction : ∀ scan : Scan, scan.index = j → fraction text scan = .ok scan := fun scan h => by
    rw [fraction, h, if_neg (hne (by decide))]
  have hexponent : ∀ scan : Scan, scan.index = j → exponent text scan = .ok scan := fun scan h => by
    rw [exponent, h, if_neg (not_or.mpr ⟨hne (by decide), hne (by decide)⟩)]
  unfold number
  rw [hnegative]
  show (whole text (if negative then i + 1 else i) >>= _) = _
  rw [hwhole]
  show (fraction text _ >>= _) = _
  rw [hfraction _ rfl]
  show (exponent text _ >>= _) = _
  rw [hexponent _ rfl]
  cases negative with
  | false => rfl
  | true =>
    obtain ⟨hle, hzero⟩ := hn rfl
    simp [Bind.bind, Except.bind, pure, Except.pure, hzero, not_lt.mpr hle]

variable {k : Number F}

theorem number_spec (hk : k.Fits floats) (hs : Ends s) (h : text.drop i = numberText floats k ++ s)
    :
    number floats text i = .ok (k, i + (numberText floats k).length) := by
  cases k with
  | float f => exact hk.number hs h
  | nonNegative n =>
    change text.drop i = decimal n ++ s at h
    have hplain : decide (text[i]? = some 45) = false := by
      obtain ⟨byte, rest, hhead, hdigit⟩ := decimal_head n
      rw [hhead] at h
      rw [get_of_drop h, decide_eq_false_iff_not]
      intro heq
      rw [some.inj heq] at hdigit
      exact absurd hdigit (by decide)
    exact number_eq hplain (whole_decimal hk hs h) hs (drop_of_drop h) fun h => nomatch h
  | negative v =>
    obtain ⟨hlow, hneg⟩ := hk
    have htext : numberText floats (.negative v) = 45 :: decimal v.natAbs := by
      rw [numberText, signed, if_pos hneg]
      rfl
    have hfits : v.natAbs ≤ signLimit := by omega
    rw [htext] at h ⊢
    have hrest := drop_succ_of_drop h
    rw [number_eq (decide_eq_true (get_of_drop h))
      (whole_decimal (hfits.trans (by decide)) hs hrest) hs (drop_of_drop hrest)
      fun _ => ⟨hfits, by omega⟩, if_pos rfl, Number.fromI64, if_pos (by omega), length_cons]
    have hv : -(v.natAbs : ℤ) = v := by omega
    rw [hv, if_pos rfl, Nat.add_assoc, Nat.add_comm 1]

/-! ### Values -/

/-- A value nested in at most `n` levels, whose objects have distinct keys and whose numbers fit. -/
inductive Json.Within (floats : Floats F) : ℕ → Json F → Prop
  | null (n : ℕ) : Within floats n .null
  | bool (n : ℕ) (flag : Bool) : Within floats n (.bool flag)
  | number (n : ℕ) {k : Number F} (h : k.Fits floats) : Within floats n (.number k)
  | text (n : ℕ) (t : Text) : Within floats n (.text t)
  | array {n : ℕ} {items : List (Json F)} (h : ∀ item ∈ items, Within floats n item) :
    Within floats (n + 1) (.array items)
  | object {n : ℕ} {entries : List (Text × Json F)} {index : OrderedMap Text ℕ}
    (hkeys : (entries.map Prod.fst).Nodup) (h : ∀ entry ∈ entries, Within floats n entry.2) :
    Within floats (n + 1) (.object ⟨entries, index⟩)

/-- The same value, but for the indexes that objects keep. -/
inductive Json.Alike : Json F → Json F → Prop
  | null : Alike .null .null
  | bool (flag : Bool) : Alike (.bool flag) (.bool flag)
  | number (k : Number F) : Alike (.number k) (.number k)
  | text (t : Text) : Alike (.text t) (.text t)
  | array {items items' : List (Json F)} (h : Forall₂ Alike items items') :
    Alike (.array items) (.array items')
  | object {fields fields' : JsonObject (Json F)} (hkeys : fields.keys = fields'.keys)
    (h : Forall₂ Alike (fields.entries.map Prod.snd) (fields'.entries.map Prod.snd)) :
    Alike (.object fields) (.object fields')

/-- What `value` does at a byte. -/
def valueAt (floats : Floats F) (text : Text) (fuel depth index : ℕ) (byte : UInt8) :
    StateT ℕ (Except (Stop JsonError)) (Json F) :=
  if byte = 34 then do
    let found ← string text
    return .text found
  else if byte = 123 then object text (number floats text) fuel depth
  else if byte = 91 then array text (number floats text) fuel depth
  else if byte = 116 then word text (ascii "true") (.bool true)
  else if byte = 102 then word text (ascii "false") (.bool false)
  else if byte = 110 then word text (ascii "null") .null
  else if byte = 45 ∨ byte ≥ 48 ∧ byte ≤ 57 then readNumber (number floats text)
  else fail (.unexpectedCharacter index)

variable {Q : Json F → ℕ → Prop}

theorem value_spec {depth : ℕ} (hspace : White space) (hbyte : white byte = false)
    (h : text.drop i = space ++ byte :: s)
    (hQ : ∀ j, text.drop j = byte :: s → Ensures E (valueAt floats text fuel depth j byte) Q j) :
    Ensures E (value text (number floats text) (fuel + 1) depth) Q i := by
  rw [value]
  refine space_spec hspace (starts_cons hbyte) h fun j hj => ?_
  rw [get_of_drop hj]
  exact hQ j hj

theorem ne_of_number {b : UInt8} (hbyte : byte = 45 ∨ isDigit byte = true) (hminus : b ≠ 45)
    (hdigit : isDigit b = false) : byte ≠ b := by
  rintro rfl
  exact hbyte.elim hminus fun h => Bool.false_ne_true (hdigit.symm.trans h)

theorem valueAt_number {depth : ℕ} (hbyte : byte = 45 ∨ isDigit byte = true) :
    valueAt floats text fuel depth index byte = readNumber (number floats text) := by
  have hne : ∀ {b : UInt8}, b ≠ 45 → isDigit b = false → byte ≠ b := ne_of_number hbyte
  have hin : byte = 45 ∨ byte ≥ 48 ∧ byte ≤ 57 := by simpa [isDigit] using hbyte
  unfold valueAt
  rw [if_neg (hne (by decide) rfl), if_neg (hne (by decide) rfl), if_neg (hne (by decide) rfl),
    if_neg (hne (by decide) rfl), if_neg (hne (by decide) rfl), if_neg (hne (by decide) rfl),
    if_pos hin]

/-- No error. -/
def Never (_ : Stop JsonError) : Prop := False

/-- `s` begins as a value does. -/
def Opens (s : Text) : Prop := ∃ byte rest, s = byte :: rest ∧ white byte = false ∧ byte ≠ 93

theorem Opens.starts (h : Opens s) {rest : Text} : Starts white (s ++ rest) := by
  obtain ⟨byte, tail, rfl, hbyte, -⟩ := h
  exact starts_cons hbyte

theorem Opens.append (h : Opens s) (rest : Text) : Opens (s ++ rest) := by
  obtain ⟨byte, tail, rfl, hbyte⟩ := h
  exact ⟨byte, tail ++ rest, rfl, hbyte⟩

/-- With fuel from `least` on `s` reads as `v`, wherever it stands. -/
def ReadsFrom (floats : Floats F) (level : ℕ) (v : Json F) (s : Text) (least : ℕ) : Prop :=
  ∀ fuel ≥ least, ∀ {text space rest : Text} {i : ℕ},
    White space → Ends rest → text.drop i = space ++ (s ++ rest) →
    Ensures Never (value text (number floats text) fuel level)
      (fun found j => found.Alike v ∧ text.drop j = rest) i

/-- `s` reads as `v`. -/
def Reads (floats : Floats F) (level : ℕ) (v : Json F) (s : Text) : Prop :=
  Opens s ∧ ∃ least, ReadsFrom floats level v s least

variable {level : ℕ} {v : Json F}

theorem Reads.of_byte (least : ℕ) (hbyte : white byte = false) (hclose : byte ≠ 93)
    (h : ∀ fuel ≥ least, ∀ {text rest : Text} {j : ℕ}, Ends rest →
      text.drop j = byte :: (s ++ rest) → Ensures Never (valueAt floats text fuel level j byte)
        (fun found j => found.Alike v ∧ text.drop j = rest) j) :
    Reads floats level v (byte :: s) := by
  refine ⟨⟨byte, s, rfl, hbyte, hclose⟩, least + 1, fun fuel hfuel text space rest i hspace hrest
    hi => ?_⟩
  obtain ⟨fuel, rfl⟩ := Nat.exists_eq_succ_of_ne_zero (by omega : fuel ≠ 0)
  exact value_spec hspace hbyte hi fun j hj => h fuel (by omega) hrest hj

/-! ### Lists and objects -/

/-- What `lineBreak` writes. -/
def gap (spaced : Bool) (depth : ℕ) : Text := lineBreak spaced depth []

variable {spaced : Bool} {depth : ℕ}

theorem lineBreak_eq (out : Text) : lineBreak spaced depth out = out ++ gap spaced depth := by
  unfold gap lineBreak
  split
  · rw [append_nil]
  · split <;> simp only [nil_append, append_assoc]

theorem white_gap : White (gap spaced depth) := by
  intro byte hbyte
  unfold gap lineBreak at hbyte
  split at hbyte
  · exact nomatch hbyte
  · have hmem : byte ∈ ascii "\n" ∨ byte ∈ ascii "  " := by
      split at hbyte
      · refine (mem_append.mp hbyte).imp id fun h => ?_
        obtain ⟨_, hindent, hin⟩ := mem_flatten.mp h
        exact eq_of_mem_replicate hindent ▸ hin
      · exact .inl hbyte
    revert byte
    exact fun byte _ hmem => hmem.elim (fun h => by rw [mem_singleton.mp h]; rfl)
      fun h => by rw [eq_of_mem_replicate (n := 2) (a := 32) h]; rfl

/-- A comma or a bracket behind a line break. -/
theorem ends_gap (hbyte : byte ∈ ([44, 93, 125] : Text)) :
    Ends (gap spaced depth ++ byte :: s) := by
  intro b hb
  unfold gap lineBreak at hb
  split at hb
  · obtain rfl := some.inj hb
    exact mem_append_left [10] hbyte
  · split at hb <;> exact some.inj hb ▸ by decide

/-- What `render` writes reads back. -/
def Renders (floats : Floats F) (spaced : Bool) (level : ℕ) (v : Json F) : Prop :=
  ∃ s, (∀ out, render floats spaced v level out = out ++ s) ∧ Reads floats level v s

theorem ends_comma : Ends (44 :: s) := fun _ hb => some.inj hb ▸ mem_cons_self

/-- What is left of an array once `found` is read. -/
theorem renderItems_spec {item : Json F} {rest : List (Json F)}
    (h : ∀ v ∈ item :: rest, Renders floats spaced (depth + 1) v) :
    ∃ s, (∀ out, lineBreak spaced depth (renderItems floats spaced (item :: rest) true depth out) ++
        ascii "]" = lineBreak spaced (depth + 1) out ++ s) ∧ Opens s ∧
      ∃ least, ∀ fuel ≥ least, ∀ {text space t : Text} {i : ℕ} {found : List (Json F)},
        White space → text.drop i = space ++ (s ++ t) →
        Ensures Never (items text (number floats text) fuel depth found) (fun v j => ∃ read,
          v = .array (found ++ read) ∧ Forall₂ Json.Alike read (item :: rest) ∧
            text.drop j = t) i := by
  obtain ⟨s, hrender, hopens, least, hread⟩ := h item mem_cons_self
  induction rest generalizing item s least with
  | nil =>
    refine ⟨s ++ (gap spaced depth ++ [93]), fun out => ?_, hopens.append _, least + 1, ?_⟩
    · rw [renderItems, renderItems, lineBreak_eq, hrender]
      simp only [append_assoc]
      rfl
    · intro fuel hfuel text space t i found hspace hi
      obtain ⟨fuel, rfl⟩ := Nat.exists_eq_succ_of_ne_zero (by omega : fuel ≠ 0)
      rw [append_assoc, append_assoc] at hi
      rw [items, bind_iff]
      refine (hread fuel (by omega) hspace (ends_gap (by decide)) hi).mono fun v j hitem => ?_
      obtain ⟨hv, hj⟩ := hitem
      refine space_spec white_gap (starts_cons rfl) hj fun k hk => ?_
      rw [get_of_drop hk, if_neg (by decide), if_pos rfl]
      exact set_pure ⟨[v], rfl, .cons hv .nil, drop_succ_of_drop hk⟩
  | cons item' rest ih =>
    obtain ⟨s', hrender', hopens', least', hread'⟩ := h item' (mem_cons_of_mem _ mem_cons_self)
    obtain ⟨tail, htail, -, least₂, hloop⟩ := ih (fun v hv => h v (mem_cons_of_mem _ hv)) s' hrender'
      hopens' least' hread'
    refine ⟨s ++ (44 :: (gap spaced (depth + 1) ++ tail)), fun out => ?_, hopens.append _,
      max least least₂ + 1, ?_⟩
    · have hnext := htail (render floats spaced item (depth + 1) (lineBreak spaced (depth + 1) out) ++
        ascii ",")
      rw [renderItems]
      refine Eq.trans hnext ?_
      rw [lineBreak_eq, hrender]
      simp only [append_assoc]
      rfl
    · intro fuel hfuel text space t i found hspace hi
      obtain ⟨fuel, rfl⟩ := Nat.exists_eq_succ_of_ne_zero (by omega : fuel ≠ 0)
      rw [append_assoc, cons_append, append_assoc] at hi
      rw [items, bind_iff]
      refine (hread fuel (by omega) hspace ends_comma hi).mono fun v j hitem => ?_
      obtain ⟨hv, hj⟩ := hitem
      refine space_spec nothing (starts_cons rfl) hj fun k hk => ?_
      rw [get_of_drop hk, if_pos rfl]
      refine bind_iff.mpr (set_iff.mpr ?_)
      refine (hloop fuel (by omega) white_gap (drop_succ_of_drop hk)).mono ?_
      rintro w j ⟨read, hw, hall, hj⟩
      refine ⟨v :: read, ?_, .cons hv hall, hj⟩
      rw [hw, append_assoc, singleton_append]

/-- What `members` does behind a member. -/
def membersAfter (floats : Floats F) (text : Text) (fuel depth : ℕ) (fields : JsonObject (Json F)) :
    StateT ℕ (Except (Stop JsonError)) (Json F) := do
  skipSpace text
  let index ← get
  if text[index]? = some 44 then do
    set (index + 1)
    skipSpace text
    members text (number floats text) fuel depth fields
  else if text[index]? = some 125 then do
    set (index + 1)
    return .object fields
  else fail (unexpected text index)

def colon (spaced : Bool) : Text := if spaced then ascii ": " else ascii ":"

variable {entry : Text × Json F}

theorem member_spec {least : ℕ} {fields : JsonObject (Json F)}
    (hread : ReadsFrom floats (depth + 1) entry.2 s least) (hfuel : fuel ≥ least) (ht : Ends t)
    (hkeeps : fields.Keeps) (hkey : entry.1 ∉ fields.keys)
    (hi : text.drop i = 34 :: (entry.1.flatMap escaped ++ 34 :: (colon spaced ++ (s ++ t))))
    (hQ : ∀ j v after, text.drop j = t → v.Alike entry.2 → after.Keeps →
      after.entries = fields.entries ++ [(entry.1, v)] →
      Ensures Never (membersAfter floats text fuel depth after) Q j) :
    Ensures Never (members text (number floats text) (fuel + 1) depth fields) Q i := by
  have hcolon : ∃ space, White space ∧ colon spaced = 58 :: space := by
    cases spaced with
    | false => exact ⟨[], nothing, rfl⟩
    | true => exact ⟨[32], fun _ hb => by rw [mem_singleton.mp hb]; rfl, rfl⟩
  obtain ⟨space, hspace, hcolon⟩ := hcolon
  rw [hcolon] at hi
  rw [members, bind_iff, get_iff, get_of_drop hi, if_neg (not_not.mpr rfl), bind_iff]
  refine (string_spec hi).mono fun key j hname => ?_
  obtain ⟨hfound, hj⟩ := hname
  refine space_spec nothing (starts_cons rfl) hj fun k hk => ?_
  rw [get_of_drop hk, if_neg (not_not.mpr rfl), bind_iff, set_iff, bind_iff]
  refine (hread fuel hfuel hspace ht (drop_succ_of_drop hk)).mono fun v j hvalue => ?_
  obtain ⟨hv, hj⟩ := hvalue
  obtain ⟨after, hset, hafter, hentries⟩ := hkeeps.set entry.1 v
  rw [hfound, hset]
  exact bind_iff.mpr (pure_iff.mpr (hQ j v after hj hv hafter
    (hentries.trans (AssocList.insert_of_miss (AssocList.miss_of_not_mem hkey)))))

/-- What is left of an object once `fields` are read, from a key on. -/
theorem renderMembers_spec {rest : List (Text × Json F)}
    (h : ∀ e ∈ entry :: rest, Renders floats spaced (depth + 1) e.2) :
    ∃ s, (∀ out,
        lineBreak spaced depth (renderMembers floats spaced (entry :: rest) true depth out) ++
          ascii "\x7d" = lineBreak spaced (depth + 1) out ++ 34 :: s) ∧
      ∃ least, ∀ fuel ≥ least, ∀ {text t : Text} {i : ℕ} {fields : JsonObject (Json F)},
        fields.Keeps → (fields.keys ++ (entry :: rest).map Prod.fst).Nodup →
        text.drop i = 34 :: (s ++ t) →
        Ensures Never (members text (number floats text) fuel depth fields) (fun v j => ∃ all read,
          v = .object all ∧ all.entries = fields.entries ++ read ∧
            read.map Prod.fst = (entry :: rest).map Prod.fst ∧
            Forall₂ Json.Alike (read.map Prod.snd) ((entry :: rest).map Prod.snd) ∧
            text.drop j = t) i := by
  induction rest generalizing entry with
  | nil =>
    obtain ⟨s, hrender, -, least, hread⟩ := h entry mem_cons_self
    refine ⟨entry.1.flatMap escaped ++ 34 :: (colon spaced ++ (s ++ (gap spaced depth ++ [125]))),
      fun out => ?_, least + 1, ?_⟩
    · rw [renderMembers, renderMembers, hrender, pushQuoted_eq, lineBreak_eq]
      simp only [append_assoc, cons_append, nil_append]
      rfl
    · intro fuel hfuel text t i fields hkeeps hnodup hi
      obtain ⟨fuel, rfl⟩ := Nat.exists_eq_succ_of_ne_zero (by omega : fuel ≠ 0)
      simp only [append_assoc, cons_append, nil_append] at hi
      refine member_spec hread (by omega) (ends_gap (by decide)) hkeeps
        (fun hmem => (nodup_append.mp hnodup).2.2 _ hmem _ mem_cons_self rfl) hi
        fun j v after hj hv _ hentries => ?_
      refine space_spec white_gap (starts_cons rfl) hj fun k hk => ?_
      rw [get_of_drop hk, if_neg (by decide), if_pos rfl]
      exact set_pure ⟨after, [(entry.1, v)], rfl, hentries, rfl, .cons hv .nil, drop_succ_of_drop hk⟩
  | cons entry' rest ih =>
    obtain ⟨s, hrender, -, least, hread⟩ := h entry mem_cons_self
    obtain ⟨tail, htail, least₂, hloop⟩ := ih fun e he => h e (mem_cons_of_mem _ he)
    refine ⟨entry.1.flatMap escaped ++
      34 :: (colon spaced ++ (s ++ (44 :: (gap spaced (depth + 1) ++ 34 :: tail)))),
      fun out => ?_, max least least₂ + 1, ?_⟩
    · have hnext := htail (render floats spaced entry.2 (depth + 1)
        (pushQuoted (lineBreak spaced (depth + 1) out) entry.1 ++ colon spaced) ++ ascii ",")
      rw [renderMembers]
      refine Eq.trans hnext ?_
      rw [lineBreak_eq, hrender, pushQuoted_eq]
      simp only [append_assoc, cons_append, nil_append]
      rfl
    · intro fuel hfuel text t i fields hkeeps hnodup hi
      obtain ⟨fuel, rfl⟩ := Nat.exists_eq_succ_of_ne_zero (by omega : fuel ≠ 0)
      simp only [append_assoc, cons_append] at hi
      refine member_spec hread (by omega) ends_comma hkeeps
        (fun hmem => (nodup_append.mp hnodup).2.2 _ hmem _ mem_cons_self rfl) hi
        fun j v after hj hv hafter hentries => ?_
      have hnodup' : (after.keys ++ (entry' :: rest).map Prod.fst).Nodup := by
        rw [JsonObject.keys, hentries, map_append, append_assoc]
        exact hnodup
      refine space_spec nothing (starts_cons rfl) hj fun k hk => ?_
      rw [get_of_drop hk, if_pos rfl, bind_iff, set_iff, bind_iff]
      refine (skipSpace_spec white_gap (starts_cons rfl) (drop_succ_of_drop hk)).mono
        fun _ k hk => ?_
      refine (hloop fuel (by omega) hafter hnodup' hk).mono
        fun w j ⟨all, read, hw, hall, hkeys, halike, hj⟩ =>
          ⟨all, (entry.1, v) :: read, hw, ?_, congrArg (entry.1 :: ·) hkeys, .cons hv halike, hj⟩
      rw [hall, hentries, append_assoc, singleton_append]

/-! ### Whole values -/

theorem number_head (hk : k.Fits floats) :
    ∃ byte rest, numberText floats k = byte :: rest ∧ (byte = 45 ∨ isDigit byte = true) := by
  cases k with
  | float f => exact hk.head
  | nonNegative n =>
    obtain ⟨byte, rest, hhead, hdigit⟩ := decimal_head n
    exact ⟨byte, rest, hhead, .inr hdigit⟩
  | negative n => exact ⟨45, decimal n.natAbs, by rw [numberText, signed, if_pos hk.2]; rfl, .inl rfl⟩

/-- A value of at most `n` levels reads back at `level`, where `n` more are let in. -/
theorem render_reads (h : v.Within floats n) (hn : level + n ≤ 128) :
    Renders floats spaced level v := by
  induction h generalizing level with
  | null n =>
    refine ⟨ascii "null", fun out => by rw [render], Reads.of_byte 0 rfl (by decide)
      fun fuel _ _ _ _ _ hj => ?_⟩
    exact (word_spec hj).mono fun w _ hw => ⟨hw.1 ▸ .null, hw.2⟩
  | bool n flag =>
    cases flag with
    | false =>
      refine ⟨ascii "false", fun out => by rw [render]; rfl, Reads.of_byte 0 rfl (by decide)
        fun fuel _ _ _ _ _ hj => ?_⟩
      exact (word_spec hj).mono fun w _ hw => ⟨hw.1 ▸ .bool false, hw.2⟩
    | true =>
      refine ⟨ascii "true", fun out => by rw [render]; rfl, Reads.of_byte 0 rfl (by decide)
        fun fuel _ _ _ _ _ hj => ?_⟩
      exact (word_spec hj).mono fun w _ hw => ⟨hw.1 ▸ .bool true, hw.2⟩
  | number n hk =>
    obtain ⟨byte, s, htext, hbyte⟩ := number_head hk
    refine ⟨byte :: s, fun out => by rw [render, htext], Reads.of_byte 0 ?_ ?_
      fun fuel _ text rest j hrest hj => ?_⟩
    · simp only [white, Bool.or_eq_false_iff, beq_eq_false_iff_ne]
      exact ⟨⟨⟨ne_of_number hbyte (by decide) rfl, ne_of_number hbyte (by decide) rfl⟩,
        ne_of_number hbyte (by decide) rfl⟩, ne_of_number hbyte (by decide) rfl⟩
    · exact ne_of_number hbyte (by decide) rfl
    · rw [valueAt_number hbyte, readNumber, bind_iff, get_iff, number_spec hk hrest (htext ▸ hj)]
      exact set_pure ⟨.number _, drop_of_drop (htext ▸ hj)⟩
  | text n t =>
    refine ⟨34 :: (t.flatMap escaped ++ [34]), fun out => by rw [render, pushQuoted_eq],
      Reads.of_byte 0 rfl (by decide) fun fuel _ _ rest _ _ hj => ?_⟩
    rw [append_assoc] at hj
    exact bind_iff.mpr ((string_spec hj).mono fun w _ hw =>
      pure_iff.mpr ⟨hw.1 ▸ .text t, hw.2⟩)
  | @array n items h ih =>
    cases items with
    | nil =>
      refine ⟨[91, 93], fun out => by rw [render]; rfl, Reads.of_byte 1 rfl (by decide)
        fun fuel hfuel _ rest _ _ hj => ?_⟩
      obtain ⟨fuel, rfl⟩ := Nat.exists_eq_succ_of_ne_zero (Nat.ne_of_gt hfuel)
      show Ensures Never (array _ _ _ _) _ _
      rw [array, bind_iff, get_iff, if_neg (by omega), bind_iff, set_iff]
      refine space_spec nothing (starts_cons rfl) (drop_succ_of_drop hj) fun k hk => ?_
      rw [get_of_drop hk, if_pos rfl]
      exact set_pure ⟨.array .nil, drop_succ_of_drop hk⟩
    | cons item items =>
      obtain ⟨s, hrender, hopens, least, hread⟩ :=
        renderItems_spec fun v hv => ih v hv (by omega : level + 1 + n ≤ 128)
      refine ⟨91 :: (gap spaced (level + 1) ++ s), fun out => ?_,
        Reads.of_byte (least + 1) rfl (by decide) fun fuel hfuel text rest j _ hj => ?_⟩
      · rw [render, if_neg (by simp), hrender, lineBreak_eq, append_assoc, append_assoc]
        rfl
      · obtain ⟨fuel, rfl⟩ := Nat.exists_eq_succ_of_ne_zero (by omega : fuel ≠ 0)
        show Ensures Never (array _ _ _ _) _ _
        rw [array, bind_iff, get_iff, if_neg (by omega), bind_iff, set_iff]
        rw [append_assoc] at hj
        refine space_spec white_gap hopens.starts (drop_succ_of_drop hj) fun k hk => ?_
        obtain ⟨byte, tail, rfl, -, hclose⟩ := hopens
        rw [get_of_drop hk, if_neg fun h => hclose (some.inj h)]
        refine (hread fuel (by omega) nothing hk).mono ?_
        rintro w j ⟨read, hw, hall, hj⟩
        refine ⟨?_, hj⟩
        rw [hw]
        exact .array hall
  | @object n entries index hkeys h ih =>
    cases entries with
    | nil =>
      refine ⟨[123, 125], fun out => by rw [render]; rfl, Reads.of_byte 1 rfl (by decide)
        fun fuel hfuel _ rest _ _ hj => ?_⟩
      obtain ⟨fuel, rfl⟩ := Nat.exists_eq_succ_of_ne_zero (Nat.ne_of_gt hfuel)
      show Ensures Never (object _ _ _ _) _ _
      rw [object, bind_iff, get_iff, if_neg (by omega), bind_iff, set_iff]
      refine space_spec nothing (starts_cons rfl) (drop_succ_of_drop hj) fun k hk => ?_
      rw [get_of_drop hk, if_pos rfl]
      exact set_pure ⟨.object rfl .nil, drop_succ_of_drop hk⟩
    | cons entry entries =>
      obtain ⟨s, hrender, least, hread⟩ :=
        renderMembers_spec fun e he => ih e he (by omega : level + 1 + n ≤ 128)
      refine ⟨123 :: (gap spaced (level + 1) ++ 34 :: s), fun out => ?_,
        Reads.of_byte (least + 1) rfl (by decide) fun fuel hfuel text rest j _ hj => ?_⟩
      · rw [render, if_neg (by simp), hrender, lineBreak_eq, append_assoc, append_assoc]
        rfl
      · obtain ⟨fuel, rfl⟩ := Nat.exists_eq_succ_of_ne_zero (by omega : fuel ≠ 0)
        show Ensures Never (object _ _ _ _) _ _
        rw [object, bind_iff, get_iff, if_neg (by omega), bind_iff, set_iff]
        rw [append_assoc] at hj
        refine space_spec white_gap (starts_cons rfl) (drop_succ_of_drop hj) fun k hk => ?_
        rw [get_of_drop hk, if_neg (by decide)]
        refine (hread fuel (by omega) JsonObject.keeps_new hkeys hk).mono ?_
        rintro w j ⟨all, read, hw, hall, hread, halike, hj⟩
        refine ⟨?_, hj⟩
        rw [hw]
        refine .object ?_ ?_
        · rw [JsonObject.keys, hall]
          exact hread
        · rw [hall]
          exact halike

/-- What `to_string` and `pretty` write of a value of at most 128 levels, `parse` reads as the same
value. -/
theorem parse_render (h : v.Within floats 128) (spaced : Bool) :
    ∃ least, ∀ fuel ≥ least, ∃ w, w.Alike v ∧
      parse (render floats spaced v 0 []) (number floats (render floats spaced v 0 [])) fuel =
        .ok w := by
  obtain ⟨s, hrender, hopens, least, hread⟩ := render_reads h (by omega : 0 + 128 ≤ 128)
  rw [hrender, nil_append]
  refine ⟨least, fun fuel hfuel => ?_⟩
  have hall : Ensures Never (parseAll s (number floats s) fuel) (fun w _ => w.Alike v) 0 := by
    rw [parseAll, bind_iff]
    have hend : s.drop 0 = [] ++ (s ++ []) := (append_nil s).symm
    refine (hread fuel hfuel nothing (fun b (hb : b ∈ ([] : Text).head?) => nomatch hb) hend).mono fun w j ⟨hw, hj⟩ => ?_
    refine space_spec nothing (fun b (hb : b ∈ ([] : Text).head?) => nomatch hb) hj fun k hk => ?_
    rw [if_neg (Nat.not_lt.mpr (drop_eq_nil_iff.mp hk))]
    exact pure_iff.mpr hw
  obtain ⟨w, j, hrun, hw⟩ := hall.exists_run
  exact ⟨w, hw, congrArg (Except.map Prod.fst) hrun⟩

/-- An object of a list with a number and a text that is escaped. -/
theorem parse_render_nested :
    let floats : Floats Unit := ⟨fun _ _ => (), id, (), fun _ => none, fun _ => []⟩
    let v : Json Unit := .object ⟨[([97], .array [.number (.negative (-5)), .text [10, 34]])], .empty⟩
    ∃ least, ∀ fuel ≥ least, ∃ w, w.Alike v ∧
      parse (render floats true v 0 []) (number floats (render floats true v 0 [])) fuel = .ok w := by
  refine parse_render (.object (by decide) fun entry hentry => ?_) true
  rw [mem_singleton.mp hentry]
  refine .array fun item hitem => ?_
  obtain rfl | hitem := mem_cons.mp hitem
  · exact .number 126 ⟨by decide, by decide⟩
  · exact mem_singleton.mp hitem ▸ .text 126 [10, 34]

end HdLang.StdJson
