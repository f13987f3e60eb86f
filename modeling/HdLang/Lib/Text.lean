import Mathlib.Data.String.Basic
import Mathlib.Tactic.IntervalCases

/-!
# Splitting text

Splitting a string at a separator, with the laws that undo a concatenation: text printed as fields
around separators splits back into the fields as long as no field holds the separator. The words
between whitespace split back likewise, and the digits of a number are read as the number.
-/

namespace Text

open List Option String Nat

/-! ### Splitting once -/

/-- The parts before and after the first `c`. -/
def splitOnceChars (c : Char) : List Char → Option (List Char × List Char)
  | [] => none
  | x :: xs => if x = c then some ([], xs) else (splitOnceChars c xs).map fun p => (x :: p.1, p.2)

/-- `s.split_once(c)`. -/
def splitOnce (c : Char) (s : String) : Option (String × String) :=
  (splitOnceChars c s.toList).map fun p => (String.ofList p.1, String.ofList p.2)

/-- `s.rsplit_once(c)`. -/
def rsplitOnce (c : Char) (s : String) : Option (String × String) :=
  (splitOnceChars c s.toList.reverse).map fun p =>
    (String.ofList p.2.reverse, String.ofList p.1.reverse)

/-- `s.split(c)`. -/
def split (c : Char) (s : String) : List String := (s.toList.splitOn c).map String.ofList

/-- `parts.join(c)`. -/
def join (c : Char) (parts : List String) : String :=
  String.ofList ([c].intercalate (parts.map String.toList))

section Laws

variable {c : Char} {xs ys xs' ys' : List Char} {s t s' t' : String}

theorem splitOnceChars_of_notMem (h : c ∉ xs) : splitOnceChars c xs = none := by
  induction xs with
  | nil => rfl
  | cons x xs ih =>
    rw [mem_cons, not_or] at h
    rw [splitOnceChars, if_neg (Ne.symm h.1), ih h.2, map_none]

theorem splitOnceChars_append (h : c ∉ xs) : splitOnceChars c (xs ++ c :: ys) = some (xs, ys) := by
  induction xs with
  | nil => simp [splitOnceChars]
  | cons x xs ih =>
    rw [mem_cons, not_or] at h
    rw [cons_append, splitOnceChars, if_neg (Ne.symm h.1), ih h.2, map_some]

theorem splitOnce_of_notMem (h : c ∉ s.toList) : splitOnce c s = none := by
  rw [splitOnce, splitOnceChars_of_notMem h, map_none]

/-- The first separator is the one after a field without it. -/
theorem splitOnce_append (h : c ∉ s.toList) :
    splitOnce c (s ++ String.singleton c ++ t) = some (s, t) := by
  have htext : (s ++ singleton c ++ t).toList = s.toList ++ c :: t.toList := by
    simp [toList_append]
  rw [splitOnce, htext, splitOnceChars_append h, map_some]
  simp

/-- Two texts with the same first separator agree on both sides of it. -/
theorem append_sep_inj (h : c ∉ s.toList) (h' : c ∉ s'.toList) :
    s ++ String.singleton c ++ t = s' ++ String.singleton c ++ t' ↔ s = s' ∧ t = t' := by
  constructor
  · intro heq
    have hsplit : some (s, t) = some (s', t') := by
      rw [← splitOnce_append h, ← splitOnce_append h', heq]
    simpa using hsplit
  · rintro ⟨rfl, rfl⟩
    rfl

theorem mem_of_mem_intersperse {α : Type} {a x : α} {l : List α} (h : x ∈ l.intersperse a) :
    x = a ∨ x ∈ l := by
  induction l with
  | nil => cases h
  | cons y l ih =>
    cases l with
    | nil => exact Or.inr h
    | cons z l =>
      rw [intersperse_cons_cons, mem_cons, mem_cons] at h
      obtain rfl | rfl | h := h
      · exact Or.inr (mem_cons_self ..)
      · exact Or.inl rfl
      · exact (ih h).imp_right (mem_cons_of_mem y)

/-- A character of a text is the separator or stands in one of the parts. -/
theorem mem_split {x : Char} (h : x ∈ s.toList) : x = c ∨ ∃ part ∈ split c s, x ∈ part.toList := by
  have hjoin : [c].intercalate (s.toList.splitOn c) = s.toList := intercalate_splitOn c
  rw [← hjoin, List.intercalate, mem_flatten] at h
  obtain ⟨l, hl, hx⟩ := h
  obtain rfl | hl := mem_of_mem_intersperse hl
  · exact Or.inl (mem_singleton.mp hx)
  · exact Or.inr ⟨ofList l, List.mem_map_of_mem hl, by simpa using hx⟩

theorem split_join {parts : List String} (h : ∀ s ∈ parts, c ∉ s.toList) (hne : parts ≠ []) :
    split c (join c parts) = parts := by
  have hmem : ∀ l ∈ parts.map String.toList, c ∉ l := by simpa using h
  have hne' : parts.map String.toList ≠ [] := by simpa using hne
  rw [split, join, String.toList_ofList, splitOn_intercalate c hmem hne']
  simp

theorem eq_of_splitOnce {a b : String} (h : splitOnce c s = some (a, b)) :
    a ++ String.singleton c ++ b = s := by
  have hchars : ∀ (xs ys zs : List Char), splitOnceChars c xs = some (ys, zs) →
      xs = ys ++ c :: zs := by
    intro xs
    induction xs with
    | nil => exact fun ys zs hsplit => (nomatch hsplit)
    | cons x xs ih =>
      intro ys zs hsplit
      rw [splitOnceChars] at hsplit
      split at hsplit
      · next hx =>
        obtain ⟨rfl, rfl⟩ := Prod.mk.inj (some.inj hsplit)
        rw [hx, nil_append]
      · obtain ⟨⟨ys', zs'⟩, hrest, heq⟩ := map_eq_some_iff.mp hsplit
        obtain ⟨rfl, rfl⟩ := Prod.mk.inj heq
        rw [ih ys' zs' hrest, cons_append]
  obtain ⟨⟨ys, zs⟩, hsplit, heq⟩ := map_eq_some_iff.mp h
  obtain ⟨rfl, rfl⟩ := Prod.mk.inj heq
  rw [← toList_inj]
  simp [hchars _ ys zs hsplit]

theorem join_split (c : Char) (s : String) : join c (split c s) = s := by
  rw [join, split, List.map_map, ← String.toList_inj, String.toList_ofList]
  have hid : (s.toList.splitOn c).map (String.toList ∘ String.ofList) = s.toList.splitOn c := by
    simp [Function.comp_def]
  rw [hid, intercalate_splitOn c]

theorem split_ne_nil (c : Char) (s : String) : split c s ≠ [] := by
  rw [split]
  simp [List.splitOn]

end Laws

/-! ### Words between whitespace -/

/-- `c.is_whitespace()`: the property `White_Space` of Unicode. -/
def isWhitespace (c : Char) : Bool :=
  let n := c.toNat
  (0x09 ≤ n && n ≤ 0x0D) || n == 0x20 || n == 0x85 || n == 0xA0 || n == 0x1680 ||
    (0x2000 ≤ n && n ≤ 0x200A) || n == 0x2028 || n == 0x2029 || n == 0x202F || n == 0x205F ||
    n == 0x3000

/-- `s.split_whitespace()`. -/
def splitWhitespace (cs : List Char) : List (List Char) :=
  (cs.splitOnP isWhitespace).filter fun word => !word.isEmpty

/-- A word: some characters, none of them whitespace. -/
def IsWord (word : List Char) : Prop := word ≠ [] ∧ ∀ c ∈ word, isWhitespace c = false

variable {word : List Char}

theorem IsWord.cons (h : IsWord word) {c : Char} (hc : isWhitespace c = false) :
    IsWord (c :: word) :=
  ⟨cons_ne_nil _ _, forall_mem_cons.mpr ⟨hc, h.2⟩⟩

theorem IsWord.append {word' : List Char} (h : IsWord word) (h' : IsWord word') :
    IsWord (word ++ word') :=
  ⟨append_ne_nil_of_left_ne_nil h.1 _, forall_mem_append.mpr ⟨h.2, h'.2⟩⟩

/-- Words with a blank between them. -/
def unwords (words : List (List Char)) : List Char := [' '].intercalate words

variable {words : List (List Char)}

theorem unwords_cons :
    unwords (word :: words) = word ++ words.flatMap fun w => ' ' :: w := by
  induction words generalizing word with
  | nil => simp [unwords]
  | cons w words ih =>
    calc unwords (word :: w :: words) = word ++ ' ' :: unwords (w :: words) := by simp [unwords]
      _ = word ++ (w :: words).flatMap fun w => ' ' :: w := by rw [ih]; rfl

theorem splitWhitespace_unwords (h : ∀ word ∈ words, IsWord word) :
    splitWhitespace (unwords words) = words := by
  cases words with
  | nil => rfl
  | cons word words =>
    rw [unwords_cons]
    induction words generalizing word with
    | nil =>
      have hword := h word mem_cons_self
      rw [flatMap_nil, append_nil, splitWhitespace, splitOnP_eq_singleton hword.2,
        filter_cons_of_pos (by simpa using hword.1), filter_nil]
    | cons w words ih =>
      have hword := h word mem_cons_self
      have hrest := ih w fun v hv => h v (mem_cons_of_mem _ hv)
      rw [splitWhitespace] at hrest
      rw [flatMap_cons, cons_append, splitWhitespace,
        splitOnP_append_cons_of_forall_mem hword.2 ' ' (by decide),
        filter_cons_of_pos (by simpa using hword.1), hrest]

/-! ### Numbers -/

/-- `text.parse()` for an unsigned type below `bound`: an optional sign and digits whose value fits.
-/
def parseUnsigned (bound : ℕ) (text : List Char) : Option ℕ :=
  let digits := match text with
    | '+' :: rest => rest
    | cs => cs
  if digits ≠ [] ∧ digits.all Char.isDigit ∧ Nat.ofDigitChars 10 digits 0 < bound then
    some (Nat.ofDigitChars 10 digits 0)
  else none

theorem isDigit_of_mem_toDigits {n : ℕ} {c : Char} (h : c ∈ Nat.toDigits 10 n) : c.isDigit = true :=
  Nat.isDigit_of_mem_toDigits (by decide) (by decide) h

theorem notMem_toDigits (n : ℕ) {c : Char} (hc : c.isDigit = false) : c ∉ Nat.toDigits 10 n := by
  intro h
  rw [isDigit_of_mem_toDigits h] at hc
  cases hc

/-- The digits of a number that fits are read as the number. -/
theorem parseUnsigned_digits {bound n : ℕ} (hn : n < bound) :
    parseUnsigned bound (Nat.toDigits 10 n) = some n := by
  have hsign : ∀ rest, toDigits 10 n = '+' :: rest → False := fun rest heq => by
    have hplus : '+' ∈ toDigits 10 n := by
      rw [heq]
      exact mem_cons_self
    exact notMem_toDigits n (by decide) hplus
  have hall : (toDigits 10 n).all Char.isDigit = true :=
    List.all_eq_true.mpr fun _ hc => isDigit_of_mem_toDigits hc
  rw [parseUnsigned, ofDigitChars_ten_toDigits, if_pos ⟨toDigits_ne_nil, hall, hn⟩]
  exact hsign

theorem isWord_digits (n : ℕ) : IsWord (Nat.toDigits 10 n) := by
  refine ⟨toDigits_ne_nil, fun c hc => ?_⟩
  have hdigit := isDigit_of_mem_toDigits hc
  simp only [Char.isDigit, Bool.and_eq_true, decide_eq_true_eq] at hdigit
  have hlow : 48 ≤ c.toNat := hdigit.1
  have hhigh : c.toNat ≤ 57 := hdigit.2
  rw [← Char.ofNat_toNat c]
  generalize c.toNat = n at hlow hhigh
  interval_cases n <;> decide

/-! ### Byte offsets -/

/-- `text.len()`: the bytes of a text in UTF-8. -/
def byteLen (cs : List Char) : ℕ := (cs.map Char.utf8Size).sum

/-- `text.split_at(n)`; `none` where byte `n` is not on a character boundary. -/
def cut : List Char → ℕ → Option (List Char × List Char)
  | cs, 0 => some ([], cs)
  | [], _ + 1 => none
  | c :: cs, n + 1 =>
    if c.utf8Size ≤ n + 1 then (cut cs (n + 1 - c.utf8Size)).map fun p => (c :: p.1, p.2) else none

/-- `text.is_char_boundary(n)`. -/
def isCharBoundary (cs : List Char) (n : ℕ) : Bool := (cut cs n).isSome

section Bytes

variable {cs front back : List Char} {n : ℕ}

@[simp] theorem byteLen_nil : byteLen [] = 0 := rfl

@[simp] theorem byteLen_cons (c : Char) : byteLen (c :: cs) = c.utf8Size + byteLen cs := by
  simp [byteLen]

@[simp] theorem byteLen_append : byteLen (front ++ back) = byteLen front + byteLen back := by
  simp [byteLen]

theorem eq_nil_of_byteLen (h : byteLen cs = 0) : cs = [] := by
  cases cs with
  | nil => rfl
  | cons c cs =>
    have hc := c.utf8Size_pos
    rw [byteLen_cons] at h
    omega

theorem cut_append : cut (front ++ back) (byteLen front) = some (front, back) := by
  induction front with
  | nil => rw [nil_append, byteLen_nil, cut]
  | cons c front ih =>
    obtain ⟨n, hn⟩ := exists_eq_succ_of_ne_zero
      (show byteLen (c :: front) ≠ 0 by have := c.utf8Size_pos; rw [byteLen_cons]; omega)
    have hrest : n + 1 - c.utf8Size = byteLen front := by
      rw [byteLen_cons] at hn
      omega
    rw [hn, cons_append, cut, if_pos (by rw [byteLen_cons] at hn; omega), hrest, ih, map_some]

/-- The parts of a cut are the text, and the first ends at the offset. -/
theorem of_cut (h : cut cs n = some (front, back)) : cs = front ++ back ∧ byteLen front = n := by
  induction cs, n using cut.induct generalizing front with
  | case1 cs =>
    rw [cut] at h
    cases h
    exact ⟨rfl, rfl⟩
  | case2 => cases h
  | case3 c cs n hle ih =>
    rw [cut, if_pos hle] at h
    obtain ⟨⟨front', back'⟩, hcut, hp⟩ := map_eq_some_iff.mp h
    cases hp
    obtain ⟨rfl, hlen⟩ := ih hcut
    refine ⟨rfl, ?_⟩
    rw [byteLen_cons, hlen]
    omega
  | case4 c cs n hle =>
    rw [cut, if_neg hle] at h
    cases h

/-- Of two fronts of a text the shorter one is a front of the longer. -/
theorem front_of_le {front' back' : List Char} (h : front ++ back = front' ++ back')
    (hle : byteLen front ≤ byteLen front') :
    ∃ middle, front' = front ++ middle ∧ back = middle ++ back' := by
  obtain ⟨middle, rfl, rfl⟩ | ⟨middle, rfl, rfl⟩ := append_eq_append_iff.mp h
  · exact ⟨middle, rfl, rfl⟩
  · rw [byteLen_append] at hle
    obtain rfl := eq_nil_of_byteLen (show byteLen middle = 0 by omega)
    exact ⟨[], by simp, by simp⟩

end Bytes

end Text
