import HdLang.Lib.Text
import Mathlib.Data.List.Induction
import Mathlib.Data.Prod.Lex
import Mathlib.Data.Sum.Order

/-!
# Versions

A Semantic Versioning version, how its text is read and printed, and its precedence. A version
carries the proof that its text reads back (`Version.parse_display`), so a printed version names it;
the precedence is a linear order (`Version.cmp_gt_iff`) and a version's compatibility line is its
major, or its minor below 1.
-/

namespace HdLang.Deps

open Text List Nat

/-! ### Numbers -/

/-- The number of values of `u64`. -/
def U64 : ℕ := 18446744073709551616

/-- `text.parse::<u64>()`: an optional sign and digits whose value fits. -/
def parseU64 (text : String) : Option ℕ :=
  let digits := match text.toList with
    | '+' :: rest => rest
    | cs => cs
  if digits ≠ [] ∧ digits.all Char.isDigit ∧ Nat.ofDigitChars 10 digits 0 < U64 then
    some (Nat.ofDigitChars 10 digits 0)
  else none

/-- A number of a version: digits with no leading zero. -/
def number (s : String) : Option ℕ :=
  if s ≠ "" ∧ s.toList.all Char.isDigit ∧ (s = "0" ∨ s.toList.head? ≠ some '0') then parseU64 s
  else none

/-- The characters of a pre-release identifier. -/
def identChar (c : Char) : Bool := c.isAlphanum || c == '-'

/-- Whether `id` is a pre-release identifier: a number has no leading zero. -/
def validId (id : String) : Bool :=
  id ≠ "" && id.toList.all identChar && (!id.toList.all Char.isDigit || (number id).isSome)

/-! ### The data of a version -/

/-- A Semantic Versioning 2.0.0 version without a leading `v`. -/
structure Version where
  major : ℕ
  minor : ℕ
  patch : ℕ
  /-- The pre-release identifiers; empty for a release. -/
  pre : List String
  fits : major < U64 ∧ minor < U64 ∧ patch < U64
  valid : ∀ id ∈ pre, validId id = true
  deriving DecidableEq

namespace Version

/-- A version of four parts that pass the checks. -/
def make (major minor patch : ℕ) (pre : List String) : Option Version :=
  if h : (major < U64 ∧ minor < U64 ∧ patch < U64) ∧ ∀ id ∈ pre, validId id = true then
    some ⟨major, minor, patch, pre, h.1, h.2⟩
  else none

/-- `MAJOR.MINOR.PATCH[-PRE]`, with no leading zeros, or `none`. -/
def parse (text : String) : Option Version := do
  let (core, pre) := match splitOnce '-' text with
    | some (core, pre) => (core, some pre)
    | none => (text, none)
  match split '.' core with
  | [major, minor, patch] =>
    let major ← number major
    let minor ← number minor
    let patch ← number patch
    make major minor patch (pre.elim [] (split '.'))
  | _ => none

/-- `MAJOR.MINOR.PATCH`. -/
def core (v : Version) : String := join '.' [toString v.major, toString v.minor, toString v.patch]

/-- The version as a requirement writes it, as `2.1.0` or `1.0.0-rc.1`. -/
def display (v : Version) : String :=
  if v.pre = [] then v.core else v.core ++ String.singleton '-' ++ join '.' v.pre

instance : ToString Version := ⟨display⟩

/-- A numeric identifier is below the others. -/
def cmpId (a b : String) : Ordering :=
  match parseU64 a, parseU64 b with
  | some x, some y => compare x y
  | some _, none => .lt
  | none, some _ => .gt
  | none, none => compare a b

/-- The first identifiers that differ decide, then the lengths. -/
def cmpPre : List String → List String → Ordering
  | a :: as, b :: bs => (cmpId a b).then (cmpPre as bs)
  | as, bs => compare as.length bs.length

/-- Semantic Versioning 2.0.0 precedence. -/
def cmp (v w : Version) : Ordering :=
  let core := (compare v.major w.major).then
    ((compare v.minor w.minor).then (compare v.patch w.patch))
  if core ≠ .eq then core
  else match v.pre, w.pre with
    | [], [] => .eq
    | [], _ :: _ => .gt
    | _ :: _, [] => .lt
    | as, bs => cmpPre as bs

end Version

/-- The compatibility line of a version: its major when at least 1, else `0.MINOR`. -/
def compatibilityLine (v : Version) : String :=
  if v.major ≥ 1 then toString v.major else "0." ++ toString v.minor

/-! ### Reading back what is printed -/

section Digits

theorem digits_isDigit (n : ℕ) {c : Char} (hc : c ∈ (toString n).toList) : c.isDigit = true := by
  rw [toString_eq_repr, toList_repr] at hc
  exact isDigit_of_mem_toDigits (by decide) (by decide) hc

theorem notMem_digits (n : ℕ) {c : Char} (hc : c.isDigit = false) : c ∉ (toString n).toList := by
  intro h
  rw [digits_isDigit n h] at hc
  cases hc

theorem head_toDigits {n : ℕ} (hn : 0 < n) : (Nat.toDigits 10 n).head? ≠ some '0' := by
  induction n using Nat.strongRecOn with
  | ind n ih =>
    by_cases hlt : n < 10
    · interval_cases n <;> decide
    · rw [toDigits_of_base_le (by decide) (by omega), List.head?_append_of_ne_nil _ toDigits_ne_nil]
      exact ih (n / 10) (by omega) (by omega)

theorem parseU64_toString {n : ℕ} (hn : n < U64) : parseU64 (toString n) = some n := by
  have hdigits : (toString n).toList = toDigits 10 n := by
    rw [toString_eq_repr, toList_repr]
  show parseUnsigned U64 (toString n).toList = some n
  rw [hdigits, parseUnsigned_digits hn]

theorem number_toString {n : ℕ} (hn : n < U64) : number (toString n) = some n := by
  have hall : (toString n).toList.all Char.isDigit = true :=
    all_eq_true.mpr fun c hc => digits_isDigit n hc
  have hzero : toString n = "0" ∨ (toString n).toList.head? ≠ some '0' := by
    obtain rfl | hpos := Nat.eq_zero_or_pos n
    · exact Or.inl (by decide)
    · rw [Nat.toString_eq_repr, toList_repr]
      exact Or.inr (head_toDigits hpos)
  have hne : toString n ≠ "" := by
    rw [Nat.toString_eq_repr]
    exact repr_ne_empty
  rw [number, if_pos ⟨hne, hall, hzero⟩, parseU64_toString hn]

end Digits

namespace Version

theorem notMem_of_validId {id : String} {c : Char} (hid : validId id = true)
    (hc : identChar c = false) : c ∉ id.toList := by
  intro h
  simp only [validId, Bool.and_eq_true] at hid
  rw [all_eq_true.mp hid.1.2 c h] at hc
  cases hc

/-- A character that the text of a version holds is a letter, a digit, `-` or `.`. -/
theorem notMem_core (v : Version) {c : Char} (hdigit : c.isDigit = false) (hdot : c ≠ '.') :
    c ∉ v.core.toList := by
  have hparts : ∀ n : ℕ, c ∉ toDigits 10 n := fun n => by
    have := notMem_digits n hdigit
    rwa [toString_eq_repr, toList_repr] at this
  simp [core, join, List.intercalate, hparts, hdot]

theorem split_core (v : Version) :
    split '.' v.core = [toString v.major, toString v.minor, toString v.patch] := by
  refine split_join ?_ (by simp)
  simp only [mem_cons, not_mem_nil, or_false, forall_eq_or_imp, forall_eq]
  exact ⟨notMem_digits _ (by decide), notMem_digits _ (by decide), notMem_digits _ (by decide)⟩

theorem split_pre (v : Version) (hpre : v.pre ≠ []) : split '.' (join '.' v.pre) = v.pre :=
  split_join (fun id hid => notMem_of_validId (v.valid id hid) (by decide)) hpre

theorem make_self (v : Version) : make v.major v.minor v.patch v.pre = some v := by
  rw [make, dif_pos ⟨v.fits, v.valid⟩]

/-- **A printed version reads back.** -/
theorem parse_display (v : Version) : parse v.display = some v := by
  have hnumbers := v.fits
  have hdash : '-' ∉ v.core.toList := v.notMem_core (by decide) (by decide)
  by_cases hpre : v.pre = []
  · rw [parse, display, if_pos hpre, splitOnce_of_notMem hdash]
    simp only [split_core, number_toString hnumbers.1, number_toString hnumbers.2.1,
      number_toString hnumbers.2.2, Option.bind_eq_bind, Option.bind_some, Option.elim]
    rw [← hpre, make_self]
  · rw [parse, display, if_neg hpre, splitOnce_append hdash]
    simp only [split_core, number_toString hnumbers.1, number_toString hnumbers.2.1,
      number_toString hnumbers.2.2, Option.bind_eq_bind, Option.bind_some, Option.elim,
      v.split_pre hpre, make_self]

theorem display_injective : Function.Injective display := fun v w h => by
  have hread : some v = some w := by rw [← parse_display v, ← parse_display w, h]
  exact Option.some.inj hread

/-! ### Precedence -/

section Precedence

/-- Digits without a leading zero are the ones their number is printed with. -/
theorem toDigits_ofDigitChars {cs : List Char} (hall : ∀ c ∈ cs, c.isDigit = true) (hne : cs ≠ [])
    (hzero : cs = ['0'] ∨ cs.head? ≠ some '0') :
    Nat.toDigits 10 (Nat.ofDigitChars 10 cs 0) = cs := by
  induction cs using List.reverseRecOn with
  | nil => exact absurd rfl hne
  | append_singleton ds c ih =>
    have hc : c.isDigit = true := hall c (by simp)
    have hdigit : c.toNat - '0'.toNat < 10 ∧ digitChar (c.toNat - '0'.toNat) = c := by
      simp only [Char.isDigit, Bool.and_eq_true, decide_eq_true_eq] at hc
      have hlow : 48 ≤ c.toNat := hc.1
      have hhigh : c.toNat ≤ 57 := hc.2
      have hval : c = Char.ofNat c.toNat := (Char.ofNat_toNat c).symm
      refine ⟨show c.toNat - 48 < 10 by omega, ?_⟩
      rw [hval]
      generalize c.toNat = n at hlow hhigh
      interval_cases n <;> decide
    rw [ofDigitChars_append, ofDigitChars_cons, ofDigitChars_nil]
    by_cases hds : ds = []
    · subst hds
      rw [ofDigitChars_nil, mul_zero, zero_add, toDigits_of_lt_base hdigit.1, hdigit.2, nil_append]
    · have hhead : ds.head? ≠ some '0' := by
        obtain h | h := hzero
        · cases ds with
          | nil => exact absurd rfl hds
          | cons d ds => simp at h
        · rwa [List.head?_append_of_ne_nil _ hds] at h
      have ih := ih (fun d hd => hall d (by simp [hd])) hds (Or.inr hhead)
      have hpos : 0 < ofDigitChars 10 ds 0 := by
        refine pos_of_ne_zero fun h0 => hhead ?_
        rw [← ih, h0]
        rfl
      rw [← toDigits_append_toDigits (by decide) hpos hdigit.1, ih, toDigits_of_lt_base hdigit.1,
        hdigit.2]

theorem eq_toString_of_parseU64 {id : String} {n : ℕ} (hid : validId id = true)
    (hn : parseU64 id = some n) : id = toString n := by
  simp only [validId, Bool.and_eq_true, decide_eq_true_eq] at hid
  obtain ⟨⟨hne, hchars⟩, hnumber⟩ := hid
  have hsign : (match id.toList with
      | '+' :: rest => rest
      | cs => cs) = id.toList := by
    split
    · next rest heq =>
      have hplus := all_eq_true.mp hchars '+' (by simp [heq])
      cases hplus
    · rfl
  rw [parseU64, hsign] at hn
  split at hn
  · next hdigits =>
    obtain rfl := Option.some.inj hn
    rw [hdigits.2.1, number] at hnumber
    split at hnumber
    · next hzero =>
      rw [toString_eq_repr, ← String.toList_inj, toList_repr, toDigits_ofDigitChars
        (all_eq_true.mp hdigits.2.1) hdigits.1]
      refine hzero.2.2.imp_left fun h => ?_
      rw [h]
      rfl
    · cases hnumber
  · cases hn

/-- A number, or text that stands above every number. -/
def idKey (id : String) : ℕ ⊕ₗ String :=
  match parseU64 id with
  | some n => Sum.inlₗ n
  | none => Sum.inrₗ id

theorem idKey_inj {a b : String} (ha : validId a = true) (hb : validId b = true)
    (h : idKey a = idKey b) : a = b := by
  rw [idKey, idKey] at h
  cases hna : parseU64 a with
  | none =>
    cases hnb : parseU64 b with
    | none =>
      rw [hna, hnb] at h
      exact Sum.inr.inj (toLex.injective h)
    | some m =>
      rw [hna, hnb] at h
      cases toLex.injective h
  | some n =>
    cases hnb : parseU64 b with
    | none =>
      rw [hna, hnb] at h
      cases toLex.injective h
    | some m =>
      rw [hna, hnb] at h
      have hnm : n = m := Sum.inl.inj (toLex.injective h)
      rw [eq_toString_of_parseU64 ha hna, eq_toString_of_parseU64 hb hnb, hnm]

theorem cmpId_eq_compare (a b : String) : cmpId a b = compare (idKey a) (idKey b) := by
  rw [cmpId, idKey, idKey]
  cases parseU64 a with
  | none =>
    cases parseU64 b with
    | none =>
      obtain h | rfl | h := lt_trichotomy a b
      · rw [compare_lt_iff_lt.mpr h, compare_lt_iff_lt.mpr (Sum.Lex.inr_lt_inr_iff.mpr h)]
      · simp
      · rw [compare_gt_iff_gt.mpr h, compare_gt_iff_gt.mpr (Sum.Lex.inr_lt_inr_iff.mpr h)]
    | some m => exact (compare_gt_iff_gt.mpr (Sum.Lex.inl_lt_inr m a)).symm
  | some n =>
    cases parseU64 b with
    | none => exact (compare_lt_iff_lt.mpr (Sum.Lex.inl_lt_inr n b)).symm
    | some m =>
      obtain h | rfl | h := lt_trichotomy n m
      · simp only [compare_lt_iff_lt.mpr h]
        exact (compare_lt_iff_lt.mpr (Sum.Lex.inl_lt_inl_iff.mpr h)).symm
      · simp
      · simp only [compare_gt_iff_gt.mpr h]
        exact (compare_gt_iff_gt.mpr (Sum.Lex.inl_lt_inl_iff.mpr h)).symm

theorem cmpPre_gt_iff (as bs : List String) :
    cmpPre as bs = .gt ↔ bs.map idKey < as.map idKey := by
  induction as generalizing bs with
  | nil =>
    cases bs with
    | nil => simp [cmpPre]
    | cons b bs => simp [cmpPre, compare_gt_iff_gt]
  | cons a as ih =>
    cases bs with
    | nil => simp [cmpPre, compare_gt_iff_gt]
    | cons b bs =>
      rw [cmpPre, Ordering.then_eq_gt, cmpId_eq_compare, compare_gt_iff_gt, compare_eq_iff_eq, ih,
        map_cons, map_cons, cons_lt_cons_iff]
      simp only [eq_comm]

/-- The pre-release part of the precedence: a release stands above its pre-releases. -/
def preKey (v : Version) : WithTop (List (ℕ ⊕ₗ String)) :=
  if v.pre = [] then ⊤ else (v.pre.map idKey : List (ℕ ⊕ₗ String))

/-- The fields that decide the precedence, first to last. -/
def rank (v : Version) : ℕ ×ₗ ℕ ×ₗ ℕ ×ₗ WithTop (List (ℕ ⊕ₗ String)) :=
  toLex (v.major, toLex (v.minor, toLex (v.patch, v.preKey)))

theorem map_idKey_inj {as bs : List String} (ha : ∀ id ∈ as, validId id = true)
    (hb : ∀ id ∈ bs, validId id = true) (h : as.map idKey = bs.map idKey) : as = bs := by
  induction as generalizing bs with
  | nil => exact (map_eq_nil_iff.mp h.symm).symm
  | cons a as ih =>
    cases bs with
    | nil => cases h
    | cons b bs =>
      obtain ⟨hab, hrest⟩ := List.cons.inj h
      rw [forall_mem_cons] at ha hb
      rw [idKey_inj ha.1 hb.1 hab, ih ha.2 hb.2 hrest]

theorem preKey_inj {v w : Version} (h : v.preKey = w.preKey) : v.pre = w.pre := by
  rw [preKey, preKey] at h
  split at h
  · next hv =>
    split at h
    · next hw => rw [hv, hw]
    · cases h
  · split at h
    · cases h
    · exact map_idKey_inj v.valid w.valid (WithTop.coe_injective h)

theorem rank_injective : Function.Injective rank := by
  intro v w h
  simp only [rank, toLex_inj, Prod.mk.injEq] at h
  obtain ⟨hmajor, hminor, hpatch, hkey⟩ := h
  have hpre := preKey_inj hkey
  cases v
  cases w
  cases hmajor
  cases hminor
  cases hpatch
  cases hpre
  rfl

instance : LinearOrder Version := LinearOrder.lift' rank rank_injective

theorem lt_iff_rank {v w : Version} : v < w ↔ v.rank < w.rank := Iff.rfl

theorem preKey_lt_iff {v w : Version} : w.preKey < v.preKey ↔
    (match v.pre, w.pre with
      | [], [] => Ordering.eq
      | [], _ :: _ => .gt
      | _ :: _, [] => .lt
      | as, bs => cmpPre as bs) = .gt := by
  rw [preKey, preKey]
  cases hv : v.pre with
  | nil =>
    cases hw : w.pre with
    | nil => simp
    | cons b bs => simp [WithTop.coe_lt_top]
  | cons a as =>
    cases hw : w.pre with
    | nil => simp
    | cons b bs =>
      simp only [reduceCtorEq, if_false]
      rw [WithTop.coe_lt_coe, cmpPre_gt_iff]

/-- **The precedence is a linear order.** -/
theorem cmp_gt_iff {v w : Version} : cmp v w = .gt ↔ w < v := by
  rw [lt_iff_rank, rank, rank, Prod.Lex.toLex_lt_toLex, Prod.Lex.toLex_lt_toLex,
    Prod.Lex.toLex_lt_toLex, preKey_lt_iff, cmp]
  obtain h | h | h := lt_trichotomy v.major w.major
  · simp [compare_lt_iff_lt.mpr h, h.le, h.ne']
  · obtain h' | h' | h' := lt_trichotomy v.minor w.minor
    · simp [h, compare_lt_iff_lt.mpr h', h'.le, h'.ne']
    · obtain h'' | h'' | h'' := lt_trichotomy v.patch w.patch
      · simp [h, h', compare_lt_iff_lt.mpr h'', h''.le, h''.ne']
      · simp [h, h', h'']
      · simp [h, h', compare_gt_iff_gt.mpr h'', h'']
    · simp [h, compare_gt_iff_gt.mpr h', h']
  · simp [compare_gt_iff_gt.mpr h, h]

end Precedence

/-! ### Reading what was printed -/

theorem toString_of_number {s : String} {n : ℕ} (h : number s = some n) : toString n = s := by
  rw [number] at h
  split at h
  · next hs =>
    obtain ⟨hne, hall, hzero⟩ := hs
    have hne' : s.toList ≠ [] := fun hnil => hne (String.toList_inj.mp hnil)
    have hsign : (match s.toList with
        | '+' :: rest => rest
        | cs => cs) = s.toList := by
      split
      · next rest heq =>
        have hplus := all_eq_true.mp hall '+' (by simp [heq])
        cases hplus
      · rfl
    rw [parseU64, hsign] at h
    split at h
    · obtain rfl := Option.some.inj h
      rw [toString_eq_repr, ← String.toList_inj, toList_repr]
      refine toDigits_ofDigitChars (all_eq_true.mp hall) hne' (hzero.imp_left fun h0 => ?_)
      rw [h0]
      rfl
    · cases h
  · cases h

theorem eq_of_make {major minor patch : ℕ} {pre : List String} {v : Version}
    (h : make major minor patch pre = some v) :
    v.major = major ∧ v.minor = minor ∧ v.patch = patch ∧ v.pre = pre := by
  rw [make] at h
  split at h
  · obtain rfl := Option.some.inj h
    exact ⟨rfl, rfl, rfl, rfl⟩
  · cases h

/-- **A version that was read** is printed as the text it was read from. -/
theorem display_of_parse {t : String} {v : Version} (h : parse t = some v) :
    v.display = t := by
  have hnumbers : ∀ (text : String) (pre : List String),
      (match split '.' text with
        | [major, minor, patch] => do
          let major ← number major
          let minor ← number minor
          let patch ← number patch
          make major minor patch pre
        | _ => none) = some v → v.core = text ∧ v.pre = pre := by
    intro text pre hrun
    have hcore := join_split '.' text
    split at hrun
    · next major minor patch hparts =>
      obtain ⟨a, ha, hrun⟩ := Option.bind_eq_some_iff.mp hrun
      obtain ⟨b, hb, hrun⟩ := Option.bind_eq_some_iff.mp hrun
      obtain ⟨c, hc, hrun⟩ := Option.bind_eq_some_iff.mp hrun
      obtain ⟨hmajor, hminor, hpatch, hpre⟩ := eq_of_make hrun
      refine ⟨?_, hpre⟩
      rw [core, hmajor, hminor, hpatch, toString_of_number ha, toString_of_number hb,
        toString_of_number hc, ← hparts, hcore]
    · cases hrun
  rw [parse] at h
  cases hsplit : splitOnce '-' t with
  | none =>
    rw [hsplit] at h
    obtain ⟨hcore, hpre⟩ := hnumbers t [] h
    rw [display, if_pos hpre, hcore]
  | some parts =>
    obtain ⟨core, pre⟩ := parts
    rw [hsplit] at h
    obtain ⟨hcore, hpre⟩ := hnumbers core (split '.' pre) h
    rw [display, if_neg (hpre ▸ split_ne_nil '.' pre), hcore, hpre, join_split]
    exact eq_of_splitOnce hsplit

theorem slash_notMem_display (v : Version) : '/' ∉ v.display.toList := by
  have hcore : '/' ∉ v.core.toList := v.notMem_core (by decide) (by decide)
  unfold Version.display
  by_cases hpre : v.pre = []
  · rw [if_pos hpre]
    exact hcore
  · have hids : '/' ∉ (join '.' v.pre).toList := by
      intro hmem
      obtain hdot | ⟨id, hid, hmem⟩ := @mem_split '.' _ _ hmem
      · exact absurd hdot (by decide)
      · rw [v.split_pre hpre] at hid
        exact Version.notMem_of_validId (v.valid id hid) (by decide) hmem
    rw [if_neg hpre]
    simp [hcore, hids]

end Version

end HdLang.Deps
