import HdLang.Deps.Manifest

/-!
# Tags and pseudo-versions

The tag of a version in its repository, the version a tag names, and the commit and the base of a
pseudo-version. The text of a version is determined by the version (`Version.display_of_parse`), the
tag of a package names no version of a package in another directory (`subdirectory_of_tagVersion`),
and a pseudo-version stands between its base and the releases after it.
-/

namespace HdLang.Deps

open Text List Option Nat Version

/-! ### Tags -/

/-- `text.strip_prefix(front)` -/
def stripFront (front text : String) : Option String :=
  if front.toList <+: text.toList then some (String.ofList (text.toList.drop front.toList.length))
  else none

/-- A version's tag: `vVERSION` at the repository root, or prefixed with the package's directory. -/
def tagName (host : HostPath) (version : Version) : String :=
  if host.subdirectory = "" then "v" ++ version.display
  else host.subdirectory ++ "/v" ++ version.display

/-- The version a tag names for the package at `host`, or `none` if it names none of its versions. -/
def tagVersion (host : HostPath) (tag : String) : Option Version := do
  let rest ← (if host.subdirectory = "" then some tag
    else do stripFront "/" (← stripFront host.subdirectory tag))
  Version.parse (← stripFront "v" rest)

/-! ### Pseudo-versions -/

/-- The commit a pseudo-version names. -/
structure PseudoCommit where
  /-- The commit's UTC time, `yyyymmddhhmmss`. -/
  time : String
  /-- The first 12 lowercase hexadecimal digits of the commit hash. -/
  hash : String
  deriving DecidableEq

/-- `digits`: `n` bytes that all pass the test, which only ASCII characters do. -/
def digits (s : String) (n : ℕ) (ok : Char → Bool) : Bool :=
  s.toList.length = n && s.toList.all ok

/-- A lowercase hexadecimal digit. -/
def hexDigit (c : Char) : Bool := c.isDigit || ('a' ≤ c && c ≤ 'f')

/-- The commit of a pseudo-version, or `none` when `version` has none of Go's three forms:
`0.0.0-TIME-HASH`, `X.Y.(Z+1)-0.TIME-HASH` and `X.Y.Z-PRE.0.TIME-HASH`. -/
def pseudoCommit (version : Version) : Option PseudoCommit := do
  let last ← version.pre.getLast?
  let base := version.pre.dropLast
  let (time, hash) ← splitOnce '-' last
  if !digits time 14 Char.isDigit || !digits hash 12 hexDigit then none
  else
    let untagged := base = [] ∧ version.major = 0 ∧ version.minor = 0 ∧ version.patch = 0
    if ¬ untagged ∧ base.getLast? ≠ some "0" then none
    -- `X.Y.(Z+1)-0.TIME-HASH` follows a release, so its patch is at least 1.
    else if base.length = 1 ∧ version.patch = 0 then none
    else some ⟨time, hash⟩

theorem Version.valid_nil : ∀ id ∈ ([] : List String), validId id = true := by
  simp

/-- The version with another patch number, and no pre-release identifiers. -/
def Version.release (version : Version) (patch : ℕ) (h : patch ≤ version.patch) : Version where
  major := version.major
  minor := version.minor
  patch := patch
  pre := []
  fits := ⟨version.fits.1, version.fits.2.1, lt_of_le_of_lt h version.fits.2.2⟩
  valid := Version.valid_nil

/-- The version with the first of its pre-release identifiers. -/
def Version.withPre (version : Version) (pre : List String) (h : pre ⊆ version.pre) : Version where
  major := version.major
  minor := version.minor
  patch := version.patch
  pre := pre
  fits := version.fits
  valid := fun id hid => version.valid id (h hid)

/-- The version of a pseudo-version's base tag: `X.Y.Z` for `X.Y.(Z+1)-0.TIME-HASH`, `X.Y.Z-PRE` for
`X.Y.Z-PRE.0.TIME-HASH`, and `none` for `0.0.0-TIME-HASH`. -/
def pseudoBase (version : Version) : Option Version :=
  if version.pre.length < 2 then none
  else if version.pre.take (version.pre.length - 2) = [] then
    if version.patch = 0 then none
    else some (version.release (version.patch - 1) (Nat.sub_le _ _))
  else some (version.withPre (version.pre.take (version.pre.length - 2)) (List.take_subset _ _))

/-! ### Semantic Versioning precedence -/

/-- Whether an identifier consists of digits only. -/
def Numeric (id : String) : Prop := ∀ c ∈ id.toList, c.isDigit = true

/-- The number that the digits write. -/
def numeral (id : String) : ℕ := Nat.ofDigitChars 10 id.toList 0

/-- Numbers are compared as numbers and other identifiers as text; a number precedes the others. -/
def IdPrecedes (a b : String) : Prop :=
  Numeric a ∧ Numeric b ∧ numeral a < numeral b ∨ Numeric a ∧ ¬ Numeric b ∨
    ¬ Numeric a ∧ ¬ Numeric b ∧ a < b

/-- The first identifiers that differ decide; a list precedes those that it starts. -/
def IdsPrecede : List String → List String → Prop
  | [], [] => False
  | [], _ :: _ => True
  | _ :: _, [] => False
  | a :: as, b :: bs => IdPrecedes a b ∨ a = b ∧ IdsPrecede as bs

/-- Pre-releases of one core version; each of them precedes the release. -/
def PrePrecedes (as bs : List String) : Prop :=
  as ≠ [] ∧ (bs = [] ∨ IdsPrecede as bs)

/-- Semantic Versioning 2.0.0 precedence, by its text. -/
def Precedes (v w : Version) : Prop :=
  v.major < w.major ∨ v.major = w.major ∧ (v.minor < w.minor ∨ v.minor = w.minor ∧
    (v.patch < w.patch ∨ v.patch = w.patch ∧ PrePrecedes v.pre w.pre))

namespace Version

/-- A numeric identifier is compared by its number, another one by its text. -/
theorem idKey_eq {id : String} (h : validId id = true) :
    Numeric id ∧ idKey id = Sum.inlₗ (numeral id) ∨ ¬ Numeric id ∧ idKey id = Sum.inrₗ id := by
  by_cases hnumeric : Numeric id
  · have hall : id.toList.all Char.isDigit = true := all_eq_true.mpr hnumeric
    simp only [validId, Bool.and_eq_true, hall] at h
    have hnumber : (number id).isSome = true := h.2
    obtain ⟨n, hn⟩ := isSome_iff_exists.mp hnumber
    have htext := toString_of_number hn
    have hkey : idKey id = Sum.inlₗ n := by
      rw [number] at hn
      split at hn
      · rw [idKey, hn]
      · cases hn
    have hvalue : numeral id = n := by
      rw [numeral, ← htext, toString_eq_repr, toList_repr, ofDigitChars_ten_toDigits]
    exact .inl ⟨hnumeric, hvalue ▸ hkey⟩
  · refine .inr ⟨hnumeric, ?_⟩
    cases hparse : parseU64 id with
    | none => rw [idKey, hparse]
    | some n =>
      refine absurd (fun c hc => ?_) hnumeric
      rw [eq_toString_of_parseU64 h hparse] at hc
      exact digits_isDigit n hc

theorem idKey_lt_iff {a b : String} (ha : validId a = true) (hb : validId b = true) :
    idKey a < idKey b ↔ IdPrecedes a b := by
  unfold IdPrecedes
  obtain ⟨hna, ha⟩ | ⟨hna, ha⟩ := idKey_eq ha
  · obtain ⟨hnb, hb⟩ | ⟨hnb, hb⟩ := idKey_eq hb
    · rw [ha, hb, Sum.Lex.inl_lt_inl_iff]
      simp [hna, hnb]
    · rw [ha, hb]
      simp [hna, hnb]
  · obtain ⟨hnb, hb⟩ | ⟨hnb, hb⟩ := idKey_eq hb
    · rw [ha, hb]
      simp [hna, hnb]
    · rw [ha, hb, Sum.Lex.inr_lt_inr_iff]
      simp [hna, hnb]

theorem map_idKey_lt_iff {as bs : List String} (ha : ∀ id ∈ as, validId id = true)
    (hb : ∀ id ∈ bs, validId id = true) : as.map idKey < bs.map idKey ↔ IdsPrecede as bs := by
  induction as generalizing bs with
  | nil =>
    cases bs with
    | nil => simp [IdsPrecede]
    | cons b bs => simp [IdsPrecede]
  | cons a as ih =>
    cases bs with
    | nil => simp [IdsPrecede]
    | cons b bs =>
      rw [forall_mem_cons] at ha hb
      have hinj : idKey a = idKey b ↔ a = b := ⟨idKey_inj ha.1 hb.1, fun heq => congrArg idKey heq⟩
      rw [map_cons, map_cons, cons_lt_cons_iff, IdsPrecede, idKey_lt_iff ha.1 hb.1, hinj,
        ih ha.2 hb.2]

theorem preKey_lt_preKey_iff (v w : Version) : v.preKey < w.preKey ↔ PrePrecedes v.pre w.pre := by
  unfold PrePrecedes preKey
  by_cases hv : v.pre = []
  · simp [hv]
  · by_cases hw : w.pre = []
    · simp [hv, hw, WithTop.coe_lt_top]
    · rw [if_neg hv, if_neg hw, WithTop.coe_lt_coe, map_idKey_lt_iff v.valid w.valid]
      simp [hv, hw]

/-- The order of versions is the precedence of Semantic Versioning. -/
theorem lt_iff_precedes {v w : Version} : v < w ↔ Precedes v w := by
  rw [lt_iff_rank, rank, rank, Prod.Lex.toLex_lt_toLex, Prod.Lex.toLex_lt_toLex,
    Prod.Lex.toLex_lt_toLex, preKey_lt_preKey_iff]
  rfl

theorem cmpPre_swap (as bs : List String) : (cmpPre as bs).swap = cmpPre bs as := by
  induction as generalizing bs with
  | nil =>
    cases bs with
    | nil => rfl
    | cons b bs => simp [cmpPre, Nat.compare_swap]
  | cons a as ih =>
    cases bs with
    | nil => simp [cmpPre, Nat.compare_swap]
    | cons b bs =>
      rw [cmpPre, cmpPre, Ordering.swap_then, ih, cmpId_eq_compare, cmpId_eq_compare,
        ← Std.OrientedCmp.eq_swap]

theorem cmp_swap (v w : Version) : (cmp v w).swap = cmp w v := by
  have hcore : ((compare v.major w.major).then
      ((compare v.minor w.minor).then (compare v.patch w.patch))).swap =
        (compare w.major v.major).then
          ((compare w.minor v.minor).then (compare w.patch v.patch)) := by
    rw [Ordering.swap_then, Ordering.swap_then, Nat.compare_swap, Nat.compare_swap,
      Nat.compare_swap]
  unfold cmp
  dsimp only
  rw [← hcore]
  generalize (compare v.major w.major).then
    ((compare v.minor w.minor).then (compare v.patch w.patch)) = core
  cases core with
  | lt => rfl
  | gt => rfl
  | eq =>
    cases hv : v.pre with
    | nil => cases hw : w.pre <;> rfl
    | cons a as =>
      cases hw : w.pre with
      | nil => rfl
      | cons b bs => exact cmpPre_swap (a :: as) (b :: bs)

theorem cmp_lt_iff {v w : Version} : cmp v w = .lt ↔ v < w := by
  rw [← cmp_gt_iff, ← cmp_swap v w]
  cases cmp v w <;> simp

theorem cmp_eq_iff {v w : Version} : cmp v w = .eq ↔ v = w := by
  constructor
  · intro heq
    obtain hlt | hsame | hgt := lt_trichotomy v w
    · rw [cmp_lt_iff.mpr hlt] at heq
      cases heq
    · exact hsame
    · rw [cmp_gt_iff.mpr hgt] at heq
      cases heq
  · rintro rfl
    cases hcmp : cmp v v with
    | lt => exact absurd (cmp_lt_iff.mp hcmp) (lt_irrefl v)
    | gt => exact absurd (cmp_gt_iff.mp hcmp) (lt_irrefl v)
    | eq => rfl

end Version

/-! ### Tags and directories -/

section Tags

theorem stripFront_append (front text : String) : stripFront front (front ++ text) = some text := by
  rw [stripFront, String.toList_append, if_pos (prefix_append _ _), drop_left, String.ofList_toList]

theorem eq_of_stripFront {front text rest : String} (h : stripFront front text = some rest) :
    text = front ++ rest := by
  rw [stripFront] at h
  split at h
  · next hfront =>
    obtain ⟨tail, htail⟩ := hfront
    obtain rfl := some.inj h
    rw [← String.toList_inj, String.toList_append, String.toList_ofList, ← htail, drop_left]
  · cases h

/-- **The tag of a version** names the version. -/
theorem tagVersion_tagName (host : HostPath) (v : Version) :
    tagVersion host (tagName host v) = some v := by
  unfold tagVersion tagName
  by_cases hroot : host.subdirectory = ""
  · rw [if_pos hroot, if_pos hroot]
    change (stripFront "v" ("v" ++ v.display) >>= parse) = some v
    rw [stripFront_append]
    exact v.parse_display
  · have hsplit : host.subdirectory ++ "/v" ++ v.display =
        host.subdirectory ++ ("/" ++ ("v" ++ v.display)) := by
      rw [String.append_assoc]
      rfl
    rw [if_neg hroot, if_neg hroot, hsplit, stripFront_append]
    change ((stripFront "/" ("/" ++ ("v" ++ v.display))) >>= fun rest =>
      stripFront "v" rest >>= parse) = some v
    rw [stripFront_append]
    change (stripFront "v" ("v" ++ v.display) >>= parse) = some v
    rw [stripFront_append]
    exact v.parse_display

variable {tag : String}

/-- The tag of a version, from the version that it names. -/
theorem eq_of_tagVersion {host : HostPath} {v : Version} (h : tagVersion host tag = some v)
    : tag = tagName host v := by
  unfold tagVersion at h
  obtain ⟨rest, hrest, h⟩ := bind_eq_some_iff.mp h
  obtain ⟨text, htext, h⟩ := bind_eq_some_iff.mp h
  have hv := display_of_parse h
  have htext := eq_of_stripFront htext
  unfold tagName
  split at hrest
  · next hroot =>
    obtain rfl := some.inj hrest
    rw [if_pos hroot, hv, htext]
  · next hdirectory =>
    obtain ⟨after, hafter, hrest⟩ := bind_eq_some_iff.mp hrest
    rw [if_neg hdirectory, hv, eq_of_stripFront hafter, eq_of_stripFront hrest, htext,
      String.append_assoc]
    rfl

/-- Texts with the same last separator agree before it. -/
theorem eq_of_append_cons {c : Char} {xs xs' ys ys' : List Char} (h : c ∉ ys) (h' : c ∉ ys')
    (heq : xs ++ c :: ys = xs' ++ c :: ys') : xs = xs' := by
  have hreverse := congrArg reverse heq
  simp only [reverse_append, reverse_cons, append_assoc, singleton_append] at hreverse
  have hsplit : some (ys.reverse, xs.reverse) = some (ys'.reverse, xs'.reverse) := by
    rw [← splitOnceChars_append (fun hmem => h (mem_reverse.mp hmem)),
      ← splitOnceChars_append (fun hmem => h' (mem_reverse.mp hmem)), hreverse]
  exact reverse_injective (Prod.mk.inj (some.inj hsplit)).2

/-- **A tag names a version** of packages in one directory only. -/
theorem subdirectory_of_tagVersion {host host' : HostPath} {v v' : Version}
    (h : tagVersion host tag = some v) (h' : tagVersion host' tag = some v') :
    host.subdirectory = host'.subdirectory := by
  have hslash := v.slash_notMem_display
  have hslash' := v'.slash_notMem_display
  have heq := (eq_of_tagVersion h).symm.trans (eq_of_tagVersion h')
  unfold tagName at heq
  by_cases hroot : host.subdirectory = ""
  · by_cases hroot' : host'.subdirectory = ""
    · rw [hroot, hroot']
    · rw [if_pos hroot, if_neg hroot'] at heq
      have hmem : '/' ∈ ("v" ++ v.display).toList := by rw [heq]; simp
      simp [hslash] at hmem
  · by_cases hroot' : host'.subdirectory = ""
    · rw [if_neg hroot, if_pos hroot'] at heq
      have hmem : '/' ∈ ("v" ++ v'.display).toList := by rw [← heq]; simp
      simp [hslash'] at hmem
    · rw [if_neg hroot, if_neg hroot'] at heq
      have hchars := congrArg String.toList heq
      rw [← String.toList_inj]
      refine @eq_of_append_cons '/' _ _ ('v' :: v.display.toList) ('v' :: v'.display.toList) ?_ ?_
        ?_
      · simp [hslash]
      · simp [hslash']
      · simpa using hchars

end Tags

/-! ### The base of a pseudo-version -/

/-- `b` is what the pseudo-version `p` is based on: the release before its patch, or the pre-release
that its identifiers start with. -/
def BaseOf (p b : Version) : Prop :=
  b.major = p.major ∧ b.minor = p.minor ∧
    (b.pre = [] ∧ b.patch + 1 = p.patch ∧ (∃ last, p.pre = ["0", last]) ∨
      b.pre ≠ [] ∧ b.patch = p.patch ∧ ∃ last, p.pre = b.pre ++ ["0", last])

section Pseudo

variable {p q b : Version} {c d : PseudoCommit}

theorem Version.eq_of_parts {v w : Version} (hmajor : v.major = w.major)
    (hminor : v.minor = w.minor) (hpatch : v.patch = w.patch) (hpre : v.pre = w.pre)
    : v = w := by
  cases v
  cases w
  cases hmajor
  cases hminor
  cases hpatch
  cases hpre
  rfl

/-- The identifier that a commit is named by. -/
def PseudoCommit.id (c : PseudoCommit) : String := c.time ++ String.singleton '-' ++ c.hash

/-- What a pseudo-version looks like. -/
structure Shape (p : Version) (c : PseudoCommit) : Prop where
  length : c.time.toList.length = 14
  digits : ∀ x ∈ c.time.toList, x.isDigit = true
  forms : (p.major = 0 ∧ p.minor = 0 ∧ p.patch = 0 ∧ p.pre = [c.id]) ∨
    ∃ front, p.pre = front ++ ["0", c.id] ∧ (front = [] → p.patch ≠ 0)

theorem shape_of_pseudoCommit (h : pseudoCommit p = some c) : Shape p c := by
  obtain ⟨last, hlast, h⟩ := bind_eq_some_iff.mp h
  obtain ⟨⟨time, hash⟩, hsplit, h⟩ := bind_eq_some_iff.mp h
  obtain ⟨base, hpre⟩ := List.getLast?_eq_some_iff.mp hlast
  have hbase : p.pre.dropLast = base := by rw [hpre, dropLast_concat]
  dsimp only at h
  rw [hbase] at h
  split at h
  · cases h
  · next hdigits =>
    split at h
    · cases h
    · next hform =>
      split at h
      · cases h
      · next hpatch =>
        obtain rfl := some.inj h
        have hid : last = PseudoCommit.id ⟨time, hash⟩ := (eq_of_splitOnce hsplit).symm
        simp only [digits, Bool.or_eq_true, Bool.not_eq_true', not_or, Bool.not_eq_false,
          Bool.and_eq_true, decide_eq_true_eq, List.all_eq_true] at hdigits
        refine ⟨hdigits.1.1, hdigits.1.2, ?_⟩
        by_cases huntagged : base = [] ∧ p.major = 0 ∧ p.minor = 0 ∧ p.patch = 0
        · obtain ⟨rfl, hmajor, hminor, hzero⟩ := huntagged
          exact .inl ⟨hmajor, hminor, hzero, by rw [hpre, hid, nil_append]⟩
        · have hzero : base.getLast? = some "0" := by
            by_contra hne
            exact hform ⟨huntagged, hne⟩
          obtain ⟨front, rfl⟩ := List.getLast?_eq_some_iff.mp hzero
          refine .inr ⟨front, by rw [hpre, hid, append_assoc]; rfl, ?_⟩
          rintro rfl hnone
          exact hpatch ⟨rfl, hnone⟩

/-- **The base** of a pseudo-version is the one of its form. -/
theorem pseudoBase_eq_some_iff (h : Shape p c) : pseudoBase p = some b ↔ BaseOf p b := by
  unfold pseudoBase BaseOf
  obtain ⟨-, -, -, hpre⟩ | ⟨front, hpre, hpatch⟩ := h.forms
  · rw [if_pos (by rw [hpre]; exact Nat.lt_succ_self 1), hpre]
    constructor
    · exact fun hnone => (nomatch hnone)
    · rintro ⟨-, -, ⟨-, -, last, hlast⟩ | ⟨-, -, last, hlast⟩⟩
      · exact absurd (congrArg length hlast) (by simp)
      · have hlength := congrArg length hlast
        simp at hlength
  · have hlength : p.pre.length = front.length + 2 := by rw [hpre, length_append]; rfl
    have htake : p.pre.take (p.pre.length - 2) = front := by
      rw [hlength, hpre, Nat.add_sub_cancel, take_left]
    have hlast : ∀ {front' : List String} {last : String}, p.pre = front' ++ ["0", last] →
        front' = front := fun heq => (append_inj_left' (hpre.symm.trans heq) rfl).symm
    rw [if_neg (by omega)]
    by_cases hfront : front = []
    · rw [if_pos (htake.trans hfront), if_neg (hpatch hfront)]
      have hpos : p.patch - 1 + 1 = p.patch := Nat.succ_pred_eq_of_ne_zero (hpatch hfront)
      constructor
      · intro heq
        obtain rfl := some.inj heq
        exact ⟨rfl, rfl, .inl ⟨rfl, hpos, c.id, by rw [hpre, hfront, nil_append]⟩⟩
      · rintro ⟨hmajor, hminor, ⟨hnil, hsucc, -⟩ | ⟨hne, -, last, heq⟩⟩
        · refine congrArg some (eq_of_parts hmajor.symm hminor.symm ?_ hnil.symm)
          change p.patch - 1 = b.patch
          omega
        · exact absurd ((hlast heq).trans hfront) hne
    · rw [if_neg (by rw [htake]; exact hfront)]
      constructor
      · intro heq
        obtain rfl := some.inj heq
        refine ⟨rfl, rfl, .inr ⟨?_, rfl, c.id, ?_⟩⟩
        · change p.pre.take _ ≠ []
          rw [htake]
          exact hfront
        · change p.pre = p.pre.take _ ++ _
          rw [htake, hpre]
      · rintro ⟨hmajor, hminor, ⟨-, -, last, heq⟩ | ⟨-, hsame, last, heq⟩⟩
        · exact absurd (hlast (heq.trans (nil_append _).symm)).symm hfront
        · refine congrArg some (eq_of_parts hmajor.symm hminor.symm hsame.symm ?_)
          change p.pre.take _ = b.pre
          rw [htake, hlast heq]

theorem idsPrecede_append (as : List String) {bs : List String} (hne : bs ≠ []) :
    IdsPrecede as (as ++ bs) := by
  induction as with
  | nil =>
    cases bs with
    | nil => exact absurd rfl hne
    | cons b bs => trivial
  | cons a as ih => exact .inr ⟨rfl, ih⟩

/-- **The base precedes** its pseudo-versions. -/
theorem precedes_of_baseOf (h : BaseOf p b) : Precedes b p := by
  obtain ⟨hmajor, hminor, ⟨-, hpatch, -⟩ | ⟨hne, hpatch, last, hpre⟩⟩ := h
  · exact .inr ⟨hmajor, .inr ⟨hminor, .inl (by omega)⟩⟩
  · refine .inr ⟨hmajor, .inr ⟨hminor, .inr ⟨hpatch, hne, .inr ?_⟩⟩⟩
    rw [hpre]
    exact idsPrecede_append _ (cons_ne_nil _ _)

/-- **A pseudo-version precedes** the release of its core version. -/
theorem precedes_release (h : Shape p c) {r : Version} (hmajor : p.major = r.major)
    (hminor : p.minor = r.minor) (hpatch : p.patch = r.patch) (hpre : r.pre = []) :
    Precedes p r := by
  refine .inr ⟨hmajor, .inr ⟨hminor, .inr ⟨hpatch, ?_, .inl hpre⟩⟩⟩
  obtain ⟨-, -, -, hid⟩ | ⟨front, hid, -⟩ := h.forms
  · rw [hid]
    exact cons_ne_nil _ _
  · rw [hid]
    exact append_ne_nil_of_right_ne_nil _ (cons_ne_nil _ _)

/-! ### Times -/

/-- The value of digits after a smaller value is smaller. -/
theorem ofDigitChars_lt {xs ys : List Char} (hlength : xs.length = ys.length)
    (hx : ∀ x ∈ xs, x.isDigit = true) {m n : ℕ} (h : m < n) :
    Nat.ofDigitChars 10 xs m < Nat.ofDigitChars 10 ys n := by
  induction xs generalizing ys m n with
  | nil =>
    obtain rfl := length_eq_zero_iff.mp hlength.symm
    exact h
  | cons x xs ih =>
    cases ys with
    | nil => exact absurd hlength (succ_ne_zero _)
    | cons y ys =>
      rw [ofDigitChars_cons, ofDigitChars_cons]
      refine ih (succ.inj hlength) (fun z hz => hx z (mem_cons_of_mem _ hz)) ?_
      have hdigit := hx x mem_cons_self
      simp only [Char.isDigit, Bool.and_eq_true, decide_eq_true_eq] at hdigit
      have hhigh : x.toNat ≤ 57 := hdigit.2
      change 10 * m + (x.toNat - 48) < 10 * n + (y.toNat - 48)
      omega

/-- Digits of a smaller value come first as text, whatever follows them. -/
theorem append_lt_append {xs ys : List Char} (hlength : xs.length = ys.length)
    (hx : ∀ x ∈ xs, x.isDigit = true) (hy : ∀ y ∈ ys, y.isDigit = true) {n : ℕ}
    (h : Nat.ofDigitChars 10 xs n < Nat.ofDigitChars 10 ys n) (us vs : List Char) :
    xs ++ us < ys ++ vs := by
  induction xs generalizing ys n with
  | nil =>
    obtain rfl := length_eq_zero_iff.mp hlength.symm
    exact absurd h (lt_irrefl _)
  | cons x xs ih =>
    cases ys with
    | nil => exact absurd hlength (succ_ne_zero _)
    | cons y ys =>
      obtain ⟨hx0, hx⟩ := forall_mem_cons.mp hx
      obtain ⟨hy0, hys⟩ := forall_mem_cons.mp hy
      have hrest : xs.length = ys.length := succ.inj hlength
      rw [ofDigitChars_cons, ofDigitChars_cons] at h
      rw [cons_append, cons_append, cons_lt_cons_iff]
      obtain hlt | rfl | hgt := lt_trichotomy x y
      · exact .inl hlt
      · exact .inr ⟨rfl, ih hrest hx hys h⟩
      · refine absurd (ofDigitChars_lt hrest.symm hys ?_) (lt_asymm h)
        have hval : y.toNat < x.toNat := hgt
        simp only [Char.isDigit, Bool.and_eq_true, decide_eq_true_eq] at hx0 hy0
        have hlow : 48 ≤ y.toNat := hy0.1
        change 10 * n + (y.toNat - 48) < 10 * n + (x.toNat - 48)
        omega

/-- Commits of different times are ordered as their times. -/
theorem idPrecedes_of_time (hp : Shape p c) (hq : Shape q d) (h : numeral c.time < numeral d.time) :
    IdPrecedes c.id d.id := by
  have hdash : ∀ e : PseudoCommit, ¬ Numeric e.id := fun e hnumeric =>
    absurd (hnumeric '-' (by simp [PseudoCommit.id])) (by decide)
  refine .inr (.inr ⟨hdash c, hdash d, ?_⟩)
  rw [String.lt_iff_toList_lt]
  simp only [PseudoCommit.id, String.append_assoc, String.toList_append]
  exact append_lt_append (hp.length.trans hq.length.symm) hp.digits hq.digits h _ _

theorem idsPrecede_append_append (as : List String) {bs bs' : List String} (h : IdsPrecede bs bs')
    : IdsPrecede (as ++ bs) (as ++ bs') := by
  induction as with
  | nil => exact h
  | cons a as ih => exact .inr ⟨rfl, ih⟩

/-- **Pseudo-versions of one base** are ordered as their times. -/
theorem precedes_of_time (hp : Shape p c) (hq : Shape q d) (hbase : pseudoBase p = pseudoBase q)
    (h : numeral c.time < numeral d.time) : Precedes p q := by
  have hid := idPrecedes_of_time hp hq h
  -- The core version and the identifiers before the last are those of the base.
  have hsame : p.major = q.major ∧ p.minor = q.minor ∧ p.patch = q.patch ∧
      ∃ front, p.pre = front ++ [c.id] ∧ q.pre = front ++ [d.id] := by
    cases hb : pseudoBase p with
    | none =>
      have hnone : ∀ {r : Version} {e : PseudoCommit}, Shape r e → pseudoBase r = none →
          r.major = 0 ∧ r.minor = 0 ∧ r.patch = 0 ∧ r.pre = [e.id] := by
        intro r e hr hrnone
        obtain hform | ⟨front, hpre, hpatch⟩ := hr.forms
        · exact hform
        · have hlength : r.pre.length = front.length + 2 := by
            rw [hpre, length_append]
            rfl
          have htake : r.pre.take (r.pre.length - 2) = front := by
            rw [hlength, hpre, Nat.add_sub_cancel, take_left]
          unfold pseudoBase at hrnone
          rw [if_neg (by omega)] at hrnone
          by_cases hfront : front = []
          · rw [if_pos (htake.trans hfront), if_neg (hpatch hfront)] at hrnone
            cases hrnone
          · rw [if_neg (by rw [htake]; exact hfront)] at hrnone
            cases hrnone
      obtain ⟨hmajor, hminor, hpatch, hpre⟩ := hnone hp hb
      obtain ⟨hmajor', hminor', hpatch', hpre'⟩ := hnone hq (hbase ▸ hb)
      exact ⟨hmajor.trans hmajor'.symm, hminor.trans hminor'.symm, hpatch.trans hpatch'.symm, [],
        hpre, hpre'⟩
    | some b =>
      have hlast : ∀ {r : Version} {e : PseudoCommit} {front : List String} {last : String},
          Shape r e → r.pre = front ++ ["0", last] → r.pre = (front ++ ["0"]) ++ [e.id] := by
        intro r e front last hr heq
        obtain ⟨-, -, -, hpre⟩ | ⟨front', hpre, -⟩ := hr.forms
        · have hlength := congrArg length (heq.symm.trans hpre)
          simp at hlength
        · obtain ⟨hsame, -⟩ := append_inj' (heq.symm.trans hpre) rfl
          rw [hpre, hsame, append_assoc]
          rfl
      obtain ⟨hmajor, hminor, hform⟩ := (pseudoBase_eq_some_iff hp).mp hb
      obtain ⟨hmajor', hminor', hform'⟩ := (pseudoBase_eq_some_iff hq).mp (hbase ▸ hb)
      refine ⟨hmajor.symm.trans hmajor', hminor.symm.trans hminor', ?_⟩
      obtain ⟨hnil, hpatch, last, hpre⟩ | ⟨hne, hpatch, last, hpre⟩ := hform
      · obtain ⟨-, hpatch', last', hpre'⟩ | ⟨hne', -, -⟩ := hform'
        · exact ⟨hpatch.symm.trans hpatch', ["0"], @hlast p c [] last hp hpre,
            @hlast q d [] last' hq hpre'⟩
        · exact absurd hnil hne'
      · obtain ⟨hnil', -, -⟩ | ⟨-, hpatch', last', hpre'⟩ := hform'
        · exact absurd hnil' hne
        · exact ⟨hpatch.symm.trans hpatch', b.pre ++ ["0"], hlast hp hpre, hlast hq hpre'⟩
  obtain ⟨hmajor, hminor, hpatch, front, hpre, hpre'⟩ := hsame
  refine .inr ⟨hmajor, .inr ⟨hminor, .inr ⟨hpatch, ?_, .inr ?_⟩⟩⟩
  · rw [hpre]
    exact append_ne_nil_of_right_ne_nil _ (cons_ne_nil _ _)
  · rw [hpre, hpre']
    exact idsPrecede_append_append front (.inl hid)

end Pseudo

/-! ### Versions, tags and pseudo-versions -/

/-- **Text and order of versions.** A version and its text determine each other; `cmp` is the
precedence of Semantic Versioning, a total order that holds different versions apart; a tag names
its version, for one directory; and a pseudo-version stands after its base, before the releases of
its core version, and among those of its base as its time does. -/
theorem versions_exact :
    (∀ (t : String) (v : Version), Version.parse t = some v → v.display = t) ∧
    (∀ v : Version, Version.parse v.display = some v) ∧
    (∀ v w : Version, Version.cmp v w = .eq ↔ v = w) ∧
    (∀ v w : Version, (Version.cmp v w).swap = Version.cmp w v) ∧
    (∀ u v w : Version, Version.cmp u v ≠ .gt → Version.cmp v w ≠ .gt → Version.cmp u w ≠ .gt) ∧
    (∀ v w : Version, Version.cmp v w = .lt ↔ Precedes v w) ∧
    (∀ (host : HostPath) (v : Version), tagVersion host (tagName host v) = some v) ∧
    (∀ (host host' : HostPath) (tag : String) (v v' : Version), tagVersion host tag = some v →
      tagVersion host' tag = some v' → host.subdirectory = host'.subdirectory) ∧
    (∀ (p : Version) (c : PseudoCommit), pseudoCommit p = some c →
      (∀ b, pseudoBase p = some b ↔ BaseOf p b) ∧
      (∀ b, BaseOf p b → Version.cmp b p = .lt) ∧
      (∀ r : Version, p.major = r.major → p.minor = r.minor → p.patch = r.patch → r.pre = [] →
        Version.cmp p r = .lt) ∧
      ∀ (q : Version) (d : PseudoCommit), pseudoCommit q = some d → pseudoBase p = pseudoBase q →
        numeral c.time < numeral d.time → Version.cmp p q = .lt) := by
  have hprecedes : ∀ v w : Version, Version.cmp v w = .lt ↔ Precedes v w := fun v w =>
    Version.cmp_lt_iff.trans Version.lt_iff_precedes
  have hle : ∀ v w : Version, Version.cmp v w ≠ .gt ↔ v ≤ w := fun v w =>
    (not_congr Version.cmp_gt_iff).trans not_lt
  refine ⟨fun t v => Version.display_of_parse, Version.parse_display, fun v w => Version.cmp_eq_iff,
    Version.cmp_swap, fun u v w huv hvw => ?_, hprecedes, tagVersion_tagName,
    fun host host' tag v v' => subdirectory_of_tagVersion, fun p c hp => ?_⟩
  · exact (hle u w).mpr (((hle u v).mp huv).trans ((hle v w).mp hvw))
  · have hshape := shape_of_pseudoCommit hp
    refine ⟨fun b => pseudoBase_eq_some_iff hshape, fun b hb => ?_,
      fun r hmajor hminor hpatch hpre => ?_, fun q d hq hbase htime => ?_⟩
    · exact (hprecedes b p).mpr (precedes_of_baseOf hb)
    · exact (hprecedes p r).mpr (precedes_release hshape hmajor hminor hpatch hpre)
    · exact (hprecedes p q).mpr (precedes_of_time hshape (shape_of_pseudoCommit hq) hbase htime)

end HdLang.Deps
