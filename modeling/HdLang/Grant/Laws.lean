import HdLang.Grant.Limits
import Mathlib.Data.List.Forall2

/-!
# The laws of grants

A grant does not depend on the order of the flags, a `false` denies whatever else is said, fewer
entries permit no more, the other keys do not matter, and the test grant adds the package directory
and the temporary directory. All but the last are laws of `resolveKey`, carried over to the test
grant by `limit_forTest`. The last one adds the directories by their *text*: it holds just when that
text names them (`lawful_iff`), as every text in UTF-8 does
(`spelled_of_utf8`).
-/

namespace HdLang.Grant

open List

variable {resolvePath now : Text → Text} {table table' flags flags' : Table} {key : String}

/-! ### Laws of one key -/

/-- The value with some of its scope entries. -/
def NarrowsValue (v w : GrantValue) : Prop :=
  v = w ∨ ∃ list list' : List Text, v = .scopes list ∧ w = .scopes list' ∧ list.Sublist list'

/-- The table with some of the scope entries of its lists. -/
def Narrows (table table' : Table) : Prop :=
  List.Forall₂ (fun p q : String × GrantValue => p.1 = q.1 ∧ NarrowsValue p.2 q.2) table table'

theorem Narrows.values (h : Narrows table table') (key : String) :
    List.Forall₂ NarrowsValue (values table key) (values table' key) := by
  induction h with
  | nil => exact List.Forall₂.nil
  | @cons p q _ _ hpq _ ih =>
    obtain ⟨hkey, hvalue⟩ := hpq
    simp only [Grant.values, filter_cons] at ih ⊢
    rw [hkey]
    by_cases hq : q.1 = key
    · simp only [hq, decide_true, if_true, map_cons]
      exact List.Forall₂.cons hvalue ih
    · simp only [hq, decide_false, Bool.false_eq_true, if_false]
      exact ih

theorem NarrowsValue.mem_iff {vs ws : List GrantValue} (h : List.Forall₂ NarrowsValue vs ws)
    {v : GrantValue} (hv : ∀ list, v ≠ .scopes list) : v ∈ vs ↔ v ∈ ws := by
  induction h with
  | nil => exact Iff.rfl
  | cons hvalue _ ih =>
    rw [mem_cons, mem_cons, ih]
    rcases hvalue with rfl | ⟨list, list', rfl, rfl, -⟩
    · exact Iff.rfl
    · simp [hv]

theorem NarrowsValue.getLast? {vs ws : List GrantValue} (h : List.Forall₂ NarrowsValue vs ws) :
    vs.getLast? = none ∧ ws.getLast? = none ∨
      ∃ v w, vs.getLast? = some v ∧ ws.getLast? = some w ∧ NarrowsValue v w := by
  have hrev := List.forall₂_reverse_iff.mpr h
  rw [List.getLast?_eq_head?_reverse, List.getLast?_eq_head?_reverse]
  generalize vs.reverse = vs', ws.reverse = ws' at hrev
  cases hrev with
  | nil => exact Or.inl ⟨rfl, rfl⟩
  | cons hvalue _ => exact Or.inr ⟨_, _, rfl, rfl, hvalue⟩

theorem NarrowsValue.listed {v w : GrantValue} (h : NarrowsValue v w) (base : Text) :
    listed resolvePath key base v ⊆ listed resolvePath key base w := by
  rcases h with rfl | ⟨list, list', rfl, rfl, hsub⟩
  · exact List.Subset.refl _
  · exact (hsub.map _).subset

/-- Fewer entries give a limit within the old one. -/
theorem resolveKey_narrows (htable : Narrows table table') (hflags : Narrows flags flags')
    (tableBase flagBase : Text) :
    Within (resolveKey resolvePath table tableBase flags flagBase key)
      (resolveKey resolvePath table' tableBase flags' flagBase key) := by
  have ht := htable.values key
  have hf := hflags.values key
  have hdeny : .deny ∈ values table key ++ values flags key ↔
      .deny ∈ values table' key ++ values flags' key := by
    rw [mem_append, mem_append, NarrowsValue.mem_iff ht (by simp),
      NarrowsValue.mem_iff hf (by simp)]
  have hnil : values flags key ≠ [] ↔ values flags' key ≠ [] := by
    rw [← length_pos_iff, ← length_pos_iff, hf.length_eq]
  have hall : .all ∈ values flags key ↔ .all ∈ values flags' key :=
    NarrowsValue.mem_iff hf (by simp)
  simp only [resolveKey, if_congr hdeny rfl rfl, if_congr hnil rfl rfl, if_congr hall rfl rfl]
  split
  · exact Within.same _
  · split
    · split
      · exact Within.same _
      · -- the flags' entries, one value after another
        apply Within.entries
        generalize values flags key = vs at hf
        generalize values flags' key = ws at hf
        induction hf with
        | nil => exact List.Subset.refl _
        | cons hvalue _ ih =>
          rw [flatMap_cons, flatMap_cons]
          exact append_subset.mpr ⟨
            List.Subset.trans (hvalue.listed flagBase) (subset_append_left _ _),
            List.Subset.trans ih (subset_append_right _ _)⟩
    · -- the table's last value
      rcases NarrowsValue.getLast? ht with ⟨hv, hw⟩ | ⟨v, w, hv, hw, hvalue⟩
      · rw [hv, hw]
        exact Within.same _
      · rw [hv, hw]
        rcases hvalue with rfl | ⟨list, list', rfl, rfl, hsub⟩
        · exact Within.same _
        · exact Within.entries (hsub.map _).subset

theorem resolveKey_perm (h : flags.Perm flags') (tableBase flagBase : Text) :
    Within (resolveKey resolvePath table tableBase flags flagBase key)
      (resolveKey resolvePath table tableBase flags' flagBase key) := by
  have hvalues : (values flags key).Perm (values flags' key) := (h.filter _).map _
  have hdeny : .deny ∈ values table key ++ values flags key ↔
      .deny ∈ values table key ++ values flags' key := by
    rw [mem_append, mem_append, hvalues.mem_iff]
  have hnil : values flags key ≠ [] ↔ values flags' key ≠ [] := by
    rw [← length_pos_iff, ← length_pos_iff, hvalues.length_eq]
  have hall : .all ∈ values flags key ↔ .all ∈ values flags' key := hvalues.mem_iff
  simp only [resolveKey, if_congr hdeny rfl rfl, if_congr hnil rfl rfl, if_congr hall rfl rfl]
  split
  · exact Within.same _
  · split
    · split
      · exact Within.same _
      · exact Within.entries (hvalues.flatMap_right _).subset
    · exact Within.same _

theorem resolveKey_deny (h : (key, .deny) ∈ table ++ flags) (tableBase flagBase : Text) :
    resolveKey resolvePath table tableBase flags flagBase key = some .deny := by
  have hmem : .deny ∈ values table key ++ values flags key := by
    rcases mem_append.mp h with h' | h'
    · exact mem_append_left _ (mem_values.mpr h')
    · exact mem_append_right _ (mem_values.mpr h')
  rw [resolveKey, if_pos hmem]

theorem resolveKey_congr (htable : values table key = values table' key)
    (hflags : values flags key = values flags' key) (tableBase flagBase : Text) :
    resolveKey resolvePath table tableBase flags flagBase key =
      resolveKey resolvePath table' tableBase flags' flagBase key := by
  rw [resolveKey, resolveKey, htable, hflags]

theorem resolveKey_unnamed (h : named table flags key = false) (tableBase flagBase : Text) :
    resolveKey resolvePath table tableBase flags flagBase key = none := by
  have hnot : ¬named table flags key = true := by rw [h]; decide
  rw [named_eq, not_or, not_not, not_not] at hnot
  rw [resolveKey, hnot.1, hnot.2]
  rfl

/-! ### Laws of a program's grant -/

/-- The grant of a program, or of a test case: `test` says which. -/
def grant (resolvePath : Text → Text) (test : Bool) (packageDir tempDir : Text)
    (table flags : Table) (cwd : Text) : Grants :=
  if test then forTest resolvePath table packageDir flags cwd tempDir
  else resolve resolvePath table packageDir flags cwd

theorem named_narrows (htable : Narrows table table') (hflags : Narrows flags flags') :
    named table flags key = named table' flags' key := by
  have hnil : ∀ {t t' : Table}, Narrows t t' → (values t key ≠ [] ↔ values t' key ≠ []) := by
    intro t t' h
    rw [← length_pos_iff, ← length_pos_iff, (h.values key).length_eq]
  rw [Bool.eq_iff_iff, named_eq, named_eq, hnil htable, hnil hflags]

theorem named_congr (htable : values table key = values table' key)
    (hflags : values flags key = values flags' key) :
    named table flags key = named table' flags' key := by
  rw [Bool.eq_iff_iff, named_eq, named_eq, htable, hflags]

theorem named_perm (h : flags.Perm flags') : named table flags key = named table flags' key := by
  rw [Bool.eq_iff_iff, named, named, (List.Perm.append_left table h).any_eq]

section Grants

variable {test : Bool} {packageDir tempDir cwd : Text}

/-- A comparison of limits carries over to the test grant. -/
theorem limit_grant_within (hnamed : named table flags key = named table' flags' key)
    (h : Within (resolveKey resolvePath table packageDir flags cwd key)
      (resolveKey resolvePath table' packageDir flags' cwd key)) :
    Within ((grant resolvePath test packageDir tempDir table flags cwd).limit key)
      ((grant resolvePath test packageDir tempDir table' flags' cwd).limit key) := by
  cases test with
  | false =>
    rw [grant, grant, if_neg (by decide), if_neg (by decide), limit_resolve, limit_resolve]
    exact h
  | true =>
    rw [grant, grant, if_pos rfl, if_pos rfl, limit_forTest, limit_forTest, hnamed]
    split
    · exact h.testLimit _ _
    · exact h

theorem limit_grant_deny (h : (key, .deny) ∈ table ++ flags) :
    (grant resolvePath test packageDir tempDir table flags cwd).limit key = some .deny := by
  cases test with
  | false => rw [grant, if_neg (by decide), limit_resolve, resolveKey_deny h]
  | true =>
    rw [grant, if_pos rfl, limit_forTest, resolveKey_deny h]
    split <;> rfl

end Grants

/-- What grants promise, in the package and with the temporary directory of a test case. -/
structure Lawful (resolvePath : Text → Text) (packageDir tempDir : Text) : Prop where
  /-- Only which flags there are matters, not their order. -/
  order : ∀ test table flags flags' cwd now key access, List.Perm flags flags' →
    ((grant resolvePath test packageDir tempDir table flags cwd).permits now key access =
      (grant resolvePath test packageDir tempDir table flags' cwd).permits now key access)
  /-- A `false` anywhere denies. -/
  deny : ∀ test table flags cwd now key access, (key, GrantValue.deny) ∈ table ++ flags →
    (grant resolvePath test packageDir tempDir table flags cwd).permits now key access = false
  /-- Fewer scope entries permit no more. -/
  narrow : ∀ test table table' flags flags' cwd now key access,
    Narrows table table' → Narrows flags flags' →
    (grant resolvePath test packageDir tempDir table flags cwd).permits now key access = true →
    (grant resolvePath test packageDir tempDir table' flags' cwd).permits now key access = true
  /-- The other keys do not matter. -/
  others : ∀ test table table' flags flags' cwd now key access,
    values table key = values table' key → values flags key = values flags' key →
    ((grant resolvePath test packageDir tempDir table flags cwd).permits now key access =
      (grant resolvePath test packageDir tempDir table' flags' cwd).permits now key access)
  /-- The test grant permits more paths only inside its directories. -/
  beyond : ∀ table flags cwd now key path base,
    (forTest resolvePath table packageDir flags cwd tempDir).permits now key (.path path base) →
    (resolve resolvePath table packageDir flags cwd).permits now key (.path path base) ∨
      ∃ d ∈ testDirs packageDir tempDir key, Inside (now (join base path)) (resolvePath d)
  /-- A path key that nothing names is limited to its directories. -/
  unnamed : ∀ table flags cwd now, ∀ key ∈ PATH_KEYS, ∀ path base, named table flags key = false →
    ((forTest resolvePath table packageDir flags cwd tempDir).permits now key (.path path base) ↔
      ∃ d ∈ testDirs packageDir tempDir key, Inside (now (join base path)) (resolvePath d))
  /-- The test grant is the program's for the other keys. -/
  rest : ∀ table flags cwd now, ∀ key ∉ PATH_KEYS, ∀ access,
    ((forTest resolvePath table packageDir flags cwd tempDir).permits now key access =
      (resolve resolvePath table packageDir flags cwd).permits now key access)
  /-- Whatever else the test grant permits, the text of a directory of it covers. -/
  texts : ∀ table flags cwd now key access,
    (forTest resolvePath table packageDir flags cwd tempDir).permits now key access →
    (resolve resolvePath table packageDir flags cwd).permits now key access ∨
      ∃ d ∈ testDirs packageDir tempDir key,
        covered now key access (toStringLossy (resolvePath d))

/-- The text of the path names it. -/
def Spelled (path : Text) : Prop := components (toStringLossy path) = components path

/-- The test grant permits what the program's does and what the texts of its directories cover. -/
theorem permits_forTest {packageDir tempDir cwd : Text} {access : Access}
    (h : (forTest resolvePath table packageDir flags cwd tempDir).permits now key access) :
    (resolve resolvePath table packageDir flags cwd).permits now key access ∨
      ∃ d ∈ testDirs packageDir tempDir key,
        covered now key access (toStringLossy (resolvePath d)) := by
  rw [permits_iff, limit_forTest] at h
  rw [permits_iff, limit_resolve]
  split at h
  next =>
    cases hl : resolveKey resolvePath table packageDir flags cwd key with
    | none => exact Or.inl trivial
    | some l =>
      rw [hl] at h
      cases l with
      | deny => exact h.elim
      | entries list =>
        obtain ⟨e, he, hcovered⟩ := h
        rcases mem_append.mp he with he' | he'
        · exact Or.inl ⟨e, he', hcovered⟩
        · obtain ⟨d, hd, rfl⟩ := mem_map.mp he'
          exact Or.inr ⟨d, hd, hcovered⟩
  next => exact Or.inl h

theorem permits_unnamed {packageDir tempDir cwd : Text} {access : Access} (hkey : key ∈ PATH_KEYS)
    (hnamed : named table flags key = false) :
    (forTest resolvePath table packageDir flags cwd tempDir).permits now key access ↔
      ∃ d ∈ testDirs packageDir tempDir key,
        covered now key access (toStringLossy (resolvePath d)) := by
  rw [permits_iff, limit_forTest, if_pos hkey, resolveKey_unnamed hnamed, hnamed]
  show (∃ e ∈ List.map _ _, _) ↔ _
  simp only [mem_map, exists_exists_and_eq_and]

theorem covered_path {path base e : Text} :
    covered now key (.path path base) e = true ↔ Inside (now (join base path)) e := by
  rw [covered, decide_eq_true_eq]

theorem Inside.trans {a b c : Text} (hab : Inside a b) (hbc : Inside b c) : Inside a c :=
  List.IsPrefix.trans hbc hab

theorem inside_refl (a : Text) : Inside a a := prefix_refl _

theorem spelled_iff {path : Text} :
    Spelled path ↔ Inside (toStringLossy path) path ∧ Inside path (toStringLossy path) := by
  constructor
  · intro h
    rw [Spelled] at h
    rw [Inside, Inside, h]
    exact ⟨prefix_refl _, prefix_refl _⟩
  · rintro ⟨h, h'⟩
    exact List.IsPrefix.eq_of_length h' (le_antisymm h'.length_le h.length_le)

/-- The texts of the test grant's directories cover what lies in the directories. -/
theorem texts_iff (resolvePath : Text → Text) (packageDir tempDir : Text) :
    (∀ key ∈ PATH_KEYS, ∀ target,
      (∃ d ∈ testDirs packageDir tempDir key, Inside target (toStringLossy (resolvePath d))) ↔
        ∃ d ∈ testDirs packageDir tempDir key, Inside target (resolvePath d)) ↔
    Spelled (resolvePath tempDir) ∧
      (Spelled (resolvePath packageDir) ∨
        Inside (resolvePath packageDir) (resolvePath tempDir) ∧
        Inside (toStringLossy (resolvePath packageDir)) (resolvePath tempDir)) := by
  have hread : testDirs packageDir tempDir "FsRead" = [packageDir, tempDir] := rfl
  have hwrite : testDirs packageDir tempDir "FsWrite" = [tempDir] := rfl
  constructor
  · intro h
    have htemp : Spelled (resolvePath tempDir) := by
      have h' := h "FsWrite" (by decide)
      simp only [hwrite, mem_singleton, exists_eq_left] at h'
      exact spelled_iff.mpr ⟨(h' _).mp (inside_refl _), (h' _).mpr (inside_refl _)⟩
    refine ⟨htemp, ?_⟩
    have h' := h "FsRead" (by decide)
    simp only [hread, mem_cons, not_mem_nil, or_false, exists_eq_or_imp, exists_eq_left] at h'
    obtain ⟨-, hback⟩ := spelled_iff.mp htemp
    obtain ⟨hforth, -⟩ := spelled_iff.mp htemp
    -- the directory and its text, each in the package directory or in the temporary one
    rcases (h' _).mp (Or.inl (inside_refl _)) with htext | htext <;>
      rcases (h' _).mpr (Or.inl (inside_refl _)) with hdir | hdir
    · exact Or.inl (spelled_iff.mpr ⟨htext, hdir⟩)
    · exact Or.inr ⟨hdir.trans hforth, htext.trans (hdir.trans hforth)⟩
    · exact Or.inr ⟨hdir.trans htext, htext⟩
    · exact Or.inr ⟨hdir.trans hforth, htext⟩
  · rintro ⟨htemp, hpackage⟩ key hkey target
    have hsame : Inside target (toStringLossy (resolvePath tempDir)) ↔
        Inside target (resolvePath tempDir) := by
      rw [Inside, Inside, htemp]
    rcases mem_cons.mp hkey with rfl | hkey'
    · simp only [hread, mem_cons, not_mem_nil, or_false, exists_eq_or_imp, exists_eq_left, hsame]
      rcases hpackage with hspelled | ⟨hdir, htext⟩
      · rw [Inside, hspelled]
        exact Iff.rfl
      · constructor
        · rintro (h | h)
          · exact Or.inr (h.trans htext)
          · exact Or.inr h
        · rintro (h | h)
          · exact Or.inr (h.trans hdir)
          · exact Or.inr h
    · rw [mem_singleton.mp hkey']
      simp only [hwrite, mem_singleton, exists_eq_left, hsame]

theorem testDirs_of_notMem {packageDir tempDir : Text} (h : key ∉ PATH_KEYS) :
    testDirs packageDir tempDir key = [] := by
  rw [PATH_KEYS, mem_cons, mem_singleton, not_or] at h
  rw [testDirs, if_neg h.1, if_neg h.2]

/-- **Grants are lawful**, in a package and with a temporary directory, just when the text of each
of these directories names it; that of the package directory need not when the directory and what
its text names lie in the temporary directory anyway. -/
theorem lawful_iff (resolvePath : Text → Text) (packageDir tempDir : Text) :
    Lawful resolvePath packageDir tempDir ↔ Spelled (resolvePath tempDir) ∧
      (Spelled (resolvePath packageDir) ∨
        Inside (resolvePath packageDir) (resolvePath tempDir) ∧
        Inside (toStringLossy (resolvePath packageDir)) (resolvePath tempDir)) := by
  rw [← texts_iff]
  constructor
  · intro h key hkey target
    -- with no table and no flags, and a path that the system resolves to the target
    have hnamed : named [] [] key = false := rfl
    have hpermits := h.unnamed [] [] [] (fun _ => target) key hkey [] [] hnamed
    rw [permits_unnamed hkey hnamed] at hpermits
    simpa only [covered_path] using hpermits
  · intro htexts
    have hagree : ∀ {g g' : Grants} {now key access},
        Within (g.limit key) (g'.limit key) → Within (g'.limit key) (g.limit key) →
        g.permits now key access = g'.permits now key access := by
      intro g g' now key access h h'
      rw [Bool.eq_iff_iff, permits_iff, permits_iff]
      exact ⟨fun hp => hp.of_within h, fun hp => hp.of_within h'⟩
    refine ⟨?_, ?_, ?_, ?_, ?_, ?_, ?_, ?_⟩
    · intro test table flags flags' cwd now key access hperm
      exact hagree (limit_grant_within (named_perm hperm) (resolveKey_perm hperm _ _))
        (limit_grant_within (named_perm hperm.symm) (resolveKey_perm hperm.symm _ _))
    · intro test table flags cwd now key access hmem
      rw [Bool.eq_false_iff, ne_eq, permits_iff, limit_grant_deny hmem]
      exact not_false
    · intro test table table' flags flags' cwd now key access htable hflags hpermits
      rw [permits_iff] at hpermits ⊢
      exact hpermits.of_within
        (limit_grant_within (named_narrows htable hflags) (resolveKey_narrows htable hflags _ _))
    · intro test table table' flags flags' cwd now key access htable hflags
      have hlimit := @resolveKey_congr resolvePath _ _ _ _ _ htable hflags packageDir cwd
      have hnamed := named_congr htable hflags
      exact hagree (limit_grant_within hnamed (hlimit ▸ Within.same _))
        (limit_grant_within hnamed.symm (hlimit ▸ Within.same _))
    · intro table flags cwd now key path base hpermits
      rcases permits_forTest hpermits with hold | hnew
      · exact Or.inl hold
      · by_cases hkey : key ∈ PATH_KEYS
        · simp only [covered_path] at hnew
          exact Or.inr ((htexts key hkey _).mp hnew)
        · rw [testDirs_of_notMem hkey] at hnew
          simp at hnew
    · intro table flags cwd now key hkey path base hnamed
      rw [permits_unnamed hkey hnamed]
      simp only [covered_path]
      exact htexts key hkey _
    · intro table flags cwd now key hkey access
      rw [Bool.eq_iff_iff, permits_iff, permits_iff, limit_forTest, if_neg hkey, limit_resolve]
    · intro table flags cwd now key access hpermits
      exact permits_forTest hpermits

/-- A package directory whose name is one byte that is no character: the test grant permits another
directory, named by U+FFFD. -/
theorem not_lawful : ¬Lawful id [47, 0xFF] [47, 116] := by
  intro h
  have hbeyond := (h.unnamed [] [] [] id "FsRead" (by decide) [47, 0xEF, 0xBF, 0xBD] [] (by decide)).mp
    (by decide +kernel)
  revert hbeyond
  decide +kernel

/-! ### Directories in UTF-8 -/

/-- The bytes are characters, one after another. -/
inductive Utf8 : Text → Prop
  | nil : Utf8 []
  | cons {c bs : Text} (hc : scan (c ++ bs) = (true, c.length)) (h : Utf8 bs) : Utf8 (c ++ bs)

theorem scan_pos {c bs : Text} (h : scan (c ++ bs) = (true, c.length)) : 0 < c.length := by
  cases c with
  | nil =>
    cases bs with
    | nil => simp [scan] at h
    | cons b bs =>
      exfalso
      simp only [scan, nil_append, length_nil] at h
      split at h <;> (try split at h) <;> (try split at h) <;> (try split at h) <;> simp at h
  | cons b c => exact Nat.succ_pos _

theorem toStringLossy_of_utf8 {bs : Text} (h : Utf8 bs) : toStringLossy bs = bs := by
  have hfuel : ∀ fuel, bs.length ≤ fuel → lossyFrom fuel bs = bs := by
    induction h with
    | nil => intro fuel _; cases fuel <;> rfl
    | @cons c bs hc _ ih =>
      intro fuel hfuel
      have hpos := scan_pos hc
      obtain ⟨fuel, rfl⟩ : ∃ f, fuel = f + 1 := ⟨fuel - 1, by
        rw [length_append] at hfuel
        omega⟩
      obtain ⟨b, rest, heq⟩ : ∃ b rest, c ++ bs = b :: rest := by
        cases c with
        | nil => exact absurd hpos (by simp)
        | cons b c => exact ⟨b, c ++ bs, rfl⟩
      rw [heq, lossyFrom, ← heq, hc]
      show (c ++ bs).take c.length ++ lossyFrom fuel ((c ++ bs).drop c.length) = _
      rw [take_left, drop_left, ih fuel (by rw [length_append] at hfuel; omega)]
  exact hfuel _ (le_refl _)

theorem spelled_of_utf8 {path : Text} (h : Utf8 path) : Spelled path := by
  rw [Spelled, toStringLossy_of_utf8 h]

end HdLang.Grant
