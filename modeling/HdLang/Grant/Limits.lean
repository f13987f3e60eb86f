import HdLang.Grant.Model

/-!
# Limits

Every check asks for the limit of one key, and for its entries when it has some (`permits_eq`). So
each law of grants is one of limits: `resolveKey` for the key alone (`limit_resolve`), and `testLimit`
of it for the test grant (`limit_forTest`). `Within` compares limits, and with them what they permit
(`permits_of_within`).
-/

namespace HdLang.Grant

open List Grants

variable {resolvePath now : Text → Text} {table flags : Table} {key : String} {g : Grants}

/-! ### The limit of one key -/

theorem mem_dedup {keys : List String} {k : String} : k ∈ dedup keys ↔ k ∈ keys := by
  induction keys using dedup.induct with
  | case1 b keys ih =>
    rw [dedup, if_pos rfl, ih]
    simp
  | case2 a b keys hne ih =>
    rw [dedup, if_neg hne, mem_cons, ih, ← mem_cons]
  | case3 keys h =>
    rw [dedup]
    exact h

theorem mem_values {v : GrantValue} : v ∈ values table key ↔ (key, v) ∈ table := by
  simp only [values, mem_map, mem_filter, decide_eq_true_eq, Prod.exists]
  constructor
  · rintro ⟨k, w, ⟨hmem, rfl⟩, rfl⟩
    exact hmem
  · intro hmem
    exact ⟨key, v, ⟨hmem, rfl⟩, rfl⟩

theorem values_eq_nil (h : key ∉ table.map Prod.fst) : values table key = [] := by
  apply eq_nil_iff_forall_not_mem.mpr
  intro v hv
  exact h (mem_map_of_mem (mem_values.mp hv))

theorem named_eq : named table flags key = true ↔
    values table key ≠ [] ∨ values flags key ≠ [] := by
  have hvalues : ∀ t : Table, values t key ≠ [] ↔ ∃ p ∈ t, p.1 = key := by
    intro t
    rw [values, ne_eq, map_eq_nil_iff, filter_eq_nil_iff]
    simp
  rw [hvalues, hvalues, named]
  simp only [any_append, Bool.or_eq_true, any_eq_true, decide_eq_true_eq]

theorem limit_resolve (tableBase flagBase : Text) :
    (resolve resolvePath table tableBase flags flagBase).limit key =
      resolveKey resolvePath table tableBase flags flagBase key := by
  have hfind : ∀ keys : List String, ((keys.filterMap fun k =>
      (resolveKey resolvePath table tableBase flags flagBase k).map fun l => (k, l)).find?
        fun p => p.1 = key).map Prod.snd =
      if key ∈ keys then resolveKey resolvePath table tableBase flags flagBase key else none := by
    intro keys
    induction keys with
    | nil => rfl
    | cons k keys ih =>
      by_cases hk : k = key
      · subst hk
        rw [if_pos mem_cons_self]
        cases hl : resolveKey resolvePath table tableBase flags flagBase k with
        | none =>
          rw [filterMap_cons, hl]
          show ((keys.filterMap _).find? _).map _ = _
          rw [ih, hl]
          split <;> rfl
        | some l =>
          rw [filterMap_cons, hl]
          show ((List.find? _ ((k, l) :: _)).map _) = _
          rw [List.find?_cons_of_pos (by simp)]
          rfl
      · have hmem : key ∈ k :: keys ↔ key ∈ keys := by
          rw [mem_cons, or_iff_right (Ne.symm hk)]
        rw [filterMap_cons, if_congr hmem rfl rfl, ← ih]
        cases resolveKey resolvePath table tableBase flags flagBase k with
        | none => rfl
        | some l =>
          show ((List.find? _ ((k, l) :: _)).map _) = _
          rw [List.find?_cons_of_neg (by simpa using hk)]
  rw [limit, resolve, hfind]
  split
  next => rfl
  next hmem =>
    -- a key that nothing names has no values to be limited by
    rw [mem_dedup, mem_mergeSort, map_append, mem_append, not_or] at hmem
    rw [resolveKey, values_eq_nil hmem.1, values_eq_nil hmem.2]
    rfl

/-! ### The test grant -/

/-- What the test grant makes of a path key's limit. -/
def testLimit (named : Bool) (resolved : List Text) : Option Limit → Option Limit
  | some l => some (l.extend resolved)
  | none => if named then none else some (.entries resolved)

theorem find?_update (key k : String) (f : Limit → Limit) (limits : List (String × Limit)) :
    ((update key f limits).find? fun p => p.1 = k).map Prod.snd =
      if k = key then ((limits.find? fun p => p.1 = k).map Prod.snd).map f
      else (limits.find? fun p => p.1 = k).map Prod.snd := by
  induction limits with
  | nil => split <;> rfl
  | cons p limits ih =>
    obtain ⟨k', l⟩ := p
    rw [update]
    by_cases hk' : k' = key
    · subst hk'
      rw [if_pos rfl]
      by_cases hk : k = k'
      · subst hk
        simp
      · have hne : ¬k' = k := fun h => hk h.symm
        simp [hk, hne]
    · rw [if_neg hk']
      by_cases hk : k' = k
      · subst hk
        simp [hk']
      · simp [hk, ih]

theorem limit_addDirs (named : Bool) (resolved : List Text) (k : String) :
    (addDirs named g key resolved).limit k =
      if k = key then testLimit named resolved (g.limit key) else g.limit k := by
  cases hl : g.limit key with
  | some l =>
    simp only [addDirs, hl]
    rw [limit, find?_update]
    split
    next hk =>
      subst hk
      rw [limit] at hl
      rw [hl]
      rfl
    next => rfl
  | none =>
    simp only [addDirs, hl, testLimit]
    cases named with
    | true =>
      show g.limit k = if k = key then none else g.limit k
      by_cases hk : k = key
      · rw [if_pos hk, hk, hl]
      · rw [if_neg hk]
    | false =>
      show limit ⟨g.limits ++ [(key, .entries resolved)]⟩ k =
        if k = key then some (.entries resolved) else g.limit k
      rw [limit] at hl
      simp only [limit, List.find?_append, Option.map_or]
      split
      next hk =>
        subst hk
        rw [hl]
        simp
      next hk =>
        have hne : ¬key = k := fun h => hk h.symm
        simp [hne]

theorem limit_forTest (packageDir cwd tempDir : Text) :
    (forTest resolvePath table packageDir flags cwd tempDir).limit key =
      if key ∈ PATH_KEYS then
        testLimit (named table flags key)
          ((testDirs packageDir tempDir key).map fun d => toStringLossy (resolvePath d))
          (resolveKey resolvePath table packageDir flags cwd key)
      else resolveKey resolvePath table packageDir flags cwd key := by
  simp only [forTest, foldl_cons, foldl_nil, limit_addDirs, limit_resolve, PATH_KEYS, mem_cons,
    not_mem_nil, or_false]
  by_cases hread : key = "FsRead"
  · subst hread
    simp
  · by_cases hwrite : key = "FsWrite"
    · subst hwrite
      simp
    · simp [hread, hwrite]

/-! ### What a limit permits -/

/-- What a provider asks for under a key. -/
inductive Access
  | path (path cwd : Text)
  | host (host : Text) (port : Option ℕ)
  | name (name : Text)
  deriving DecidableEq, Repr

/-- Whether a grant permits the access, by the check for its kind. -/
def Grants.permits (now : Text → Text) (g : Grants) (key : String) : Access → Bool
  | .path path cwd => g.coversPath now key path cwd
  | .host host port => g.coversHost key host port
  | .name name => g.coversName key name

/-- Whether an entry of `key` covers the access. -/
def covered (now : Text → Text) (key : String) : Access → Text → Bool
  | .path path cwd, e => Inside (now (join cwd path)) e
  | .host host port, e => hostCovered host port e
  | .name name, e => nameCovered key name e

/-- Whether a limit permits the access. -/
def Permits (now : Text → Text) (key : String) (access : Access) : Option Limit → Prop
  | none => True
  | some .deny => False
  | some (.entries list) => ∃ e ∈ list, covered now key access e = true

theorem permits_iff (access : Access) :
    g.permits now key access = true ↔ Permits now key access (g.limit key) := by
  cases access with
  | path path cwd =>
    rw [permits, coversPath]
    cases g.limit key with
    | none => simp [Permits]
    | some l => cases l <;> simp [Permits, covered]
  | host host port =>
    rw [permits, coversHost]
    cases g.limit key with
    | none => simp [Permits]
    | some l => cases l <;> simp [Permits, covered]
  | name name =>
    rw [permits, coversName]
    cases g.limit key with
    | none => simp [Permits]
    | some l => cases l <;> simp [Permits, covered]

/-- The first limit is the second with some of its entries. -/
inductive Within : Option Limit → Option Limit → Prop
  | same (l : Option Limit) : Within l l
  | entries {list list' : List Text} (h : list ⊆ list') :
    Within (some (.entries list)) (some (.entries list'))

theorem Permits.of_within {access : Access} {l l' : Option Limit} (h : Within l l')
    (hl : Permits now key access l) : Permits now key access l' := by
  cases h with
  | same => exact hl
  | entries hsub =>
    obtain ⟨e, he, hcovered⟩ := hl
    exact ⟨e, hsub he, hcovered⟩

theorem Within.testLimit (named : Bool) (resolved : List Text) {l l' : Option Limit}
    (h : Within l l') : Within (testLimit named resolved l) (testLimit named resolved l') := by
  cases h with
  | same => exact Within.same _
  | entries hsub =>
    apply Within.entries
    intro e he
    rcases mem_append.mp he with he' | he'
    · exact mem_append_left _ (hsub he')
    · exact mem_append_right _ he'

end HdLang.Grant
