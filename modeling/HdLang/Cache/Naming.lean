import HdLang.Cache.Step

/-!
# Renaming and removing

The steps that change what a name stands for: a pending file becomes a pack, which no row names yet;
a temporary file becomes the index, and its rows are the rows from then on; a name goes. Each keeps
`Valid` under the conditions that its caller has to meet, and keeps what a call watches unless it is
one of these names.
-/

namespace HdLang.Cache

open Function Option Disk

variable {κ : Type} {checksum : Bytes → Hash128} {s : Disk κ} {u n : ℕ} {W : Watch}

/-! ### A rename in general -/

variable {j f : ℕ}

section Rename

variable {old new : Name} {i : ℕ}

variable {name : Name}

theorem Disk.rename_dir_of_ne (hold : name ≠ old) (hnew : name ≠ new) :
    (s.rename n old new i).dir name = s.dir name := by
  show update (update s.dir new (some i)) old none name = _
  rw [update_of_ne hold, update_of_ne hnew]

theorem Disk.rename_dir_new (hne : new ≠ old) : (s.rename n old new i).dir new = some i := by
  show update (update s.dir new (some i)) old none new = _
  rw [update_of_ne hne, update_self]

theorem Disk.rename_dir_old : (s.rename n old new i).dir old = none := update_self _ _ _

/-- A name after a rename is the new one, or one from before. -/
theorem Disk.rename_dir_cases (hne : new ≠ old) (h : (s.rename n old new i).dir name = some j) :
    (name = new ∧ j = i) ∨ (name ≠ new ∧ name ≠ old ∧ s.dir name = some j) := by
  by_cases hold : name = old
  · rw [hold, rename_dir_old] at h
    cases h
  · by_cases hnew : name = new
    · rw [hnew, rename_dir_new hne] at h
      exact .inl ⟨hnew, (some.inj h).symm⟩
    · rw [rename_dir_of_ne hold hnew] at h
      exact .inr ⟨hnew, hold, h⟩

theorem Valid.rename_once (hs : Valid checksum s) (hdir : s.dir old = some i) (hne : new ≠ old)
    {a b : Name} (ha : (s.rename n old new i).dir a = some f)
    (hb : (s.rename n old new i).dir b = some f) : a = b := by
  obtain ⟨rfl, rfl⟩ | ⟨-, hold, ha'⟩ := rename_dir_cases hne ha
  · obtain ⟨rfl, -⟩ | ⟨-, hold, hb'⟩ := rename_dir_cases hne hb
    · rfl
    · exact absurd (hs.dir_once hb' hdir) hold
  · obtain ⟨-, rfl⟩ | ⟨-, -, hb'⟩ := rename_dir_cases hne hb
    · exact absurd (hs.dir_once ha' hdir) hold
    · exact hs.dir_once ha' hb'

end Rename

/-! ### A pending file becomes a pack -/

section Pack

variable {id i : ℕ}

/-- The disk on which the lease's file is already its pack. -/
def Disk.promise (s : Disk κ) (id file : ℕ) : Disk κ :=
  { s with packed := Function.update s.packed id (some file) }

theorem Disk.promise_packed_self : (s.promise id i).packed id = some i := update_self _ _ _

theorem Disk.promise_packed_of_ne (hj : j ≠ id) :
    (s.promise id i).packed j = s.packed j := update_of_ne hj _ _

theorem Disk.rename_packed (j : ℕ) :
    (s.rename n (.pending id) (.pack id) i).packed j = (s.promise id i).packed j := by
  show (if Name.pack id = Name.pack j then some i else s.packed j) = _
  by_cases hj : j = id
  · rw [hj, if_pos rfl, promise_packed_self]
  · rw [if_neg fun heq => hj (Name.pack.inj heq).symm, promise_packed_of_ne hj]

variable (hs : Valid checksum s) (hdir : s.dir (.pending id) = some i)
  (hpacked : s.packed id = none)

theorem Disk.index_renamePack :
    (s.rename n (.pending id) (.pack id) i).index checksum = s.index checksum :=
  index_congr (rename_dir_of_ne (by simp) (by simp)) fun _ _ => rfl

include hpacked in
theorem Disk.rename_packed_some (h : s.packed j = some f) :
    (s.rename n (.pending id) (.pack id) i).packed j = some f := by
  have hj : j ≠ id := by
    rintro rfl
    rw [hpacked] at h
    cases h
  rw [rename_packed, promise_packed_of_ne hj]
  exact h

include hs hdir hpacked

theorem Keeps.renamePack (hW : id ∉ W.ids) :
    Keeps checksum u W s (s.rename n (.pending id) (.pack id) i) where
  issued := fun h => h
  calls := fun h => h
  made := fun h => h
  sealed := .inl
  packed := rename_packed_some hpacked
  data_sealed _ := rfl
  root := fun h => h
  lock h := (rename_dir_of_ne (by simp) (by simp)).trans h
  locks _ _ hlock := hlock
  made_mine _ _ hmade := hmade
  sealed_mine {j x name} hx hid hmade hsealed := by
    refine hsealed.resolve_right ?_
    rintro rfl
    rw [hs.made_of_pending hdir] at hmade
    cases hmade
    cases hid
    exact hW hx
  data_mine _ _ _ := rfl
  packed_mine {j f} hj h := by
    have hne : j ≠ id := fun heq => hW (heq ▸ hj)
    rwa [rename_packed, promise_packed_of_ne hne] at h
  pending {j f} hj _ h := by
    have hne : j ≠ id := fun heq => hW (heq ▸ hj)
    exact (rename_dir_of_ne (by simpa using hne) (by simp)).trans h
  tmp _ _ h := (rename_dir_of_ne (by simp) (by simp)).trans h
  pack {j f} hj _ h := by
    have hne : j ≠ id := fun heq => hW (heq ▸ hj)
    exact (rename_dir_of_ne (by simp) (by simpa using hne)).trans h
  index _ _ := rename_dir_of_ne (by simp) (by simp)
  indexed_pack {j f} _ _ _ h := by
    have hne : j ≠ id := by
      rintro rfl
      rw [hs.dir_packed h] at hpacked
      cases hpacked
    exact (rename_dir_of_ne (by simp) (by simpa using hne)).trans h
  unindexed _ _ hindexed := by
    rwa [Disk.Indexed, index_renamePack] at hindexed
  saved _ := ⟨fun h => h.resolve_right (by simp), .inl⟩
  missed _ _ _ hname := ⟨hname, by simp⟩
  guard _ _ hguard := ⟨hguard, rfl⟩
  memory _ _ _ hst := ⟨_, hst, rfl⟩

theorem Valid.renamePack : Valid checksum (s.rename n (.pending id) (.pack id) i) := by
  have hk : Keeps checksum 0 .nothing s (s.rename n (.pending id) (.pack id) i) :=
    Keeps.renamePack hs hdir hpacked (Set.notMem_empty id)
  have hmade := hs.made_of_pending hdir
  exact
  { hs with
    dir_made := fun h => by
      obtain ⟨rfl, rfl⟩ | ⟨-, -, h⟩ := rename_dir_cases (by simp) h
      · exact ⟨_, hmade, .inr (.inr ⟨id, rfl, rfl⟩)⟩
      · exact hs.dir_made h
    dir_once := hs.rename_once hdir (by simp)
    lock_stays := fun h => hk.lock (hs.lock_stays h)
    packed_made := fun {j f} h => by
      by_cases hj : j = id
      · rw [rename_packed, hj, promise_packed_self] at h
        cases h
        exact hj ▸ hmade
      · rw [rename_packed, promise_packed_of_ne hj] at h
        exact hs.packed_made h
    packed_sealed := fun {j f} h => by
      by_cases hj : j = id
      · rw [rename_packed, hj, promise_packed_self] at h
        exact .inr (some.inj h).symm
      · rw [rename_packed, promise_packed_of_ne hj] at h
        exact .inl (hs.packed_sealed h)
    dir_packed := fun {j f} h => by
      obtain ⟨hname, rfl⟩ | ⟨-, -, h⟩ := rename_dir_cases (by simp) h
      · cases hname
        rw [rename_packed, promise_packed_self]
      · exact rename_packed_some hpacked (hs.dir_packed h)
    index_sealed := fun h => by
      obtain ⟨hname, -⟩ | ⟨-, -, h⟩ := rename_dir_cases (by simp) h
      · cases hname
      · exact .inl (hs.index_sealed h)
    unsealed := fun h hid hsealed => by
      obtain ⟨rfl, -⟩ | ⟨-, hold, h'⟩ := rename_dir_cases (by simp) h
      · exact absurd rfl hid
      · obtain hsealed | rfl := hsealed
        · exact hs.unsealed h' hid hsealed
        · exact hold (hs.dir_once h' hdir)
    sealed_made := fun hsealed => by
      obtain hsealed | rfl := hsealed
      · exact hs.sealed_made hsealed
      · exact ne_none_iff_exists'.mpr ⟨_, hmade⟩
    sealed_index := fun h hsealed => by
      obtain hsealed | rfl := hsealed
      · obtain ⟨entries, hdecode, hsound⟩ := hs.sealed_index h hsealed
        exact ⟨entries, hdecode, hk.sound hs hsound⟩
      · have hname : some (Name.pending id) = some (.tmp _) := hmade.symm.trans h
        cases hname
    indexed := fun {j} hindexed => by
      rw [Disk.Indexed, index_renamePack] at hindexed
      obtain ⟨f, hf⟩ := ne_none_iff_exists'.mp (hs.indexed hindexed)
      have hne : j ≠ id := by
        rintro rfl
        rw [hs.dir_packed hf] at hpacked
        cases hpacked
      rw [rename_dir_of_ne (by simp) (by simpa using hne), hf]
      exact some_ne_none f
    snapshot := fun hst => hk.ok hs (hs.snapshot hst)
    saved_calls := fun hsaved => hs.saved_calls (hsaved.resolve_right (by simp)) }

theorem Unchanged.renamePack : Unchanged checksum n s (s.rename n (.pending id) (.pack id) i) :=
  Unchanged.of_index hs (Valid.renamePack hs hdir hpacked)
    (Keeps.renamePack (u := 0) (W := .nothing) hs hdir hpacked (Set.notMem_empty _))
    index_renamePack
    ⟨fun h => h.resolve_right (by simp), .inl⟩

end Pack

/-! ### A temporary file becomes the index -/

section Index

variable {x i : ℕ} {entries : Entries} (hs : Valid checksum s) (hdir : s.dir (.tmp x) = some i)
  (hdecode : decode checksum (s.data i) = .ok entries) (hsound : s.Sound entries)
  (hpresent : ∀ {k loc}, entries.get? k = some loc → s.dir (.pack loc.pack) ≠ none)

theorem Disk.renameIndex_packed (j : ℕ) :
    (s.rename n (.tmp x) .index i).packed j = s.packed j := by
  show (if Name.index = Name.pack j then some i else s.packed j) = _
  exact if_neg (by simp)

include hdecode in
theorem Disk.index_renameIndex :
    (s.rename n (.tmp x) .index i).index checksum = entries :=
  index_of_some (rename_dir_new (by simp)) hdecode

include hs hdir hdecode

theorem Keeps.renameIndex (hx : x ∉ W.ids) (hindex : W.index → u ≠ n ∧ ¬s.Holds u)
    (hnew : ∀ {k loc}, W.index → entries.get? k = some loc →
      s.Indexed checksum loc.pack ∨ loc.pack ∉ W.ids) :
    Keeps checksum u W s (s.rename n (.tmp x) .index i) where
  issued := id
  calls := id
  made := id
  sealed := .inl
  packed h := (renameIndex_packed _).trans h
  data_sealed _ := rfl
  root := id
  lock h := (rename_dir_of_ne (by simp) (by simp)).trans h
  locks _ _ hlock := hlock
  made_mine _ _ hmade := hmade
  sealed_mine {j y name} hy hid hmade hsealed := by
    refine hsealed.resolve_right ?_
    rintro rfl
    rw [hs.made_of_tmp hdir] at hmade
    cases hmade
    cases hid
    exact hx hy
  data_mine _ _ _ := rfl
  packed_mine _ h := (renameIndex_packed _).symm.trans h
  pending _ _ h := (rename_dir_of_ne (by simp) (by simp)).trans h
  tmp {y f} hy _ h := by
    have hne : y ≠ x := fun heq => hx (heq ▸ hy)
    exact (rename_dir_of_ne (by simpa using hne) (by simp)).trans h
  pack _ _ h := (rename_dir_of_ne (by simp) (by simp)).trans h
  index hW hholds := absurd hholds (hindex hW).2
  indexed_pack _ _ _ h := (rename_dir_of_ne (by simp) (by simp)).trans h
  unindexed {id} hW hid hindexed := by
    rw [Disk.Indexed, index_renameIndex hdecode] at hindexed
    obtain ⟨k, loc, hget, rfl⟩ := hindexed
    exact (hnew hW hget).resolve_right fun hne => hne hid
  saved hW := ⟨fun h => h.resolve_right fun hn => (hindex hW).1 hn.1, .inl⟩
  missed _ _ _ hname := ⟨hname, by simp⟩
  guard _ _ hguard := ⟨hguard, rfl⟩
  memory _ _ _ hst := ⟨_, hst, rfl⟩

include hsound hpresent

theorem Valid.renameIndex (hcalls : s.calls n ≠ none) :
    Valid checksum (s.rename n (.tmp x) .index i) := by
  have hk : Keeps checksum 0 .nothing s (s.rename n (.tmp x) .index i) :=
    Keeps.renameIndex hs hdir hdecode (Set.notMem_empty x) False.elim fun h => h.elim
  have hmade := hs.made_of_tmp hdir
  exact
  { hs with
    dir_made := fun h => by
      obtain ⟨rfl, rfl⟩ | ⟨-, -, h⟩ := rename_dir_cases (by simp) h
      · exact ⟨_, hmade, .inr (.inl ⟨rfl, x, rfl⟩)⟩
      · exact hs.dir_made h
    dir_once := hs.rename_once hdir (by simp)
    lock_stays := fun h => hk.lock (hs.lock_stays h)
    packed_made := fun h => hs.packed_made ((renameIndex_packed _).symm.trans h)
    packed_sealed := fun h => .inl (hs.packed_sealed ((renameIndex_packed _).symm.trans h))
    dir_packed := fun h => by
      obtain ⟨hname, -⟩ | ⟨-, -, h⟩ := rename_dir_cases (by simp) h
      · cases hname
      · exact (renameIndex_packed _).trans (hs.dir_packed h)
    index_sealed := fun h => by
      obtain ⟨-, rfl⟩ | ⟨hne, -, -⟩ := rename_dir_cases (by simp) h
      · exact .inr rfl
      · exact absurd rfl hne
    unsealed := fun h hid hsealed => by
      obtain ⟨rfl, -⟩ | ⟨-, hold, h'⟩ := rename_dir_cases (by simp) h
      · exact absurd rfl hid
      · obtain hsealed | rfl := hsealed
        · exact hs.unsealed h' hid hsealed
        · exact hold (hs.dir_once h' hdir)
    sealed_made := fun hsealed => by
      obtain hsealed | rfl := hsealed
      · exact hs.sealed_made hsealed
      · exact ne_none_iff_exists'.mpr ⟨_, hmade⟩
    sealed_index := fun h hsealed => by
      obtain hsealed | rfl := hsealed
      · obtain ⟨entries, hdecode, hsound⟩ := hs.sealed_index h hsealed
        exact ⟨entries, hdecode, hk.sound hs hsound⟩
      · exact ⟨entries, hdecode, hk.sound hs hsound⟩
    indexed := fun hindexed => by
      rw [Disk.Indexed, index_renameIndex hdecode] at hindexed
      obtain ⟨k, loc, hget, rfl⟩ := hindexed
      rw [rename_dir_of_ne (by simp) (by simp)]
      exact hpresent hget
    snapshot := fun hst => hk.ok hs (hs.snapshot hst)
    saved_calls := fun hsaved => by
      obtain hsaved | ⟨rfl, -⟩ := hsaved
      · exact hs.saved_calls hsaved
      · exact hcalls }

/-- The store holds from then on what the rows hold. -/
theorem Disk.held_renameIndex (hcalls : s.calls n ≠ none) (k : Key) :
    (s.rename n (.tmp x) .index i).held checksum k = s.content entries k := by
  have hk : Keeps checksum 0 .nothing s (s.rename n (.tmp x) .index i) :=
    Keeps.renameIndex hs hdir hdecode (Set.notMem_empty x) False.elim fun h => h.elim
  rw [(Valid.renameIndex hs hdir hdecode hsound hpresent hcalls).held_eq, index_renameIndex hdecode]
  exact hk.content_eq hs hsound k

end Index

/-! ### A name goes -/

section Remove

variable {name : Name}

variable {other : Name}

theorem Disk.remove_dir_of_ne (hne : other ≠ name) :
    (s.remove n name).dir other = s.dir other := update_of_ne hne _ _

theorem Disk.remove_dir_self : (s.remove n name).dir name = none := update_self _ _ _

theorem Disk.remove_dir_some {i : ℕ} (h : (s.remove n name).dir other = some i) :
    other ≠ name ∧ s.dir other = some i := by
  by_cases hne : other = name
  · rw [hne, remove_dir_self] at h
    cases h
  · rw [remove_dir_of_ne hne] at h
    exact ⟨hne, h⟩

theorem Disk.index_remove (hne : name ≠ .index) :
    (s.remove n name).index checksum = s.index checksum :=
  index_congr (remove_dir_of_ne (Ne.symm hne)) fun _ _ => rfl

theorem Disk.index_removeIndex : (s.remove n .index).index checksum = .empty :=
  index_of_none remove_dir_self

theorem Disk.get?_index_remove {k : Key} {loc : Location}
    (h : ((s.remove n name).index checksum).get? k = some loc) :
    name ≠ .index ∧ (s.index checksum).get? k = some loc := by
  by_cases hne : name = .index
  · rw [hne, index_removeIndex] at h
    cases h
  · rw [index_remove hne] at h
    exact ⟨hne, h⟩

variable (hlock : name ≠ .lock) (hpack : ∀ {id}, name = .pack id → ¬s.Indexed checksum id)
include hlock hpack

/-- What is watched is none of the name. -/
structure Spares (u n : ℕ) (W : Watch) (s : Disk κ) (name : Name) : Prop where
  pending : ∀ {id i}, name = .pending id → id ∈ W.ids → s.dir name = some i →
    ¬(s.Owns u i ∨ s.Holds u)
  tmp : ∀ {x}, name = .tmp x → x ∈ W.ids → ¬s.Holds u
  pack : ∀ {id}, name = .pack id → id ∈ W.ids → ¬s.Holds u
  index : name = .index → W.index → u ≠ n ∧ ¬s.Holds u

theorem Keeps.remove (hW : Spares u n W s name) : Keeps checksum u W s (s.remove n name) where
  issued := id
  calls := id
  made := id
  sealed := id
  packed := id
  data_sealed _ := rfl
  root := id
  lock h := (remove_dir_of_ne (Ne.symm hlock)).trans h
  locks _ _ h := h
  made_mine _ _ hmade := hmade
  sealed_mine _ _ _ hsealed := hsealed
  data_mine _ _ _ := rfl
  packed_mine _ h := h
  pending hid hlive h := by
    refine (remove_dir_of_ne ?_).trans h
    rintro rfl
    exact hW.pending rfl hid h hlive
  tmp hx hholds h := by
    refine (remove_dir_of_ne ?_).trans h
    rintro rfl
    exact hW.tmp rfl hx hholds
  pack hid hholds h := by
    refine (remove_dir_of_ne ?_).trans h
    rintro rfl
    exact hW.pack rfl hid hholds
  index hindex hholds := by
    refine remove_dir_of_ne ?_
    rintro rfl
    exact (hW.index rfl hindex).2 hholds
  indexed_pack _ _ hindexed h := by
    refine (remove_dir_of_ne ?_).trans h
    rintro rfl
    exact hpack rfl hindexed
  unindexed _ _ hindexed := by
    obtain ⟨k, loc, hget, hloc⟩ := hindexed
    exact ⟨k, loc, (get?_index_remove hget).2, hloc⟩
  saved hindex := ⟨fun h => h.resolve_right fun ⟨hn, hname⟩ => (hW.index hname hindex).1 hn, .inl⟩
  missed _ _ hindexed hname := by
    refine ⟨hname, ?_⟩
    rintro rfl
    exact hpack rfl hindexed
  guard _ _ hguard := ⟨hguard, rfl⟩
  memory _ _ _ hst := ⟨_, hst, rfl⟩

variable (hs : Valid checksum s)
include hs

theorem Valid.remove (hcalls : s.calls n ≠ none) : Valid checksum (s.remove n name) := by
  have hk : Keeps checksum 0 .nothing s (s.remove n name) := Keeps.remove hlock hpack
      ⟨fun _ hid _ => hid.elim, fun _ hx => hx.elim, fun _ hid => hid.elim, fun _ h => h.elim⟩
  exact
  { hs with
    dir_made := fun h => hs.dir_made (remove_dir_some h).2
    dir_once := fun ha hb => hs.dir_once (remove_dir_some ha).2 (remove_dir_some hb).2
    lock_stays := fun h => hk.lock (hs.lock_stays h)
    dir_packed := fun h => hs.dir_packed (remove_dir_some h).2
    index_sealed := fun h => hs.index_sealed (remove_dir_some h).2
    unsealed := fun h => hs.unsealed (remove_dir_some h).2
    sealed_index := fun h hsealed => by
      obtain ⟨entries, hdecode, hsound⟩ := hs.sealed_index h hsealed
      exact ⟨entries, hdecode, hk.sound hs hsound⟩
    indexed := fun {id} hindexed => by
      obtain ⟨k, loc, hget, hloc⟩ := hindexed
      have hold : s.Indexed checksum id := ⟨k, loc, (get?_index_remove hget).2, hloc⟩
      rw [remove_dir_of_ne fun heq => hpack heq.symm hold]
      exact hs.indexed hold
    snapshot := fun hst => hk.ok hs (hs.snapshot hst)
    saved_calls := fun hsaved => by
      obtain hsaved | ⟨rfl, -⟩ := hsaved
      · exact hs.saved_calls hsaved
      · exact hcalls }

theorem Unchanged.remove (hcalls : s.calls n ≠ none) (hne : name ≠ .index) :
    Unchanged checksum n s (s.remove n name) :=
  Unchanged.of_index hs (Valid.remove hlock hpack hs hcalls)
    (Keeps.remove (u := 0) (W := .nothing) hlock hpack
      ⟨fun _ hid _ => hid.elim, fun _ hx => hx.elim, fun _ hid => hid.elim, fun _ h => h.elim⟩)
    (index_remove hne) ⟨fun h => h.resolve_right fun ⟨_, hname⟩ => hne hname, .inl⟩

end Remove

end HdLang.Cache
