import HdLang.Cache.Invariant

/-!
# What one step changes

For each kind of change that a step makes, two facts: `Valid` is kept, and what is kept for a call
that watches `W`. A step that only opens, reads, locks or asks is `Quiet`: it keeps everything. The
others create a file of an id, add bytes to it, free a lock, start a listing, set the snapshot, rename
a pending file to a pack or a temporary one to the index, or remove a name.
-/

namespace HdLang.Cache

open Function Option Disk Keeps Unchanged

variable {κ : Type} {checksum : Bytes → Hash128} {s : Disk κ} {u n : ℕ} {W : Watch}

/-! ### Files are left alone -/

section Calm

variable {root : Bool} {handles : ℕ} {locks : ℕ → Option Handle} {missed : ℕ → Set Name}
  {snapshot : κ → Option Snapshot} {guard issued : _ → Option ℕ}

theorem Valid.calm (hs : Valid checksum s)
    (hissued : ∀ {id m}, s.issued id = some m → issued id = some m)
    (hsnapshot : ∀ {p st}, snapshot p = some st → st.Ok s) :
    Valid checksum
      { s with
        root := root, handles := handles, locks := locks, missed := missed, snapshot := snapshot
        guard := guard, issued := issued } where
  __ := hs
  made_issued hmade hid := by
    obtain ⟨m, hm⟩ := ne_none_iff_exists'.mp (hs.made_issued hmade hid)
    exact ne_none_iff_exists'.mpr ⟨m, hissued hm⟩
  snapshot hst :=
    { entries := (hsnapshot hst).entries
      files := (hsnapshot hst).files
      touched := (hsnapshot hst).touched }

theorem Keeps.calm (hroot : s.root = true → root = true)
    (hlocks : ∀ {i h}, i ∈ W.locks → h.owner = u → s.locks i = some h → locks i = some h)
    (hissued : ∀ {id m}, s.issued id = some m → issued id = some m)
    (hmissed : ∀ {name}, W.listing → s.Holds u → name ∈ s.missed u → name ∈ missed u)
    (hguard : ∀ {p op}, W.memory → s.calls u = some (p, op) → s.guard p = some u →
      guard p = some u ∧ snapshot p = s.snapshot p)
    (hmemory : ∀ {p op st}, W.memory → s.calls u = some (p, op) → s.Holds u →
      s.snapshot p = some st → ∃ st', snapshot p = some st' ∧ st'.entries = st.entries) :
    Keeps checksum u W s
      { s with
        root := root, handles := handles, locks := locks, missed := missed, snapshot := snapshot
        guard := guard, issued := issued } where
  issued := hissued
  calls := id
  made := id
  sealed := id
  packed := id
  data_sealed _ := rfl
  root := hroot
  lock := id
  locks := hlocks
  made_mine _ _ hmade := hmade
  sealed_mine _ _ _ hsealed := hsealed
  data_mine _ _ _ := rfl
  packed_mine _ hpacked := hpacked
  pending _ _ hdir := hdir
  tmp _ _ hdir := hdir
  pack _ _ hdir := hdir
  index _ _ := rfl
  indexed_pack _ _ _ hdir := hdir
  unindexed _ _ hindexed := hindexed
  saved _ := Iff.rfl
  missed hW hholds _ hname := hmissed hW hholds hname
  guard := hguard
  memory := hmemory

theorem Unchanged.calm :
    Unchanged checksum n s
      { s with
        root := root, handles := handles, locks := locks, missed := missed, snapshot := snapshot
        guard := guard, issued := issued } :=
  ⟨rfl, fun _ => rfl, Iff.rfl⟩

end Calm

/-- A step that keeps everything. -/
structure Quiet (checksum : Bytes → Hash128) (n : ℕ) (s s' : Disk κ) : Prop where
  valid : Valid checksum s'
  keeps : ∀ (u : ℕ) (W : Watch), Keeps checksum u W s s'
  unchanged : Unchanged checksum n s s'

section Quiet

variable (hs : Valid checksum s)
include hs

theorem Quiet.calm {root : Bool} {handles : ℕ} {locks : ℕ → Option Handle} {guard : κ → Option ℕ}
    {issued : ℕ → Option ℕ} (hroot : s.root = true → root = true)
    (hlocks : ∀ {i h}, s.locks i = some h → locks i = some h)
    (hguard : ∀ {p m}, s.guard p = some m → guard p = some m)
    (hissued : ∀ {id m}, s.issued id = some m → issued id = some m) :
    Quiet checksum n s
      { s with root := root, handles := handles, locks := locks, guard := guard, issued := issued } where
  valid := hs.calm hissued hs.snapshot
  keeps _ _ := Keeps.calm hroot (fun _ _ hlock => hlocks hlock) hissued (fun _ _ hname => hname)
    (fun _ _ hheld => ⟨hguard hheld, rfl⟩) (fun _ _ _ hst => ⟨_, hst, rfl⟩)
  unchanged := Unchanged.calm

theorem Quiet.refl : Quiet checksum n s s := Quiet.calm hs id id id id

theorem Quiet.opened : Quiet checksum n s s.opened := Quiet.calm hs id id id id

theorem Quiet.take {h : Handle} (hfree : s.locks h.file = none) : Quiet checksum n s (s.take h) := by
  refine Quiet.calm hs id (fun {i h'} hlock => ?_) id id
  have hne : i ≠ h.file := by
    rintro rfl
    rw [hfree] at hlock
    cases hlock
  rw [update_of_ne hne]
  exact hlock

end Quiet

/-! ### A new file -/

variable {i : ℕ}

section Create

variable {name : Name}

variable {other : Name}

theorem Disk.create_dir_of_ne (hne : other ≠ name) :
    (s.create name).dir other = s.dir other := update_of_ne hne _ _

theorem Disk.create_dir_self : (s.create name).dir name = some s.files := update_self _ _ _

theorem Disk.create_made_self : (s.create name).made s.files = some name := update_self _ _ _

theorem Disk.create_made_of_lt {i : ℕ} (hi : i < s.files) : (s.create name).made i = s.made i :=
  update_of_ne hi.ne _ _

theorem Disk.create_data_of_lt {i : ℕ} (hi : i < s.files) : (s.create name).data i = s.data i :=
  update_of_ne hi.ne _ _

variable (hs : Valid checksum s) (hname : name = .lock ∨ ∃ x, name.id? = some x)
  (hdir : s.dir name = none)
include hs hname hdir

theorem Disk.index_create : (s.create name).index checksum = s.index checksum := by
  have hne : Name.index ≠ name := by
    rintro rfl
    obtain hlock | ⟨x, hx⟩ := hname
    · cases hlock
    · cases hx
  exact index_congr (create_dir_of_ne hne) fun i hi => create_data_of_lt (hs.dir_lt hi)

omit hs hname in
theorem Disk.create_dir (h : s.dir other = some i) :
    (s.create name).dir other = some i := by
  have hne : other ≠ name := by
    rintro rfl
    rw [hdir] at h
    cases h
  rw [create_dir_of_ne hne]
  exact h

theorem Keeps.create (hW : ∀ x, name.id? = some x → x ∉ W.ids) :
    Keeps checksum u W s (s.create name) where
  issued := id
  calls := id
  made hmade := by
    rw [create_made_of_lt (hs.made_lt hmade)]
    exact hmade
  sealed := id
  packed := id
  data_sealed hi := create_data_of_lt (hs.lt_of_sealed hi)
  root := id
  lock := create_dir hdir
  locks _ _ hlock := hlock
  made_mine {i x made} hx hid hmade := by
    by_cases hi : i = s.files
    · subst hi
      rw [create_made_self] at hmade
      cases hmade
      exact absurd hx (hW x hid)
    · have heq : (s.create name).made i = s.made i := update_of_ne hi _ _
      rwa [heq] at hmade
  sealed_mine _ _ _ hsealed := hsealed
  data_mine _ _ hmade := create_data_of_lt (hs.made_lt hmade)
  packed_mine _ hpacked := hpacked
  pending _ _ h := create_dir hdir h
  tmp _ _ h := create_dir hdir h
  pack _ _ h := create_dir hdir h
  index _ _ := by
    refine create_dir_of_ne ?_
    rintro rfl
    obtain hlock | ⟨x, hx⟩ := hname
    · cases hlock
    · cases hx
  indexed_pack _ _ _ h := create_dir hdir h
  unindexed _ _ hindexed := by
    rw [Disk.Indexed, index_create hs hname hdir] at hindexed
    exact hindexed
  saved _ := Iff.rfl
  missed _ _ _ hmissed := hmissed
  guard _ _ hguard := ⟨hguard, rfl⟩
  memory _ _ _ hst := ⟨_, hst, rfl⟩

omit hname hdir in
/-- A name of a file is one from before, or the new one. -/
theorem Disk.create_dir_cases (h : (s.create name).dir other = some i) :
    (other = name ∧ i = s.files) ∨ (s.dir other = some i ∧ i < s.files) := by
  by_cases hother : other = name
  · subst hother
    rw [create_dir_self] at h
    cases h
    exact .inl ⟨rfl, rfl⟩
  · rw [create_dir_of_ne hother] at h
    exact .inr ⟨h, hs.dir_lt h⟩

omit hname hdir in
theorem Disk.create_made_cases {made : Name} (h : (s.create name).made i = some made) :
    (made = name ∧ i = s.files) ∨ (s.made i = some made ∧ i < s.files) := by
  by_cases hi : i = s.files
  · subst hi
    rw [create_made_self] at h
    cases h
    exact .inl ⟨rfl, rfl⟩
  · have heq : (s.create name).made i = s.made i := update_of_ne hi _ _
    rw [heq] at h
    exact .inr ⟨h, hs.made_lt h⟩

theorem Valid.create (hissued : ∀ x, name.id? = some x → s.issued x ≠ none)
    (hunmade : name.id? ≠ none → ∀ i, s.made i ≠ some name) :
    Valid checksum (s.create name) := by
  have hk : Keeps checksum 0 .nothing s (s.create name) :=
    Keeps.create hs hname hdir fun _ _ => Set.notMem_empty _
  exact
  { hs with
    made_lt := fun hmade => by
      obtain ⟨-, rfl⟩ | ⟨-, hi⟩ := create_made_cases hs hmade
      · exact Nat.lt_succ_self _
      · exact Nat.lt_succ_of_lt hi
    made_name := fun hmade => by
      obtain ⟨rfl, -⟩ | ⟨hmade, -⟩ := create_made_cases hs hmade
      · exact hname
      · exact hs.made_name hmade
    dir_made := fun h => by
      obtain ⟨rfl, rfl⟩ | ⟨h, -⟩ := create_dir_cases hs h
      · exact ⟨_, create_made_self, .inl rfl⟩
      · obtain ⟨made, hmade, hbecame⟩ := hs.dir_made h
        exact ⟨made, hk.made hmade, hbecame⟩
    dir_once := fun ha hb => by
      obtain ⟨rfl, rfl⟩ | ⟨ha, hlt⟩ := create_dir_cases hs ha
      · obtain ⟨rfl, -⟩ | ⟨-, hlt⟩ := create_dir_cases hs hb
        · rfl
        · exact absurd hlt (Nat.lt_irrefl _)
      · obtain ⟨-, rfl⟩ | ⟨hb, -⟩ := create_dir_cases hs hb
        · exact absurd hlt (Nat.lt_irrefl _)
        · exact hs.dir_once ha hb
    made_once := fun hid hi hj => by
      obtain ⟨rfl, rfl⟩ | ⟨hi', -⟩ := create_made_cases hs hi
      · obtain ⟨-, rfl⟩ | ⟨hj', -⟩ := create_made_cases hs hj
        · rfl
        · exact absurd hj' (hunmade hid _)
      · obtain ⟨rfl, rfl⟩ | ⟨hj', -⟩ := create_made_cases hs hj
        · exact absurd hi' (hunmade hid _)
        · exact hs.made_once hid hi' hj'
    made_issued := fun hmade hid => by
      obtain ⟨rfl, -⟩ | ⟨hmade, -⟩ := create_made_cases hs hmade
      · exact hissued _ hid
      · exact hs.made_issued hmade hid
    lock_stays := fun hmade => by
      obtain ⟨rfl, rfl⟩ | ⟨hmade, -⟩ := create_made_cases hs hmade
      · exact create_dir_self
      · exact hk.lock (hs.lock_stays hmade)
    packed_made := fun hpacked => hk.made (hs.packed_made hpacked)
    dir_packed := fun h => by
      obtain ⟨rfl, -⟩ | ⟨h, -⟩ := create_dir_cases hs h
      · obtain hlock | ⟨x, hx⟩ := hname
        · cases hlock
        · cases hx
      · exact hs.dir_packed h
    index_sealed := fun h => by
      obtain ⟨rfl, -⟩ | ⟨h, -⟩ := create_dir_cases hs h
      · obtain hlock | ⟨x, hx⟩ := hname
        · cases hlock
        · cases hx
      · exact hs.index_sealed h
    unsealed := fun h hid hsealed => by
      obtain ⟨-, rfl⟩ | ⟨h, -⟩ := create_dir_cases hs h
      · exact absurd (hs.lt_of_sealed hsealed) (Nat.lt_irrefl _)
      · exact hs.unsealed h hid hsealed
    sealed_made := fun hsealed => by
      rw [create_made_of_lt (hs.lt_of_sealed hsealed)]
      exact hs.sealed_made hsealed
    sealed_index := fun hmade hsealed => by
      have hlt := hs.lt_of_sealed hsealed
      rw [create_made_of_lt hlt] at hmade
      rw [create_data_of_lt hlt]
      obtain ⟨entries, hdecode, hsound⟩ := hs.sealed_index hmade hsealed
      exact ⟨entries, hdecode, hk.sound hs hsound⟩
    indexed := fun hindexed => by
      rw [Disk.Indexed, index_create hs hname hdir] at hindexed
      obtain ⟨j, hj⟩ := ne_none_iff_exists'.mp (hs.indexed hindexed)
      exact ne_none_iff_exists'.mpr ⟨j, create_dir hdir hj⟩
    snapshot := fun hst => hk.ok hs (hs.snapshot hst) }

end Create

/-! ### Same index -/

/-- A step that keeps the rows keeps what they hold. -/
theorem Unchanged.of_index {s' : Disk κ} (hs : Valid checksum s) (hs' : Valid checksum s')
    (hk : Keeps checksum u W s s') (hindex : s'.index checksum = s.index checksum)
    (hsaved : s'.saved n ↔ s.saved n) : Unchanged checksum n s s' where
  index := hindex
  held k := by
    rw [hs'.held_eq, hs.held_eq, hindex]
    exact hk.content_eq hs hs.sound_index k
  saved := hsaved

theorem Unchanged.create {name : Name} (hs : Valid checksum s)
    (hname : name = .lock ∨ ∃ x, name.id? = some x) (hdir : s.dir name = none)
    (hissued : ∀ x, name.id? = some x → s.issued x ≠ none)
    (hunmade : name.id? ≠ none → ∀ i, s.made i ≠ some name) :
    Unchanged checksum n s (s.create name) :=
  of_index hs (Valid.create hs hname hdir hissued hunmade)
    (Keeps.create (u := 0) (W := .nothing) hs hname hdir fun _ _ => Set.notMem_empty _)
    (index_create hs hname hdir) Iff.rfl

theorem Quiet.create_lock (hs : Valid checksum s) (hdir : s.dir .lock = none) :
    Quiet checksum n s (s.create .lock) where
  valid := Valid.create hs (.inl rfl) hdir nofun fun h => absurd rfl h
  keeps _ _ := create hs (.inl rfl) hdir nofun
  unchanged := create hs (.inl rfl) hdir nofun fun h => absurd rfl h

/-! ### More bytes -/

section Append

variable {file : ℕ} {bytes : Bytes}

theorem Disk.append_data_of_ne (hi : i ≠ file) :
    (s.append file bytes).data i = s.data i := update_of_ne hi _ _

theorem Disk.append_data_self : (s.append file bytes).data file = s.data file ++ bytes :=
  update_self _ _ _

variable (hs : Valid checksum s) (hunsealed : ¬s.sealed file)
include hs hunsealed

omit hs in
theorem Disk.append_data_sealed (hi : s.sealed i) :
    (s.append file bytes).data i = s.data i := by
  refine append_data_of_ne ?_
  rintro rfl
  exact hunsealed hi

theorem Disk.index_append : (s.append file bytes).index checksum = s.index checksum :=
  index_congr rfl fun _ hdir => append_data_sealed hunsealed (hs.index_sealed hdir)

theorem Keeps.append (hW : ∀ {name x}, s.made file = some name → name.id? = some x → x ∉ W.ids) :
    Keeps checksum u W s (s.append file bytes) where
  issued := id
  calls := id
  made := id
  sealed := id
  packed := id
  data_sealed hi := append_data_sealed hunsealed hi
  root := id
  lock := id
  locks _ _ hlock := hlock
  made_mine _ _ hmade := hmade
  sealed_mine _ _ _ hsealed := hsealed
  data_mine hx hid hmade := by
    refine append_data_of_ne ?_
    rintro rfl
    exact hW hmade hid hx
  packed_mine _ hpacked := hpacked
  pending _ _ h := h
  tmp _ _ h := h
  pack _ _ h := h
  index _ _ := rfl
  indexed_pack _ _ _ h := h
  unindexed _ _ hindexed := by
    rw [Disk.Indexed, index_append hs hunsealed] at hindexed
    exact hindexed
  saved _ := Iff.rfl
  missed _ _ _ hmissed := hmissed
  guard _ _ hguard := ⟨hguard, rfl⟩
  memory _ _ _ hst := ⟨_, hst, rfl⟩

theorem Valid.append : Valid checksum (s.append file bytes) := by
  have hk : Keeps checksum 0 .nothing s (s.append file bytes) :=
    Keeps.append hs hunsealed fun _ _ => Set.notMem_empty _
  exact
  { hs with
    sealed_index := fun hmade hsealed => by
      rw [append_data_sealed hunsealed hsealed]
      obtain ⟨entries, hdecode, hsound⟩ := hs.sealed_index hmade hsealed
      exact ⟨entries, hdecode, hk.sound hs hsound⟩
    indexed := fun hindexed => by
      rw [Disk.Indexed, index_append hs hunsealed] at hindexed
      exact hs.indexed hindexed
    snapshot := fun hst => hk.ok hs (hs.snapshot hst) }

theorem Unchanged.append : Unchanged checksum n s (s.append file bytes) :=
  of_index hs (Valid.append hs hunsealed)
    (Keeps.append (u := 0) (W := .nothing) hs hunsealed fun _ _ => Set.notMem_empty _)
    (index_append hs hunsealed) Iff.rfl

end Append

/-! ### Locks, listings and the snapshot -/

section Memory

variable (hs : Valid checksum s)
include hs

theorem Valid.release {h : Handle} : Valid checksum (s.release h) := hs.calm id hs.snapshot

omit hs in
theorem Keeps.release {h : Handle} (hW : h.owner = u → h.file ∉ W.locks) :
    Keeps checksum u W s (s.release h) := by
  refine calm id (fun {i h'} hi howner hlock => ?_) id (fun _ _ hname => hname)
    (fun _ _ hguard => ⟨hguard, rfl⟩) fun _ _ _ hst => ⟨_, hst, rfl⟩
  split
  · next hheld =>
    have hne : i ≠ h.file := by
      rintro rfl
      rw [hheld] at hlock
      cases hlock
      exact hW howner hi
    rw [update_of_ne hne]
    exact hlock
  · exact hlock

variable {missed : Set Name}

theorem Valid.listing :
    Valid checksum { s with missed := Function.update s.missed n missed } :=
  hs.calm id hs.snapshot

omit hs in
theorem Keeps.listing (hW : u = n → ¬W.listing) :
    Keeps checksum u W s { s with missed := Function.update s.missed n missed } := by
  refine calm id (fun _ _ hlock => hlock) id (fun hlisting _ hname => ?_)
    (fun _ _ hguard => ⟨hguard, rfl⟩) fun _ _ _ hst => ⟨_, hst, rfl⟩
  rw [update_of_ne fun hu => hW hu hlisting]
  exact hname

variable [DecidableEq κ] {p : κ} {st : Option Snapshot}

/-- The memory of a process after its snapshot is set. -/
def Disk.remember (s : Disk κ) (p : κ) (st : Option Snapshot) : Disk κ :=
  { s with snapshot := Function.update s.snapshot p st, guard := Function.update s.guard p none }

theorem Valid.remember (hst : ∀ {st'}, st = some st' → st'.Ok s) :
    Valid checksum (s.remember p st) := by
  refine hs.calm id fun {p' st'} hget => ?_
  by_cases hp : p' = p
  · subst hp
    rw [update_self] at hget
    exact hst hget
  · rw [update_of_ne hp] at hget
    exact hs.snapshot hget

omit hs in
theorem Keeps.remember (hguard : s.guard p = some n) (hW : u = n → ¬W.memory)
    (hentries : u ≠ n → s.Holds u → ∀ {st₀}, s.snapshot p = some st₀ →
      ∃ st', st = some st' ∧ st'.entries = st₀.entries) :
    Keeps checksum u W s (s.remember p st) := by
  have hne : W.memory → u ≠ n := fun hmemory hu => hW hu hmemory
  refine calm id (fun _ _ hlock => hlock) id (fun _ _ hname => hname)
    (fun {p' op} hmemory _ hheld => ?_) fun {p' op st₀} hmemory _ hholds hget => ?_
  · have hp : p' ≠ p := by
      rintro rfl
      rw [hguard] at hheld
      exact hne hmemory (some.inj hheld).symm
    rw [update_of_ne hp, update_of_ne hp]
    exact ⟨hheld, rfl⟩
  · by_cases hp : p' = p
    · subst hp
      rw [update_self]
      exact hentries (hne hmemory) hholds hget
    · rw [update_of_ne hp]
      exact ⟨st₀, hget, rfl⟩

end Memory

end HdLang.Cache
