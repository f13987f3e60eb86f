import HdLang.Cache.Store

/-!
# What the store keeps

`Valid` is what holds of the disk between any two steps: names and files belong together, every file
that is or was the index reads as rows that are good, and the packs of the present rows are there.
`Keeps` says that a step leaves alone what a call watches, `Rely` what a call may count on while
others run: what it made, wrote and locked stays, an id of its own is used by no one else, and under
the publication lock the index and the packs that count stay. `Change` says what a step of a call may
do to the index, and `rules` joins them.
-/

namespace HdLang.Cache

open Option Disk

/-- The id in the name of a file that is made by a call. -/
def Name.id? : Name → Option ℕ
  | .tmp id | .pending id => some id
  | _ => none

/-- The range of a row in a pack's bytes. -/
def slice (data : Bytes) (loc : Location) : Bytes := (data.drop loc.offset).take loc.len

/-- A range is the same when bytes are added behind it. -/
theorem slice_append {data bytes : Bytes} {loc : Location} (h : loc.offset + loc.len ≤ data.length)
    : slice (data ++ bytes) loc = slice data loc := by
  rw [slice, slice, List.drop_append_of_le_length (by omega), List.take_append_of_le_length]
  rw [List.length_drop]
  omega

/-- The last bytes that a batch gives a key. -/
def lastOf : Batch → Key → Option Bytes
  | [], _ => none
  | (kind, hash, bytes) :: batch, k =>
    (lastOf batch k).or (if key kind.asU16 hash = k then some bytes else none)

/-- A row without its mark. -/
def Location.unmarked (loc : Location) : Location := { loc with used := 0 }

/-- The rows are the same up to their marks. -/
def SameRows (e e' : Entries) : Prop :=
  ∀ k, (e.get? k).map Location.unmarked = (e'.get? k).map Location.unmarked

namespace Disk

variable {κ : Type} (checksum : Bytes → Hash128) (s : Disk κ)

/-! ### The store's contents -/

/-- The rows of the index: none when there is no index. -/
def index : Entries :=
  match s.dir .index with
  | none => .empty
  | some i =>
    match decode checksum (s.data i) with
    | .ok entries => entries
    | .error _ => .empty

/-- What the rows hold for a key, by the packs' files. -/
def content (entries : Entries) (k : Key) : Option Bytes :=
  (entries.get? k).bind fun loc => (s.packed loc.pack).map fun j => slice (s.data j) loc

/-- What the store holds for a key: the bytes of its row's range. -/
def held (k : Key) : Option Bytes :=
  ((s.index checksum).get? k).bind fun loc =>
    (s.dir (.pack loc.pack)).map fun i => slice (s.data i) loc

/-- A row names the pack. -/
def Indexed (id : ℕ) : Prop := ∃ k loc, (s.index checksum).get? k = some loc ∧ loc.pack = id

/-- The bytes were given to a publish under this key. -/
def Published (k : Key) (bytes : Bytes) : Prop :=
  ∃ n p batch kind hash, s.calls n = some (p, .publish batch) ∧ (kind, hash, bytes) ∈ batch ∧
    key kind.asU16 hash = k

/-- The row's range is inside a pack and holds bytes that were published under the key. -/
def Good (k : Key) (loc : Location) : Prop :=
  ∃ j, s.packed loc.pack = some j ∧ loc.offset + loc.len ≤ (s.data j).length ∧
    s.Published k (slice (s.data j) loc)

/-- Every row is good. -/
def Sound (entries : Entries) : Prop := ∀ k loc, entries.get? k = some loc → s.Good k loc

/-- The call holds the file's lock. -/
def Owns (u i : ℕ) : Prop := ∃ h, s.locks i = some h ∧ h.owner = u

/-- The call holds the publication lock. -/
def Holds (u : ℕ) : Prop := ∃ i, s.dir .lock = some i ∧ s.Owns u i

/-- A live writer: the pending file is of the call's id, and the call holds its lock, or the
publication lock. -/
structure Leases (u id i : ℕ) : Prop where
  issued : s.issued id = some u
  dir : s.dir (.pending id) = some i
  live : s.Owns u i ∨ s.Holds u

end Disk

/-- The rows are good, the open files are those of their packs, and a mark is a time. -/
structure Snapshot.Ok {κ : Type} (s : Disk κ) (st : Snapshot) : Prop where
  entries : s.Sound st.entries
  files : ∀ {id : ℕ} {o : Opened}, st.files.get? id = some o → s.packed id = some o.file.file
  touched : ∀ {k : Key} {used : ℕ}, st.touched.get? k = some used → used < U64

/-- A file made under one name may be found under the other. -/
def Became (made name : Name) : Prop :=
  name = made ∨ (name = .index ∧ ∃ x, made = .tmp x) ∨ ∃ id, name = .pack id ∧ made = .pending id

/-- What a call watches: ids of its own, the files whose locks it needs, and whether it needs the
index, the memory of its process and its listing. -/
structure Watch where
  ids : Set ℕ
  locks : Set ℕ
  index : Prop
  memory : Prop
  listing : Prop

/-- A call that watches nothing. -/
def Watch.nothing : Watch := ⟨∅, ∅, False, False, False⟩

section Rules

variable {κ : Type} (checksum : Bytes → Hash128)

/-- What holds between steps. -/
structure Valid (s : Disk κ) : Prop where
  made_lt : ∀ {i : ℕ} {name : Name}, s.made i = some name → i < s.files
  made_name : ∀ {i : ℕ} {name : Name}, s.made i = some name →
    name = .lock ∨ ∃ x, name.id? = some x
  dir_made : ∀ {name : Name} {i : ℕ}, s.dir name = some i →
    ∃ made, s.made i = some made ∧ Became made name
  dir_once : ∀ {a b : Name} {i : ℕ}, s.dir a = some i → s.dir b = some i → a = b
  /-- Only one file is made under a name with an id. -/
  made_once : ∀ {i j : ℕ} {name : Name}, name.id? ≠ none → s.made i = some name →
    s.made j = some name → i = j
  made_issued : ∀ {i x : ℕ} {name : Name}, s.made i = some name → name.id? = some x →
    s.issued x ≠ none
  lock_stays : ∀ {i : ℕ}, s.made i = some .lock → s.dir .lock = some i
  packed_made : ∀ {id i : ℕ}, s.packed id = some i → s.made i = some (.pending id)
  packed_sealed : ∀ {id i : ℕ}, s.packed id = some i → s.sealed i
  dir_packed : ∀ {id i : ℕ}, s.dir (.pack id) = some i → s.packed id = some i
  index_sealed : ∀ {i : ℕ}, s.dir .index = some i → s.sealed i
  unsealed : ∀ {name : Name} {i : ℕ}, s.dir name = some i → name.id? ≠ none → ¬s.sealed i
  sealed_made : ∀ {i : ℕ}, s.sealed i → s.made i ≠ none
  /-- A file that is or was the index reads as rows that are good. -/
  sealed_index : ∀ {i x : ℕ}, s.made i = some (.tmp x) → s.sealed i →
    ∃ entries, decode checksum (s.data i) = .ok entries ∧ s.Sound entries
  /-- The packs of the index are there. -/
  indexed : ∀ {id : ℕ}, s.Indexed checksum id → s.dir (.pack id) ≠ none
  snapshot : ∀ {p : κ} {st : Snapshot}, s.snapshot p = some st → st.Ok s
  saved_calls : ∀ {n : ℕ}, s.saved n → s.calls n ≠ none

/-- What call `u` watches stays. -/
structure Keeps (u : ℕ) (W : Watch) (s s' : Disk κ) : Prop where
  issued : ∀ {id m : ℕ}, s.issued id = some m → s'.issued id = some m
  calls : ∀ {n : ℕ} {x : κ × Op}, s.calls n = some x → s'.calls n = some x
  made : ∀ {i : ℕ} {name : Name}, s.made i = some name → s'.made i = some name
  sealed : ∀ {i : ℕ}, s.sealed i → s'.sealed i
  packed : ∀ {id j : ℕ}, s.packed id = some j → s'.packed id = some j
  data_sealed : ∀ {i : ℕ}, s.sealed i → s'.data i = s.data i
  root : s.root = true → s'.root = true
  lock : ∀ {i : ℕ}, s.dir .lock = some i → s'.dir .lock = some i
  locks : ∀ {i : ℕ} {h : Handle}, i ∈ W.locks → h.owner = u → s.locks i = some h →
    s'.locks i = some h
  made_mine : ∀ {i x : ℕ} {name : Name}, x ∈ W.ids → name.id? = some x → s'.made i = some name →
    s.made i = some name
  sealed_mine : ∀ {i x : ℕ} {name : Name}, x ∈ W.ids → name.id? = some x → s.made i = some name →
    s'.sealed i → s.sealed i
  data_mine : ∀ {i x : ℕ} {name : Name}, x ∈ W.ids → name.id? = some x → s.made i = some name →
    s'.data i = s.data i
  packed_mine : ∀ {id j : ℕ}, id ∈ W.ids → s'.packed id = some j → s.packed id = some j
  /-- The pending file of a live writer stays. -/
  pending : ∀ {id i : ℕ}, id ∈ W.ids → s.Owns u i ∨ s.Holds u → s.dir (.pending id) = some i →
    s'.dir (.pending id) = some i
  tmp : ∀ {x i : ℕ}, x ∈ W.ids → s.Holds u → s.dir (.tmp x) = some i → s'.dir (.tmp x) = some i
  pack : ∀ {id j : ℕ}, id ∈ W.ids → s.Holds u → s.dir (.pack id) = some j →
    s'.dir (.pack id) = some j
  index : W.index → s.Holds u → s'.dir .index = s.dir .index
  indexed_pack : ∀ {id j : ℕ}, W.index → s.Holds u → s.Indexed checksum id →
    s.dir (.pack id) = some j → s'.dir (.pack id) = some j
  /-- No one else puts its packs into the index. -/
  unindexed : ∀ {id : ℕ}, W.index → id ∈ W.ids → s'.Indexed checksum id → s.Indexed checksum id
  saved : W.index → (s'.saved u ↔ s.saved u)
  missed : ∀ {id : ℕ}, W.listing → s.Holds u → s.Indexed checksum id → .pack id ∈ s.missed u →
    .pack id ∈ s'.missed u
  guard : ∀ {p : κ} {op : Op}, W.memory → s.calls u = some (p, op) → s.guard p = some u →
    s'.guard p = some u ∧ s'.snapshot p = s.snapshot p
  memory : ∀ {p : κ} {op : Op} {st : Snapshot}, W.memory → s.calls u = some (p, op) → s.Holds u →
    s.snapshot p = some st → ∃ st', s'.snapshot p = some st' ∧ st'.entries = st.entries

/-- All that call `u` can watch. -/
def Watch.all (s : Disk κ) (u : ℕ) : Watch where
  ids := {x | s.issued x = some u}
  locks := Set.univ
  index := True
  memory := True
  listing := True

/-- What call `u` may count on when others step. -/
def Rely (u : ℕ) (s s' : Disk κ) : Prop := Keeps checksum u (.all s u) s s'

/-- The index and what it holds are as before. -/
structure Unchanged (n : ℕ) (s s' : Disk κ) : Prop where
  index : s'.index checksum = s.index checksum
  held : ∀ k, s'.held checksum k = s.held checksum k
  saved : s'.saved n ↔ s.saved n

/-- `keep` are the keys that stay when a maintenance with this cap writes the index: all, or what is
left by an eviction from the index's rows. -/
def Evicts (s : Disk κ) (cap : ℕ) (keep : Key → Bool) : Prop :=
  (∀ k, keep k = true) ∨ ∃ entries kept, SameRows (s.index checksum) entries ∧
    evict cap entries = .ok kept ∧ ∀ k, keep k = (kept.get? k).isSome

/-- What a step of a call may do to the index: a publish puts its batch over it, once; a maintenance
moves rows and drops those that it evicts; nothing else changes it. -/
def Change (n : ℕ) (s s' : Disk κ) : Prop :=
  Unchanged checksum n s s' ∨
    match s.calls n with
    | some (_, .publish batch) =>
      ¬s.saved n ∧ s'.saved n ∧ ∀ k, s'.held checksum k = (lastOf batch k).or (s.held checksum k)
    | some (_, .maintain cap _) =>
      ∃ keep, Evicts checksum s cap keep ∧
        ∀ k, s'.held checksum k = if keep k then s.held checksum k else none
    | _ => False

/-- What a step of call `n` owes. -/
structure Guar (n : ℕ) (s s' : Disk κ) : Prop where
  rely : ∀ {u : ℕ}, u ≠ n → Rely checksum u s s'
  change : Change checksum n s s'
  /-- Only a live writer writes to a pending file. -/
  writes : ∀ {id i : ℕ}, s.made i = some (.pending id) → s'.data i = s.data i ∨ s.Leases n id i

end Rules

/-! ### Facts of valid states -/

section Facts

variable {κ : Type} {checksum : Bytes → Hash128} {s s' s'' : Disk κ} {u n : ℕ}

variable {name : Name}

theorem Became.of_id? {made : Name} (h : Became made name) (hid : name.id? ≠ none) :
    name = made := by
  obtain rfl | ⟨rfl, -⟩ | ⟨id, rfl, -⟩ := h
  · rfl
  · exact absurd rfl hid
  · exact absurd rfl hid

variable {i : ℕ} {entries : Entries}

namespace Disk

theorem Owns.unique {i : ℕ} (h : s.Owns u i) (h' : s.Owns n i) : u = n := by
  obtain ⟨hd, hlock, rfl⟩ := h
  obtain ⟨hd', hlock', rfl⟩ := h'
  rw [hlock] at hlock'
  cases hlock'
  rfl

theorem Holds.unique (h : s.Holds u) (h' : s.Holds n) : u = n := by
  obtain ⟨i, hdir, howns⟩ := h
  obtain ⟨j, hdir', howns'⟩ := h'
  rw [hdir] at hdir'
  cases hdir'
  exact howns.unique howns'

/-- The index is read from the same file with the same bytes. -/
theorem index_congr (hdir : s'.dir .index = s.dir .index)
    (hdata : ∀ i, s.dir .index = some i → s'.data i = s.data i) :
    s'.index checksum = s.index checksum := by
  unfold index
  rw [hdir]
  cases h : s.dir .index with
  | none => rfl
  | some i =>
    dsimp only
    rw [hdata i h]

theorem index_of_none (hdir : s.dir .index = none) : s.index checksum = .empty := by
  unfold index
  rw [hdir]

theorem index_of_some (hdir : s.dir .index = some i)
    (hdecode : decode checksum (s.data i) = .ok entries) : s.index checksum = entries := by
  unfold index
  rw [hdir]
  dsimp only
  rw [hdecode]

end Disk

variable {id : ℕ}

namespace Valid

variable (hs : Valid checksum s)
include hs

theorem lt_of_sealed {i : ℕ} (hi : s.sealed i) : i < s.files := by
  obtain ⟨name, hname⟩ := ne_none_iff_exists'.mp (hs.sealed_made hi)
  exact hs.made_lt hname

theorem dir_lt {name : Name} {i : ℕ} (hdir : s.dir name = some i) : i < s.files := by
  obtain ⟨made, hmade, -⟩ := hs.dir_made hdir
  exact hs.made_lt hmade

/-- A pending or temporary file is found under the name it was made under. -/
theorem made_of_dir (hid : name.id? ≠ none) (hdir : s.dir name = some i) :
    s.made i = some name := by
  obtain ⟨made, hmade, hbecame⟩ := hs.dir_made hdir
  rw [hbecame.of_id? hid]
  exact hmade

theorem made_of_pending (hdir : s.dir (.pending id) = some i) :
    s.made i = some (.pending id) := hs.made_of_dir (some_ne_none id) hdir

theorem made_of_tmp {x i : ℕ} (hdir : s.dir (.tmp x) = some i) : s.made i = some (.tmp x) :=
  hs.made_of_dir (some_ne_none x) hdir

theorem made_of_lock {i : ℕ} (hdir : s.dir .lock = some i) : s.made i = some .lock := by
  obtain ⟨made, hmade, rfl | ⟨hname, -⟩ | ⟨id, hname, -⟩⟩ := hs.dir_made hdir
  · exact hmade
  · cases hname
  · cases hname

theorem made_of_index {i : ℕ} (hdir : s.dir .index = some i) : ∃ x, s.made i = some (.tmp x) := by
  obtain ⟨made, hmade, rfl | ⟨-, x, rfl⟩ | ⟨id, hname, -⟩⟩ := hs.dir_made hdir
  · obtain hname | ⟨x, hx⟩ := hs.made_name hmade
    · cases hname
    · cases hx
  · exact ⟨x, hmade⟩
  · cases hname

/-- The file of the index reads as the index, whose rows are good. -/
theorem decode_index (hdir : s.dir .index = some i) :
    decode checksum (s.data i) = .ok (s.index checksum) ∧ s.Sound (s.index checksum) := by
  obtain ⟨x, hmade⟩ := hs.made_of_index hdir
  obtain ⟨entries, hdecode, hsound⟩ := hs.sealed_index hmade (hs.index_sealed hdir)
  rw [index_of_some hdir hdecode]
  exact ⟨hdecode, hsound⟩

theorem sound_index : s.Sound (s.index checksum) := by
  cases hdir : s.dir .index with
  | none =>
    rw [index_of_none hdir]
    intro k loc hget
    cases hget
  | some i => exact (hs.decode_index hdir).2

theorem held_eq (k : Key) : s.held checksum k = s.content (s.index checksum) k := by
  unfold held content
  cases hget : (s.index checksum).get? k with
  | none => rfl
  | some loc =>
    obtain ⟨i, hi⟩ := ne_none_iff_exists'.mp (hs.indexed ⟨k, loc, hget, rfl⟩)
    rw [bind_some, bind_some, hi, hs.dir_packed hi]

end Valid

/-! ### Interference -/

namespace Keeps

variable {W : Watch} (h : Keeps checksum u W s s')
include h

theorem owns {i : ℕ} (hi : i ∈ W.locks) (howns : s.Owns u i) : s'.Owns u i := by
  obtain ⟨hd, hlock, howner⟩ := howns
  exact ⟨hd, h.locks hi howner hlock, howner⟩

theorem holds (hW : ∀ i, s.dir .lock = some i → i ∈ W.locks) (hholds : s.Holds u) : s'.Holds u := by
  obtain ⟨i, hdir, howns⟩ := hholds
  exact ⟨i, h.lock hdir, h.owns (hW i hdir) howns⟩

theorem published {k : Key} {bytes : Bytes} (hpub : s.Published k bytes) : s'.Published k bytes := by
  obtain ⟨n, p, batch, kind, hash, hcall, hmem, hk⟩ := hpub
  exact ⟨n, p, batch, kind, hash, h.calls hcall, hmem, hk⟩

variable (hs : Valid checksum s)
include hs

theorem good {k : Key} {loc : Location} (hgood : s.Good k loc) : s'.Good k loc := by
  obtain ⟨j, hpacked, hlen, hpub⟩ := hgood
  have hdata := h.data_sealed (hs.packed_sealed hpacked)
  refine ⟨j, h.packed hpacked, ?_, ?_⟩
  · rw [hdata]
    exact hlen
  · rw [hdata]
    exact h.published hpub

theorem sound {entries : Entries} (hsound : s.Sound entries) : s'.Sound entries :=
  fun k loc hget => h.good hs (hsound k loc hget)

theorem content_eq (hsound : s.Sound entries) (k : Key) :
    s'.content entries k = s.content entries k := by
  unfold content
  cases hget : entries.get? k with
  | none => rfl
  | some loc =>
    obtain ⟨j, hpacked, -, -⟩ := hsound k loc hget
    rw [bind_some, bind_some, hpacked, h.packed hpacked, map_some, map_some,
      h.data_sealed (hs.packed_sealed hpacked)]

theorem ok {st : Snapshot} (hst : st.Ok s) : st.Ok s' where
  entries := h.sound hs hst.entries
  files hget := h.packed (hst.files hget)
  touched := hst.touched

theorem index_eq (hW : W.index) (hholds : s.Holds u) : s'.index checksum = s.index checksum :=
  index_congr (h.index hW hholds) fun _ hdir => h.data_sealed (hs.index_sealed hdir)

end Keeps

namespace Rely

theorem refl (u : ℕ) (s : Disk κ) : Rely checksum u s s where
  issued := id
  calls := id
  made := id
  sealed := id
  packed := id
  data_sealed _ := rfl
  root := id
  lock := id
  locks _ _ hlock := hlock
  made_mine _ _ hmade := hmade
  sealed_mine _ _ _ hsealed := hsealed
  data_mine _ _ _ := rfl
  packed_mine _ hpacked := hpacked
  pending _ _ hdir := hdir
  tmp _ _ hdir := hdir
  pack _ _ hdir := hdir
  index _ _ := rfl
  indexed_pack _ _ _ hdir := hdir
  unindexed _ _ hindexed := hindexed
  saved _ := Iff.rfl
  missed _ _ _ hname := hname
  guard _ _ hguard := ⟨hguard, rfl⟩
  memory _ _ _ hst := ⟨_, hst, rfl⟩

theorem holds (h : Rely checksum u s s') (hholds : s.Holds u) : s'.Holds u :=
  Keeps.holds h (fun _ _ => Set.mem_univ _) hholds

theorem indexed (h : Rely checksum u s s') (hs : Valid checksum s) (hholds : s.Holds u)
    (hindexed : s.Indexed checksum id) : s'.Indexed checksum id := by
  obtain ⟨k, loc, hget, hpack⟩ := hindexed
  refine ⟨k, loc, ?_, hpack⟩
  rw [Keeps.index_eq h hs trivial hholds]
  exact hget

theorem trans (hs : Valid checksum s) (h : Rely checksum u s s') (h' : Rely checksum u s' s'') :
    Rely checksum u s s'' where
  issued hid := h'.issued (h.issued hid)
  calls hc := h'.calls (h.calls hc)
  made hm := h'.made (h.made hm)
  sealed hi := h'.sealed (h.sealed hi)
  packed hp := h'.packed (h.packed hp)
  data_sealed hi := (h'.data_sealed (h.sealed hi)).trans (h.data_sealed hi)
  root hr := h'.root (h.root hr)
  lock hl := h'.lock (h.lock hl)
  locks hi howner hlock := h'.locks hi howner (h.locks hi howner hlock)
  made_mine hx hid hm := h.made_mine hx hid (h'.made_mine (h.issued hx) hid hm)
  sealed_mine hx hid hm hi := h.sealed_mine hx hid hm (h'.sealed_mine (h.issued hx) hid (h.made hm) hi)
  data_mine hx hid hm := (h'.data_mine (h.issued hx) hid (h.made hm)).trans (h.data_mine hx hid hm)
  packed_mine hid hp := h.packed_mine hid (h'.packed_mine (h.issued hid) hp)
  pending hid howns hdir := h'.pending (h.issued hid) (howns.imp (h.owns (Set.mem_univ _)) h.holds)
      (h.pending hid howns hdir)
  tmp hx hholds hdir := h'.tmp (h.issued hx) (h.holds hholds) (h.tmp hx hholds hdir)
  pack hid hholds hdir := h'.pack (h.issued hid) (h.holds hholds) (h.pack hid hholds hdir)
  index hW hholds := (h'.index hW (h.holds hholds)).trans (h.index hW hholds)
  indexed_pack hW hholds hindexed hdir :=
    h'.indexed_pack hW (h.holds hholds) (h.indexed hs hholds hindexed)
      (h.indexed_pack hW hholds hindexed hdir)
  unindexed hW hid hindexed := h.unindexed hW hid (h'.unindexed hW (h.issued hid) hindexed)
  saved hW := (h'.saved hW).trans (h.saved hW)
  missed hW hholds hindexed hname :=
    h'.missed hW (h.holds hholds) (h.indexed hs hholds hindexed) (h.missed hW hholds hindexed hname)
  guard hW hcall hguard := by
    obtain ⟨hmid, hsame⟩ := h.guard hW hcall hguard
    obtain ⟨hend, hsame'⟩ := h'.guard hW (h.calls hcall) hmid
    exact ⟨hend, hsame'.trans hsame⟩
  memory hW hcall hholds hst := by
    obtain ⟨st', hst', heq⟩ := h.memory hW hcall hholds hst
    obtain ⟨st'', hst'', heq'⟩ := h'.memory hW (h.calls hcall) (h.holds hholds) hst'
    exact ⟨st'', hst'', heq'.trans heq⟩

end Rely

end Facts

end HdLang.Cache
