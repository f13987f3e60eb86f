import HdLang.Cache.Locking

/-!
# Leases and the index's replacement

A lease is a pending file of an id that no one else uses. `lease` gives one, `finish` makes a pack of
it that no row names yet, and `dropLease` removes it. `save` replaces the index by rows that the call
has shown to be good; if it fails the index is as it was.
-/

namespace HdLang.Cache

open Rules Io Function Option Safe Keeps Set Disk Kept Quiet Unchanged Valid Cache.Frame

variable {κ : Type} {checksum : Bytes → Hash128} {n : ℕ} {p : κ} {W : Watch} {P : Disk κ → Prop}
  {s : Disk κ}

/-! ### Facts that are kept -/

/-- An id of the call under which nothing is made yet. -/
structure Unused (n id : ℕ) (s : Disk κ) : Prop where
  issued : s.issued id = some n
  unmade : ∀ {i name}, s.made i = some name → name.id? ≠ some id
  unpacked : s.packed id = none

/-- A file of the call's id with these bytes, which only the call changes. -/
structure Written (n id : ℕ) (name : Name) (file : Handle) (bytes : Bytes) (s : Disk κ) : Prop where
  issued : s.issued id = some n
  made : s.made file.file = some name
  unsealed : ¬s.sealed file.file
  unpacked : s.packed id = none
  data : s.data file.file = bytes
  owner : file.owner = n

/-- The lease's pending file, locked by the writer. -/
structure Leased (n : ℕ) (l : Lease) (bytes : Bytes) (s : Disk κ) : Prop where
  written : Written n l.id (.pending l.id) l.file bytes s
  dir : s.dir (.pending l.id) = some l.file.file
  locks : s.locks l.file.file = some l.file

/-- The lease's pack, which no row names. -/
structure Finished (checksum : Bytes → Hash128) (n : ℕ) (l : Lease) (bytes : Bytes) (s : Disk κ) :
    Prop where
  issued : s.issued l.id = some n
  made : s.made l.file.file = some (.pending l.id)
  sealed : s.sealed l.file.file
  packed : s.packed l.id = some l.file.file
  data : s.data l.file.file = bytes
  dir : s.dir (.pack l.id) = some l.file.file
  unindexed : ¬s.Indexed checksum l.id
  owner : l.file.owner = n

/-- A lease whose file may be removed. -/
structure Droppable (checksum : Bytes → Hash128) (n : ℕ) (l : Lease) (s : Disk κ) : Prop where
  issued : s.issued l.id = some n
  made : s.made l.file.file = some (.pending l.id)
  owner : l.file.owner = n
  path : l.path = .pending l.id ∨ (l.path = .pack l.id ∧ ¬s.Indexed checksum l.id)

/-- The watch of a call that also watches an id. -/
def Watch.adding (W : Watch) (id : ℕ) : Watch := { W with ids := insert id W.ids }

variable {file : Handle} {bytes : Bytes}

section Kept

variable {id : ℕ}

theorem Frame.adding (hP : Frame checksum n p W P) {R : Disk κ → Prop}
    (hR : ∀ {s}, R s → s.issued id = some n)
    (hkept : Kept checksum n (W.adding id) fun s => P s ∧ R s) :
    Frame checksum n p (W.adding id) fun s => P s ∧ R s where
  calls hPs := hP.calls hPs.1
  mine hPs x hx := by
    obtain rfl | hx := mem_insert_iff.mp hx
    · exact hR hPs.2
    · exact hP.mine hPs.1 x hx
  kept := hkept

theorem Kept.adding (hP : Kept checksum n W P) : Kept checksum n (W.adding id) P :=
  hP.mono (subset_insert _ _) (Set.Subset.refl _) (fun h => h) (fun h => h) fun h => h

theorem Unused.kept (hid : id ∈ W.ids) : Kept (κ := κ) checksum n W (Unused n id) :=
  fun _ _ _ _ hk h =>
    { issued := hk.issued h.issued
      unmade := fun hmade hname => h.unmade (hk.made_mine hid hname hmade) hname
      unpacked := by
        by_contra hpacked
        obtain ⟨j, hj⟩ := ne_none_iff_exists'.mp hpacked
        have hold := hk.packed_mine hid hj
        rw [h.unpacked] at hold
        cases hold }

theorem Written.kept {name : Name} (hid : id ∈ W.ids) (hname : name.id? = some id) :
    Kept (κ := κ) checksum n W (Written n id name file bytes) :=
  fun _ _ _ _ hk h =>
    { issued := hk.issued h.issued
      made := hk.made h.made
      unsealed := fun hsealed => h.unsealed (hk.sealed_mine hid hname h.made hsealed)
      unpacked := by
        by_contra hpacked
        obtain ⟨j, hj⟩ := ne_none_iff_exists'.mp hpacked
        have hold := hk.packed_mine hid hj
        rw [h.unpacked] at hold
        cases hold
      data := (hk.data_mine hid hname h.made).trans h.data
      owner := h.owner }

theorem Leased.kept {l : Lease} {bytes : Bytes} (hid : l.id ∈ W.ids)
    (hlocks : l.file.file ∈ W.locks) : Kept (κ := κ) checksum n W (Leased n l bytes) :=
  fun _ _ hs ht hk h =>
    { written := Written.kept hid rfl hs ht hk h.written
      dir := hk.pending hid (.inl ⟨l.file, h.locks, h.written.owner⟩) h.dir
      locks := hk.locks hlocks h.written.owner h.locks }

/-- Under the publication lock a pending file stays without its own lock. -/
theorem Kept.pending {i : ℕ} (hid : id ∈ W.ids) (hP : Kept checksum n W P)
    (hholds : ∀ {s}, P s → s.Holds n) :
    Kept checksum n W fun s => P s ∧ s.dir (.pending id) = some i :=
  fun _ _ hs ht hk h => ⟨hP hs ht hk h.1, hk.pending hid (.inr (hholds h.1)) h.2⟩

theorem Finished.kept {l : Lease} (hid : l.id ∈ W.ids) (hW : W.index) (hP : Kept checksum n W P)
    (hholds : ∀ {s}, P s → s.Holds n) :
    Kept checksum n W fun s => P s ∧ Finished checksum n l bytes s :=
  fun _ _ hs ht hk h => ⟨hP hs ht hk h.1,
    { issued := hk.issued h.2.issued
      made := hk.made h.2.made
      sealed := hk.sealed h.2.sealed
      packed := hk.packed h.2.packed
      data := (hk.data_sealed h.2.sealed).trans h.2.data
      dir := hk.pack hid (hholds h.1) h.2.dir
      unindexed := fun hindexed => h.2.unindexed (hk.unindexed hW hid hindexed)
      owner := h.2.owner }⟩

theorem Droppable.kept {l : Lease} (hid : l.id ∈ W.ids) (hW : W.index) :
    Kept (κ := κ) checksum n W (Droppable checksum n l) :=
  fun _ _ _ _ hk h =>
    { issued := hk.issued h.issued
      made := hk.made h.made
      owner := h.owner
      path := h.path.imp_right fun ⟨hpath, hunindexed⟩ =>
        ⟨hpath, fun hindexed => hunindexed (hk.unindexed hW hid hindexed)⟩ }

theorem Leased.droppable {l : Lease} (h : Leased n l bytes s) (hpath : l.path = .pending l.id)
    : Droppable checksum n l s where
  __ := h.written
  path := .inl hpath

theorem Leased.leases {l : Lease} (h : Leased n l bytes s) :
    s.Leases n l.id l.file.file where
  issued := h.written.issued
  dir := h.dir
  live := .inl ⟨l.file, h.locks, h.written.owner⟩

theorem Finished.droppable {l : Lease} (h : Finished checksum n l bytes s)
    (hpath : l.path = .pack l.id) : Droppable checksum n l s where
  __ := h
  path := .inr ⟨hpath, h.unindexed⟩

end Kept

/-- The watch of a call that also watches a lease. -/
def Watch.holding (W : Watch) (id : ℕ) : Watch :=
  { W with ids := insert id W.ids, locks := Set.univ }

theorem Frame.leased (hP : Frame checksum n p W P) (l : Lease) (bytes : Bytes) :
    Frame checksum n p (W.holding l.id) fun s => P s ∧ Leased n l bytes s where
  calls hPs := hP.calls hPs.1
  mine hPs x hx := by
    obtain rfl | hx := mem_insert_iff.mp hx
    · exact hPs.2.written.issued
    · exact hP.mine hPs.1 x hx
  kept := Kept.and
    (hP.kept.mono (subset_insert _ _) (subset_univ _) (fun h => h) (fun h => h) fun h => h)
    (Leased.kept (mem_insert _ _) (mem_univ _))

theorem Frame.droppable (hP : Frame checksum n p W P) (hW : W.index) (l : Lease) :
    Frame checksum n p (W.adding l.id) fun s => P s ∧ Droppable checksum n l s :=
  hP.adding (fun hd => hd.issued) (Kept.and hP.kept.adding (Droppable.kept (mem_insert _ _) hW))

/-! ### A new file of the call -/

section Create

variable {name : Name} {id : ℕ} (hs : Valid checksum s) (hunused : Unused n id s)
  (hname : name.id? = some id) (hdir : s.dir name = none)
include hs hunused hname hdir

theorem Valid.create_mine : Valid checksum (s.create name) := by
  refine create hs (.inr ⟨id, hname⟩) hdir (fun x hx => ?_)
    fun _ i hmade => hunused.unmade hmade hname
  rw [hname] at hx
  cases hx
  rw [hunused.issued]
  exact some_ne_none n

omit hunused in
theorem Keeps.create_mine {u : ℕ} {W : Watch} (hid : id ∉ W.ids) :
    Keeps checksum u W s (s.create name) := by
  refine create hs (.inr ⟨id, hname⟩) hdir fun x hx => ?_
  rw [hname] at hx
  cases hx
  exact hid

theorem Guar.create_mine : Guar checksum n s (s.create name) where
  rely hu := Keeps.create_mine hs hname hdir fun hmem =>
    hu (some.inj (hmem.symm.trans hunused.issued))
  change := .inl <| create hs (.inr ⟨id, hname⟩) hdir (fun x hx => by
    rw [hname] at hx
    cases hx
    rw [hunused.issued]
    exact some_ne_none n) fun _ i hmade => hunused.unmade hmade hname
  writes hmade := .inl (create_data_of_lt (hs.made_lt hmade))

omit hdir hname in
theorem Written.create : Written n id name (s.handle n s.files) [] (s.create name) where
  __ := hunused
  made := create_made_self
  unsealed hsealed := absurd (hs.lt_of_sealed hsealed) (Nat.lt_irrefl _)
  data := update_self _ _ _
  owner := rfl

end Create

theorem Unused.of_unique {id : ℕ} (hs : Valid checksum s) (hfree : s.issued id = none) :
    Unused n id { s with issued := Function.update s.issued id (some n) } where
  issued := update_self _ _ _
  unmade hmade hname := hs.made_issued hmade hname hfree
  unpacked := by
    by_contra hpacked
    obtain ⟨j, hj⟩ := ne_none_iff_exists'.mp hpacked
    exact hs.made_issued (hs.packed_made hj) rfl hfree

/-- The only lock that is watched is the publication lock. -/
def LockOnly (W : Watch) (P : Disk κ → Prop) : Prop :=
  ∀ ⦃s⦄, P s → ∀ i ∈ W.locks, s.made i = some .lock

theorem LockOnly.of_locked (hW : W.locks = {file.file}) (hP : ∀ {s}, P s → Locked n file s)
    : LockOnly W P := by
  intro s hPs i hi
  rw [hW] at hi
  obtain rfl : i = file.file := hi
  exact (hP hPs).made

variable [DecidableEq κ]

/-! ### Dropping a lease -/

variable {α : Type} {next : Except Error Unit → Prog α} {Q : α → Disk κ → Prop} {D : Disk κ → Prop}
  {W' : Watch}

section Drop

variable {l : Lease}

section

variable (hP : Frame checksum n p W P)
include hP

/-- The rule of a step that frees the lock of a file of the call, or fails. -/
theorem unlock_rule {name : Name} (hlock : LockOnly W P)
    (howner : file.owner = n) (hname : name ≠ .lock)
    (hmade : ∀ {s}, P s → s.made file.file = some name) (hs : Valid checksum s) (h : P s)
    (hnext : ∀ r u, Valid checksum u → P u → (rules checksum n p).Safe Q (next r) u) :
    (rules checksum n p).Safe Q (.call (.unlock file) next) s := by
  refine step hP hs h fun t r u ht hPt heffect => ?_
  obtain ⟨-, rfl⟩ | hfails := heffect
  · have hvalid : Valid checksum (t.release file) := ht.release
    refine ⟨hvalid, ⟨fun {m} hm => ?_, .inl calm, fun _ => .inl rfl⟩, hnext r _ hvalid ?_⟩
    · exact release fun heq => absurd (heq.symm.trans howner) hm
    · refine hP.kept ht hvalid (release fun _ hmem => ?_) hPt
      have heq := (hmade hPt).symm.trans (hlock hPt _ hmem)
      exact hname (some.inj heq)
  · have hquiet := hfails.quiet (n := n) ht
    exact ⟨hquiet.valid, hquiet.guar, hnext r u hquiet.valid
      (hP.kept ht hquiet.valid (hquiet.keeps n W) hPt)⟩

/-- The rule of removing a name that no one else watches. -/
theorem removal_rule {name : Name}
    (hD : Frame checksum n p W' fun s => P s ∧ D s) (hlock : name ≠ .lock) (hindex : name ≠ .index)
    (hpack : ∀ {t id}, P t → D t → name = .pack id → ¬t.Indexed checksum id)
    (hmine : ∀ {t}, P t → D t → Spares n n W t name)
    (hspares : ∀ {t m}, Valid checksum t → P t → D t → m ≠ n → Spares m n (.all t m) t name)
    (hs : Valid checksum s) (h : P s ∧ D s)
    (hnext : ∀ r u, Valid checksum u → P u → (rules checksum n p).Safe Q (next r) u) :
    (rules checksum n p).Safe Q (.call (.remove name) next) s := by
  refine step hD hs h fun t r u ht hPD heffect => ?_
  obtain ⟨hPt, hDt⟩ := hPD
  have hpack' : ∀ {id}, name = .pack id → ¬t.Indexed checksum id := hpack hPt hDt
  obtain ⟨-, -, rfl⟩ | hmissing | hfails := heffect
  · obtain ⟨op, hcall⟩ := hP.calls hPt
    have hcalls : t.calls n ≠ none := by
      rw [hcall]
      exact some_ne_none _
    have hvalid := Valid.remove hlock hpack' ht hcalls
    exact ⟨hvalid, ⟨fun hm => remove hlock hpack' (hspares ht hPt hDt hm),
        .inl (remove hlock hpack' ht hcalls hindex), fun _ => .inl rfl⟩,
      hnext r _ hvalid (hP.kept ht hvalid (remove hlock hpack' (hmine hPt hDt)) hPt)⟩
  · have hquiet := hmissing.quiet (n := n) ht
    exact ⟨hquiet.valid, hquiet.guar, hnext r u hquiet.valid
      (hP.kept ht hquiet.valid (hquiet.keeps n W) hPt)⟩
  · have hquiet := hfails.quiet (n := n) ht
    exact ⟨hquiet.valid, hquiet.guar, hnext r u hquiet.valid
      (hP.kept ht hquiet.valid (hquiet.keeps n W) hPt)⟩

/-- The rule of removing a file of the call that is not needed. -/
theorem remove_rule {name : Name} {id : ℕ}
    (hD : Frame checksum n p W' fun s => P s ∧ D s) (hid : id ∉ W.ids)
    (hname : name = .pending id ∨ name = .tmp id ∨ name = .pack id)
    (hissued : ∀ {s}, D s → s.issued id = some n)
    (hpack : ∀ {s}, D s → name = .pack id → ¬s.Indexed checksum id) (hs : Valid checksum s)
    (h : P s ∧ D s) (hnext : ∀ r u, Valid checksum u → P u → (rules checksum n p).Safe Q (next r) u)
    :
    (rules checksum n p).Safe Q (.call (.remove name) next) s := by
  have hspares : ∀ {t : Disk κ} {m : ℕ} {W' : Watch}, id ∉ W'.ids → Spares m n W' t name := by
    intro t m W' hid'
    obtain rfl | rfl | rfl := hname
    · exact ⟨fun heq hx => by cases heq; exact absurd hx hid', nofun, nofun, nofun⟩
    · exact ⟨nofun, fun heq hx => by cases heq; exact absurd hx hid', nofun, nofun⟩
    · exact ⟨nofun, nofun, fun heq hx => by cases heq; exact absurd hx hid', nofun⟩
  refine removal_rule hP hD ?_ ?_ (fun {t id'} _ hDt heq => ?_) (fun _ _ => hspares hid)
    (fun _ _ hDt hm => hspares fun hmem => ?_) hs h hnext
  · obtain rfl | rfl | rfl := hname <;> simp
  · obtain rfl | rfl | rfl := hname <;> simp
  · subst heq
    obtain heq | heq | heq := hname
    · cases heq
    · cases heq
    · cases heq
      exact hpack hDt rfl
  · exact hm (some.inj (hmem.symm.trans (hissued hDt)))

/-- The rule of closing a file of the call that is not the lock file. -/
theorem close_rule {next : Unit → Prog α} {name : Name}
    (hlock : LockOnly W P) (howner : file.owner = n) (hname : name ≠ .lock)
    (hmade : ∀ {s}, P s → s.made file.file = some name) (hs : Valid checksum s) (h : P s)
    (hnext : ∀ u, Valid checksum u → P u → (rules checksum n p).Safe Q (next ()) u) :
    (rules checksum n p).Safe Q (.call (.close file) next) s := by
  refine close hs (hP.always hs h) howner fun t ht hPt hvalid => hnext _ hvalid ?_
  refine hP.kept ht hvalid (release fun _ hmem => ?_) (hPt.now ht)
  have heq := (hmade (hPt.now ht)).symm.trans (hlock (hPt.now ht) _ hmem)
  exact hname (some.inj heq)

/-- A lease is dropped: its file goes unless it is committed. -/
theorem dropLease_safe (hlock : LockOnly W P) (hW : W.index)
    (hid : l.id ∉ W.ids) (hs : Valid checksum s) (h : P s)
    (hdrop : if l.committed then l.file.owner = n ∧ s.made l.file.file = some (.pending l.id)
      else Droppable checksum n l s) :
    (rules checksum n p).Safe (fun r t => r = .ok () ∧ P t) (dropLease l).run s := by
  unfold dropLease
  split
  · next hcommitted =>
    rw [if_pos hcommitted] at hdrop
    have hP' := hP.and (Q := fun s => s.made l.file.file = some (.pending l.id)) made
    refine close_rule hP' (fun _ hPs => hlock hPs.1) hdrop.1 (by simp) (fun hPs => hPs.2) hs
      ⟨h, hdrop.2⟩ fun u hu hPu => ?_
    exact ret hP hu hPu.1 fun t _ hPt => ⟨rfl, hPt⟩
  · next hcommitted =>
    rw [if_neg hcommitted] at hdrop
    have hP' : Frame checksum n p W fun s => P s ∧ s.made l.file.file = some (.pending l.id) :=
      hP.and made
    have hframe : Frame checksum n p (W.adding l.id)
        fun s => (P s ∧ s.made l.file.file = some (.pending l.id)) ∧ Droppable checksum n l s :=
      hP'.droppable hW l
    have hpath : l.path = .pending l.id ∨ l.path = .tmp l.id ∨ l.path = .pack l.id :=
      hdrop.path.imp_right fun h => .inr h.1
    refine unlock_rule hframe (fun _ hPs => hlock hPs.1.1) hdrop.owner (by simp)
      (fun hPs => hPs.1.2) hs ⟨⟨h, hdrop.made⟩, hdrop⟩ fun r u hu hPu => ?_
    refine remove_rule hP' hframe hid hpath (fun hd => hd.issued) (fun hd hpack => ?_) hu hPu
      fun r u hu hPu => ?_
    · obtain hpending | ⟨-, hunindexed⟩ := hd.path
      · rw [hpending] at hpack
        cases hpack
      · exact hunindexed
    · refine close_rule hP' (fun _ hPs => hlock hPs.1) hdrop.owner (by simp) (fun hPs => hPs.2) hu
        hPu fun u hu hPu => ?_
      exact ret hP hu hPu.1 fun t _ hPt => ⟨rfl, hPt⟩

end

end Drop

/-! ### Taking a lease -/

/-- A lease is a new pending file that the call has locked. -/
theorem lease_safe (hP : Frame checksum n p W P) (hlock : LockOnly W P) (hW : W.index)
    (hholds : ∀ {t}, P t → t.Holds n) (attempts : ℕ) (hs : Valid checksum s) (h : P s) :
    (rules checksum n p).Safe
      (fun r t => P t ∧ ∀ l, r = .ok l →
        Leased n l [] t ∧ l.path = .pending l.id ∧ l.committed = false ∧ l.id ∉ W.ids ∧
          l.id < 2 ^ 128)
      (lease attempts).run s := by
  induction attempts generalizing s with
  | zero => exact quiet hP hs h (by trivial) fun t r u ht hPt heffect hu hPu => heffect.elim
  | succ attempts ih =>
    refine quiet hP hs h (by trivial) fun t id u ht hPt heffect hu hPu => ?_
    obtain ⟨hlt, hfree, rfl⟩ := heffect
    have hid : id ∉ W.ids := by
      intro hmem
      rw [hP.mine hPt id hmem] at hfree
      cases hfree
    have hunused := Unused.of_unique (n := n) ht hfree
    have hP' : Frame checksum n p (W.adding id) fun s => P s ∧ Unused n id s :=
      adding hP (fun hx => hx.issued) (and hP.kept.adding (Unused.kept (mem_insert _ _)))
    refine quiet hP' hu ⟨hPu, hunused⟩ (by trivial) fun t r u ht hPt _ hu hPu => ?_
    cases r with
    | error e => exact ret hP hu hPu.1 fun t _ hPt => ⟨hPt, nofun⟩
    | ok taken =>
      cases taken with
      | true => exact ih hu hPu.1
      | false =>
        refine step hP' hu hPu fun t r u ht hPt heffect => ?_
        obtain ⟨-, hdir, rfl, rfl⟩ | ⟨-, rfl, rfl⟩ | ⟨rfl, rfl⟩ := heffect
        · have hvalid := create_mine ht hPt.2 rfl hdir
          have hPu := hP.kept ht hvalid (create_mine ht rfl hdir hid) hPt.1
          refine ⟨hvalid, Guar.create_mine ht hPt.2 rfl hdir, ?_⟩
          have hwritten : Written n id (.pending id) (t.handle n t.files) []
            (t.create (.pending id)) := Written.create ht hPt.2
          have hfile : (t.create (.pending id)).dir (.pending id) =
            some (t.handle n t.files).file := create_dir_self
          generalize t.handle n t.files = file at hwritten hfile ⊢
          let l : Lease := ⟨id, .pending id, file, false⟩
          have hP'' : Frame checksum n p (W.adding id)
              fun s => (P s ∧ Written n id (.pending id) file [] s) ∧
                s.dir (.pending id) = some file.file :=
            { calls := fun hPs => hP.calls hPs.1.1
              mine := (adding hP (fun hx => hx.issued) (and hP.kept.adding
                (Written.kept (mem_insert _ _) rfl))).mine ∘ And.left
              kept := pending (mem_insert _ _)
                (and hP.kept.adding (Written.kept (mem_insert _ _) rfl))
                fun hPs => hholds hPs.1 }
          refine quiet hP'' hvalid ⟨⟨hPu, hwritten⟩, hfile⟩ (by trivial)
            fun t r u ht hPt heffect hu hPu => ?_
          cases r with
          | ok _ =>
            refine ret (hP.leased l []) hu ⟨hPu.1.1, hPu.1.2, hPu.2, ?_⟩ fun t _ hPt =>
              ⟨hPt.1, fun l' hl => ?_⟩
            · obtain ⟨-, -, rfl⟩ | ⟨hr, -⟩ := heffect
              · exact update_self _ _ _
              · cases hr
            · cases hl
              exact ⟨hPt.2, rfl, rfl, hid, hlt⟩
          | error e =>
            refine Rules.Safe.tryBind hu (dropLease_safe (l := l) hP hlock hW hid hu hPu.1.1 ?_)
              (fun e t _ hR => by cases hR.1) fun _ t ht hR => ?_
            · exact ⟨hPu.1.2.issued, hPu.1.2.made, hPu.1.2.owner, .inl rfl⟩
            · exact ret hP ht (hR.now ht).2 fun t _ hPt => ⟨hPt, nofun⟩
        · have hquiet := refl (n := n) ht
          exact ⟨ht, hquiet.guar, ih ht hPt.1⟩
        · have hquiet := refl (n := n) ht
          exact ⟨ht, hquiet.guar, ret hP ht hPt.1 fun t _ hPt => ⟨hPt, nofun⟩⟩

/-! ### From lease to pack -/

/-- What `finish` ends with: a pack, or the lease as it was. -/
def Finishes (checksum : Bytes → Hash128) (n : ℕ) (l : Lease) (bytes : Bytes)
    (r : Except Error Lease) (s : Disk κ) : Prop :=
  match r with
  | .ok l' => l' = { l with path := .pack l.id } ∧ Finished checksum n l' bytes s
  | .error _ => Droppable checksum n l s

/-- Under the publication lock `finish` makes a pack of the lease's file, which no row names yet. -/
theorem finish_safe {l : Lease} (hP : Frame checksum n p W P) (hlock : LockOnly W P) (hW : W.index)
    (hholds : ∀ {t}, P t → t.Holds n) (hid : l.id ∉ W.ids) (hpath : l.path = .pending l.id)
    (hs : Valid checksum s) (h : (P s ∧ Written n l.id (.pending l.id) l.file bytes s) ∧
      s.dir (.pending l.id) = some l.file.file) :
    (rules checksum n p).Safe (fun r t => P t ∧ Finishes checksum n l bytes r t) (finish l).run s := by
  have hP' : Frame checksum n p (W.adding l.id)
      fun s => (P s ∧ Written n l.id (.pending l.id) l.file bytes s) ∧
        s.dir (.pending l.id) = some l.file.file :=
    { calls := fun hPs => hP.calls hPs.1.1
      mine := (adding hP (fun hx => hx.issued) (and hP.kept.adding
        (Written.kept (mem_insert _ _) rfl))).mine ∘ And.left
      kept := pending (mem_insert _ _)
        (and hP.kept.adding (Written.kept (mem_insert _ _) rfl)) fun hPs => hholds hPs.1 }
  have hfail : ∀ e t, Valid checksum t → ((P t ∧ Written n l.id (.pending l.id) l.file bytes t) ∧
        t.dir (.pending l.id) = some l.file.file) →
      (rules checksum n p).Safe (fun r t => P t ∧ Finishes checksum n l bytes r t)
        (.done (.error e)) t := fun e t ht hPt => ret hP' ht hPt fun t _ hPt =>
    ⟨hPt.1.1, hPt.1.2.issued, hPt.1.2.made, hPt.1.2.owner, .inl hpath⟩
  refine quiet hP' hs h (by trivial) fun t r u ht hPt _ hu hPu => ?_
  cases r with
  | error e => exact hfail e u hu hPu
  | ok taken =>
    cases taken with
    | true => exact hfail .alreadyExists u hu hPu
    | false =>
      refine unlock_rule hP' (fun _ hPs => hlock hPs.1.1) hPu.1.2.owner (by simp)
        (fun hPs => hPs.1.2.made) hu hPu fun r u hu hPu => ?_
      cases r with
      | error e => exact hfail e u hu hPu
      | ok _ =>
        refine step hP' hu hPu fun t r u ht hPt heffect => ?_
        obtain ⟨⟨hPt', hwritten⟩, hdir⟩ := hPt
        rw [hpath] at heffect
        obtain ⟨i, hfile, rfl, rfl⟩ | ⟨-, rfl, rfl⟩ | ⟨rfl, rfl⟩ := heffect
        · obtain rfl : i = l.file.file := some.inj (hfile.symm.trans hdir)
          have hvalid := Valid.renamePack (n := n) ht hdir hwritten.unpacked
          have hguar : Guar checksum n t (t.rename n (.pending l.id) (.pack l.id) l.file.file) :=
            { rely := fun hm => renamePack ht hdir hwritten.unpacked fun hmem =>
                hm (some.inj (hmem.symm.trans hwritten.issued))
              change := .inl (renamePack ht hdir hwritten.unpacked)
              writes := fun _ => .inl rfl }
          have hunindexed : ¬t.Indexed checksum l.id := by
            intro hindexed
            obtain ⟨j, hj⟩ := ne_none_iff_exists'.mp (ht.indexed hindexed)
            have hpacked := ht.dir_packed hj
            rw [hwritten.unpacked] at hpacked
            cases hpacked
          have hfinished : Finished checksum n { l with path := .pack l.id } bytes
              (t.rename n (.pending l.id) (.pack l.id) l.file.file) :=
            { hwritten with
              sealed := .inr rfl
              packed := by rw [rename_packed, promise_packed_self]
              dir := rename_dir_new (by simp)
              unindexed := by
                rw [Disk.Indexed, index_renamePack]
                exact hunindexed }
          refine ⟨hvalid, hguar, ?_⟩
          have hkept : Kept checksum n (W.adding l.id) fun s => P s ∧
              Finished checksum n { l with path := .pack l.id } bytes s :=
            Finished.kept (mem_insert _ _) hW hP.kept.adding hholds
          refine ret (adding hP (fun hx => hx.issued) hkept) hvalid
            ⟨hP.kept ht hvalid (renamePack ht hdir hwritten.unpacked hid) hPt', hfinished⟩
            fun t _ hPt => ⟨hPt.1, rfl, hPt.2⟩
        · exact ⟨ht, (refl ht).guar, hfail _ _ ht ⟨⟨hPt', hwritten⟩, hdir⟩⟩
        · exact ⟨ht, (refl ht).guar, hfail _ _ ht ⟨⟨hPt', hwritten⟩, hdir⟩⟩

/-! ### More bytes of the call -/

theorem write_rule {name : Name} {id : ℕ} {old : Bytes} (hP : Frame checksum n p W P)
    (hname : name.id? = some id) (hid : id ∉ W.ids) (hD : Frame checksum n p W' fun s => P s ∧ D s)
    (hwritten : ∀ {s}, D s → Written n id name file old s)
    (hleases : ∀ {s}, D s → name = .pending id → s.Leases n id file.file) (hs : Valid checksum s)
    (h : P s ∧ D s)
    (hnext : ∀ r t u new, Valid checksum t → D t → (r = .ok () → new = old ++ bytes) →
      (∃ part, u = t.append file.file part) → Valid checksum u → P u →
      Written n id name file new u → (rules checksum n p).Safe Q (next r) u) :
    (rules checksum n p).Safe Q (.call (.write file bytes) next) s := by
  refine step hD hs h fun t r u ht hPD heffect => ?_
  obtain ⟨hPt, hDt⟩ := hPD
  have hw := hwritten hDt
  have hpart : ∀ part, (r = .ok () → part = bytes) → u = t.append file.file part →
      Valid checksum u ∧ Guar checksum n t u ∧ (rules checksum n p).Safe Q (next r) u := by
    rintro part hall rfl
    have hmine : ∀ {W'' : Watch}, id ∉ W''.ids → ∀ {name' x}, t.made file.file = some name' →
        name'.id? = some x → x ∉ W''.ids := by
      intro W'' hid' name' x hmade hx
      rw [hw.made] at hmade
      cases hmade
      rw [hname] at hx
      cases hx
      exact hid'
    have hvalid : Valid checksum (t.append file.file part) := append ht hw.unsealed
    refine ⟨hvalid, ⟨fun {m} hm => ?_, .inl (append ht hw.unsealed), fun {id' i} hmade => ?_⟩, ?_⟩
    · refine append ht hw.unsealed (hmine fun hmem => ?_)
      exact hm (some.inj (hmem.symm.trans hw.issued))
    · by_cases hi : i = file.file
      · rw [hi, hw.made] at hmade
        cases hmade
        cases hname
        exact .inr (hi ▸ hleases hDt rfl)
      · exact .inl (append_data_of_ne hi)
    · refine hnext r t _ (old ++ part) ht hDt (fun hr => by rw [hall hr]) ⟨part, rfl⟩ hvalid
        (hP.kept ht hvalid (append ht hw.unsealed (hmine hid)) hPt) ?_
      exact
      { hw with
        data := by rw [append_data_self, hw.data] }
  obtain ⟨-, hu⟩ | ⟨part, -, hr, hu⟩ := heffect
  · exact hpart bytes (fun _ => rfl) hu
  · refine hpart part (fun hok => ?_) hu
    rw [hr] at hok
    cases hok

/-! ### Replacing the index -/

/-- Rows that a call may make the index, at any time when `P` holds. -/
structure Saveable (checksum : Bytes → Hash128) (n : ℕ) (entries : Entries) (P : Disk κ → Prop) :
    Prop where
  holds : ∀ {t}, P t → t.Holds n
  calls : ∀ {t}, P t → t.calls n ≠ none
  fit : RowsFit entries
  sound : ∀ {t}, Valid checksum t → P t → t.Sound entries
  present : ∀ {t k loc}, Valid checksum t → P t → entries.get? k = some loc →
    t.dir (.pack loc.pack) ≠ none
  mine : ∀ {t k loc}, P t → entries.get? k = some loc →
    t.Indexed checksum loc.pack ∨ t.issued loc.pack = some n
  change : ∀ {t u}, Valid checksum t → P t → u.saved n →
    (∀ k, u.held checksum k = t.content entries k) → Change checksum n t u

/-- What `save` ends with: the rows are the index, or nothing has changed. -/
def Saves (checksum : Bytes → Hash128) (n : ℕ) (entries : Entries) (P P₁ : Disk κ → Prop)
    (r : Except Error Unit) (s : Disk κ) : Prop :=
  match r with
  | .ok _ => P₁ s ∧ s.index checksum = entries ∧ (entries.isEmpty = false → s.saved n)
  | .error _ => P s

/-- The watch of a call that also watches the locks and the index. -/
def Watch.locking (W : Watch) : Watch := { W with locks := Set.univ, index := True }

omit [DecidableEq κ] in
theorem Kept.locking (hP : Kept checksum n W P) : Kept checksum n W.locking P :=
  hP.mono (Set.Subset.refl _) (subset_univ _) (fun _ => trivial) (fun h => h) fun h => h

omit [DecidableEq κ] in
/-- What holds after the index is replaced stays while the lock is held. -/
theorem Frame.saved (hP : Frame checksum n p W P) (id : ℕ) (entries : Entries) :
    Frame checksum n p W.locking fun s =>
      P s ∧ s.issued id = some n ∧ s.saved n ∧ s.Holds n ∧ s.index checksum = entries where
  calls hPs := hP.calls hPs.1
  mine hPs := hP.mine hPs.1
  kept s t hs ht hk hPs := by
    obtain ⟨hPs, hissued, hsaved, hholds, hindex⟩ := hPs
    exact ⟨hP.kept.locking hs ht hk hPs, hk.issued hissued, (hk.saved trivial).mpr hsaved,
      hk.holds (fun _ _ => mem_univ _) hholds, (hk.index_eq hs trivial hholds).trans hindex⟩

section Save

variable {entries : Entries} {W₁ : Watch} {P₁ : Disk κ → Prop} (hP : Frame checksum n p W P)
  (hP₁ : Frame checksum n p W₁ P₁) (hW₁ : ¬W₁.index) (hsub : ∀ {t}, P t → P₁ t)
  (hsave : Saveable checksum n entries P)
include hP hP₁ hW₁ hsub hsave

omit hP hP₁ hW₁ hsub in
omit [DecidableEq κ] in
theorem Guar.renameIndex {id : ℕ} {file : Handle} {bytes : Bytes} {t : Disk κ}
    (ht : Valid checksum t) (hPt : P t) (hwritten : Written n id (.tmp id) file bytes t)
    (hdir : t.dir (.tmp id) = some file.file) (hbytes : encode checksum entries = .ok bytes) :
    Valid checksum (t.rename n (.tmp id) .index file.file) ∧
      Guar checksum n t (t.rename n (.tmp id) .index file.file) ∧
      (t.rename n (.tmp id) .index file.file).index checksum = entries := by
  have hdecode : decode checksum (t.data file.file) = .ok entries := by
    rw [hwritten.data]
    exact decode_encode hsave.fit hbytes
  have hpresent : ∀ {k loc}, entries.get? k = some loc → t.dir (.pack loc.pack) ≠ none :=
    fun hget => hsave.present ht hPt hget
  have hsound := hsave.sound ht hPt
  have hcalls := hsave.calls hPt
  refine ⟨Valid.renameIndex ht hdir hdecode hsound hpresent hcalls,
    ⟨fun {m} hm => ?_, ?_, fun _ => .inl rfl⟩,
    index_renameIndex hdecode⟩
  · refine Keeps.renameIndex ht hdir hdecode (fun hmem => ?_) (fun _ => ⟨hm, fun hholds => ?_⟩)
      fun {k loc} _ hget => (hsave.mine hPt hget).imp_right fun hissued hmem => ?_
    · exact hm (some.inj (hmem.symm.trans hwritten.issued))
    · exact hm (hholds.unique (hsave.holds hPt))
    · exact hm (some.inj (hmem.symm.trans hissued))
  · exact hsave.change ht hPt (.inr ⟨rfl, rfl⟩)
      (held_renameIndex ht hdir hdecode hsound hpresent hcalls)

/-- The temporary file is made, written and renamed. -/
theorem saveFile_safe {id : ℕ} (hid : id ∉ W.ids) (hid₁ : id ∉ W₁.ids)
    (hbytes : encode checksum entries = .ok bytes) (hs : Valid checksum s) (h : P s ∧ Unused n id s)
    :
    (rules checksum n p).Safe
      (fun r t => t.issued id = some n ∧
        Saves checksum n entries P P₁ r t)
      (do
        let file ← createNew (.tmp id)
        write file bytes
        rename (.tmp id) .index : Io Unit).run s := by
  have hfail : ∀ e t, Valid checksum t → P t → t.issued id = some n → (rules checksum n p).Safe
        (fun r t => t.issued id = some n ∧
          Saves checksum n entries P P₁ r t) (.done (.error e)) t :=
    fun e t ht hPt hissued => ret
      (hP.and (Q := fun s => s.issued id = some n) fun _ _ _ _ hk => hk.issued) ht ⟨hPt, hissued⟩
      fun t _ hPt => ⟨hPt.2, hPt.1⟩
  have hunused : Frame checksum n p (W.adding id) fun s => P s ∧ Unused n id s :=
    adding hP (fun hx => hx.issued) (and hP.kept.adding (Unused.kept (mem_insert _ _)))
  refine step hunused hs h fun t r u ht hPt heffect => ?_
  obtain ⟨-, hdir, rfl, rfl⟩ | ⟨-, rfl, rfl⟩ | ⟨rfl, rfl⟩ := heffect
  · have hvalid := create_mine ht hPt.2 rfl hdir
    have hPu := hP.kept ht hvalid (create_mine ht rfl hdir hid) hPt.1
    refine ⟨hvalid, Guar.create_mine ht hPt.2 rfl hdir, ?_⟩
    have hwritten : Written n id (.tmp id) (t.handle n t.files) [] (t.create (.tmp id)) :=
      Written.create ht hPt.2
    have hfile : (t.create (.tmp id)).dir (.tmp id) = some (t.handle n t.files).file :=
      create_dir_self
    generalize t.handle n t.files = file at hwritten hfile ⊢
    have hframe : ∀ bytes, Frame checksum n p (W.adding id)
        fun s => P s ∧ Written n id (.tmp id) file bytes s ∧ s.dir (.tmp id) = some file.file :=
      fun bytes =>
      { calls := fun hPs => hP.calls hPs.1
        mine := fun hPs x hx => by
          obtain rfl | hx := mem_insert_iff.mp hx
          · exact hPs.2.1.issued
          · exact hP.mine hPs.1 x hx
        kept := fun _ _ hs ht hk hPs => by
          have hmem : id ∈ (W.adding id).ids := mem_insert _ _
          exact ⟨hP.kept.adding hs ht hk hPs.1, Written.kept hmem rfl hs ht hk hPs.2.1,
            hk.tmp hmem (hsave.holds hPs.1) hPs.2.2⟩ }
    refine write_rule hP rfl hid (hframe []) (fun hx => hx.1) nofun hvalid ⟨hPu, hwritten, hfile⟩
      fun r t u new ht hDt hnew happend hu hPu hw => ?_
    have hdir' : u.dir (.tmp id) = some file.file := by
      obtain ⟨part, rfl⟩ := happend
      exact hDt.2
    cases r with
    | error e => exact hfail e u hu hPu hw.issued
    | ok _ =>
      obtain rfl : new = bytes := hnew rfl
      refine step (hframe new) hu ⟨hPu, hw, hdir'⟩ fun t r u ht hPt heffect => ?_
      obtain ⟨hPt, hw, hdir⟩ := hPt
      obtain ⟨i, hi, rfl, rfl⟩ | ⟨-, rfl, rfl⟩ | ⟨rfl, rfl⟩ := heffect
      · obtain rfl : i = file.file := some.inj (hi.symm.trans hdir)
        obtain ⟨hvalid, hguar, hindex⟩ := Guar.renameIndex hsave ht hPt hw hdir hbytes
        have hdecode : decode checksum (t.data file.file) = .ok entries := by
          rw [hw.data]
          exact decode_encode hsave.fit hbytes
        have hPu : P₁ (t.rename n (.tmp id) .index file.file) := hP₁.kept ht hvalid
            (renameIndex ht hdir hdecode hid₁ (fun h => absurd h hW₁) fun h => absurd h hW₁)
            (hsub hPt)
        have hholds : (t.rename n (.tmp id) .index file.file).Holds n := by
          obtain ⟨i, hlock, howns⟩ := hsave.holds hPt
          exact ⟨i, (rename_dir_of_ne (by simp) (by simp)).trans hlock, howns⟩
        exact ⟨hvalid, hguar, ret (saved hP₁ id entries) hvalid
          ⟨hPu, hw.issued, .inr ⟨rfl, rfl⟩, hholds, hindex⟩
          fun t _ hPt => ⟨hPt.2.1, hPt.1, hPt.2.2.2.2, fun _ => hPt.2.2.1⟩⟩
      · exact ⟨ht, (refl ht).guar, hfail _ _ ht hPt hw.issued⟩
      · exact ⟨ht, (refl ht).guar, hfail _ _ ht hPt hw.issued⟩
  · exact ⟨ht, (refl ht).guar, hfail _ _ ht hPt.1 hPt.2.issued⟩
  · exact ⟨ht, (refl ht).guar, hfail _ _ ht hPt.1 hPt.2.issued⟩

/-- `save` replaces the index by the rows, or fails and changes nothing. -/
theorem save_safe (hs : Valid checksum s) (h : P s) :
    (rules checksum n p).Safe (Saves checksum n entries P P₁) (save checksum entries).run s := by
  unfold save
  split
  · next hempty =>
    have hentries : entries = .empty := SortedMap.ext_get? (SortedMap.isEmpty_iff.mp hempty)
    refine step hP hs h fun t r u ht hPt heffect => ?_
    have hholds := hsave.holds hPt
    have hgive : ∀ u, Valid checksum u → P₁ u → u.Holds n → u.index checksum = entries →
        (rules checksum n p).Safe (Saves checksum n entries P P₁) (.done (.ok ())) u := by
      intro u hu hPu hholds hindex
      refine ret (W := W₁.locking)
        (P := fun s => P₁ s ∧ s.Holds n ∧ s.index checksum = entries) ?_ hu ⟨hPu, hholds, hindex⟩
        fun t _ hPt => ⟨hPt.1, hPt.2.2, fun hne => ?_⟩
      · exact
        { calls := fun hPs => hP₁.calls hPs.1
          mine := fun hPs => hP₁.mine hPs.1
          kept := fun s t hs ht hk hPs =>
            ⟨hP₁.kept.locking hs ht hk hPs.1, hk.holds (fun _ _ => mem_univ _) hPs.2.1,
              (hk.index_eq hs trivial hPs.2.1).trans hPs.2.2⟩ }
      · rw [hempty] at hne
        cases hne
    obtain ⟨-, rfl, rfl⟩ | ⟨hdir, rfl, rfl⟩ | ⟨rfl, rfl⟩ := heffect
    · have hvalid : Valid checksum (t.remove n .index) :=
        remove (by simp) nofun ht (hsave.calls hPt)
      have hindex : (t.remove n .index).index checksum = entries := by
        rw [index_removeIndex, hentries]
      refine ⟨hvalid, ⟨fun {m} hm => ?_, ?_, fun _ => .inl rfl⟩, hgive _ hvalid ?_ ?_ hindex⟩
      · exact remove (by simp) nofun
          ⟨nofun, nofun, nofun, fun _ _ => ⟨hm, fun hholds' => hm (hholds'.unique hholds)⟩⟩
      · refine hsave.change ht hPt (.inr ⟨rfl, rfl⟩) fun k => ?_
        rw [hvalid.held_eq, hindex, hentries]
        rfl
      · exact hP₁.kept ht hvalid (remove (by simp) nofun
          ⟨nofun, nofun, nofun, fun _ h => absurd h hW₁⟩) (hsub hPt)
      · obtain ⟨i, hlock, howns⟩ := hholds
        exact ⟨i, (remove_dir_of_ne (by simp)).trans hlock, howns⟩
    · refine ⟨ht, (refl ht).guar, hgive _ ht (hsub hPt) hholds ?_⟩
      rw [index_of_none hdir, hentries]
    · exact ⟨ht, (refl ht).guar, ret hP ht hPt fun t _ hPt => hPt⟩
  · next hempty =>
    cases hbytes : encode checksum entries with
    | error e =>
      show (rules checksum n p).Safe _ (ExceptT.run (Io.of (.error e) >>= _)) s
      exact ret hP hs h fun t _ hPt => hPt
    | ok bytes =>
      show (rules checksum n p).Safe _ (ExceptT.run (Io.of (.ok bytes) >>= _)) s
      refine quiet hP hs h (by trivial) fun t id u ht hPt heffect hu hPu => ?_
      obtain ⟨-, hfree, rfl⟩ := heffect
      have hnew : ∀ {V : Watch} {R : Disk κ → Prop}, Frame checksum n p V R → R t → id ∉ V.ids := by
        intro V R hR hRt hmem
        rw [hR.mine hRt id hmem] at hfree
        cases hfree
      have hid := hnew hP hPt
      have hid₁ := hnew hP₁ (hsub hPt)
      refine attempt hu (saveFile_safe hP hP₁ hW₁ hsub hsave hid hid₁ hbytes hu
        ⟨hPu, Unused.of_unique ht hfree⟩) fun r v hv hR => ?_
      cases r with
      | ok _ =>
        exact hR.mono fun t _ hPt => hPt.2
      | error e =>
        obtain ⟨hissued, hPv⟩ := hR.now hv
        have hD : Frame checksum n p W fun s => P s ∧ s.issued id = some n :=
          hP.and fun _ _ _ _ hk => hk.issued
        refine remove_rule hP hD hid (.inr (.inl rfl)) (fun h => h) nofun hv ⟨hPv, hissued⟩
          fun r u hu hPu => ?_
        exact ret hP hu hPu fun t _ hPt => hPt

end Save

end HdLang.Cache
