import HdLang.Cache.Leases

/-!
# Publishing

The rows that a publish writes to its lease hold the last bytes of each key of the batch. Under the
publication lock they are put over the rows of the index, whose packs are there, and the index is
replaced in one step: before it nothing has changed, and after it the publish cannot fail.
-/

namespace HdLang.Cache

open Rules Io List Option Kept SortedMap Safe Rules.Safe

variable {κ : Type} {checksum : Bytes → Hash128} {n : ℕ} {p : κ} {W : Watch} {P : Disk κ → Prop}
  {s : Disk κ}

/-! ### The rows of a batch -/

theorem lastOf_append (batch : Batch) (kind : EntryKind) (hash : Hash128) (bytes : Bytes) (k : Key) :
    lastOf (batch ++ [(kind, hash, bytes)]) k =
      if key kind.asU16 hash = k then some bytes else lastOf batch k := by
  induction batch with
  | nil => simp [lastOf]
  | cons e batch ih =>
    obtain ⟨kind', hash', bytes'⟩ := e
    rw [cons_append, lastOf, ih, lastOf]
    split <;> rfl

variable {bytes : Bytes}

theorem mem_of_lastOf {batch : Batch} {k : Key} (h : lastOf batch k = some bytes) :
    ∃ kind hash, (kind, hash, bytes) ∈ batch ∧ key kind.asU16 hash = k := by
  induction batch with
  | nil => cases h
  | cons e batch ih =>
    obtain ⟨kind, hash, bytes'⟩ := e
    rw [lastOf] at h
    cases hrest : lastOf batch k with
    | some b =>
      rw [hrest] at h
      cases h
      obtain ⟨kind', hash', hmem, hk⟩ := ih hrest
      exact ⟨kind', hash', mem_cons_of_mem _ hmem, hk⟩
    | none =>
      rw [hrest, none_or] at h
      split at h
      · next hk =>
        cases h
        exact ⟨kind, hash, mem_cons_self, hk⟩
      · cases h

theorem lastOf_ne_none {batch : Batch} (h : batch ≠ []) : ∃ k, lastOf batch k ≠ none := by
  cases batch with
  | nil => exact absurd rfl h
  | cons e batch =>
    obtain ⟨kind, hash, bytes⟩ := e
    refine ⟨key kind.asU16 hash, ?_⟩
    rw [lastOf, if_pos rfl]
    cases lastOf batch (key kind.asU16 hash) <;> simp

/-- The rows are those of the batch's entries in a pack of these bytes. -/
structure Wrote (id : ℕ) (batch : Batch) (data : Bytes) (rows : Entries) : Prop where
  fit : RowsFit rows
  row : ∀ {k loc}, rows.get? k = some loc → loc.pack = id ∧ loc.offset + loc.len ≤ data.length ∧
    lastOf batch k = some (slice data loc)
  none : ∀ {k}, rows.get? k = none → lastOf batch k = none

theorem Wrote.nil (id : ℕ) : Wrote id [] [] .empty := ⟨nofun, nofun, fun _ => rfl⟩

variable {id time : ℕ}

theorem Wrote.snoc {batch : Batch} {data : Bytes} {rows : Entries} (h : Wrote id batch data rows)
    {kind : EntryKind} {hash : Hash128}
    (hfits : Fits (key kind.asU16 hash) ⟨id, data.length, bytes.length, time⟩) :
    Wrote id (batch ++ [(kind, hash, bytes)]) (data ++ bytes)
      (rows.insert (key kind.asU16 hash) ⟨id, data.length, bytes.length, time⟩) where
  fit := h.fit.insert hfits
  row {k loc} hget := by
    rw [get?_insert] at hget
    rw [lastOf_append]
    split at hget
    · next hk =>
      cases hget
      refine ⟨rfl, by simp, ?_⟩
      rw [if_pos hk, slice, drop_left, take_length]
    · next hk =>
      obtain ⟨hpack, hrange, hlast⟩ := h.row hget
      rw [if_neg hk, slice_append hrange, length_append]
      exact ⟨hpack, by omega, hlast⟩
  none {k} hget := by
    rw [get?_insert] at hget
    rw [lastOf_append]
    split at hget
    · cases hget
    · next hk =>
      rw [if_neg hk]
      exact h.none hget

/-! ### The rows that are committed -/

section Commit

variable {l : Lease} {batch : Batch} {data : Bytes} {pending merged : Entries}

/-- A publish that has not replaced the index. -/
def Publishing (n : ℕ) (p : κ) (batch : Batch) (s : Disk κ) : Prop :=
  s.calls n = some (p, .publish batch) ∧ ¬s.saved n

theorem Finished.sound (h : Finished checksum n l data s)
    (hcall : s.calls n = some (p, .publish batch)) (hwrote : Wrote l.id batch data pending) :
    s.Sound pending := by
  intro k loc hget
  obtain ⟨hpack, hrange, hlast⟩ := hwrote.row hget
  obtain ⟨kind, hash, hmem, hk⟩ := mem_of_lastOf hlast
  refine ⟨l.file.file, ?_, ?_, n, p, batch, kind, hash, hcall, ?_, hk⟩
  · rw [hpack]
    exact h.packed
  · rw [h.data]
    exact hrange
  · rw [h.data]
    exact hmem

/-- What the pending rows over others hold: the batch's bytes first. -/
theorem Finished.content_extend (h : Finished checksum n l data s)
    (hwrote : Wrote l.id batch data pending) (k : Key) :
    s.content (merged.extend pending) k = (lastOf batch k).or (s.content merged k) := by
  unfold Disk.content
  rw [get?_extend]
  cases hget : pending.get? k with
  | none => rw [hwrote.none hget, none_or, none_or]
  | some loc =>
    obtain ⟨hpack, -, hlast⟩ := hwrote.row hget
    rw [hlast, some_or, some_or, bind_some, hpack, h.packed, map_some, h.data]

theorem Wrote.isEmpty_extend (hwrote : Wrote id batch data pending) (hne : batch ≠ []) :
    (merged.extend pending).isEmpty = false := by
  obtain ⟨k, hk⟩ := lastOf_ne_none hne
  refine Bool.eq_false_iff.mpr fun hempty => hk (hwrote.none ?_)
  have hget := isEmpty_iff.mp hempty k
  rw [get?_extend] at hget
  exact (or_eq_none_iff.mp hget).1

/-- The pending rows over those of the index may become the index. -/
theorem Saveable.commit
    (hP : ∀ {t}, P t → t.Holds n ∧ Publishing n p batch t ∧ Finished checksum n l data t ∧
      SameRows (t.index checksum) merged)
    (hfit : RowsFit merged) (hwrote : Wrote l.id batch data pending) :
    Saveable checksum n (merged.extend pending) P where
  holds hPt := (hP hPt).1
  calls hPt := by
    rw [(hP hPt).2.1.1]
    exact some_ne_none _
  fit k loc hget := by
    rw [get?_extend] at hget
    obtain hget | ⟨-, hget⟩ := or_eq_some_iff.mp hget
    · exact hwrote.fit k loc hget
    · exact hfit k loc hget
  sound {t} ht hPt k loc hget := by
    obtain ⟨-, hpub, hfinished, hrows⟩ := hP hPt
    rw [get?_extend] at hget
    obtain hget | ⟨-, hget⟩ := or_eq_some_iff.mp hget
    · exact hfinished.sound hpub.1 hwrote k loc hget
    · exact hrows.sound ht.sound_index k loc hget
  present {t k loc} ht hPt hget := by
    obtain ⟨-, -, hfinished, hrows⟩ := hP hPt
    rw [get?_extend] at hget
    obtain hget | ⟨-, hget⟩ := or_eq_some_iff.mp hget
    · rw [(hwrote.row hget).1, hfinished.dir]
      exact some_ne_none _
    · obtain ⟨loc', hget', hpack, -⟩ := hrows.symm.get? hget
      exact ht.indexed ⟨k, loc', hget', hpack⟩
  mine {t k loc} hPt hget := by
    obtain ⟨-, -, hfinished, hrows⟩ := hP hPt
    rw [get?_extend] at hget
    obtain hget | ⟨-, hget⟩ := or_eq_some_iff.mp hget
    · rw [(hwrote.row hget).1]
      exact .inr hfinished.issued
    · obtain ⟨loc', hget', hpack, -⟩ := hrows.symm.get? hget
      exact .inl ⟨k, loc', hget', hpack⟩
  change {t u} ht hPt hsaved hheld := by
    obtain ⟨-, ⟨hcall, hunsaved⟩, hfinished, hrows⟩ := hP hPt
    refine .inr ?_
    rw [hcall]
    refine ⟨hunsaved, hsaved, fun k => ?_⟩
    rw [hheld, hfinished.content_extend hwrote, hrows.content_eq, ht.held_eq]

end Commit

/-! ### The steps of a publish -/

/-- What `commit` ends with: the index is replaced and the lease kept, or neither. -/
def Commits (checksum : Bytes → Hash128) (n : ℕ) (p : κ) (batch : Batch) (l : Lease)
    (r : Except Error (Except Error Unit × Lease)) (s : Disk κ) : Prop :=
  s.calls n = some (p, .publish batch) ∧ ∃ result l', r = .ok (result, l') ∧ l'.id = l.id ∧ l'.file = l.file ∧
    match result with
    | .ok _ => s.saved n ∧ l'.committed = true ∧ s.made l.file.file = some (.pending l.id)
    | .error _ => ¬s.saved n ∧ l'.committed = false ∧ Droppable checksum n l' s

section Publish

variable {batch : Batch}

theorem Publishing.kept (hW : W.index) : Kept (κ := κ) checksum n W (Publishing n p batch) :=
  and calls (unsaved hW)

theorem Publishing.frame (W : Watch) (hids : W.ids = ∅) (hW : W.index) :
    Frame (κ := κ) checksum n p W (Publishing n p batch) where
  calls h := ⟨_, h.1⟩
  mine _ x hx := by
    rw [hids] at hx
    exact absurd hx (Set.notMem_empty x)
  kept := Publishing.kept hW

variable [DecidableEq κ]

variable {l : Lease}

theorem writeBatch_safe (hP : Frame checksum n p W P) (hid : l.id ∉ W.ids) (hlt : l.id < 2 ^ 128)
    (htime : time < U64) (batch : Batch)
    (hbatch : ∀ e ∈ batch, e.1 ≠ .clpack ∧ e.2.2.length ≤ MAX_ENTRY) (before : Batch) (data : Bytes)
    (rows : Entries) (hwrote : Wrote l.id before data rows) (hs : Valid checksum s)
    (h : P s ∧ Leased n l data s) :
    (rules checksum n p).Safe
      (fun r t => ∃ data', (P t ∧ Leased n l data' t) ∧
        ∀ rows', r = .ok rows' → Wrote l.id (before ++ batch) data' rows')
      (writeBatch l time batch data.length rows).run s := by
  induction batch generalizing s before data rows with
  | nil =>
    refine ret (hP.leased l data) hs h fun t _ hPt => ⟨data, hPt, fun rows' hr => ?_⟩
    cases hr
    rwa [append_nil]
  | cons e batch ih =>
    obtain ⟨kind, hash, bytes⟩ := e
    obtain ⟨hkind, hlen⟩ := hbatch _ mem_cons_self
    have hfail : ∀ error data' t, Valid checksum t → (P t ∧ Leased n l data' t) →
        (rules checksum n p).Safe
          (fun r t => ∃ data', (P t ∧ Leased n l data' t) ∧
            ∀ rows', r = .ok rows' → Wrote l.id (before ++ (kind, hash, bytes) :: batch) data' rows')
          (.done (.error error : Except Error Entries)) t :=
      fun error data' t ht hPt => ret (hP.leased l data') ht hPt fun t _ hPt =>
        ⟨data', hPt, nofun⟩
    refine write_rule hP rfl hid (hP.leased l data) (fun hx => hx.written)
      (fun hx _ => hx.leases) hs h
      fun r t u new ht hDt hnew happend hu hPu hw => ?_
    have hleased : Leased n l new u := by
      obtain ⟨part, rfl⟩ := happend
      exact ⟨hw, hDt.dir, hDt.locks⟩
    cases r with
    | error error => exact hfail error new u hu ⟨hPu, hleased⟩
    | ok _ =>
      obtain rfl : new = data ++ bytes := hnew rfl
      show (rules checksum n p).Safe _ (ExceptT.run (if _ then _ else _)) u
      split
      · exact hfail _ (data ++ bytes) u hu ⟨hPu, hleased⟩
      · next hrange =>
        have hindexed : indexed kind.asU16 = true := by
          refine any_eq_true.mpr ⟨kind, kind.mem_all, ?_⟩
          exact decide_eq_true ⟨rfl, hkind⟩
        have hfits : Fits (key kind.asU16 hash) ⟨l.id, data.length, bytes.length, time⟩ :=
          { kind := hindexed
            hash := hash.isLt
            pack := hlt
            len := hlen
            range := Nat.lt_of_not_le hrange
            used := htime }
        have hwrote' := hwrote.snoc hfits
        have hrest := ih (fun e he => hbatch e (mem_cons_of_mem _ he))
          (before ++ [(kind, hash, bytes)]) (data ++ bytes) _ hwrote' hu ⟨hPu, hleased⟩
        rw [length_append, append_assoc] at hrest
        exact hrest

/-- Under the publication lock the lease becomes a pack and its rows join the index, or the index
stays as it is. -/
theorem commit_safe {data : Bytes} {pending : Entries} {file : Handle} (hne : batch ≠ [])
    (hpath : l.path = .pending l.id) (hcommitted : l.committed = false)
    (hwrote : Wrote l.id batch data pending) (hs : Valid checksum s)
    (h : (Publishing n p batch s ∧ Leased n l data s) ∧ Locked n file s) :
    (rules checksum n p).Safe (Commits checksum n p batch l) (commit checksum l pending).run s := by
  -- What is known of the lease, and what is known without it.
  let W : Watch := ⟨∅, {file.file}, True, False, False⟩
  have hbase : Frame checksum n p W fun s => Publishing n p batch s ∧ Locked n file s :=
    (Publishing.frame W rfl trivial).and (Locked.kept rfl)
  have hheld : Frame checksum n p (W.holding l.id)
      fun s => (Publishing n p batch s ∧ Locked n file s) ∧ Leased n l data s := hbase.leased l data
  have hfail : ∀ e t, Valid checksum t → Publishing n p batch t → Leased n l data t →
      (rules checksum n p).Safe (Commits checksum n p batch l) (.done (.ok (.error e, l))) t := by
    intro e t ht hpub hleased
    refine ret ((Publishing.frame Watch.nothing.locking rfl trivial).leased l data) ht
      ⟨hpub, hleased⟩ fun t _ hPt => ⟨hPt.1.1, _, l, rfl, rfl, rfl, hPt.1.2, hcommitted, ?_⟩
    exact hPt.2.droppable hpath
  refine attempt hs (recover_safe hheld trivial (fun hPs => hPs.1.2) hs ⟨⟨h.1.1, h.2⟩, h.1.2⟩)
    fun r t ht hR => ?_
  obtain ⟨⟨⟨hpub, hlocked⟩, hleased⟩, hrows⟩ := hR.now ht
  cases r with
  | error e => exact hfail e t ht hpub hleased
  | ok r =>
    obtain ⟨entries, corrupt⟩ := r
    obtain ⟨hindex, -⟩ := hrows entries corrupt rfl
    have hbase' : Frame checksum n p W
        fun s => (Publishing n p batch s ∧ Locked n file s) ∧ s.index checksum = entries :=
      { calls := fun hPs => hbase.calls hPs.1
        mine := fun hPs => hbase.mine hPs.1
        kept := index trivial hbase.kept fun hPs => hPs.2.holds }
    have hheld' := hbase'.leased l data
    refine tryBind ht (mergeTouches_safe hheld' (fun h => h) ht
      ⟨⟨⟨hpub, hlocked⟩, hindex⟩, hleased⟩ entries)
      (fun e t _ ⟨_, merged, changed, hr, _⟩ => by cases hr) fun r t ht hR => ?_
    obtain ⟨⟨hPt, hleased⟩, merged, changed, hr, hsame, hfit, -⟩ := hR.now ht
    cases hr
    have hfit' : RowsFit merged := hfit (hPt.2 ▸ ht.fit_index)
    have hlockonly : LockOnly W fun s => (Publishing n p batch s ∧ Locked n file s) ∧
        s.index checksum = entries := LockOnly.of_locked rfl fun hPs => hPs.1.2
    refine attempt ht (finish_safe hbase' hlockonly trivial (fun hPs => hPs.1.2.holds)
      (Set.notMem_empty _) hpath ht ⟨⟨hPt, hleased.written⟩, hleased.dir⟩) fun r t ht hR => ?_
    obtain ⟨hPt, hfinishes⟩ := hR.now ht
    cases r with
    | error e =>
      exact ret (hbase'.droppable trivial l) ht ⟨hPt, hfinishes⟩ fun t _ hPt =>
        ⟨hPt.1.1.1.1, _, l, rfl, rfl, rfl, hPt.1.1.1.2, hcommitted, hPt.2⟩
    | ok l' =>
      obtain ⟨rfl, hfinished⟩ := hfinishes
      have hbefore : Frame checksum n p (W.adding l.id)
          fun s => ((Publishing n p batch s ∧ Locked n file s) ∧ s.index checksum = entries) ∧
            Finished checksum n { l with path := .pack l.id } data s :=
        hbase'.adding (fun hx => hx.issued)
          (Finished.kept (Set.mem_insert _ _) trivial hbase'.kept.adding fun hPs => hPs.1.2.holds)
      have hafter : Frame checksum n p ⟨∅, {file.file}, False, False, False⟩
          fun s => (s.calls n = some (p, .publish batch) ∧ Locked n file s) ∧
            s.made l.file.file = some (.pending l.id) :=
        { calls := fun hPs => ⟨_, hPs.1.1⟩
          mine := nofun
          kept := and (and calls (Locked.kept rfl)) made }
      refine attempt ht (save_safe hbefore hafter (fun h => h)
        (fun hPs => ⟨⟨hPs.1.1.1.1, hPs.1.1.2⟩, hPs.2.made⟩)
        (Saveable.commit (fun hPs => ⟨hPs.1.1.2.holds, hPs.1.1.1, hPs.2, ?_⟩) hfit' hwrote) ht
        ⟨hPt, hfinished⟩) fun r t ht hR => ?_
      · rw [hPs.1.2]
        exact hsame
      · have hsaves := hR.now ht
        cases r with
        | error e =>
          refine ret (hbase'.droppable trivial { l with path := .pack l.id }) ht
            ⟨hsaves.1, hsaves.2.droppable rfl⟩ fun t _ hPt => ?_
          exact ⟨hPt.1.1.1.1, _, _, rfl, rfl, rfl, hPt.1.1.1.2, hcommitted, hPt.2⟩
        | ok _ =>
          obtain ⟨hPt, hindex, hsaved⟩ := hsaves
          have hsaved := hsaved (hwrote.isEmpty_extend hne)
          have hend : Frame checksum n p W fun s =>
              (s.calls n = some (p, .publish batch) ∧ Locked n file s) ∧
                s.made l.file.file = some (.pending l.id) ∧ s.saved n ∧
                  s.Sound (merged.extend pending) :=
            { calls := fun hPs => ⟨_, hPs.1.1⟩
              mine := nofun
              kept := and (and calls (Locked.kept rfl))
                (and made (and (saved trivial) sound)) }
          refine tryBind ht (replace_safe hend (fun h => h) (fun hPs => hPs.1.2.holds)
            (fun hPs => hPs.2.2.2) ht ⟨hPt.1, hPt.2, hsaved, hindex ▸ ht.sound_index⟩)
            (fun e t _ hR => by cases hR.1) fun _ t ht hR => ?_
          exact ret hend ht (hR.now ht).2.1 fun t _ hPt =>
            ⟨hPt.1.1, _, _, rfl, rfl, rfl, hPt.2.2.1, rfl, hPt.2.1⟩

omit [DecidableEq κ] in
theorem Commits.release {l : Lease} {file : Handle} {r : Except Error (Except Error Unit × Lease)}
    (h : Commits checksum n p batch l r s) :
    Commits checksum n p batch l r (s.release file) := by
  obtain ⟨hcall, result, l', hr, hid, hfile, h⟩ := h
  refine ⟨hcall, result, l', hr, hid, hfile, ?_⟩
  cases result with
  | ok _ => exact h
  | error e => exact ⟨h.1, h.2.1, h.2.2.issued, h.2.2.made, h.2.2.owner, h.2.2.path⟩

/-- What `commit` ends with is left alone by the others. -/
theorem Commits.always {l : Lease} {r : Except Error (Except Error Unit × Lease)}
    (hs : Valid checksum s) (h : Commits checksum n p batch l r s) :
    (rules checksum n p).Always (Commits checksum n p batch l r) s := by
  obtain ⟨hcall, result, l', hr, hid, hfile, h⟩ := h
  cases result with
  | ok _ =>
    have hframe : Frame checksum n p Watch.nothing.locking fun s =>
        s.calls n = some (p, .publish batch) ∧ s.saved n ∧
          s.made l.file.file = some (.pending l.id) :=
      { calls := fun hPs => ⟨_, hPs.1⟩
        mine := nofun
        kept := and calls (and (saved trivial) made) }
    exact (hframe.always hs ⟨hcall, h.1, h.2.2⟩).mono fun t _ hPt =>
      ⟨hPt.1, _, l', hr, hid, hfile, hPt.2.1, h.2.1, hPt.2.2⟩
  | error e =>
    have hbase : Frame checksum n p Watch.nothing.locking (Publishing (κ := κ) n p batch) :=
      Publishing.frame _ rfl trivial
    have hframe := hbase.droppable trivial l'
    exact (hframe.always hs ⟨⟨hcall, h.1⟩, h.2.2⟩).mono fun t _ hPt =>
      ⟨hPt.1.1, _, l', hr, hid, hfile, hPt.1.2, h.2.1, hPt.2⟩

theorem publishLease_safe (hne : batch ≠ [])
    (hbatch : ∀ e ∈ batch, e.1 ≠ .clpack ∧ e.2.2.length ≤ MAX_ENTRY) (htime : time < U64)
    (hpath : l.path = .pending l.id) (hcommitted : l.committed = false) (hlt : l.id < 2 ^ 128)
    (hs : Valid checksum s) (h : Publishing n p batch s ∧ Leased n l [] s) :
    (rules checksum n p).Safe (Commits checksum n p batch l)
      (publishLease checksum l batch time).run s := by
  have hbase : Frame checksum n p ⟨∅, ∅, True, False, False⟩ (Publishing (κ := κ) n p batch) :=
    Publishing.frame _ rfl trivial
  have hfail : ∀ e data t, Valid checksum t → (Publishing n p batch t ∧ Leased n l data t) →
      (rules checksum n p).Safe (Commits checksum n p batch l) (.done (.ok (.error e, l))) t :=
    fun e data t ht hPt => ret (hbase.leased l data) ht hPt fun t _ hPt =>
      ⟨hPt.1.1, _, l, rfl, rfl, rfl, hPt.1.2, hcommitted, hPt.2.droppable hpath⟩
  refine attempt hs (writeBatch_safe hbase (Set.notMem_empty _) hlt htime batch hbatch [] []
    .empty (Wrote.nil l.id) hs h) fun r t ht hR => ?_
  obtain ⟨data, hPt, hwrote⟩ := hR.now ht
  cases r with
  | error e => exact hfail e data t ht hPt
  | ok pending =>
    refine attempt ht (lock_safe (hbase.leased l data) ht hPt) fun r t ht hR => ?_
    obtain ⟨hPt, hlocked⟩ := hR.now ht
    cases r with
    | error e => exact hfail e data t ht hPt
    | ok file =>
      have hlocked := hlocked file rfl
      refine tryBind ht (commit_safe hne hpath hcommitted (hwrote pending rfl) ht ⟨hPt, hlocked⟩)
        (fun e t _ ⟨_, _, _, hr, _⟩ => by cases hr) fun r t ht hR => ?_
      exact close ht hR hlocked.owner fun t ht hR hvalid =>
        Commits.always hvalid (hR.now ht).release

/-- What a publish ends with. -/
def PublishEnds (n : ℕ) (batch : Batch) (r : Except Error Unit) (s : Disk κ) : Prop :=
  match r with
  | .ok _ => batch ≠ [] → s.saved n
  | .error _ => ¬s.saved n

variable {attempts : ℕ}

/-- The lease of a publish, which outlives the lock it was taken under. -/
theorem withLease_safe (hs : Valid checksum s) (h : Publishing n p batch s) :
    (rules checksum n p).Safe
      (fun r t => Publishing n p batch t ∧ ∀ l, r = .ok l →
        Leased n l [] t ∧ l.path = .pending l.id ∧ l.committed = false ∧ l.id < 2 ^ 128)
      (withLock (lease attempts)).run s := by
  have hbase : Frame checksum n p ⟨∅, ∅, True, False, False⟩ (Publishing (κ := κ) n p batch) :=
    Publishing.frame _ rfl trivial
  refine withLock_safe hbase (R := fun file r t => (Publishing n p batch t ∧ Locked n file t) ∧
    ∀ l, r = .ok l → Leased n l [] t ∧ l.path = .pending l.id ∧ l.committed = false ∧
      l.id < 2 ^ 128) hs h (fun e t hPt => ⟨hPt, nofun⟩)
    (fun file t ht hPt hlocked => ?_) fun file r t howner ht hR => ?_
  · have hframe : Frame checksum n p ⟨∅, {file.file}, True, False, False⟩
        fun s => Publishing n p batch s ∧ Locked n file s :=
      (Publishing.frame _ rfl trivial).and (Locked.kept rfl)
    refine (lease_safe hframe (LockOnly.of_locked rfl fun hPs => hPs.2) trivial
      (fun hPs => hPs.2.holds) attempts ht ⟨hPt, hlocked⟩).mono fun r t _ hR => ⟨hR.1, fun l hl => ?_⟩
    obtain ⟨hleased, hpath, hcommitted, -, hlt⟩ := hR.2 l hl
    exact ⟨hleased, hpath, hcommitted, hlt⟩
  · obtain ⟨⟨hpub, hlocked⟩, hlease⟩ := hR.now ht
    have hpub' : Publishing n p batch (t.release file) := hpub
    cases r with
    | error e => exact (hbase.always ht.release hpub').mono fun t _ hPt => ⟨hPt, nofun⟩
    | ok l =>
      obtain ⟨hleased, hfacts⟩ := hlease l rfl
      have hne : l.file.file ≠ file.file := by
        intro heq
        have hmade := hleased.written.made
        rw [heq, hlocked.made] at hmade
        cases hmade
      have hleased' : Leased n l [] (t.release file) :=
        { written :=
            { issued := hleased.written.issued
              made := hleased.written.made
              unsealed := hleased.written.unsealed
              unpacked := hleased.written.unpacked
              data := hleased.written.data
              owner := hleased.written.owner }
          dir := hleased.dir
          locks := by
            show (if t.locks file.file = some file then _ else t.locks) l.file.file = _
            rw [if_pos hlocked.locks, Function.update_of_ne hne]
            exact hleased.locks }
      refine ((hbase.leased l []).always ht.release ⟨hpub', hleased'⟩).mono fun t _ hPt =>
        ⟨hPt.1, fun l' hl => ?_⟩
      cases hl
      exact ⟨hPt.2, hfacts⟩

/-- **A publish** that succeeds has replaced the index, and one that fails has not. -/
theorem publish_safe (hs : Valid checksum s) (h : Publishing n p batch s) :
    (rules checksum n p).Safe (PublishEnds n batch) (publish checksum attempts batch).run s := by
  have hbase : Frame checksum n p ⟨∅, ∅, True, False, False⟩ (Publishing (κ := κ) n p batch) :=
    Publishing.frame _ rfl trivial
  have hfail : ∀ e t, Valid checksum t → Publishing n p batch t →
      (rules checksum n p).Safe (PublishEnds n batch) (.done (.error e)) t :=
    fun e t ht hPt => ret hbase ht hPt fun t _ hPt => hPt.2
  unfold publish
  split
  · next hempty =>
    exact ret hbase hs h fun t _ hPt hne => absurd (List.isEmpty_iff.mp hempty) hne
  · next hempty =>
    have hne : batch ≠ [] := fun heq => hempty (List.isEmpty_iff.mpr heq)
    split
    · exact hfail _ s hs h
    · next hall =>
      have hbatch : ∀ e ∈ batch, e.1 ≠ .clpack ∧ e.2.2.length ≤ MAX_ENTRY := by
        intro e he
        have hbad := fun hb => hall (any_eq_true.mpr ⟨e, he, decide_eq_true hb⟩)
        exact ⟨fun hb => hbad (.inl hb), Nat.le_of_not_lt fun hb => hbad (.inr hb)⟩
      cases indexLen batch.length with
      | error e => exact hfail e s hs h
      | ok len =>
        show (rules checksum n p).Safe _ (ExceptT.run (Io.of (.ok len) >>= _)) s
        refine tryBind (x := withLock (lease attempts)) hs (withLease_safe hs h)
          (fun e t _ hR => hR.1.2) fun l t ht hR => ?_
        obtain ⟨hpub, hlease⟩ := hR.now ht
        obtain ⟨hleased, hpath, hcommitted, hlt⟩ := hlease l rfl
        refine quiet (hbase.leased l []) ht ⟨hpub, hleased⟩ (by trivial)
          fun t time u ht _ heffect hu hPu => ?_
        refine tryBind hu
          (publishLease_safe hne hbatch heffect.1 hpath hcommitted hlt hu hPu)
          (fun e t _ ⟨_, _, _, hr, _⟩ => by cases hr) fun r t ht hR => ?_
        obtain ⟨hcall, result, l', hr, hid, hfile, hends⟩ := hR.now ht
        cases hr
        cases result with
        | ok _ =>
          obtain ⟨hsaved, hcommitted', hmade⟩ := hends
          have hframe : Frame checksum n p ⟨∅, ∅, True, False, False⟩ fun s =>
              s.calls n = some (p, .publish batch) ∧ s.saved n :=
            { calls := fun hPs => ⟨_, hPs.1⟩
              mine := nofun
              kept := and calls (saved trivial) }
          refine tryBind ht (dropLease_safe hframe (fun _ _ i hi => hi.elim) trivial
            (Set.notMem_empty _) ht ⟨hcall, hsaved⟩ ?_) (fun e t _ hR => by cases hR.1)
            fun _ t ht hR => ?_
          · rw [if_pos hcommitted', hfile, hid]
            exact ⟨hleased.written.owner, hmade⟩
          · exact ret hframe ht (hR.now ht).2 fun t _ hPt _ => hPt.2
        | error e =>
          obtain ⟨hunsaved, hcommitted', hdrop⟩ := hends
          refine tryBind ht (dropLease_safe hbase (fun _ _ i hi => hi.elim) trivial
            (Set.notMem_empty _) ht ⟨hcall, hunsaved⟩ ?_) (fun e t _ hR => by cases hR.1)
            fun _ t ht hR => ?_
          · rw [if_neg (by simp [hcommitted'])]
            exact hdrop
          · exact hfail e t ht (hR.now ht).2

end Publish

end HdLang.Cache
