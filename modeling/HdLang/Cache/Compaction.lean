import HdLang.Cache.Reading
import HdLang.Cache.Scanning

/-!
# Compaction

A compaction copies the rows of one pack to a lease and makes the result the index. The rows that are
moved hold the bytes that they held, so that the store holds what it did, up to the keys that an
eviction before it has dropped. `Planned` is what is known of the rows that a maintenance works on.
-/

namespace HdLang.Cache

open Rules Io List Option Rules.Safe Safe SortedMap LockOnly

variable {κ : Type} {checksum : Bytes → Hash128} {n : ℕ} {p : κ} {W : Watch} {P : Disk κ → Prop}
  {s : Disk κ}

theorem names_iff {entries : Entries} {id : ℕ} :
    names entries id = true ↔ ∃ k loc, entries.get? k = some loc ∧ loc.pack = id := by
  unfold names
  rw [List.any_eq_true]
  constructor
  · rintro ⟨⟨k, loc⟩, hmem, hpack⟩
    exact ⟨k, loc, mem_iff.mp hmem, of_decide_eq_true hpack⟩
  · rintro ⟨k, loc, hget, hpack⟩
    exact ⟨(k, loc), mem_iff.mpr hget, decide_eq_true hpack⟩

/-! ### Rows that are moved -/

/-- Some rows of pack `id`, whose bytes are `source`, are now in pack `lease`, whose bytes are
`data`. -/
structure Moved (id lease : ℕ) (source data : Bytes) (entries moved : Entries) : Prop where
  row : ∀ {k loc'}, moved.get? k = some loc' → ∃ loc, entries.get? k = some loc ∧
    (loc' = loc ∨ (loc.pack = id ∧ loc'.pack = lease ∧ loc'.offset + loc'.len ≤ data.length ∧
      slice data loc' = slice source loc))
  all : ∀ {k loc}, entries.get? k = some loc → moved.get? k ≠ none
  fit : RowsFit moved

section Moved

variable {id lease : ℕ} {source data : Bytes} {entries moved : Entries}

theorem Moved.refl (hfit : RowsFit entries) : Moved id lease source [] entries entries where
  row hget := ⟨_, hget, .inl rfl⟩
  all hget := by
    rw [hget]
    exact some_ne_none _
  fit := hfit

theorem Moved.snoc (h : Moved id lease source data entries moved) {k : Key} {loc : Location}
    (hget : entries.get? k = some loc) (hpack : loc.pack = id)
    (hlen : (slice source loc).length = loc.len)
    (hfits : Fits k { loc with pack := lease, offset := data.length }) :
    Moved id lease source (data ++ slice source loc) entries
      (moved.insert k { loc with pack := lease, offset := data.length }) where
  row {k' loc'} hget' := by
    rw [get?_insert] at hget'
    split at hget'
    · next heq =>
      cases hget'
      refine ⟨loc, heq ▸ hget, .inr ⟨hpack, rfl, ?_, ?_⟩⟩
      · rw [length_append, hlen]
      · rw [slice, drop_left]
        exact take_of_length_le hlen.le
    · obtain ⟨loc₀, hget₀, hrow⟩ := h.row hget'
      refine ⟨loc₀, hget₀, hrow.imp_right fun hrow => ?_⟩
      obtain ⟨hpack, hlease, hrange, hslice⟩ := hrow
      rw [slice_append hrange, length_append]
      exact ⟨hpack, hlease, by omega, hslice⟩
  all {k' loc'} hget' := by
    rw [get?_insert]
    split
    · exact some_ne_none _
    · exact h.all hget'
  fit := h.fit.insert hfits

variable (h : Moved id lease source data entries moved) {i j : ℕ} (hid : s.packed id = some i)
  (hsource : s.data i = source) (hlease : s.packed lease = some j) (hdata : s.data j = data)
include h hid hsource hlease hdata

theorem Moved.content_eq (k : Key) : s.content moved k = s.content entries k := by
  unfold Disk.content
  cases hget : moved.get? k with
  | none =>
    cases hold : entries.get? k with
    | none => rfl
    | some loc => exact absurd hget (h.all hold)
  | some loc' =>
    obtain ⟨loc, hold, rfl | ⟨hpack, hpack', -, hslice⟩⟩ := h.row hget
    · rw [hold]
    · rw [hold, bind_some, bind_some, hpack, hpack', hid, hlease, map_some, map_some, hsource,
        hdata, hslice]

theorem Moved.sound (hsound : s.Sound entries) : s.Sound moved := by
  intro k loc' hget
  obtain ⟨loc, hold, rfl | ⟨hpack, hpack', hrange, hslice⟩⟩ := h.row hget
  · exact hsound k loc' hold
  · obtain ⟨i', hi', -, hpub⟩ := hsound k loc hold
    rw [hpack, hid] at hi'
    cases hi'
    rw [hsource, ← hslice] at hpub
    refine ⟨j, ?_, ?_, ?_⟩
    · rw [hpack', hlease]
    · rw [hdata]
      exact hrange
    · rw [hdata]
      exact hpub

omit hid hsource hlease hdata in
theorem Moved.size_le : moved.size ≤ entries.size :=
  SortedMap.size_le fun k loc' hget => by
    obtain ⟨loc, hold, -⟩ := h.row hget
    rw [hold]
    exact some_ne_none _

end Moved

/-! ### The rows of a maintenance -/

/-- Rows that hold what the store holds, up to an eviction, in packs of the index. -/
structure Planned (checksum : Bytes → Hash128) (cap : ℕ) (entries : Entries) (s : Disk κ) :
    Prop where
  sound : s.Sound entries
  indexed : ∀ {k loc}, entries.get? k = some loc → s.Indexed checksum loc.pack
  content : ∃ keep, Evicts checksum s cap keep ∧
    ∀ k, s.content entries k = if keep k then s.held checksum k else none

/-- The packs of the index are those of the rows. -/
def Covers (checksum : Bytes → Hash128) (entries : Entries) (s : Disk κ) : Prop :=
  ∀ id, s.Indexed checksum id → names entries id = true

section Planned

variable {cap : ℕ} {entries : Entries}

theorem Planned.kept (hW : W.index) (hP : Kept checksum n W P) (hholds : ∀ {s}, P s → s.Holds n) :
    Kept checksum n W fun s => P s ∧ Planned checksum cap entries s := by
  rintro s t hs ht hk ⟨hPs, hplanned⟩
  have hindex := hk.index_eq hs hW (hholds hPs)
  have hheld : ∀ k, t.held checksum k = s.held checksum k := by
    intro k
    rw [ht.held_eq, hs.held_eq, hindex]
    exact hk.content_eq hs hs.sound_index k
  refine ⟨hP hs ht hk hPs, hk.sound hs hplanned.sound, fun hget => ?_, ?_⟩
  · rw [Disk.Indexed, hindex]
    exact hplanned.indexed hget
  · obtain ⟨keep, hevicts, hcontent⟩ := hplanned.content
    refine ⟨keep, ?_, fun k => ?_⟩
    · rw [Evicts, hindex]
      exact hevicts
    · rw [hk.content_eq hs hplanned.sound, hheld]
      exact hcontent k

theorem Covers.kept (hW : W.index) (hP : Kept checksum n W P) (hholds : ∀ {s}, P s → s.Holds n) :
    Kept checksum n W fun s => P s ∧ Covers checksum entries s := by
  rintro s t hs ht hk ⟨hPs, hcovers⟩
  refine ⟨hP hs ht hk hPs, fun id hindexed => hcovers id ?_⟩
  rwa [Disk.Indexed, hk.index_eq hs hW (hholds hPs)] at hindexed

theorem Planned.of_index (hs : Valid checksum s) (hindex : s.index checksum = entries) :
    Planned checksum cap entries s where
  sound := hindex ▸ hs.sound_index
  indexed {k loc} hget := ⟨k, loc, by rw [hindex]; exact hget, rfl⟩
  content := by
    refine ⟨fun _ => true, .inl fun _ => rfl, fun k => ?_⟩
    rw [if_pos rfl, hs.held_eq, hindex]

theorem Covers.of_index (hindex : s.index checksum = entries) : Covers checksum entries s := by
  rintro id ⟨k, loc, hget, hpack⟩
  rw [hindex] at hget
  exact names_iff.mpr ⟨k, loc, hget, hpack⟩

/-- A maintenance that has the publication lock. -/
def Maintaining (n : ℕ) (p : κ) (cap : ℕ) (bounded : Bool) (file : Handle) (s : Disk κ) : Prop :=
  s.calls n = some (p, .maintain cap bounded) ∧ Locked n file s

theorem Maintaining.kept {bounded : Bool} {file : Handle} (hfile : file.file ∈ W.locks) :
    Kept (κ := κ) checksum n W (Maintaining n p cap bounded file) :=
  Kept.and Kept.calls (Locked.kept hfile)

variable {bounded : Bool} {file : Handle}

theorem Maintaining.frame (W : Watch) (hids : W.ids = ∅) (hfile : file.file ∈ W.locks) :
    Frame (κ := κ) checksum n p W (Maintaining n p cap bounded file) where
  calls h := ⟨_, h.1⟩
  mine _ x hx := by
    rw [hids] at hx
    exact absurd hx (Set.notMem_empty x)
  kept := Maintaining.kept hfile

/-- Rows that hold what planned rows hold may become the index. -/
theorem Saveable.maintain {moved : Entries}
    (hP : ∀ {t}, P t → Maintaining n p cap bounded file t ∧ Planned checksum cap entries t)
    (hfit : RowsFit moved) (hsound : ∀ {t}, P t → t.Sound moved)
    (hpresent : ∀ {t k loc}, P t → moved.get? k = some loc →
      t.Indexed checksum loc.pack ∨ (t.issued loc.pack = some n ∧ t.dir (.pack loc.pack) ≠ none))
    (hcontent : ∀ {t}, P t → ∀ k, t.content moved k = t.content entries k) :
    Saveable checksum n moved P where
  holds hPt := (hP hPt).1.2.holds
  calls hPt := by
    rw [(hP hPt).1.1]
    exact some_ne_none _
  fit := hfit
  sound _ hPt := hsound hPt
  present ht hPt hget := (hpresent hPt hget).elim ht.indexed And.right
  mine hPt hget := (hpresent hPt hget).imp_right And.left
  change {t u} ht hPt _ hheld := by
    obtain ⟨⟨hcall, -⟩, hplanned⟩ := hP hPt
    obtain ⟨keep, hevicts, hkeep⟩ := hplanned.content
    refine .inr ?_
    rw [hcall]
    exact ⟨keep, hevicts, fun k => by rw [hheld, hcontent hPt, hkeep]⟩

end Planned

variable [DecidableEq κ]

/-! ### The steps of a compaction -/

variable {bytes : Bytes} {l : Lease}

/-- The live rows of a pack are copied to the lease. -/
theorem copyRows_safe {source : Handle} {id : ℕ} {entries : Entries} (hP : Frame checksum n p W P)
    (hid : l.id ∉ W.ids) (hlt : l.id < 2 ^ 128) (hsource : ∀ {t}, P t → t.data source.file = bytes)
    (hfit : RowsFit entries) (rows : List (Key × Location))
    (hrows : ∀ row ∈ rows, entries.get? row.1 = some row.2) (data : Bytes) (moved : Entries)
    (hmoved : Moved id l.id bytes data entries moved)
    (hbound : data.length + rows.length * MAX_ENTRY < U64) (hs : Valid checksum s)
    (h : P s ∧ Leased n l data s) :
    (rules checksum n p).Safe
      (fun r t => ∃ data', (P t ∧ Leased n l data' t) ∧
        ∀ moved', r = .ok moved' → Moved id l.id bytes data' entries moved')
      (copyRows source l id rows data.length moved).run s := by
  induction rows generalizing s data moved with
  | nil =>
    refine ret (hP.leased l data) hs h fun t _ hPt => ⟨data, hPt, fun moved' hr => ?_⟩
    cases hr
    exact hmoved
  | cons row rows ih =>
    obtain ⟨k, loc⟩ := row
    have hget := hrows _ mem_cons_self
    have hrest := fun row hrow => hrows row (mem_cons_of_mem _ hrow)
    have hloc := hfit k loc hget
    rw [length_cons, Nat.succ_mul] at hbound
    have hfail : ∀ error data' t, Valid checksum t → (P t ∧ Leased n l data' t) →
        (rules checksum n p).Safe (fun r t => ∃ data', (P t ∧ Leased n l data' t) ∧
            ∀ moved', r = .ok moved' → Moved id l.id bytes data' entries moved')
          (.done (.error error : Except Error Entries)) t :=
      fun error data' t ht hPt => ret (hP.leased l data') ht hPt fun t _ hPt =>
        ⟨data', hPt, nofun⟩
    unfold copyRows
    split
    · next hpack =>
      refine quiet (hP.leased l data) hs h (by trivial) fun t r u ht hPt heffect hu hPu => ?_
      cases r with
      | error error => exact hfail error data u hu hPu
      | ok read =>
        have hread : read = slice bytes loc := by
          obtain ⟨hr, -⟩ | ⟨hr, -⟩ := heffect
          · rw [hsource hPt.1] at hr
            exact Except.ok.inj hr
          · cases hr
        refine write_rule hP rfl hid (hP.leased l data) (fun hx => hx.written)
          (fun hx _ => hx.leases) hu hPu
          fun r t u new ht hDt hnew happend hu hPu hw => ?_
        have hleased : Leased n l new u := by
          obtain ⟨part, rfl⟩ := happend
          exact ⟨hw, hDt.dir, hDt.locks⟩
        cases r with
        | error error => exact hfail error new u hu ⟨hPu, hleased⟩
        | ok _ =>
          obtain rfl : new = data ++ read := hnew rfl
          show (rules checksum n p).Safe _ (ExceptT.run (if _ then _ else _)) u
          split
          · exact hfail _ (data ++ read) u hu ⟨hPu, hleased⟩
          · next hlen =>
            rw [hread, not_not] at hlen
            have hfits : Fits k { loc with pack := l.id, offset := data.length } :=
              { hloc with
                pack := hlt
                range := by
                  have := hloc.len
                  show data.length + loc.len < U64
                  omega }
            have hstep := ih hrest (data ++ slice bytes loc) _ (hmoved.snoc hget hpack hlen hfits)
              (by
                have := hloc.len
                rw [length_append, hlen]
                omega) hu ⟨hPu, hread ▸ hleased⟩
            rw [length_append, hlen] at hstep
            exact hstep
    · exact ih hrest data moved hmoved (by omega) hs h

/-- What is known after a compaction: the rows are the index. -/
def Compacted (checksum : Bytes → Hash128) (n : ℕ) (p : κ) (cap : ℕ) (bounded : Bool)
    (file : Handle) (entries : Entries) (s : Disk κ) : Prop :=
  (Maintaining n p cap bounded file s ∧ Planned checksum cap entries s) ∧
    Covers checksum entries s

/-- What `compactLease` ends with: the moved rows are the index and the lease is kept, or the lease
may be dropped. -/
def Compacts (checksum : Bytes → Hash128) (n : ℕ) (p : κ) (cap : ℕ) (bounded : Bool)
    (file : Handle) (l : Lease) (entries : Entries)
    (r : Except Error (Except Error Entries × Lease)) (s : Disk κ) : Prop :=
  ∃ result l', r = .ok (result, l') ∧ l'.id = l.id ∧ l'.file = l.file ∧
    match result with
    | .ok moved => (Compacted checksum n p cap bounded file moved s ∧ RowsFit moved ∧
        moved.size ≤ entries.size) ∧ l'.committed = true ∧
          s.made l.file.file = some (.pending l.id)
    | .error _ => Maintaining n p cap bounded file s ∧ l'.committed = false ∧
        Droppable checksum n l' s

section Compact

variable {cap : ℕ} {bounded : Bool} {file : Handle} {entries : Entries}

omit [DecidableEq κ] in
theorem Compacted.frame (moved : Entries) :
    Frame checksum n p ⟨∅, {file.file}, True, False, False⟩
      (Compacted (κ := κ) checksum n p cap bounded file moved) where
  calls h := ⟨_, h.1.1.1⟩
  mine := nofun
  kept := Covers.kept trivial (Planned.kept trivial (Maintaining.kept rfl) fun h => h.2.holds)
    fun h => h.1.2.holds

/-- The pack that is copied, with its bytes. -/
def Sourced (id : ℕ) (source : Handle) (bytes : Bytes) (s : Disk κ) : Prop :=
  s.packed id = some source.file ∧ s.data source.file = bytes

omit [DecidableEq κ] in
theorem Sourced.kept {id : ℕ} {source : Handle} :
    Kept (κ := κ) checksum n W (Sourced id source bytes) :=
  fun _ _ hs _ hk h =>
    ⟨hk.packed h.1, (hk.data_sealed (hs.packed_sealed h.1)).trans h.2⟩

omit [DecidableEq κ] in
theorem Planned.frame :
    Frame checksum n p ⟨∅, {file.file}, True, False, False⟩ fun s : Disk κ =>
      Maintaining n p cap bounded file s ∧ Planned checksum cap entries s where
  calls h := ⟨_, h.1.1⟩
  mine := nofun
  kept := Planned.kept trivial (Maintaining.kept rfl) fun h => h.2.holds

theorem compactLease_safe {source : Handle} {id : ℕ} (hfit : RowsFit entries)
    (hsize : entries.size * MAX_ENTRY < U64) (hpath : l.path = .pending l.id)
    (hcommitted : l.committed = false) (hlt : l.id < 2 ^ 128) (hs : Valid checksum s)
    (h : ((Maintaining n p cap bounded file s ∧ Planned checksum cap entries s) ∧
      Sourced id source bytes s) ∧ Leased n l [] s) :
    (rules checksum n p).Safe (Compacts checksum n p cap bounded file l entries)
      (compactLease checksum source l entries id).run s := by
  let W : Watch := ⟨∅, {file.file}, True, False, False⟩
  have hframe : Frame checksum n p W fun s =>
      (Maintaining n p cap bounded file s ∧ Planned checksum cap entries s) ∧
        Sourced id source bytes s := Planned.frame.and Sourced.kept
  have hlockOnly : LockOnly W fun s =>
      (Maintaining n p cap bounded file s ∧ Planned checksum cap entries s) ∧
        Sourced id source bytes s := of_locked rfl fun hPs => hPs.1.1.2
  refine attempt hs (copyRows_safe hframe (Set.notMem_empty _) hlt (fun hPs => hPs.2.2) hfit
    entries.entries (fun row hrow => mem_iff.mp hrow) [] entries (Moved.refl hfit)
    (by rw [length_nil, Nat.zero_add]; exact hsize) hs h) fun r t ht hR => ?_
  obtain ⟨data, hPt, hmoved⟩ := hR.now ht
  cases r with
  | error e =>
    exact ret (hframe.leased l data) ht hPt fun t _ hPt =>
      ⟨_, l, rfl, rfl, rfl, hPt.1.1.1, hcommitted, hPt.2.droppable hpath⟩
  | ok moved =>
    have hmoved := hmoved moved rfl
    refine attempt ht (finish_safe hframe hlockOnly trivial (fun hPs => hPs.1.1.2.holds)
      (Set.notMem_empty _) hpath ht ⟨⟨hPt.1, hPt.2.written⟩, hPt.2.dir⟩) fun r t ht hR => ?_
    obtain ⟨hPt, hfinishes⟩ := hR.now ht
    cases r with
    | error e =>
      exact ret (hframe.droppable trivial l) ht ⟨hPt, hfinishes⟩ fun t _ hPt =>
        ⟨_, l, rfl, rfl, rfl, hPt.1.1.1, hcommitted, hPt.2⟩
    | ok l' =>
      obtain ⟨rfl, hfinished⟩ := hfinishes
      have hbefore : Frame checksum n p (W.adding l.id) fun s =>
          ((Maintaining n p cap bounded file s ∧ Planned checksum cap entries s) ∧
            Sourced id source bytes s) ∧ Finished checksum n { l with path := .pack l.id } data s :=
        hframe.adding (fun hx => hx.issued)
          (Finished.kept (Set.mem_insert _ _) trivial hframe.kept.adding fun hPs => hPs.1.1.2.holds)
      have hafter : Frame checksum n p ⟨∅, {file.file}, False, False, False⟩ fun s =>
          Maintaining n p cap bounded file s ∧ s.made l.file.file = some (.pending l.id) :=
        (Maintaining.frame ⟨∅, {file.file}, False, False, False⟩ rfl rfl).and Kept.made
      refine attempt ht (save_safe hbefore hafter (fun h => h) (fun hPs => ⟨hPs.1.1.1, hPs.2.made⟩)
        (Saveable.maintain (fun hPs => hPs.1.1) hmoved.fit (fun hPs => ?_) (fun hPs hget => ?_)
          fun hPs k => ?_) ht ⟨hPt, hfinished⟩) fun r t ht hR => ?_
      · exact hmoved.sound hPs.1.2.1 hPs.1.2.2 hPs.2.packed hPs.2.data hPs.1.1.2.sound
      · obtain ⟨loc, hold, rfl | ⟨-, hpack, -, -⟩⟩ := hmoved.row hget
        · exact .inl (hPs.1.1.2.indexed hold)
        · rw [hpack, hPs.2.dir]
          exact .inr ⟨hPs.2.issued, some_ne_none _⟩
      · exact hmoved.content_eq hPs.1.2.1 hPs.1.2.2 hPs.2.packed hPs.2.data k
      · have hsaves := hR.now ht
        cases r with
        | error e =>
          exact ret (hframe.droppable trivial { l with path := .pack l.id }) ht
            ⟨hsaves.1, hsaves.2.droppable rfl⟩ fun t _ hPt =>
              ⟨_, _, rfl, rfl, rfl, hPt.1.1.1, hcommitted, hPt.2⟩
        | ok _ =>
          obtain ⟨⟨hmaintaining, hmade⟩, hindex, -⟩ := hsaves
          refine ret ((Compacted.frame moved).and Kept.made) ht
            ⟨⟨⟨hmaintaining, Planned.of_index ht hindex⟩, Covers.of_index hindex⟩, hmade⟩
            fun t _ hPt => ?_
          exact ⟨_, _, rfl, rfl, rfl, ⟨hPt.1, hmoved.fit, hmoved.size_le⟩, rfl, hPt.2⟩

/-- What a compaction ends with, if it does not fail. -/
def CompactEnds (checksum : Bytes → Hash128) (n : ℕ) (p : κ) (cap : ℕ) (bounded : Bool)
    (file : Handle) (entries : Entries) (r : Except Error Entries) (s : Disk κ) : Prop :=
  ∀ moved, r = .ok moved → Compacted checksum n p cap bounded file moved s ∧ RowsFit moved ∧
    moved.size ≤ entries.size

variable {attempts : ℕ}

theorem compact_safe (id : ℕ) (hfit : RowsFit entries) (hsize : entries.size * MAX_ENTRY < U64)
    (hs : Valid checksum s)
    (h : Maintaining n p cap bounded file s ∧ Planned checksum cap entries s) :
    (rules checksum n p).Safe (CompactEnds checksum n p cap bounded file entries)
      (compact checksum attempts entries id).run s := by
  let W : Watch := ⟨∅, {file.file}, True, False, False⟩
  have hframe : Frame checksum n p W
      fun s => Maintaining n p cap bounded file s ∧ Planned checksum cap entries s := Planned.frame
  refine tryBind hs (openPack_safe hframe hs h) (fun e t _ _ => nofun) fun source t ht hR => ?_
  obtain ⟨hPt, hsource⟩ := hR.now ht
  have hsourced : Sourced id source.file (t.data source.file.file) t := ⟨hsource source rfl, rfl⟩
  generalize t.data source.file.file = bytes at hsourced
  have hframe' : Frame checksum n p W fun s =>
      (Maintaining n p cap bounded file s ∧ Planned checksum cap entries s) ∧
        Sourced id source.file bytes s := hframe.and Sourced.kept
  refine tryBind ht (lease_safe hframe' (of_locked rfl fun hPs => hPs.1.1.2)
    trivial (fun hPs => hPs.1.1.2.holds) attempts ht ⟨hPt, hsourced⟩) (fun e t _ _ => nofun)
    fun l t ht hR => ?_
  obtain ⟨hPt, hlease⟩ := hR.now ht
  obtain ⟨hleased, hpath, hcommitted, -, hlt⟩ := hlease l rfl
  refine tryBind ht (compactLease_safe hfit hsize hpath hcommitted hlt ht ⟨hPt, hleased⟩)
    (fun e t _ ⟨_, _, hr, _⟩ => by cases hr) fun r t ht hR => ?_
  obtain ⟨result, l', hr, hid, hfile, hends⟩ := hR.now ht
  cases hr
  cases result with
  | ok moved =>
    obtain ⟨⟨hcompacted, hfit', hsize'⟩, hcommitted', hmade⟩ := hends
    refine tryBind ht (dropLease_safe (Compacted.frame moved)
      (of_locked rfl fun hPs => hPs.1.1.2) trivial (Set.notMem_empty _) ht hcompacted ?_)
      (fun e t _ hR => by cases hR.1) fun _ t ht hR => ?_
    · rw [if_pos hcommitted', hfile, hid]
      exact ⟨hleased.written.owner, hmade⟩
    · refine ret (Compacted.frame moved) ht (hR.now ht).2 fun t _ hPt moved' hr => ?_
      cases hr
      exact ⟨hPt, hfit', hsize'⟩
  | error e =>
    obtain ⟨hmaintaining, hcommitted', hdrop⟩ := hends
    have hend : Frame checksum n p W (Maintaining (κ := κ) n p cap bounded file) :=
      Maintaining.frame W rfl rfl
    refine tryBind ht (dropLease_safe hend
      (of_locked rfl fun hPs => hPs.2) trivial (Set.notMem_empty _) ht hmaintaining ?_)
      (fun e t _ hR => by cases hR.1) fun _ t ht hR => ?_
    · rw [if_neg (by simp [hcommitted'])]
      exact hdrop
    · exact ret hend ht (hR.now ht).2 fun t _ hPt => nofun

/-- What the rows and the index are after the compactions. -/
def PacksEnd (checksum : Bytes → Hash128) (n : ℕ) (p : κ) (cap : ℕ) (bounded : Bool)
    (file : Handle) (r : Except Error (Entries × Bool)) (s : Disk κ) : Prop :=
  ∀ moved dirty, r = .ok (moved, dirty) →
    (Maintaining n p cap bounded file s ∧ Planned checksum cap moved s) ∧ RowsFit moved ∧
      (dirty = false → Covers checksum moved s)

/-- The compactions of a maintenance keep what the store holds. -/
theorem compactPacks_safe {before : ℕ} {sizes : SortedMap ℕ ℕ} (packs : List (ℕ × ℕ))
    (compacted dirty : Bool) (hfit : RowsFit entries) (hsize : entries.size * MAX_ENTRY < U64)
    (hs : Valid checksum s)
    (h : (Maintaining n p cap bounded file s ∧ Planned checksum cap entries s) ∧
      (dirty = false → Covers checksum entries s)) :
    (rules checksum n p).Safe (PacksEnd checksum n p cap bounded file)
      (compactPacks checksum attempts cap before sizes bounded packs entries compacted dirty).run s := by
  have hframe : ∀ (entries : Entries) (dirty : Bool),
      Frame checksum n p ⟨∅, {file.file}, True, False, False⟩ fun s : Disk κ =>
        (Maintaining n p cap bounded file s ∧ Planned checksum cap entries s) ∧
          (dirty = false → Covers checksum entries s) := fun entries dirty =>
    { calls := fun hPs => ⟨_, hPs.1.1.1⟩
      mine := nofun
      kept := fun s t hs ht hk hPs => by
        have hplanned := Planned.frame.kept hs ht hk hPs.1
        refine ⟨hplanned, fun hdirty => ?_⟩
        have hcovers : Kept checksum n ⟨∅, {file.file}, True, False, False⟩ fun s : Disk κ =>
            Maintaining n p cap bounded file s ∧ Covers checksum entries s :=
          Covers.kept trivial (Maintaining.kept rfl) fun h => h.2.holds
        exact (hcovers hs ht hk ⟨hPs.1.1, hPs.2 hdirty⟩).2 }
  have hgive : ∀ {entries : Entries} {dirty : Bool} {t : Disk κ}, RowsFit entries →
      Valid checksum t →
      (Maintaining n p cap bounded file t ∧ Planned checksum cap entries t) ∧
        (dirty = false → Covers checksum entries t) →
      (rules checksum n p).Safe (PacksEnd checksum n p cap bounded file)
        (.done (.ok (entries, dirty))) t :=
    fun hfit ht hPt => ret (hframe _ _) ht hPt fun t _ hPt moved dirty hr => by
      cases hr
      exact ⟨hPt.1, hfit, hPt.2⟩
  induction packs generalizing s entries compacted dirty with
  | nil => exact hgive hfit hs h
  | cons pack packs ih =>
    obtain ⟨id, live⟩ := pack
    unfold compactPacks
    dsimp only
    split
    · refine tryBind hs (deadlineIf_safe (hframe entries dirty) compacted bounded hs h)
        (fun e t _ _ => nofun) fun late t ht hR => ?_
      cases late with
      | true => exact hgive hfit ht (hR.now ht)
      | false =>
        refine tryBind ht (compact_safe id hfit hsize ht (hR.now ht).1)
          (fun e t _ _ => nofun) fun moved t ht hR => ?_
        obtain ⟨⟨hplanned, hcovers⟩, hfit', hsize'⟩ := hR.now ht moved rfl
        refine ih true false hfit' ?_ ht ⟨hplanned, fun _ => hcovers⟩
        exact Nat.lt_of_le_of_lt (Nat.mul_le_mul_right _ hsize') hsize
    · exact ih compacted dirty hfit hsize hs h

end Compact

end HdLang.Cache
