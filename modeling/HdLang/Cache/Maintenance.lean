import HdLang.Cache.Compaction
import HdLang.Cache.Publishing

/-!
# Maintenance

A maintenance keeps every row of the index, as the pack of each is there and long enough, up to what
it evicts; then it compacts, writes the index if need be and prunes what no row names.
-/

namespace HdLang.Cache

open Rules Io SortedMap

variable {κ : Type} {checksum : Bytes → Hash128} {n : ℕ} {p : κ} {s : Disk κ}

/-! ### Evictions -/

variable {entries kept : Entries} {k : Key} {loc : Location}

theorem evictFrom_sub {cap : ℕ} {order : List (ℕ ×ₗ Key)} {live : ℕ}
    (h : evictFrom cap order entries live = .ok kept) (hget : kept.get? k = some loc)
    : entries.get? k = some loc := by
  induction order generalizing entries live with
  | nil =>
    cases h
    exact hget
  | cons next order ih =>
    unfold evictFrom at h
    cases hover : overhead entries with
    | error e =>
      rw [hover] at h
      cases h
    | ok extra =>
      simp only [hover, bind, Except.bind] at h
      split at h
      · cases h
        exact hget
      · split at h
        · have hrest := ih h
          rw [get?_erase] at hrest
          split at hrest
          · cases hrest
          · exact hrest
        · exact ih h

theorem evict_sub {cap : ℕ} (h : evict cap entries = .ok kept) (hget : kept.get? k = some loc)
    : entries.get? k = some loc := by
  unfold evict at h
  cases hover : overhead entries with
  | error e =>
    rw [hover] at h
    cases h
  | ok extra =>
    simp only [hover, bind, Except.bind] at h
    split at h
    · exact evictFrom_sub h hget
    · cases h
      exact hget

/-- The rows of the index are few enough for their lengths to add up. -/
theorem Valid.size_index (hs : Valid checksum s) :
    (s.index checksum).size * MAX_ENTRY < U64 := by
  cases hdir : s.dir .index with
  | none =>
    rw [Disk.index_of_none hdir]
    decide
  | some i =>
    have hlimit := (decode_limits (hs.decode_index hdir).1).2
    simp only [ROW, HEADER, MAX_INDEX, MAX_ENTRY, U64] at hlimit ⊢
    omega

variable {cap : ℕ} {bounded : Bool} {file : Handle}

theorem Planned.of_evict {merged : Entries} (hs : Valid checksum s)
    (hrows : SameRows (s.index checksum) merged) (hevict : evict cap merged = .ok kept) :
    Planned checksum cap kept s where
  sound k loc hget := hrows.sound hs.sound_index k loc (evict_sub hevict hget)
  indexed {k loc} hget := by
    obtain ⟨loc', hget', hpack, -⟩ := hrows.symm.get? (evict_sub hevict hget)
    exact ⟨k, loc', hget', hpack⟩
  content := by
    refine ⟨fun k => (kept.get? k).isSome, .inr ⟨merged, kept, hrows, hevict, fun _ => rfl⟩,
      fun k => ?_⟩
    obtain hget | ⟨loc, hget⟩ := Option.eq_none_or_eq_some (kept.get? k)
    · rw [if_neg (by simp [hget]), Disk.content, hget]
      rfl
    · rw [if_pos (by simp [hget]), hs.held_eq, ← hrows.content_eq, Disk.content, Disk.content, hget,
        evict_sub hevict hget]

variable {sizes : SortedMap ℕ ℕ}

theorem validRow_of_scanned (hs : Valid checksum s) (hrows : SameRows (s.index checksum) entries)
    (hfit : RowsFit entries) (hmeasured : Measured sizes s)
    (hcover : ∀ id, names entries id = true → s.Indexed checksum id → sizes.get? id ≠ none)
    (hget : entries.get? k = some loc) : validRow sizes loc = true := by
  obtain ⟨loc', hget', hpack, -⟩ := hrows.symm.get? hget
  obtain ⟨len, hlen⟩ := Option.ne_none_iff_exists'.mp
    (hcover loc.pack (names_iff.mpr ⟨k, loc, hget, rfl⟩) ⟨k, loc', hget', hpack⟩)
  obtain ⟨j, hpacked, hlength⟩ := hmeasured loc.pack len hlen
  obtain ⟨j', hpacked', hrange, -⟩ := hrows.sound hs.sound_index k loc hget
  rw [hpacked] at hpacked'
  cases hpacked'
  rw [hlength] at hrange
  unfold validRow
  rw [hlen]
  exact decide_eq_true ⟨(hfit k loc hget).range, hrange⟩

variable [DecidableEq κ]

/-! ### The call -/

variable {before : ℕ}

theorem maintainEnd_safe (hs : Valid checksum s)
    (h : Compacted checksum n p cap bounded file entries s) :
    (rules checksum n p).Safe (fun _ _ => True)
      (do
        pruneOrphans (names entries) bounded
        replace entries
        let (after, _) ← scan
        pure (before, after) : Io (ℕ × ℕ)).run s := by
  have hframe : Frame checksum n p ⟨∅, {file.file}, True, False, False⟩
      (Compacted (κ := κ) checksum n p cap bounded file entries) := Compacted.frame entries
  have hprune : (rules checksum n p).Safe
      (fun _ t => Compacted checksum n p cap bounded file entries t)
      (pruneOrphans (names entries) bounded).run s := by
    refine Safe.step hframe hs h fun t r u ht hPt heffect => ?_
    obtain ⟨list, rfl, rfl⟩ | ⟨rfl, rfl⟩ := heffect
    · have hvalid : Valid checksum { t with
          missed := Function.update t.missed n {name | t.dir name ≠ none ∧ name ∉ list} } :=
        ht.listing
      refine ⟨hvalid, ⟨fun hm => Keeps.listing fun heq => absurd heq hm, .inl Unchanged.calm,
        fun _ => .inl rfl⟩, ?_⟩
      exact pruneNames_safe hframe (LockOnly.of_locked rfl fun hPs => hPs.1.1.2) rfl
        (fun hPs => hPs.1.1.2.holds) bounded (fun hPs hindexed => hPs.2 _ hindexed) list false
        hvalid (hframe.kept ht hvalid (Keeps.listing fun _ h => h) hPt)
    · exact ⟨ht, (Quiet.refl ht).guar, Safe.ret hframe ht hPt fun t _ hPt => hPt⟩
  refine Rules.Safe.tryBind hs hprune (fun _ _ _ _ => trivial) fun _ t ht hR => ?_
  refine Rules.Safe.tryBind ht (replace_safe hframe (fun h => h) (fun hPs => hPs.1.1.2.holds)
    (fun hPs => hPs.1.2.sound) ht (hR.now ht)) (fun _ _ _ _ => trivial) fun _ t ht hR => ?_
  obtain ⟨-, hPt, hshows⟩ := hR.now ht
  refine Rules.Safe.tryBind ht (scan_safe hframe trivial (fun h => h) (fun h => h)
    (fun hPs => hPs.1.1.2.holds) ht ⟨hPt, hshows⟩) (fun _ _ _ _ => trivial) fun r t ht hR => ?_
  exact Safe.ret hframe ht (hR.now ht).1 fun _ _ _ => trivial

variable {attempts : ℕ}

theorem maintainRest_safe {dirty : Bool} (hfit : RowsFit kept) (hsize : kept.size * MAX_ENTRY < U64)
    (hs : Valid checksum s)
    (h : (Maintaining n p cap bounded file s ∧ Planned checksum cap kept s) ∧
      (dirty = false → Covers checksum kept s)) :
    (rules checksum n p).Safe (fun _ _ => True)
      (do
        let (entries, dirty) ←
          compactPacks checksum attempts cap before sizes bounded (livePerPack kept).entries kept
            false dirty
        if dirty || entries.isEmpty then
          save checksum entries
        else
          pure ()
        pruneOrphans (names entries) bounded
        replace entries
        let (after, _) ← scan
        pure (before, after) : Io (ℕ × ℕ)).run s := by
  refine Rules.Safe.tryBind hs (compactPacks_safe _ _ _ hfit hsize hs h)
    (fun _ _ _ _ => trivial) fun r t ht hR => ?_
  obtain ⟨entries, dirty⟩ := r
  obtain ⟨hPt, hfit', hcovers⟩ := hR.now ht entries dirty rfl
  -- The index is written unless it has these rows already.
  dsimp only
  split
  · have hafter : Frame checksum n p ⟨∅, {file.file}, False, False, False⟩
        (Maintaining (κ := κ) n p cap bounded file) := Maintaining.frame _ rfl rfl
    refine Rules.Safe.tryBind ht (save_safe Planned.frame hafter (fun h => h) And.left
      (Saveable.maintain (fun hPs => hPs) hfit' (fun hPs => hPs.2.sound)
        (fun hPs hget => .inl (hPs.2.indexed hget)) fun _ _ => rfl) ht hPt)
      (fun _ _ _ _ => trivial) fun _ t ht hR => ?_
    obtain ⟨hmaintaining, hindex, -⟩ := hR.now ht
    exact maintainEnd_safe ht ⟨⟨hmaintaining, Planned.of_index ht hindex⟩, Covers.of_index hindex⟩
  · next hclean =>
    have hdirty : dirty = false := by
      simp only [Bool.or_eq_true, not_or, Bool.not_eq_true] at hclean
      exact hclean.1
    exact maintainEnd_safe ht ⟨hPt, hcovers hdirty⟩

theorem maintainLocked_safe (hs : Valid checksum s) (h : Maintaining n p cap bounded file s) :
    (rules checksum n p).Safe (fun _ _ => True)
      (maintainLocked checksum attempts cap bounded).run s := by
  let W : Watch := ⟨∅, {file.file}, True, False, False⟩
  have hbase : Frame checksum n p W (Maintaining (κ := κ) n p cap bounded file) :=
    Maintaining.frame W rfl rfl
  refine Rules.Safe.tryBind hs (recover_safe hbase trivial And.right hs h)
    (fun _ _ _ _ => trivial) fun r t ht hR => ?_
  obtain ⟨entries, corrupt⟩ := r
  obtain ⟨hPt, hrecover⟩ := hR.now ht
  obtain ⟨hindex, rfl⟩ := hrecover entries corrupt rfl
  have hframe : Frame checksum n p W
      fun s => Maintaining n p cap bounded file s ∧ s.index checksum = entries :=
    { calls := fun hPs => hbase.calls hPs.1
      mine := nofun
      kept := Kept.index trivial hbase.kept fun hPs => hPs.2.holds }
  refine Rules.Safe.tryBind ht (mergeTouches_safe hframe (fun h => h) ht ⟨hPt, hindex⟩ entries)
    (fun _ _ _ _ => trivial) fun r t ht hR => ?_
  obtain ⟨hPt, merged, marked, hr, hrows, hfit, hsame⟩ := hR.now ht
  cases hr
  have hfit := hfit (hPt.2 ▸ ht.fit_index)
  have hrows' : ∀ {t : Disk κ}, t.index checksum = entries → SameRows (t.index checksum) merged :=
    fun heq => heq ▸ hrows
  have hframe' := hframe.and (Q := fun s => s.Sound merged) Kept.sound
  refine Rules.Safe.tryBind ht (replace_safe hframe' (fun h => h) (fun hPs => hPs.1.1.2.holds)
    And.right ht ⟨hPt, (hrows' hPt.2).sound ht.sound_index⟩) (fun _ _ _ _ => trivial)
    fun _ t ht hR => ?_
  obtain ⟨-, hPt, hshows⟩ := hR.now ht
  refine Rules.Safe.tryBind ht (scan_safe hframe' trivial (fun h => h) (fun h => h)
    (fun hPs => hPs.1.1.2.holds) ht ⟨hPt, hshows⟩) (fun _ _ _ _ => trivial) fun r t ht hR => ?_
  obtain ⟨before, sizes⟩ := r
  obtain ⟨⟨⟨hmaintaining, hindex⟩, -⟩, hscanned⟩ := hR.now ht
  obtain ⟨hmeasured, hcover⟩ := hscanned before sizes rfl
  have hvalid : (merged.filter fun _ loc => validRow sizes loc) = merged :=
    filter_eq_self merged fun k loc hget =>
      validRow_of_scanned ht (hrows' hindex) hfit hmeasured hcover hget
  dsimp only
  rw [hvalid]
  cases hevict : evict cap merged with
  | error e => exact Safe.ret hbase ht hmaintaining fun _ _ _ => trivial
  | ok kept =>
    have hsub : ∀ k loc, kept.get? k = some loc → merged.get? k = some loc :=
      fun k loc hget => evict_sub hevict hget
    have hsize : kept.size * MAX_ENTRY < U64 := by
      refine Nat.lt_of_le_of_lt (Nat.mul_le_mul_right _ ?_) ht.size_index
      refine size_le fun k loc hget => ?_
      obtain ⟨loc', hget', -⟩ := (hrows' hindex).symm.get? (hsub k loc hget)
      rw [hget']
      exact Option.some_ne_none _
    refine maintainRest_safe (fun k loc hget => hfit k loc (hsub k loc hget)) hsize ht
      ⟨⟨hmaintaining, Planned.of_evict ht (hrows' hindex) hevict⟩, fun hclean => ?_⟩
    -- Nothing is marked, and nothing is evicted.
    simp only [Bool.false_or, bne_self_eq_false, Bool.or_false, Bool.or_eq_false_iff,
      bne_eq_false_iff_eq] at hclean
    refine Covers.of_index ?_
    rw [hindex, ← hsame hclean.1]
    exact (eq_of_size hsub hclean.2).symm

theorem maintain_safe (hs : Valid checksum s) (h : s.calls n = some (p, .maintain cap bounded)) :
    (rules checksum n p).Safe (fun _ _ => True)
      (maintain checksum attempts cap bounded).run s := by
  have hbase : Frame checksum n p .nothing
      fun s : Disk κ => s.calls n = some (p, .maintain cap bounded) :=
    { calls := fun hPs => ⟨_, hPs⟩
      mine := nofun
      kept := Kept.calls }
  refine Safe.quiet hbase hs h (by trivial) fun t r u _ _ _ hu hPu => ?_
  cases r with
  | true =>
    refine withLock_safe hbase (R := fun _ _ _ => True) hu hPu (fun _ _ _ => trivial)
      (fun file t ht hPt hlocked => maintainLocked_safe ht ⟨hPt, hlocked⟩) ?_
    exact fun _ _ _ _ _ _ _ _ _ => trivial
  | false => exact Safe.ret hbase hu hPu fun _ _ _ => trivial

end HdLang.Cache
