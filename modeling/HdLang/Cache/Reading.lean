import HdLang.Cache.Locking

/-!
# Reading

`get` and `touch` take no file lock: they work from the snapshot of their process, which may be old.
Its rows were rows of the index once, and a pack's bytes never change, so that what `get` reads was
published under the key.
-/

namespace HdLang.Cache

open Rules Io Safe Kept Snapshot.Ok Rules.Safe Snapshot

variable {κ : Type} {checksum : Bytes → Hash128} {n : ℕ} {p : κ} {W : Watch} {P : Disk κ → Prop}
  {s : Disk κ}

/-! ### Snapshots -/

theorem Kept.ok {st : Snapshot} : Kept (κ := κ) checksum n W fun s => st.Ok s :=
  fun _ _ hs _ hk => hk.ok hs

theorem Kept.packed {id j : ℕ} : Kept (κ := κ) checksum n W fun s => s.packed id = some j :=
  fun _ _ _ _ hk => hk.packed

theorem Kept.published {k : Key} {bytes : Bytes} :
    Kept (κ := κ) checksum n W fun s => s.Published k bytes := fun _ _ _ _ hk => hk.published

variable {pack : ℕ}

namespace Snapshot

theorem Ok.of_entries {entries : Entries} (h : s.Sound entries) :
    ({ Snapshot.default with entries := entries } : Snapshot).Ok s := ⟨h, nofun, nofun⟩

theorem Ok.mark {st : Snapshot} (h : st.Ok s) {k : Key} {loc : Location} {time : ℕ}
    (htime : time < U64) : (st.mark k loc time).Ok s := by
  unfold Snapshot.mark
  split
  · refine ⟨h.entries, h.files, fun {k' used} hget => ?_⟩
    rw [SortedMap.get?_insert] at hget
    split at hget
    · cases hget
      exact htime
    · exact h.touched hget
  · exact h

@[simp] theorem mark_entries (st : Snapshot) (k : Key) (loc : Location) (time : ℕ) :
    (st.mark k loc time).entries = st.entries := by
  unfold mark
  split <;> rfl

/-- One more pack is open; another may be closed for it. -/
theorem Ok.open {st : Snapshot} (h : st.Ok s) {files : SortedMap ℕ Opened}
    (hfiles : ∀ id o, files.get? id = some o → st.files.get? id = some o) {o : Opened}
    (ho : s.packed pack = some o.file.file) :
    ({ st with files := files.insert pack o } : Snapshot).Ok s := by
  refine ⟨h.entries, fun {id o'} hget => ?_, h.touched⟩
  rw [SortedMap.get?_insert] at hget
  split at hget
  · next heq =>
    cases hget
    exact heq ▸ ho
  · exact h.files (hfiles id o' hget)

end Snapshot

/-! ### The steps of a read -/

/-- A snapshot with good rows: those of the guarded one, when there is one. -/
def GivesSnapshot (guard : Option Snapshot) (r : Except Error Snapshot) (s : Disk κ) : Prop :=
  ∃ st, r = .ok st ∧ st.Ok s ∧ ∀ {st₀}, guard = some st₀ → st.entries = st₀.entries

/-- An open pack of this name. -/
def GivesPack (id : ℕ) (r : Except Error Opened) (s : Disk κ) : Prop :=
  ∀ o, r = .ok o → s.packed id = some o.file.file

/-- Bytes that were published under the key, if any, and a snapshot of the same rows. -/
def GivesBytes (state : Snapshot) (k : Key) (r : Except Error (Option Bytes × Snapshot))
    (s : Disk κ) : Prop :=
  ∃ o st, r = .ok (o, st) ∧ st.Ok s ∧ st.entries = state.entries ∧
    ∀ bytes, o = some bytes → s.Published k bytes

variable [DecidableEq κ]

section Reads

variable (hP : Frame checksum n p W P)
include hP

/-- The snapshot that a reader works from has the rows that are there, and they are good. -/
theorem snapshotOr_safe {guard : Option Snapshot} (hguard : ∀ {t}, P t → Remembers n p guard t)
    (hs : Valid checksum s) (h : P s) :
    (rules checksum n p).Safe
      (fun r t => P t ∧ GivesSnapshot guard r t) (snapshotOr checksum guard).run s := by
  have hgive : ∀ (st : Snapshot) (t : Disk κ), Valid checksum t → P t → st.Ok t →
      (∀ {st₀}, guard = some st₀ → st.entries = st₀.entries) →
      (rules checksum n p).Safe (fun r t => P t ∧ GivesSnapshot guard r t) (.done (.ok st)) t :=
    fun st t ht hPt hok hsame => ret (hP.and ok) ht ⟨hPt, hok⟩ fun t _ hPt =>
      ⟨hPt.1, st, rfl, hPt.2, hsame⟩
  cases guard with
  | some st =>
    refine hgive st s hs h (hs.snapshot (hguard h).2) fun heq => ?_
    cases heq
    rfl
  | none =>
    have hkept : ∀ entries, Kept checksum n W fun s : Disk κ => s.Sound entries := fun _ => sound
    refine attempt hs (load_safe hP hkept (fun ht _ => ht.sound_index) (fun _ _ _ => nofun) hs h)
      fun r t ht hR => ?_
    obtain ⟨hPt, hsound, -⟩ := hR.now ht
    cases r with
    | ok entries => exact hgive _ t ht hPt (of_entries (hsound entries rfl)) nofun
    | error e => exact hgive _ t ht hPt (of_entries nofun) nofun

theorem openPack_safe {id : ℕ} (hs : Valid checksum s) (h : P s) :
    (rules checksum n p).Safe
      (fun r t => P t ∧ GivesPack id r t) (openPack id).run s := by
  have hfail : ∀ e t, Valid checksum t → P t →
      (rules checksum n p).Safe (fun r t => P t ∧ GivesPack id r t) (.done (.error e)) t :=
    fun e t ht hPt => ret hP ht hPt fun t _ hPt => ⟨hPt, nofun⟩
  refine quiet hP hs h (by trivial) fun t r u ht hPt _ hu hPu => ?_
  cases r with
  | error e => exact hfail e u hu hPu
  | ok len =>
    refine quiet hP hu hPu (by trivial) fun t r u ht hPt heffect hu hPu => ?_
    cases r with
    | error e => exact hfail e u hu hPu
    | ok file =>
      have hpacked : u.packed id = some file.file := by
        obtain ⟨i, hdir, hr, rfl⟩ | ⟨-, hr, -⟩ | ⟨hr, -⟩ := heffect
        · cases hr
          exact ht.dir_packed hdir
        · cases hr
        · cases hr
      have hP' := hP.and (Q := fun s => s.packed id = some file.file) packed
      refine quiet hP' hu ⟨hPu, hpacked⟩ (by trivial) fun t r u ht hPt _ hu hPu => ?_
      cases r with
      | error e => exact hfail e u hu hPu.1
      | ok len =>
        exact ret hP' hu hPu fun t _ hPt => ⟨hPt.1, fun o ho => by cases ho; exact hPt.2⟩

variable {state : Snapshot}

/-- Opening a pack keeps the rows of the snapshot. -/
theorem withPack_safe (hs : Valid checksum s) (h : P s) (hok : state.Ok s) :
    (rules checksum n p).Safe
      (fun r t => (P t ∧ state.Ok t) ∧ ∃ o, r = .ok o ∧
        ∀ st, o = some st → st.Ok t ∧ st.entries = state.entries)
      (withPack state pack).run s := by
  have hP' := hP.and (Q := fun s => state.Ok s) ok
  unfold withPack
  split
  · exact ret hP' hs ⟨h, hok⟩ fun t _ hPt =>
      ⟨hPt, _, rfl, fun st hst => by cases hst; exact ⟨hPt.2, rfl⟩⟩
  · refine attempt hs (openPack_safe hP' hs ⟨h, hok⟩) fun r t ht hR => ?_
    cases r with
    | error e => exact ret hP' ht (hR.now ht).1 fun t _ hPt => ⟨hPt, none, rfl, nofun⟩
    | ok o =>
      obtain ⟨hPt, hpacked⟩ := hR.now ht
      have hP'' := hP'.and (Q := fun s => s.packed pack = some o.file.file) packed
      refine ret hP'' ht ⟨hPt, hpacked o rfl⟩ fun t _ hPt => ⟨hPt.1, _, rfl, fun st hst => ?_⟩
      cases hst
      refine ⟨Snapshot.Ok.open hPt.1.2 (fun id o hget => ?_) hPt.2, rfl⟩
      split at hget
      · split at hget
        · exact hget
        · rw [SortedMap.get?_erase] at hget
          split at hget
          · cases hget
          · exact hget
      · exact hget

/-- What a read gives was published under the key. -/
theorem getFrom_safe {k : Key} (hs : Valid checksum s) (h : P s) (hok : state.Ok s) :
    (rules checksum n p).Safe
      (fun r t => P t ∧ GivesBytes state k r t) (getFrom state k).run s := by
  have hnone : ∀ (st : Snapshot) (t : Disk κ), Valid checksum t → P t → st.Ok t →
      st.entries = state.entries →
      (rules checksum n p).Safe (fun r t => P t ∧ GivesBytes state k r t)
        (.done (.ok (none, st))) t :=
    fun st t ht hPt hst hsame => ret (hP.and ok) ht ⟨hPt, hst⟩ fun t _ hPt =>
      ⟨hPt.1, none, st, rfl, hPt.2, hsame, by simp⟩
  unfold getFrom
  split
  · exact hnone state s hs h hok rfl
  · next loc hget =>
    refine tryBind hs (withPack_safe hP hs h hok)
      (fun e t _ hR => by obtain ⟨_, o, hr, _⟩ := hR; cases hr) fun o t ht hR => ?_
    obtain ⟨⟨hPt, hok⟩, o', ho, hst⟩ := hR.now ht
    cases ho
    cases o with
    | none => exact hnone state t ht hPt hok rfl
    | some st =>
      obtain ⟨hst, hsame⟩ := hst st rfl
      dsimp only
      split
      · exact hnone st t ht hPt hst hsame
      · next opened hopened =>
        split
        · exact hnone st t ht hPt hst hsame
        · have hP' := hP.and (Q := fun s => st.Ok s) ok
          refine quiet hP' ht ⟨hPt, hst⟩ (by trivial) fun t r u ht hPt heffect hu hPu => ?_
          cases r with
          | error e => exact hnone st u hu hPu.1 hPu.2 hsame
          | ok bytes =>
            have hpublished : u.Published k bytes := by
              obtain ⟨-, hr, rfl⟩ | ⟨hr, -⟩ := heffect
              · obtain ⟨j, hpacked, -, hpub⟩ := hPt.2.entries k loc (hsame ▸ hget)
                have hfile := hPt.2.files hopened
                rw [hpacked] at hfile
                cases hfile
                cases hr
                exact hpub
              · cases hr
            have hP'' := hP'.and (Q := fun s => s.Published k bytes) published
            refine quiet hP'' hu ⟨hPu, hpublished⟩ (by trivial)
              fun t time u ht hPt heffect hu hPu => ?_
            refine ret hP'' hu hPu fun t _ hPt => ⟨hPt.1.1, some bytes, _, rfl, ?_⟩
            refine ⟨mark hPt.1.2 heffect.1, ?_, fun b hb => ?_⟩
            · rw [mark_entries, hsame]
            · cases hb
              exact hPt.2

end Reads

/-! ### The calls -/

section Calls

variable (hP : Frame checksum n p W P) (hW : ¬W.memory)
include hP hW

variable {kind : EntryKind} {hash : Hash128}

/-- **What `get` gives was published under the key.** -/
theorem get_safe (hs : Valid checksum s) (h : P s) :
    (rules checksum n p).Safe
      (fun r t => P t ∧ ∀ bytes, r = .ok (some bytes) → t.Published (key kind.asU16 hash) bytes)
      (get checksum kind hash).run s := by
  refine lockState_safe hP hs h fun guard u hu hPu hguard => ?_
  have hmem := hP.remembers guard
  refine tryBind hu (snapshotOr_safe hmem (fun hPs => hPs.2) hu ⟨hPu, hguard⟩)
    (fun e t _ ⟨_, st, hr, _⟩ => by cases hr) fun state t ht hR => ?_
  obtain ⟨hPt, st, hr, hok, hsame⟩ := hR.now ht
  cases hr
  refine tryBind ht (getFrom_safe hmem ht hPt hok)
    (fun e t _ ⟨_, o, st, hr, _⟩ => by cases hr) fun r t ht hR => ?_
  obtain ⟨hPt, o, st, hr, hst, hentries, hpub⟩ := hR.now ht
  cases hr
  have hP' : Frame checksum n p W fun s => P s ∧ st.Ok s ∧
      ∀ bytes, o = some bytes → s.Published (key kind.asU16 hash) bytes :=
    hP.and fun _ _ hs _ hk h =>
      ⟨hk.ok hs h.1, fun bytes hbytes => hk.published (h.2 bytes hbytes)⟩
  refine unlockState_safe hP' ht hW ⟨⟨hPt.1, hst, hpub⟩, hPt.2⟩ (fun _ hPt _ heq => ?_)
    (.inr fun heq => ⟨_, rfl, hentries.trans (hsame heq)⟩) fun t u _ _ _ hu hPu _ => ?_
  · cases heq
    exact hPt.2.1
  · exact ret hP' hu hPu fun t _ hPt =>
      ⟨hPt.1, fun bytes hb => hPt.2.2 bytes (by cases hb; rfl)⟩

theorem touch_safe (hs : Valid checksum s) (h : P s) :
    (rules checksum n p).Safe (fun _ t => P t) (touch checksum kind hash).run s := by
  refine lockState_safe hP hs h fun guard u hu hPu hguard => ?_
  have hmem := hP.remembers guard
  refine tryBind hu (snapshotOr_safe hmem (fun hPs => hPs.2) hu ⟨hPu, hguard⟩)
    (fun e t _ hR => hR.1.1) fun state t ht hR => ?_
  obtain ⟨hPt, st, hr, hok, hsame⟩ := hR.now ht
  cases hr
  have hmem' := hmem.and (Q := fun s => state.Ok s) ok
  refine quiet hmem' ht ⟨hPt, hok⟩ (by trivial) fun t time u ht _ heffect hu hPu => ?_
  obtain ⟨⟨hPu, hguard⟩, hok⟩ := hPu
  have hP' := hP.and (Q := fun s => state.Ok s) ok
  have hend : ∀ state' : Snapshot, state'.entries = state.entries →
      (∀ t : Disk κ, state.Ok t → state'.Ok t) →
      (rules checksum n p).Safe (fun (_ : Except Error Unit) t => P t)
        (.call (.unlockState (some state')) fun r => .done (.ok r)) u := by
    intro state' hentries hok'
    refine unlockState_safe hP' hu hW ⟨⟨hPu, hok⟩, hguard⟩ (fun _ hPt _ heq => ?_)
      (.inr fun heq => ⟨_, rfl, hentries.trans (hsame heq)⟩) fun t u _ _ _ hu hPu _ => ?_
    · cases heq
      exact hok' _ hPt.2
    · exact ret hP' hu hPu fun t _ hPt => hPt.1
  dsimp only
  split
  · exact hend state rfl fun _ h => h
  · exact hend _ (mark_entries _ _ _ _) fun _ h => h.mark heffect.1

end Calls

end HdLang.Cache
