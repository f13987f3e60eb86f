import HdLang.Cache.Rules

/-!
# Under the publication lock

What a call knows while it holds the publication lock, and the operations that take the lock, read
the index and use the process's snapshot: `load` gives the rows of the index of some moment, `recover`
gives those of now and never finds a corrupt index, `mergeTouches` changes marks only, and `replace`
leaves the rows in the snapshot for as long as the lock is held.
-/

namespace HdLang.Cache

open Rules Io Function List Option Safe

variable {κ : Type} {checksum : Bytes → Hash128} {n : ℕ} {p : κ} {W : Watch} {P : Disk κ → Prop}
  {s : Disk κ}

/-! ### Facts that are kept -/

/-- The call holds the publication lock by this handle. -/
structure Locked (n : ℕ) (h : Handle) (s : Disk κ) : Prop where
  dir : s.dir .lock = some h.file
  made : s.made h.file = some .lock
  locks : s.locks h.file = some h
  owner : h.owner = n
  root : s.root = true

variable {entries : Entries}

section Kept

variable {h : Handle}

theorem Locked.holds (hl : Locked n h s) : s.Holds n := ⟨h.file, hl.dir, h, hl.locks, hl.owner⟩

theorem Locked.kept (hW : h.file ∈ W.locks) : Kept (κ := κ) checksum n W (Locked n h) :=
  fun _ _ _ _ hk hl =>
    { dir := hk.lock hl.dir
      made := hk.made hl.made
      locks := hk.locks hW hl.owner hl.locks
      owner := hl.owner
      root := hk.root hl.root }

theorem Kept.root : Kept (κ := κ) checksum n W fun s => s.root = true := fun _ _ _ _ hk => hk.root

theorem Kept.calls {x : κ × Op} : Kept (κ := κ) checksum n W fun s => s.calls n = some x :=
  fun _ _ _ _ hk => hk.calls

theorem Kept.unsaved (hW : W.index) : Kept (κ := κ) checksum n W fun s => ¬s.saved n :=
  fun _ _ _ _ hk hsaved hsaved' => hsaved ((hk.saved hW).mp hsaved')

theorem Kept.saved (hW : W.index) : Kept (κ := κ) checksum n W fun s => s.saved n :=
  fun _ _ _ _ hk => (hk.saved hW).mpr

theorem Kept.made {i : ℕ} {name : Name} :
    Kept (κ := κ) checksum n W fun s => s.made i = some name := fun _ _ _ _ hk => hk.made

theorem Kept.sound {entries : Entries} :
    Kept (κ := κ) checksum n W fun s => s.Sound entries := fun _ _ hs _ hk => hk.sound hs

/-- A file that was the index still reads as it did. -/
theorem Kept.decoded {i : ℕ} :
    Kept (κ := κ) checksum n W fun s =>
      s.sealed i ∧ decode checksum (s.data i) = .ok entries := by
  rintro s t - - hk ⟨hsealed, hdecode⟩
  refine ⟨hk.sealed hsealed, ?_⟩
  rw [hk.data_sealed hsealed]
  exact hdecode

theorem Kept.index (hW : W.index) (hP : Kept checksum n W P) (hholds : ∀ {s}, P s → s.Holds n)
    {entries : Entries} : Kept checksum n W fun s => P s ∧ s.index checksum = entries := by
  rintro s t hs ht hk ⟨hPs, hindex⟩
  exact ⟨hP hs ht hk hPs, (hk.index_eq hs hW (hholds hPs)).trans hindex⟩

end Kept

variable [DecidableEq κ]

/-! ### Taking the lock -/

section Lock

variable (hP : Frame checksum n p W P) (hs : Valid checksum s) (h : P s)
include hP hs h

theorem ensureRoot_safe :
    (rules checksum n p).Safe (fun r t => P t ∧ (r = .ok () → t.root = true)) ensureRoot.run s := by
  refine quiet hP hs h (by trivial) fun t r u ht hPt heffect hu hPu => ?_
  cases r with
  | error e => exact ret hP hu hPu fun _ _ hPt => ⟨hPt, nofun⟩
  | ok _ =>
    refine quiet hP hu hPu (by trivial) fun t r u ht hPt heffect hu hPu => ?_
    cases r with
    | true =>
      obtain ⟨hroot, rfl⟩ := heffect
      exact ret (hP.and Kept.root) hu ⟨hPu, hroot.symm⟩ fun _ _ hPt => ⟨hPt.1, fun _ => hPt.2⟩
    | false => exact ret hP hu hPu fun _ _ hPt => ⟨hPt, nofun⟩

theorem lock_safe :
    (rules checksum n p).Safe (fun r t => P t ∧ ∀ file, r = .ok file → Locked n file t)
      lock.run s := by
  refine tryBind hs (ensureRoot_safe hP hs h) (fun e t _ hR => ⟨hR.1, nofun⟩)
    fun a t ht hR => ?_
  obtain ⟨hPt, hroot⟩ := hR.now ht
  have hP' := hP.and (Q := fun s => s.root = true) Kept.root
  refine quiet hP' ht ⟨hPt, hroot rfl⟩ (by rfl) fun t r u ht hPt heffect hu hPu => ?_
  cases r with
  | error e => exact ret hP' hu hPu fun _ _ hPt => ⟨hPt.1, nofun⟩
  | ok file =>
    -- The handle is of the lock file, which stays under its name.
    have hfile : u.dir .lock = some file.file ∧ file.owner = n := by
      obtain ⟨i, hdir, hr, rfl⟩ | ⟨-, -, hr, rfl⟩ | ⟨hr, -⟩ := heffect
      · cases hr
        exact ⟨hdir, rfl⟩
      · cases hr
        exact ⟨Disk.create_dir_self, rfl⟩
      · cases hr
    have hP'' := hP'.and (Q := fun s => s.dir .lock = some file.file ∧ file.owner = n)
      fun _ _ _ _ hk hfile => ⟨hk.lock hfile.1, hfile.2⟩
    refine quiet hP'' hu ⟨hPu, hfile⟩ (by trivial) fun t r u ht hPt heffect hu hPu => ?_
    cases r with
    | error e => exact ret hP hu hPu.1.1 fun _ _ hPt => ⟨hPt, nofun⟩
    | ok _ =>
      obtain ⟨-, -, rfl⟩ | ⟨hr, -⟩ := heffect
      · have hlocked : Locked n file (t.take file) :=
          { dir := hPu.2.1
            made := hu.made_of_lock hPu.2.1
            locks := update_self _ _ _
            owner := hPu.2.2
            root := hPu.1.2 }
        refine Rules.Always.mono
          ((hP.always hu hPu.1.1).and (Rules.Always.of_stable
            (P := Locked n file) (fun hs ht hrely => ?_) hu hlocked))
          fun t _ hPt => ⟨hPt.1, fun f hf => ?_⟩
        · exact Locked.kept (Set.mem_univ _) hs ht hrely
        · cases hf
          exact hPt.2
      · cases hr

end Lock

variable {α : Type}

/-- A body under the publication lock, which is free again at the end. -/
theorem withLock_safe {body : Io α} {R : Handle → Except Error α → Disk κ → Prop}
    {R' : Except Error α → Disk κ → Prop} (hP : Frame checksum n p W P) (hs : Valid checksum s)
    (h : P s) (hfail : ∀ e t, P t → R' (.error e) t)
    (hbody : ∀ file t, Valid checksum t → P t → Locked n file t →
      (rules checksum n p).Safe (R file) body.run t)
    (hclose : ∀ file r t, file.owner = n → Valid checksum t →
      (rules checksum n p).Always (R file r) t →
      (rules checksum n p).Always (R' r) (t.release file)) :
    (rules checksum n p).Safe R' (withLock body).run s := by
  refine tryBind hs (lock_safe hP hs h) (fun e t _ hR => hfail e t hR.1) fun file t ht hR => ?_
  obtain ⟨hPt, hlocked⟩ := hR.now ht
  have hlocked := hlocked file rfl
  refine attempt ht (hbody file t ht hPt hlocked) fun r t ht hR => ?_
  exact close ht hR hlocked.owner fun t ht hR _ => hclose file r t hlocked.owner ht hR

/-! ### The index -/

/-- What `load` ends with: rows of which `Obs` says something, or an error of the file system. -/
def Loads (Obs : Entries → Disk κ → Prop) (r : Except Error Entries) (s : Disk κ) : Prop :=
  (∀ entries, r = .ok entries → Obs entries s) ∧ ∀ why, r ≠ .error (.invalid why)

/-- `load` gives the index of some moment: what is known of the index at every moment is known of
it. -/
theorem load_safe {Obs : Entries → Disk κ → Prop} (hP : Frame checksum n p W P)
    (hobs : ∀ entries, Kept checksum n W (Obs entries))
    (hindex : ∀ {t}, Valid checksum t → P t → Obs (t.index checksum) t)
    (hempty : ∀ {t}, Valid checksum t → P t → t.root = false → Obs .empty t)
    (hs : Valid checksum s) (h : P s) :
    (rules checksum n p).Safe
      (fun r t => P t ∧ Loads Obs r t) (load checksum).run s := by
  have hgive : ∀ entries t, Valid checksum t → P t → Obs entries t →
      (rules checksum n p).Safe (fun r t => P t ∧ Loads Obs r t) (.done (.ok entries)) t :=
    fun entries t ht hPt ho => ret (hP.and (hobs entries)) ht ⟨hPt, ho⟩ fun t _ hPt =>
      ⟨hPt.1, fun e he => by cases he; exact hPt.2, nofun⟩
  refine quiet hP hs h (by trivial) fun t r u ht hPt heffect hu hPu => ?_
  obtain ⟨hroot, rfl⟩ := heffect
  cases r with
  | false => exact hgive .empty _ hu hPu (hempty hu hPu hroot.symm)
  | true =>
    refine quiet hP hu hPu (by trivial) fun t r u ht hPt heffect hu hPu => ?_
    obtain ⟨i, hdir, rfl, rfl⟩ | ⟨hdir, rfl, rfl⟩ | ⟨rfl, rfl⟩ := heffect
    · -- The file is within the limit, as it reads as the index.
      have hlimit : ¬(u.data i).length > MAX_INDEX :=
        Nat.not_lt.mpr (decode_limits (hu.decode_index hdir).1).1
      show (rules checksum n p).Safe _ (ExceptT.run (if _ then _ else _)) _
      rw [if_neg hlimit]
      refine quiet hP hu hPu (by trivial) fun t r u ht hPt heffect hu hPu => ?_
      obtain ⟨i, hdir, rfl, rfl⟩ | ⟨-, rfl, rfl⟩ | ⟨rfl, rfl⟩ := heffect
      · have hread := (ht.decode_index hdir).1
        have hdecoded : Kept checksum n W fun v : Disk κ =>
            v.sealed i ∧ decode checksum (v.data i) = .ok (t.index checksum) := Kept.decoded
        have hP' := (hP.and (hobs (t.index checksum))).and hdecoded
        refine quiet hP' hu ⟨⟨hPu, ?_⟩, ht.index_sealed hdir, hread⟩ (by trivial)
          fun v r u hv hPv heffect hu hPu => ?_
        · exact hindex hu hPu
        · obtain ⟨rfl, rfl⟩ | ⟨rfl, rfl⟩ := heffect
          · -- All of the file is read.
            have hall : ((u.data i).drop 0).take (MAX_INDEX + 1) = u.data i := by
              rw [drop_zero, take_of_length_le]
              exact Nat.le_succ_of_le (decode_limits hPu.2.2).1
            show (rules checksum n p).Safe _ (.done (decode checksum _)) _
            rw [show (Disk.handle t n i).file = i from rfl, hall, hPu.2.2]
            exact hgive _ _ hu hPu.1.1 hPu.1.2
          · exact ret hP hu hPu.1.1 fun _ _ hPt => ⟨hPt, nofun, nofun⟩
      · exact ret hP hu hPu fun _ _ hPt => ⟨hPt, nofun, nofun⟩
      · exact ret hP hu hPu fun _ _ hPt => ⟨hPt, nofun, nofun⟩
    · refine hgive .empty _ hu hPu ?_
      have hobs := hindex hu hPu
      rwa [Disk.index_of_none hdir] at hobs
    · exact ret hP hu hPu fun _ _ hPt => ⟨hPt, nofun, nofun⟩

/-- Under the publication lock `recover` gives the index, which is never corrupt. -/
theorem recover_safe {file : Handle} (hP : Frame checksum n p W P) (hW : W.index)
    (hlocked : ∀ {t}, P t → Locked n file t) (hs : Valid checksum s) (h : P s) :
    (rules checksum n p).Safe
      (fun r t => P t ∧ ∀ entries corrupt, r = .ok (entries, corrupt) →
        t.index checksum = entries ∧ corrupt = false) (recover checksum).run s := by
  have hkept : ∀ entries, Kept checksum n W fun s => P s ∧ s.index checksum = entries :=
    fun entries => Kept.index hW hP.kept fun hPt => (hlocked hPt).holds
  refine attempt hs (load_safe hP hkept (fun _ hPt => ⟨hPt, rfl⟩)
    (fun _ hPt hroot => ?_) hs h) fun r t ht hR => ?_
  · rw [(hlocked hPt).root] at hroot
    cases hroot
  · cases r with
    | ok entries =>
      have hR' := (hR.now ht).2.1 entries rfl
      refine ret (hP.and (hkept entries)) ht ⟨hR'.1, hR'⟩ fun t _ hPt => ⟨hPt.1, ?_⟩
      intro e corrupt heq
      cases heq
      exact ⟨hPt.2.2, rfl⟩
    | error e =>
      obtain ⟨hPt, -, hinvalid⟩ := hR.now ht
      cases e with
      | invalid why => exact absurd rfl (hinvalid why)
      | notFound => exact ret hP ht hPt fun _ _ hPt => ⟨hPt, nofun⟩
      | alreadyExists => exact ret hP ht hPt fun _ _ hPt => ⟨hPt, nofun⟩
      | other => exact ret hP ht hPt fun _ _ hPt => ⟨hPt, nofun⟩

/-! ### The process's snapshot -/

/-- What is known of the snapshot while the call has the mutex. -/
def Remembers (n : ℕ) (p : κ) (st : Option Snapshot) (s : Disk κ) : Prop :=
  s.guard p = some n ∧ s.snapshot p = st

/-- The watch of a call that also watches the memory of its process. -/
def Watch.withMemory (W : Watch) : Watch := { W with memory := True }

variable {st : Option Snapshot}

omit [DecidableEq κ] in
theorem Remembers.kept (hW : W.memory) (hP : Kept checksum n W P)
    (hcalls : ∀ {s}, P s → ∃ op, s.calls n = some (p, op)) :
    Kept checksum n W fun s => P s ∧ Remembers n p st s := by
  rintro s t hs ht hk ⟨hPs, hguard, hst⟩
  obtain ⟨op, hcall⟩ := hcalls hPs
  obtain ⟨hguard', hsame⟩ := hk.guard hW hcall hguard
  exact ⟨hP hs ht hk hPs, hguard', hsame.trans hst⟩

omit [DecidableEq κ] in
theorem Frame.withMemory (hP : Frame checksum n p W P) :
    Frame checksum n p W.withMemory P where
  __ := hP
  kept := hP.kept.mono (Set.Subset.refl _) (Set.Subset.refl _) (fun h => h) (fun _ => trivial)
    fun h => h

omit [DecidableEq κ] in
theorem Frame.remembers (hP : Frame checksum n p W P) (st : Option Snapshot) :
    Frame checksum n p W.withMemory fun s => P s ∧ Remembers n p st s where
  calls hPs := hP.calls hPs.1
  mine hPs := hP.mine hPs.1
  kept := Remembers.kept trivial hP.withMemory.kept hP.calls

section Memory

variable (hP : Frame checksum n p W P) (hs : Valid checksum s)
include hP hs

variable {Q : α → Disk κ → Prop}

/-- The mutex is taken; the snapshot is what it was then. -/
theorem lockState_safe {next : Option Snapshot → Prog α} (h : P s)
    (hnext : ∀ st u, Valid checksum u → P u → Remembers n p st u →
      (rules checksum n p).Safe Q (next st) u) :
    (rules checksum n p).Safe Q (.call .lockState next) s := by
  refine quiet hP hs h (by trivial) fun t r u ht hPt heffect hu hPu => ?_
  refine hnext r u hu hPu ?_
  obtain ⟨-, rfl, rfl⟩ := heffect
  exact ⟨update_self _ _ _, rfl⟩

/-- The mutex is free again and the snapshot set. A call that holds the publication lock may set any
rows, another one those that are there. -/
theorem unlockState_safe {next : Unit → Prog α} {st' : Option Snapshot} (hW : ¬W.memory)
    (h : P s ∧ Remembers n p st s)
    (hok : ∀ {t st₁}, Valid checksum t → P t → (∀ {st₀}, st = some st₀ → st₀.Ok t) →
      st' = some st₁ → st₁.Ok t) (hsame : (∀ {t}, P t → t.Holds n) ∨
      ∀ {st₀}, st = some st₀ → ∃ st₁, st' = some st₁ ∧ st₁.entries = st₀.entries)
    (hnext : ∀ t u, Valid checksum t → P t → u = t.remember p st' → Valid checksum u → P u →
      (∀ {st₀}, st = some st₀ → st₀.Ok t) → (rules checksum n p).Safe Q (next ()) u) :
    (rules checksum n p).Safe Q (.call (.unlockState st') next) s := by
  refine step (hP.remembers st) hs h fun t r u ht hPt heffect => ?_
  obtain ⟨hPt, hguard, hst⟩ := hPt
  have hold : ∀ {st₀}, st = some st₀ → st₀.Ok t := fun heq => ht.snapshot (hst.trans heq)
  have hu : u = t.remember p st' := heffect
  have hvalid : Valid checksum u := hu ▸ ht.remember fun heq => hok ht hPt hold heq
  have hkeeps : ∀ {m : ℕ} {W' : Watch}, (m = n → ¬W'.memory) → Keeps checksum m W' t u := by
    intro m W' hW'
    rw [hu]
    refine Keeps.remember hguard hW' fun hne hholds st₀ hst₀ => ?_
    obtain hlocked | hsame := hsame
    · exact absurd (hholds.unique (hlocked hPt)) hne
    · exact hsame (hst.symm.trans hst₀)
  refine ⟨hvalid, ⟨fun hne => hkeeps fun heq => absurd heq hne, ?_, fun _ => ?_⟩, ?_⟩
  · rw [hu]
    exact .inl Unchanged.calm
  · rw [hu]
    exact .inl rfl
  · exact hnext t u ht hPt hu hvalid (hP.kept ht hvalid (hkeeps fun _ => hW) hPt) hold

end Memory

/-! ### Marks -/

section Marks

theorem SameRows.refl (e : Entries) : SameRows e e := fun _ => rfl

theorem SameRows.symm {e e' : Entries} (h : SameRows e e') : SameRows e' e := fun k => (h k).symm

variable {e e' : Entries}

theorem SameRows.get? (h : SameRows e e') {k : Key} {loc : Location} (hget : e.get? k = some loc) :
    ∃ loc', e'.get? k = some loc' ∧ loc'.pack = loc.pack ∧ loc'.offset = loc.offset ∧
      loc'.len = loc.len := by
  have hk := h k
  rw [hget, map_some] at hk
  obtain ⟨loc', hget', hloc⟩ := map_eq_some_iff.mp hk.symm
  injection hloc with hpack hoffset hlen
  exact ⟨loc', hget', hpack, hoffset, hlen⟩

omit [DecidableEq κ] in
theorem SameRows.content_eq (h : SameRows e e') (k : Key) :
    s.content e' k = s.content e k := by
  unfold Disk.content
  cases hget : e.get? k with
  | none =>
    have hk := h k
    rw [hget, map_none] at hk
    rw [map_eq_none_iff.mp hk.symm]
  | some loc =>
    obtain ⟨loc', hget', hpack, hoffset, hlen⟩ := h.get? hget
    have hslice : ∀ data, slice data loc' = slice data loc := fun data => by
      rw [slice, slice, hoffset, hlen]
    rw [hget', bind_some, bind_some, hpack]
    simp only [hslice]

omit [DecidableEq κ] in
theorem SameRows.sound {e e' : Entries} (h : SameRows e e') (hsound : s.Sound e) : s.Sound e' := by
  intro k loc hget
  obtain ⟨loc', hget', hpack, hoffset, hlen⟩ := h.symm.get? hget
  obtain ⟨j, hpacked, hrange, hpub⟩ := hsound k loc' hget'
  rw [hpack] at hpacked
  rw [slice, hoffset, hlen] at hpub
  rw [hoffset, hlen] at hrange
  exact ⟨j, hpacked, hrange, hpub⟩

/-- The rows fit the format of the index. -/
def RowsFit (entries : Entries) : Prop := ∀ k loc, entries.get? k = some loc → Fits k loc

omit [DecidableEq κ] in
theorem Valid.fit_index (hs : Valid checksum s) : RowsFit (s.index checksum) := by
  intro k loc hget
  cases hdir : s.dir .index with
  | none =>
    rw [Disk.index_of_none hdir] at hget
    cases hget
  | some i => exact decode_fits (hs.decode_index hdir).1 hget

theorem RowsFit.insert {e : Entries} (h : RowsFit e) {k : Key} {loc : Location}
    (hfits : Fits k loc) : RowsFit (e.insert k loc) := by
  intro k' loc' hget
  rw [SortedMap.get?_insert] at hget
  split at hget
  · next heq =>
    cases hget
    exact heq ▸ hfits
  · exact h k' loc' hget

theorem mergeMarks_fold {entries : Entries} (touched : List (Key × ℕ)) (e : Entries)
    (changed : Bool) (htouched : ∀ k used, (k, used) ∈ touched → used < U64)
    (hrows : SameRows entries e) (hfit : RowsFit entries → RowsFit e)
    (hsame : changed = false → e = entries) :
    ∀ r, touched.foldl (fun (entries, changed) (k, used) =>
      match entries.get? k with
      | some loc =>
        if used > loc.used then (entries.insert k { loc with used := used }, true)
        else (entries, changed)
      | none => (entries, changed)) (e, changed) = r →
    SameRows entries r.1 ∧ (RowsFit entries → RowsFit r.1) ∧ (r.2 = false → r.1 = entries) := by
  induction touched generalizing e changed with
  | nil =>
    rintro r rfl
    exact ⟨hrows, hfit, hsame⟩
  | cons mark touched ih =>
    obtain ⟨k, used⟩ := mark
    intro r hr
    have hrest := fun k used h => htouched k used (mem_cons_of_mem _ h)
    rw [foldl_cons] at hr
    dsimp only at hr
    cases hget : e.get? k with
    | none =>
      rw [hget] at hr
      exact ih e changed hrest hrows hfit hsame r hr
    | some loc =>
      rw [hget] at hr
      dsimp only at hr
      split at hr
      · refine ih _ true hrest (fun k' => ?_) (fun hentries => ?_) (by simp) r hr
        · rw [SortedMap.get?_insert, hrows k']
          split
          · next heq =>
            subst heq
            rw [hget]
            rfl
          · rfl
        · have hold := hfit hentries k loc hget
          exact RowsFit.insert (hfit hentries) { hold with used := htouched k used mem_cons_self }
      · exact ih e changed hrest hrows hfit hsame r hr

/-- Merging marks keeps the rows, and all of them when it changes none. -/
theorem mergeMarks_spec (touched : List (Key × ℕ)) (entries : Entries)
    (htouched : ∀ k used, (k, used) ∈ touched → used < U64) :
    SameRows entries (mergeMarks touched entries).1 ∧
      (RowsFit entries → RowsFit (mergeMarks touched entries).1) ∧
      ((mergeMarks touched entries).2 = false → (mergeMarks touched entries).1 = entries) :=
  mergeMarks_fold touched entries false htouched (SameRows.refl _) (fun h => h) (fun _ => rfl) _
    rfl

end Marks

theorem mergeTouches_safe (hP : Frame checksum n p W P) (hW : ¬W.memory) (hs : Valid checksum s)
    (h : P s) (entries : Entries) :
    (rules checksum n p).Safe
      (fun r t => P t ∧ ∃ merged changed, r = .ok (merged, changed) ∧ SameRows entries merged ∧
        (RowsFit entries → RowsFit merged) ∧ (changed = false → merged = entries))
      (mergeTouches entries).run s := by
  refine lockState_safe hP hs h fun st u hu hPu hst => ?_
  cases st with
  | none =>
    refine unlockState_safe hP hu hW ⟨hPu, hst⟩ (fun _ _ _ => nofun) (.inr nofun)
      fun t u ht _ _ hu hPu _ => ?_
    exact ret hP hu hPu fun t _ hPt =>
      ⟨hPt, entries, false, rfl, SameRows.refl _, fun h => h, fun _ => rfl⟩
  | some state =>
    refine unlockState_safe hP hu hW ⟨hPu, hst⟩ (fun _ _ hok heq => ?_) (.inr fun heq => ?_)
      fun t u ht _ _ hu hPu hok => ?_
    · cases heq
      exact ⟨(hok rfl).entries, (hok rfl).files, nofun⟩
    · cases heq
      exact ⟨_, rfl, rfl⟩
    · refine ret hP hu hPu fun t _ hPt => ⟨hPt, _, _, rfl, ?_⟩
      exact mergeMarks_spec _ _ fun k used hmem => (hok rfl).touched (SortedMap.mem_iff.mp hmem)

/-- The rows are those of the process's snapshot. -/
def Shows (p : κ) (entries : Entries) (s : Disk κ) : Prop :=
  ∃ st, s.snapshot p = some st ∧ st.entries = entries

omit [DecidableEq κ] in
theorem Shows.kept (hW : W.memory) (hP : Kept checksum n W P)
    (hcalls : ∀ {s}, P s → ∃ op, s.calls n = some (p, op)) (hholds : ∀ {s}, P s → s.Holds n) :
    Kept checksum n W fun s => P s ∧ Shows p entries s := by
  rintro s t hs ht hk ⟨hPs, st, hst, hentries⟩
  obtain ⟨op, hcall⟩ := hcalls hPs
  obtain ⟨st', hst', hsame⟩ := hk.memory hW hcall (hholds hPs) hst
  exact ⟨hP hs ht hk hPs, st', hst', hsame.trans hentries⟩

theorem replace_safe (hP : Frame checksum n p W P) (hW : ¬W.memory)
    (hholds : ∀ {t}, P t → t.Holds n) (hsound : ∀ {t}, P t → t.Sound entries)
    (hs : Valid checksum s) (h : P s) :
    (rules checksum n p).Safe (fun r t => r = .ok () ∧ P t ∧ Shows p entries t)
      (replace entries).run s := by
  refine lockState_safe hP hs h fun st u hu hPu hst => ?_
  refine unlockState_safe hP hu hW ⟨hPu, hst⟩ (fun {t st₁} _ hPt hok heq => ?_)
    (.inl fun hPt => hholds hPt) fun t u ht hPt heq hu hPu _ => ?_
  · cases heq
    refine ⟨hsound hPt, nofun, fun {k used} hget => ?_⟩
    cases st with
    | none => cases hget
    | some state => exact (hok rfl).touched hget
  · refine ret (W := W.withMemory) (P := fun s => P s ∧ Shows p entries s) ?_ hu
      ⟨hPu, ?_⟩ fun t _ hPt => ⟨rfl, hPt⟩
    · exact
      { calls := fun hPs => hP.calls hPs.1
        mine := fun hPs => hP.mine hPs.1
        kept := Shows.kept trivial hP.withMemory.kept hP.calls hholds }
    · rw [heq]
      exact ⟨_, update_self _ _ _, rfl⟩

end HdLang.Cache
