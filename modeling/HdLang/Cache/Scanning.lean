import HdLang.Cache.Leases

/-!
# Scanning and pruning

A scan under the publication lock finds the pack of every row and its length: a name that a listing
lacks goes before the listing ends, and the packs of the index do not go. Pruning removes what no row
names and no writer leases: the writer of a pending file holds its lock or the publication lock.
-/

namespace HdLang.Cache

open Rules Io Safe Function Rules.Safe

variable {κ : Type} {checksum : Bytes → Hash128} {n : ℕ} {p : κ} {W : Watch} {P : Disk κ → Prop}
  {s : Disk κ}

/-! ### Scanning -/

/-- The length is that of the pack. -/
def Sized (id len : ℕ) (s : Disk κ) : Prop := ∃ j, s.packed id = some j ∧ (s.data j).length = len

theorem Sized.kept {id len : ℕ} : Kept (κ := κ) checksum n W (Sized id len) := by
  rintro s t hs - hk ⟨j, hpacked, hlen⟩
  refine ⟨j, hk.packed hpacked, ?_⟩
  rw [hk.data_sealed (hs.packed_sealed hpacked)]
  exact hlen

/-- Each size is that of the pack. -/
def Measured (sizes : SortedMap ℕ ℕ) (s : Disk κ) : Prop :=
  ∀ id len, sizes.get? id = some len → Sized id len s

theorem Measured.kept {sizes : SortedMap ℕ ℕ} : Kept (κ := κ) checksum n W (Measured sizes) :=
  fun _ _ hs ht hk h id len hget => Sized.kept hs ht hk (h id len hget)

/-- The packs of the index that the listing lacks are among the missed names. -/
def Listed (checksum : Bytes → Hash128) (n : ℕ) (list : List Name) (s : Disk κ) : Prop :=
  ∀ id, s.Indexed checksum id → .pack id ∉ list → .pack id ∈ s.missed n

theorem Listed.kept {list : List Name} (hW : W.index) (hlisting : W.listing)
    (hP : Kept checksum n W P) (hholds : ∀ {s}, P s → s.Holds n) :
    Kept checksum n W fun s => P s ∧ Listed checksum n list s := by
  rintro s t hs ht hk ⟨hPs, hlisted⟩
  refine ⟨hP hs ht hk hPs, fun id hindexed hmem => ?_⟩
  rw [Disk.Indexed, hk.index_eq hs hW (hholds hPs)] at hindexed
  exact hk.missed hlisting (hholds hPs) hindexed (hlisted id hindexed hmem)

/-- The watch of a call that also watches its listing. -/
def Watch.withListing (W : Watch) : Watch := { W with listing := True }

theorem Kept.withListing (hP : Kept checksum n W P) : Kept checksum n W.withListing P :=
  hP.mono (Set.Subset.refl _) (Set.Subset.refl _) (fun h => h) (fun h => h) fun _ => trivial

/-- What a scan ends with: the sizes of the packs that the rows name and the index has. -/
def Scanned (checksum : Bytes → Hash128) (entries : Entries)
    (r : Except Error (ℕ × SortedMap ℕ ℕ)) (s : Disk κ) : Prop :=
  ∀ total sizes, r = .ok (total, sizes) → Measured sizes s ∧
    ∀ id, names entries id = true → s.Indexed checksum id → sizes.get? id ≠ none

variable [DecidableEq κ]

theorem scanNames_safe (hP : Frame checksum n p W P) (wanted : ℕ → Bool) (list : List Name)
    (total : ℕ) (sizes : SortedMap ℕ ℕ) (hs : Valid checksum s) (h : P s ∧ Measured sizes s) :
    (rules checksum n p).Safe
      (fun r t => P t ∧ ∀ total' sizes', r = .ok (total', sizes') → Measured sizes' t ∧
        (∀ id, sizes.get? id ≠ none → sizes'.get? id ≠ none) ∧
          ∀ id, .pack id ∈ list → wanted id = true → sizes'.get? id ≠ none)
      (scanNames wanted list total sizes).run s := by
  induction list generalizing s total sizes with
  | nil =>
    refine ret (hP.and Measured.kept) hs h fun t _ hPt => ⟨hPt.1, fun total' sizes' hr => ?_⟩
    cases hr
    exact ⟨hPt.2, fun _ h => h, nofun⟩
  | cons name list ih =>
    have hP' := hP.and (Q := fun s => Measured sizes s) Measured.kept
    have hskip : ∀ {u : Disk κ} {total : ℕ}, (∀ id, name ≠ .pack id) → Valid checksum u →
        P u ∧ Measured sizes u → (rules checksum n p).Safe
          (fun r t => P t ∧ ∀ total' sizes', r = .ok (total', sizes') → Measured sizes' t ∧
            (∀ id, sizes.get? id ≠ none → sizes'.get? id ≠ none) ∧
              ∀ id, .pack id ∈ name :: list → wanted id = true → sizes'.get? id ≠ none)
          (scanNames wanted list total sizes).run u := by
      intro u total hname hu hPu
      refine (ih total sizes hu hPu).mono fun r t _ hR => ⟨hR.1, fun total' sizes' hr => ?_⟩
      obtain ⟨hmeasured, hgrow, hcover⟩ := hR.2 total' sizes' hr
      refine ⟨hmeasured, hgrow, fun id hmem => ?_⟩
      obtain heq | hmem := List.mem_cons.mp hmem
      · exact absurd heq.symm (hname id)
      · exact hcover id hmem
    cases name with
    | pack id =>
      refine quiet hP' hs h (by trivial) fun t r u ht hPt heffect hu hPu => ?_
      cases r with
      | error e => exact ret hP hu hPu.1 fun t _ hPt => ⟨hPt, nofun⟩
      | ok len =>
        have hsized : Sized id len u := by
          obtain ⟨i, hdir, hr, rfl⟩ | ⟨-, hr, -⟩ | ⟨hr, -⟩ := heffect
          · cases hr
            exact ⟨i, ht.dir_packed hdir, rfl⟩
          · cases hr
          · cases hr
        have hmeasured : Measured (if wanted id then sizes.insert id len else sizes) u := by
          intro id' len' hget
          split at hget
          · rw [SortedMap.get?_insert] at hget
            split at hget
            · next heq =>
              cases hget
              exact heq ▸ hsized
            · exact hPu.2 id' len' hget
          · exact hPu.2 id' len' hget
        refine (ih _ _ hu ⟨hPu.1, hmeasured⟩).mono fun r t _ hR =>
          ⟨hR.1, fun total' sizes' hr => ?_⟩
        obtain ⟨hmeasured', hgrow, hcover⟩ := hR.2 total' sizes' hr
        refine ⟨hmeasured', fun id' hsome => hgrow id' ?_, fun id' hmem hwanted => ?_⟩
        · split
          · rw [SortedMap.get?_insert]
            split
            · exact Option.some_ne_none _
            · exact hsome
          · exact hsome
        · obtain heq | hmem := List.mem_cons.mp hmem
          · cases heq
            refine hgrow id ?_
            rw [if_pos hwanted, SortedMap.get?_insert, if_pos rfl]
            exact Option.some_ne_none _
          · exact hcover id' hmem hwanted
    | index =>
      refine quiet hP' hs h (by trivial) fun t r u ht hPt heffect hu hPu => ?_
      cases r with
      | error e => exact ret hP hu hPu.1 fun t _ hPt => ⟨hPt, nofun⟩
      | ok len => exact hskip nofun hu hPu
    | lock => exact hskip nofun hs h
    | tmp id => exact hskip nofun hs h
    | pending id => exact hskip nofun hs h

/-- **A scan** finds the packs of the rows. -/
theorem scan_safe (hP : Frame checksum n p W P) (hW : W.index) (hmemory : ¬W.memory)
    (hlisting : ¬W.listing) (hholds : ∀ {t}, P t → t.Holds n) {entries : Entries}
    (hs : Valid checksum s) (h : P s ∧ Shows p entries s) :
    (rules checksum n p).Safe (fun r t => P t ∧ Scanned checksum entries r t) scan.run s := by
  have hshows : Frame checksum n p W.withMemory fun s => P s ∧ Shows p entries s :=
    { calls := fun hPs => hP.calls hPs.1
      mine := fun hPs => hP.mine hPs.1
      kept := Shows.kept trivial hP.withMemory.kept hP.calls hholds }
  refine lockState_safe hshows hs h fun guard u hu hPu hguard => ?_
  obtain ⟨hPu, st, hst, hentries⟩ := hPu
  obtain rfl : guard = some st := hguard.2.symm.trans hst
  refine unlockState_safe hP hu hmemory ⟨hPu, hguard⟩ (fun _ _ hok heq => hok heq)
    (.inr fun heq => ⟨_, heq, rfl⟩) fun t u _ _ _ hu hPu _ => ?_
  refine step hP hu hPu fun t r u ht hPt heffect => ?_
  obtain ⟨list, rfl, rfl⟩ | ⟨rfl, rfl⟩ := heffect
  · have hvalid : Valid checksum { t with
        missed := update t.missed n {name | t.dir name ≠ none ∧ name ∉ list} } := ht.listing
    have hPu := hP.kept ht hvalid (Keeps.listing fun _ => hlisting) hPt
    refine ⟨hvalid, ⟨fun hm => Keeps.listing fun heq => absurd heq hm, .inl Unchanged.calm,
      fun _ => .inl rfl⟩, ?_⟩
    have hlisted : Listed checksum n list { t with
        missed := update t.missed n {name | t.dir name ≠ none ∧ name ∉ list} } := by
      intro id hindexed hmem
      show Name.pack id ∈ update t.missed n _ n
      rw [update_self]
      exact ⟨ht.indexed hindexed, hmem⟩
    have hframe : Frame checksum n p W.withListing fun s => P s ∧ Listed checksum n list s :=
      { calls := fun hPs => hP.calls hPs.1
        mine := fun hPs => hP.mine hPs.1
        kept := Listed.kept hW trivial hP.kept.withListing hholds }
    refine tryBind hvalid (scanNames_safe hframe (names st.entries) list 0 .empty hvalid
      ⟨⟨hPu, hlisted⟩, fun _ _ h => by cases h⟩)
      (fun e t _ hR => ⟨hR.1.1, fun _ _ h => by cases h⟩) fun r t ht hR => ?_
    obtain ⟨total, sizes⟩ := r
    obtain ⟨hPt, hsizes⟩ := hR.now ht
    obtain ⟨hmeasured, -, hcover⟩ := hsizes total sizes rfl
    refine quiet (hframe.and Measured.kept) ht ⟨hPt, hmeasured⟩ (by trivial)
      fun t r u ht hPt heffect hu hPu => ?_
    obtain ⟨hmissed, rfl⟩ := heffect
    -- No name is missed any more, so that the packs of the index are in the listing.
    have hall : ∀ id, names entries id = true → u.Indexed checksum id → sizes.get? id ≠ none := by
      intro id hname hindexed
      refine hcover id ?_ (hentries ▸ hname)
      by_contra hmem
      have hmissing := hPu.1.2 id hindexed hmem
      rw [hmissed] at hmissing
      exact hmissing
    have hend : Frame checksum n p W fun s => (P s ∧ Measured sizes s) ∧
        ∀ id, names entries id = true → s.Indexed checksum id → sizes.get? id ≠ none :=
      { calls := fun hPs => hP.calls hPs.1.1
        mine := fun hPs => hP.mine hPs.1.1
        kept := fun s t hs ht hk hPs => by
          refine ⟨Kept.and hP.kept Measured.kept hs ht hk hPs.1, fun id hname hindexed => ?_⟩
          rw [Disk.Indexed, hk.index_eq hs hW (hholds hPs.1.1)] at hindexed
          exact hPs.2 id hname hindexed }
    refine ret hend hu ⟨⟨hPu.1.1, hPu.2⟩, hall⟩ fun t _ hPt => ⟨hPt.1.1, fun total' sizes' hr => ?_⟩
    cases hr
    exact ⟨hPt.1.2, hPt.2⟩
  · exact ⟨ht, (Quiet.refl ht).guar, ret hP ht hPt fun t _ hPt => ⟨hPt, fun _ _ h => by cases h⟩⟩

/-! ### Pruning -/

theorem deadlineIf_safe (hP : Frame checksum n p W P) (started bounded : Bool)
    (hs : Valid checksum s) (h : P s) :
    (rules checksum n p).Safe (fun _ t => P t)
      (if started then deadline bounded else pure false : Io Bool).run s := by
  split
  · unfold deadline
    split
    · refine quiet hP hs h (by trivial) fun t r u _ _ _ hu hPu => ?_
      exact ret hP hu hPu fun t _ hPt => hPt
    · exact ret hP hs h fun t _ hPt => hPt
  · exact ret hP hs h fun t _ hPt => hPt

section Prune

variable (hP : Frame checksum n p W P) (hlockOnly : LockOnly W P) (hids : W.ids = ∅)
  (hholds : ∀ {t}, P t → t.Holds n)
include hP hlockOnly hids hholds

/-- A file is removed if its lock is free; a pack only if no row names it. -/
theorem prune_safe {name : Name} {id : ℕ} (hname : name = .pending id ∨ name = .pack id)
    (hlive : ∀ {t}, P t → name = .pack id → ¬t.Indexed checksum id) (attempted : Bool)
    (hs : Valid checksum s) (h : P s) :
    (rules checksum n p).Safe (fun _ t => P t) (prune name attempted).run s := by
  refine quiet hP hs h (by trivial) fun t r u ht hPt heffect hu hPu => ?_
  cases r with
  | error e => exact ret hP hu hPu fun t _ hPt => hPt
  | ok file =>
    -- The file was made as the pending file of the id, whichever name it has.
    have hfile : u.made file.file = some (.pending id) ∧ file.owner = n := by
      obtain ⟨i, hdir, hr, rfl⟩ | ⟨-, hr, -⟩ | ⟨hr, -⟩ := heffect
      · cases hr
        refine ⟨?_, rfl⟩
        obtain rfl | rfl := hname
        · exact ht.made_of_pending hdir
        · exact ht.packed_made (ht.dir_packed hdir)
      · cases hr
      · cases hr
    have hP' := hP.and (Q := fun s => s.made file.file = some (.pending id)) Kept.made
    have hclose : ∀ (r : Except Error Bool) (v : Disk κ), Valid checksum v →
        P v ∧ v.made file.file = some (.pending id) →
        (rules checksum n p).Safe (fun _ t => P t)
          (.call (.close file) fun _ => .done r) v := by
      intro r v hv hPv
      refine close_rule hP' (fun _ hPs => hlockOnly hPs.1) hfile.2 (by simp) (fun hPs => hPs.2) hv
        hPv fun u hu hPu => ?_
      exact ret hP hu hPu.1 fun t _ hPt => hPt
    refine quiet hP' hu ⟨hPu, hfile.1⟩ (by trivial) fun t r u ht hPt heffect hu hPu => ?_
    cases r with
    | error e => exact hclose (.error e) u hu hPu
    | ok free =>
      cases free with
      | false => exact hclose (.ok attempted) u hu hPu
      | true =>
        have hlocked : u.locks file.file = some file := by
          obtain ⟨-, -, rfl⟩ | ⟨-, hr, -⟩ | ⟨hr, -⟩ := heffect
          · exact update_self _ _ _
          · cases hr
          · cases hr
        have hD : Frame checksum n p { W with locks := insert file.file W.locks } fun s =>
            (P s ∧ s.made file.file = some (.pending id)) ∧ s.locks file.file = some file :=
          { calls := fun hPs => hP.calls hPs.1.1
            mine := fun hPs => hP.mine hPs.1.1
            kept := Kept.and (hP'.kept.mono (Set.Subset.refl _) (Set.subset_insert _ _)
              (fun h => h) (fun h => h) fun h => h)
              fun _ _ _ _ hk hlock => hk.locks (Set.mem_insert _ _) hfile.2 hlock }
        refine removal_rule hP' hD ?_ ?_ (fun {t id'} hPt _ heq => ?_) (fun {t} _ _ => ?_)
          (fun {t m} ht hPt hlock hm => ?_) hu ⟨hPu, hlocked⟩ fun r u hu hPu => ?_
        · obtain rfl | rfl := hname <;> simp
        · obtain rfl | rfl := hname <;> simp
        · obtain rfl | rfl := hname
          · cases heq
          · cases heq
            exact hlive hPt.1 rfl
        · have hnone : ∀ id, id ∉ W.ids := fun id hmem => by
            rw [hids] at hmem
            exact hmem
          obtain rfl | rfl := hname
          · exact ⟨fun _ hx => absurd hx (hnone _), nofun, nofun, nofun⟩
          · exact ⟨nofun, nofun, fun _ hx => absurd hx (hnone _), nofun⟩
        · -- A live writer has the file's lock or the publication lock, and this call has both.
          have hnot : ¬t.Holds m := fun hother => hm (hother.unique (hholds hPt.1))
          obtain rfl | rfl := hname
          · refine ⟨fun {id' i} heq _ hdir hlive => ?_, nofun, nofun, nofun⟩
            cases heq
            obtain rfl : i = file.file :=
              ht.made_once (by simp [Name.id?]) (ht.made_of_pending hdir) hPt.2
            obtain howns | hother := hlive
            · exact hm (howns.unique ⟨file, hlock, hfile.2⟩)
            · exact hnot hother
          · exact ⟨nofun, nofun, fun _ _ => hnot, nofun⟩
        · exact hclose (.ok true) u hu hPu

/-- **Pruning** removes nothing that a row names or a writer leases. -/
theorem pruneNames_safe {live : ℕ → Bool} (bounded : Bool)
    (hlive : ∀ {t id}, P t → t.Indexed checksum id → live id = true) (list : List Name)
    (attempted : Bool) (hs : Valid checksum s) (h : P s) :
    (rules checksum n p).Safe (fun _ t => P t)
      (pruneNames live bounded list attempted).run s := by
  induction list generalizing s attempted with
  | nil => exact ret hP hs h fun t _ hPt => hPt
  | cons name list ih =>
    refine tryBind hs (deadlineIf_safe hP attempted bounded hs h)
      (fun e t _ hPt => hPt) fun late u hu hR => ?_
    have hPu := hR.now hu
    cases late with
    | true => exact ret hP hu hPu fun t _ hPt => hPt
    | false =>
      rw [if_neg Bool.false_ne_true]
      cases name with
      | pack id =>
        dsimp only
        split
        · exact ih attempted hu hPu
        · next hdead =>
          refine tryBind hu (prune_safe hP hlockOnly hids hholds (.inr rfl)
            (fun hPt _ hindexed => hdead (hlive hPt hindexed)) attempted hu hPu)
            (fun e t _ hPt => hPt) fun attempted t ht hR => ih attempted ht (hR.now ht)
      | pending id =>
        refine tryBind hu (prune_safe hP hlockOnly hids hholds (.inl rfl)
          (by simp) attempted hu hPu) (fun e t _ hPt => hPt) fun attempted t ht hR =>
            ih attempted ht (hR.now ht)
      | tmp id =>
        have hD : Frame checksum n p W fun s => P s ∧ True := hP.and (Kept.const True)
        refine removal_rule hP hD (by simp) (by simp) (by simp) (fun _ _ => ?_)
          (fun {t m} _ hPt _ hm => ?_) hu ⟨hPu, trivial⟩ fun r u hu hPu => ih true hu hPu
        · refine ⟨by simp, fun {x} _ hx => ?_, by simp, by simp⟩
          rw [hids] at hx
          exact absurd hx (Set.notMem_empty x)
        · exact ⟨by simp, fun _ _ hother => hm (hother.unique (hholds hPt)), by simp, by simp⟩
      | lock => exact ih attempted hu hPu
      | index => exact ih attempted hu hPu

end Prune

end HdLang.Cache
