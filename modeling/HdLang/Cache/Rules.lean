import HdLang.Cache.Naming

/-!
# Calls among others

`rules` is what a call of the store owes and may count on. A predicate is `Kept` for a watch if no
step that keeps the watch makes it false; `Frame` joins this with what every call knows of itself.
A quiet command keeps every frame (`Safe.quiet`), so that a part of a program made of quiet commands
only is proved by following its replies.
-/

namespace HdLang.Cache

open Cache.Quiet Rules.Safe

variable {κ : Type} {checksum : Bytes → Hash128} {n : ℕ} {p : κ}

/-! ### Frames -/

theorem Keeps.mono {u : ℕ} {W W' : Watch} {s s' : Disk κ} (h : Keeps checksum u W' s s')
    (hids : W.ids ⊆ W'.ids) (hlocks : W.locks ⊆ W'.locks) (hindex : W.index → W'.index)
    (hmemory : W.memory → W'.memory) (hlisting : W.listing → W'.listing) :
    Keeps checksum u W s s' where
  __ := h
  locks hi := h.locks (hlocks hi)
  made_mine hx := h.made_mine (hids hx)
  sealed_mine hx := h.sealed_mine (hids hx)
  data_mine hx := h.data_mine (hids hx)
  packed_mine hx := h.packed_mine (hids hx)
  pending hx := h.pending (hids hx)
  tmp hx := h.tmp (hids hx)
  pack hx := h.pack (hids hx)
  index hW := h.index (hindex hW)
  indexed_pack hW := h.indexed_pack (hindex hW)
  unindexed hW hx := h.unindexed (hindex hW) (hids hx)
  saved hW := h.saved (hindex hW)
  missed hW := h.missed (hlisting hW)
  guard hW := h.guard (hmemory hW)
  memory hW := h.memory (hmemory hW)

/-- What is kept for the watch leaves `P`. -/
def Kept (checksum : Bytes → Hash128) (n : ℕ) (W : Watch) (P : Disk κ → Prop) : Prop :=
  ∀ ⦃s t⦄, Valid checksum s → Valid checksum t → Keeps checksum n W s t → P s → P t

/-- `P` holds of a running call that owns the watched ids, and is kept for the watch. -/
structure Frame (checksum : Bytes → Hash128) (n : ℕ) (p : κ) (W : Watch) (P : Disk κ → Prop) :
    Prop where
  calls : ∀ {s}, P s → ∃ op, s.calls n = some (p, op)
  mine : ∀ {s}, P s → ∀ x ∈ W.ids, s.issued x = some n
  kept : Kept checksum n W P

section Frames

variable {W W' : Watch} {P Q : Disk κ → Prop} {s t : Disk κ}

theorem Kept.and (h : Kept checksum n W P) (h' : Kept checksum n W Q) :
    Kept checksum n W fun s => P s ∧ Q s :=
  fun _ _ hs ht hk hP => ⟨h hs ht hk hP.1, h' hs ht hk hP.2⟩

theorem Kept.mono (h : Kept checksum n W P) (hids : W.ids ⊆ W'.ids) (hlocks : W.locks ⊆ W'.locks)
    (hindex : W.index → W'.index) (hmemory : W.memory → W'.memory)
    (hlisting : W.listing → W'.listing) : Kept checksum n W' P :=
  fun _ _ hs ht hk => h hs ht (hk.mono hids hlocks hindex hmemory hlisting)

theorem Kept.const (a : Prop) : Kept checksum n W fun _ : Disk κ => a := fun _ _ _ _ _ h => h

theorem Frame.and (h : Frame checksum n p W P) (h' : Kept checksum n W Q) :
    Frame checksum n p W fun s => P s ∧ Q s where
  calls hP := h.calls hP.1
  mine hP := h.mine hP.1
  kept := h.kept.and h'

/-- What is kept for what a call watches now is left alone by the others. -/
theorem Rely.keeps (h : Rely checksum n s t) (hmine : ∀ x ∈ W.ids, s.issued x = some n) :
    Keeps checksum n W s t :=
  Keeps.mono h hmine (Set.subset_univ _) (fun _ => trivial) (fun _ => trivial) fun _ => trivial

end Frames

/-! ### Quiet commands -/

/-- A command that only opens, reads, locks or asks. -/
def Cmd.Quiet : Cmd → Prop
  | .unique | .now | .expired | .isRealDir | .createDirAll | .tryExists _ | .stat _ | .openFile _
  | .len _ | .readUpTo .. | .readExact .. | .lock _ | .tryLock _ | .closeDir | .lockState
  | .stall => True
  | .openOrCreate name => name = .lock
  | _ => False

section Commands

variable {s t : Disk κ} {W : Watch} {P : Disk κ → Prop}

variable {α : Type} {r : Except Error α}

theorem Fails.quiet (hs : Valid checksum s) (h : Fails s r t) :
    Quiet checksum n s t := by
  obtain ⟨-, rfl⟩ := h
  exact Quiet.refl hs

variable {name : Name}

theorem Missing.quiet (hs : Valid checksum s) (h : Missing s name r t) : Quiet checksum n s t := by
  obtain ⟨-, -, rfl⟩ := h
  exact Quiet.refl hs

theorem Opens.quiet {m : ℕ} {r : Except Error Handle} (hs : Valid checksum s)
    (h : Opens m s name r t) : Quiet checksum n s t := by
  obtain ⟨i, -, -, rfl⟩ := h
  exact Quiet.opened hs

theorem Quiet.guar (h : Quiet checksum n s t) : Guar checksum n s t where
  rely _ := h.keeps _ _
  change := .inl h.unchanged
  writes hmade :=
    .inl ((h.keeps n ⟨Set.univ, ∅, False, False, False⟩).data_mine (Set.mem_univ _) rfl hmade)

variable [DecidableEq κ]

theorem Cmd.Quiet.effect {c : Cmd} (hc : c.Quiet) (hs : Valid checksum s) {r : Reply c}
    (h : effect n p c s r t) : Cache.Quiet checksum n s t := by
  cases c with
  | unique =>
    obtain ⟨-, hfree, rfl⟩ := h
    refine calm hs id id id fun {id m} hid => ?_
    have hne : id ≠ r := by
      rintro rfl
      rw [hfree] at hid
      cases hid
    rw [Function.update_of_ne hne]
    exact hid
  | now =>
    obtain ⟨-, rfl⟩ := h
    exact refl hs
  | expired =>
    cases h
    exact refl hs
  | isRealDir =>
    obtain ⟨-, rfl⟩ := h
    exact refl hs
  | createDirAll =>
    obtain ⟨-, rfl⟩ | hfails := h
    · exact calm hs (fun _ => rfl) id id id
    · exact hfails.quiet hs
  | tryExists name =>
    obtain ⟨-, rfl⟩ | hfails := h
    · exact refl hs
    · exact hfails.quiet hs
  | stat name =>
    obtain ⟨i, -, -, rfl⟩ | hmissing | hfails := h
    · exact refl hs
    · exact hmissing.quiet hs
    · exact hfails.quiet hs
  | openOrCreate name =>
    cases hc
    obtain hopens | ⟨-, hdir, -, rfl⟩ | hfails := h
    · exact hopens.quiet hs
    · exact create_lock hs hdir
    · exact hfails.quiet hs
  | openFile name =>
    obtain hopens | hmissing | hfails := h
    · exact hopens.quiet hs
    · exact hmissing.quiet hs
    · exact hfails.quiet hs
  | len h' =>
    obtain ⟨-, rfl⟩ | hfails := h
    · exact refl hs
    · exact hfails.quiet hs
  | readUpTo h' offset limit =>
    obtain ⟨-, rfl⟩ | hfails := h
    · exact refl hs
    · exact hfails.quiet hs
  | readExact h' offset len =>
    obtain ⟨-, -, rfl⟩ | hfails := h
    · exact refl hs
    · exact hfails.quiet hs
  | lock h' =>
    obtain ⟨hfree, -, rfl⟩ | hfails := h
    · exact take hs hfree
    · exact hfails.quiet hs
  | tryLock h' =>
    obtain ⟨hfree, -, rfl⟩ | ⟨-, -, rfl⟩ | hfails := h
    · exact take hs hfree
    · exact refl hs
    · exact hfails.quiet hs
  | closeDir =>
    obtain ⟨-, rfl⟩ := h
    exact refl hs
  | lockState =>
    obtain ⟨hfree, -, rfl⟩ := h
    refine calm hs id id (fun {p' m} hguard => ?_) id
    have hne : p' ≠ p := by
      rintro rfl
      rw [hfree] at hguard
      cases hguard
    rw [Function.update_of_ne hne]
    exact hguard
  | stall => exact h.elim
  | createNew name => exact hc.elim
  | write h' bytes => exact hc.elim
  | unlock h' => exact hc.elim
  | close h' => exact hc.elim
  | rename old new => exact hc.elim
  | remove name => exact hc.elim
  | readDir => exact hc.elim
  | unlockState st => exact hc.elim

end Commands

/-! ### The rules of a call -/

section Rules

variable [DecidableEq κ]

/-- What call `n` of process `p` owes and may count on. -/
def rules (checksum : Bytes → Hash128) (n : ℕ) (p : κ) : Rules (Disk κ) Cmd Reply where
  effect := effect n p
  valid := Valid checksum
  rely := Rely checksum n
  guar := Guar checksum n
  rely_refl := Rely.refl n
  rely_trans hs _ h h' := Rely.trans hs h h'

variable {W : Watch} {P : Disk κ → Prop} {s : Disk κ}

theorem Frame.stable (h : Frame checksum n p W P) : (rules checksum n p).Stable P :=
  fun hs ht hrely hP => h.kept hs ht (Rely.keeps hrely (h.mine hP)) hP

theorem Frame.always (h : Frame checksum n p W P) (hs : Valid checksum s) (hP : P s) :
    (rules checksum n p).Always P s := Rules.Always.of_stable h.stable hs hP

end Rules

namespace Safe

open Rules

variable [DecidableEq κ] {α β : Type} {W : Watch} {P : Disk κ → Prop} {s : Disk κ} {c : Cmd}
  (hP : Frame checksum n p W P) (hs : Valid checksum s) (h : P s)
include hP hs h

variable {Q : α → Disk κ → Prop} {next : Reply c → Prog α}

theorem step (hnext : ∀ t r u, Valid checksum t → P t → effect n p c t r u →
      Valid checksum u ∧ Guar checksum n t u ∧ (rules checksum n p).Safe Q (next r) u) :
    (rules checksum n p).Safe Q (.call c next) s :=
  call (hP.always hs h) hnext

/-- The rule of a quiet command: `P` holds before and after it. -/
theorem quiet (hc : c.Quiet)
    (hnext : ∀ t r u, Valid checksum t → P t → effect n p c t r u → Valid checksum u → P u →
      (rules checksum n p).Safe Q (next r) u) :
    (rules checksum n p).Safe Q (.call c next) s := by
  refine step hP hs h fun t r u ht hPt heffect => ?_
  have hquiet := hc.effect ht heffect
  exact ⟨hquiet.valid, hquiet.guar,
    hnext t r u ht hPt heffect hquiet.valid (hP.kept ht hquiet.valid (hquiet.keeps n W) hPt)⟩

theorem ret {a : α} (hQ : ∀ t, Valid checksum t → P t → Q a t) :
    (rules checksum n p).Safe Q (.done a) s :=
  (hP.always hs h).mono hQ

omit hP h in
/-- The rule of a program whose outcome the rest looks at. -/
theorem attempt {x : Io α} {f : Except Error α → Io β} {R : Except Error α → Disk κ → Prop}
    {Q : Except Error β → Disk κ → Prop} (hx : (rules checksum n p).Safe R x.run s)
    (hf : ∀ r t, Valid checksum t → (rules checksum n p).Always (R r) t →
      (rules checksum n p).Safe Q (f r).run t) :
    (rules checksum n p).Safe Q (x.attempt >>= f).run s := by
  have hattempt : (rules checksum n p).Safe (fun r' t => ∃ r, r' = .ok r ∧ R r t) x.attempt.run s :=
    bind hs hx fun r t _ hR => Rules.Always.mono hR fun t _ hRt => ⟨r, rfl, hRt⟩
  refine tryBind hs hattempt (fun e t _ ⟨r, hr, _⟩ => by cases hr) fun r t ht hR => ?_
  refine hf r t ht (hR.mono fun t _ ⟨r', hr, hRt⟩ => ?_)
  cases hr
  exact hRt

omit hP h in
/-- The rule of a step that frees a lock of the call. -/
theorem close {next : Unit → Prog α} {file : Handle} {R : Disk κ → Prop} {Q : α → Disk κ → Prop}
    (hR : (rules checksum n p).Always R s) (howner : file.owner = n)
    (hnext : ∀ t, Valid checksum t → (rules checksum n p).Always R t →
      Valid checksum (t.release file) → (rules checksum n p).Safe Q (next ()) (t.release file)) :
    (rules checksum n p).Safe Q (.call (.close file) next) s := by
  refine call (hR.always hs) fun t r u ht hRt heffect => ?_
  have hu : u = t.release file := heffect
  subst hu
  have hvalid : Valid checksum (t.release file) := ht.release
  refine ⟨hvalid, ⟨fun {u} hu => ?_, .inl Unchanged.calm, fun _ => .inl rfl⟩, hnext t ht hRt hvalid⟩
  exact Keeps.release fun hu' => absurd (hu'.symm.trans howner) hu

end Safe

end HdLang.Cache
