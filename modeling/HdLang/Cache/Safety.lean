import HdLang.Cache.System

/-!
# The store is safe

Over every run of the system, read off `Inv` and what one step may do: each row of the index has its
bytes (`Stored`), a `get` answers nothing or published bytes, what a publish that succeeded has put
into the index stays there until another publish replaces it or a maintenance evicts it (`Durable`), a
publish that failed has left the index alone, and no other call takes a live writer's pending file.
-/

namespace HdLang.Cache

open Transition Option

variable {κ : Type}

/-! ### Properties of a run -/

section Properties

variable (checksum : Bytes → Hash128)

/-- The index reads, and each row names a pack that is there and a range inside it, whose bytes were
published under the row's key. -/
structure Disk.Stored (s : Disk κ) : Prop where
  readable : ∀ {i : ℕ}, s.dir .index = some i →
    decode checksum (s.data i) = .ok (s.index checksum)
  row : ∀ {k : Key} {loc : Location}, (s.index checksum).get? k = some loc →
    ∃ i, s.dir (.pack loc.pack) = some i ∧ loc.offset + loc.len ≤ (s.data i).length ∧
      s.Published k (slice (s.data i) loc)

/-- The step of call `m` is the one in which a publish puts its batch over the index, and the batch
has the key. -/
def Replaces (m : ℕ) (k : Key) (s s' : Disk κ) : Prop :=
  ∃ p batch bytes, s.calls m = some (p, .publish batch) ∧ ¬s.saved m ∧ s'.saved m ∧
    lastOf batch k = some bytes ∧ s'.held checksum k = some bytes

/-- The step of call `m` is the one in which a maintenance writes the index, and the key is not in
what its eviction leaves of the rows. -/
def Drops (m : ℕ) (k : Key) (s s' : Disk κ) : Prop :=
  ∃ p cap bounded entries kept, s.calls m = some (p, .maintain cap bounded) ∧
    SameRows (s.index checksum) entries ∧ evict cap entries = .ok kept ∧ kept.get? k = none ∧
      s'.held checksum k = none

variable [DecidableEq κ]

/-- The key holds the bytes since `b`, or a step of `after` replaced or evicted them. -/
def Stays (k : Key) (bytes : Bytes) (b : World κ) (after : List (Act κ)) (w : World κ) : Prop :=
  w.disk.held checksum k = some bytes ∨
    ∃ c m d rest, Takes (Step checksum) b after w c (.step m) d rest ∧
      c.disk.held checksum k = some bytes ∧
        (Replaces checksum m k c.disk d.disk ∨ Drops checksum m k c.disk d.disk)

/-- The publish has put its whole batch over the index in one step, and it is kept from there. -/
def Durable (n : ℕ) (batch : Batch) (w₀ : World κ) (acts : List (Act κ)) (w : World κ) : Prop :=
  ∃ a b after, Takes (Step checksum) w₀ acts w a (.step n) b after ∧
    (∀ k, b.disk.held checksum k = (lastOf batch k).or (a.disk.held checksum k)) ∧
    ∀ k bytes, lastOf batch k = some bytes → Stays checksum k bytes b after w

/-- What holds after any steps. -/
structure SafeRun (w₀ : World κ) (acts : List (Act κ)) (w : World κ) : Prop where
  stored : w.disk.Stored checksum
  got : ∀ {n : ℕ} {out : Outcome} {p : κ} {kind : EntryKind} {hash : Hash128}, (n, out) ∈ w.log →
    w.disk.calls n = some (p, .get kind hash) →
      ∃ bytes, out = .got bytes ∧ ∀ b, bytes = some b → w.disk.Published (key kind.asU16 hash) b
  published : ∀ {n : ℕ} {p : κ} {batch : Batch}, (n, .published (.ok ())) ∈ w.log →
    w.disk.calls n = some (p, .publish batch) → batch ≠ [] → Durable checksum n batch w₀ acts w
  failed : ∀ {n : ℕ} {e : Error}, (n, .published (.error e)) ∈ w.log →
    ∀ {a b : World κ} {after : List (Act κ)}, Takes (Step checksum) w₀ acts w a (.step n) b after →
      b.disk.index checksum = a.disk.index checksum ∧
        ∀ k, b.disk.held checksum k = a.disk.held checksum k
  /-- A live writer keeps its pending file whatever others do. -/
  leased : ∀ {act : Act κ} {w' : World κ} {u id i : ℕ}, Step checksum w act w' → Apart w u act →
    w.disk.Leases u id i → w'.disk.Leases u id i
  /-- Whoever writes to a pending file is a live writer. -/
  writes : ∀ {n : ℕ} {w' : World κ} {id i : ℕ}, Step checksum w (.step n) w' →
    w.disk.made i = some (.pending id) → w'.disk.data i ≠ w.disk.data i → w.disk.Leases n id i

end Properties

variable {n : ℕ} {p : κ}

section Runs

variable {checksum : Bytes → Hash128} {s s' : Disk κ}

/-! ### One step -/

theorem Valid.stored (hs : Valid checksum s) : s.Stored checksum where
  readable hdir := (hs.decode_index hdir).1
  row {k loc} hget := by
    obtain ⟨j, hpacked, hrange, hpub⟩ := hs.sound_index k loc hget
    obtain ⟨i, hdir⟩ := ne_none_iff_exists'.mp (hs.indexed ⟨k, loc, hget, rfl⟩)
    obtain rfl : i = j := some.inj ((hs.dir_packed hdir).symm.trans hpacked)
    exact ⟨i, hdir, hrange, hpub⟩

variable {k : Key}

/-- A key loses its bytes to a publish or a maintenance only. -/
theorem Guar.held_step (h : Guar checksum n s s') :
    s'.held checksum k = s.held checksum k ∨ Replaces checksum n k s s' ∨
      Drops checksum n k s s' := by
  obtain hsame | hchange := h.change
  · exact .inl (hsame.held k)
  · cases hcall : s.calls n with
    | none =>
      rw [hcall] at hchange
      exact hchange.elim
    | some call =>
      obtain ⟨p, op⟩ := call
      rw [hcall] at hchange
      cases op with
      | publish batch =>
        obtain ⟨hunsaved, hsaved, hheld⟩ := hchange
        cases hlast : lastOf batch k with
        | none => exact .inl (by rw [hheld k, hlast, none_or])
        | some bytes =>
          exact .inr (.inl ⟨p, batch, bytes, hcall, hunsaved, hsaved, hlast,
            by rw [hheld k, hlast, some_or]⟩)
      | get kind hash => exact hchange.elim
      | touch kind hash => exact hchange.elim
      | maintain cap bounded =>
        obtain ⟨keep, hevicts, hheld⟩ := hchange
        cases hkeep : keep k with
        | true => exact .inl (by rw [hheld k, hkeep, if_pos rfl])
        | false =>
          obtain hall | ⟨entries, kept, hsame, hevict, hiff⟩ := hevicts
          · rw [hall k] at hkeep
            cases hkeep
          · have hnone : kept.get? k = none := by
              rw [hiff k] at hkeep
              exact isNone_iff_eq_none.mp (isSome_eq_false_iff.mp hkeep)
            exact .inr (.inr ⟨p, cap, bounded, entries, kept, hcall, hsame, hevict, hnone,
              by rw [hheld k, hkeep, if_neg Bool.false_ne_true]⟩)

variable [DecidableEq κ] {w w' : World κ} {act : Act κ}

/-- The index and what the keys hold are changed by the steps of calls only. -/
theorem held_of_step (h : Step checksum w act w') (hact : ∀ n, act ≠ .step n) (k : Key) :
    w'.disk.held checksum k = w.disk.held checksum k := by
  cases h with
  | start p op attempts => rfl
  | step hrunning => exact absurd rfl (hact _)
  | finish => rfl
  | crash p => rfl

variable {batch : Batch}

variable {x : κ × Op}

namespace Inv

variable (h : Inv checksum w) (hstep : Step checksum w act w')
include h hstep

theorem held_step {k : Key} (hne : w'.disk.held checksum k ≠ w.disk.held checksum k) :
    ∃ m, act = .step m ∧
      (Replaces checksum m k w.disk w'.disk ∨ Drops checksum m k w.disk w'.disk) := by
  by_cases hact : ∃ m, act = .step m
  · obtain ⟨m, rfl⟩ := hact
    obtain ⟨-, -, -, -, hguar, -⟩ := h.call hstep
    exact ⟨m, rfl, hguar.held_step.resolve_left hne⟩
  · exact absurd (held_of_step hstep (fun n heq => hact ⟨n, heq⟩) k) hne

theorem calls_step (hcall : w.disk.calls n = some x) :
    w'.disk.calls n = some x := by
  cases act with
  | start p op attempts =>
    cases hstep
    exact Disk.start_calls h.fresh hcall
  | step m =>
    obtain ⟨-, -, -, -, -, -, -, hcalls, -⟩ := h.call hstep
    rw [hcalls, hcall]
  | finish m =>
    cases hstep
    exact hcall
  | crash p =>
    cases hstep
    exact hcall

/-- Whether a call has replaced the index is changed by its own steps only. -/
theorem saved_step {n : ℕ} (hact : act ≠ .step n) : w'.disk.saved n ↔ w.disk.saved n := by
  cases act with
  | start p op attempts =>
    cases hstep
    rfl
  | step m =>
    obtain ⟨-, -, -, -, hguar, -⟩ := h.call hstep
    have hne : n ≠ m := by
      rintro rfl
      exact hact rfl
    exact (hguar.rely hne).saved trivial
  | finish m =>
    cases hstep
    rfl
  | crash p =>
    cases hstep
    rfl

/-- A publish that has replaced the index has done so for good. -/
theorem saved_stays (hcall : w.disk.calls n = some (p, .publish batch)) (hsaved : w.disk.saved n)
    : w'.disk.saved n := by
  by_cases hact : act = .step n
  · subst hact
    obtain ⟨-, -, -, -, hguar, -⟩ := h.call hstep
    obtain hsame | hchange := hguar.change
    · exact hsame.saved.mpr hsaved
    · rw [hcall] at hchange
      exact hchange.2.1
  · exact (h.saved_step hstep hact).mpr hsaved

end Inv

/-! ### All steps -/

section Traces

variable {acts : List (Act κ)} {u : World κ}

section

variable (h : Inv checksum w) (htrace : Trace (Step checksum) w acts u)
include h htrace

theorem Inv.trace :
    Inv checksum u :=
  htrace.invariant h fun h hstep => h.step hstep

theorem Inv.calls_trace (hcall : w.disk.calls n = some x)
    : u.disk.calls n = some x :=
  (htrace.invariant (I := fun w => Inv checksum w ∧ w.disk.calls n = some x) ⟨h, hcall⟩
    fun h hstep => ⟨h.1.step hstep, h.1.calls_step hstep h.2⟩).2

theorem Inv.saved_trace (hcall : w.disk.calls n = some (p, .publish batch))
    (hsaved : w.disk.saved n)
    : u.disk.saved n :=
  (htrace.invariant (I := fun w => Inv checksum w ∧
      w.disk.calls n = some (p, .publish batch) ∧ w.disk.saved n) ⟨h, hcall, hsaved⟩
    fun h hstep => ⟨h.1.step hstep, h.1.calls_step hstep h.2.1,
      h.1.saved_stays hstep h.2.1 h.2.2⟩).2.2

/-- What a key holds is lost to a publish or a maintenance only. -/
theorem Inv.stays {bytes : Bytes} (hheld : w.disk.held checksum k = some bytes) :
    Stays checksum k bytes w acts u := by
  by_cases hu : u.disk.held checksum k = some bytes
  · exact .inl hu
  · obtain ⟨c, act, d, rest, htakes, hc, hd⟩ :=
      htrace.flip (P := fun w => w.disk.held checksum k ≠ some bytes) (fun hne => hne hheld) hu
    have hc' : c.disk.held checksum k = some bytes := not_not.mp hc
    obtain ⟨before, -, hbefore, hmid, -⟩ := id htakes
    obtain ⟨m, rfl, hlost⟩ := (h.trace hbefore).held_step hmid fun heq => hd (heq.trans hc')
    exact .inr ⟨c, m, d, rest, htakes, hc', hlost⟩

end

end Traces

section History

variable {root : Bool} {acts : List (Act κ)}

theorem inv_of_trace (htrace : Trace (Step checksum) (.init root) acts w) : Inv checksum w :=
  (Inv.init root).trace htrace

/-- A publish that has not replaced the index has left it as it was with every step. -/
theorem unsaved_unchanged (hcall : w.disk.calls n = some (p, .publish batch))
    (hsaved : ¬w.disk.saved n) {a b : World κ} {after : List (Act κ)}
    (htakes : Takes (Step checksum) (.init root) acts w a (.step n) b after) :
    b.disk.index checksum = a.disk.index checksum ∧
      ∀ k, b.disk.held checksum k = a.disk.held checksum k := by
  obtain ⟨before, -, hbefore, hmid, hafter⟩ := htakes
  have hinv : Inv checksum a := inv_of_trace hbefore
  obtain ⟨q, op, -, hcall', hguar, -⟩ := hinv.call hmid
  have hcallb := hinv.calls_step hmid hcall'
  have heq : some (q, op) = some (p, .publish batch) :=
    ((hinv.step hmid).calls_trace hafter hcallb).symm.trans hcall
  rw [heq] at hcall' hcallb
  obtain hsame | hchange := hguar.change
  · exact ⟨hsame.index, hsame.held⟩
  · rw [hcall'] at hchange
    exact absurd ((hinv.step hmid).saved_trace hafter hcallb hchange.2.1) hsaved

variable (htrace : Trace (Step checksum) (.init root) acts w)
include htrace

/-- A publish that has replaced the index has put its batch over it, once. -/
theorem durable_of_saved (hcall : w.disk.calls n = some (p, .publish batch))
    (hsaved : w.disk.saved n) : Durable checksum n batch (.init root) acts w := by
  obtain ⟨a, act, b, after, htakes, ha, hb⟩ :=
    htrace.flip (P := fun w => w.disk.saved n) (fun hinit => hinit) hsaved
  obtain ⟨before, -, hbefore, hmid, hafter⟩ := id htakes
  have hinv : Inv checksum a := inv_of_trace hbefore
  obtain rfl : act = .step n := by
    by_contra hact
    exact ha ((hinv.saved_step hmid hact).mp hb)
  have hcall' : a.disk.calls n = some (p, .publish batch) := by
    obtain ⟨q, op, -, hcall', -⟩ := hinv.call hmid
    rw [hcall', ← hcall]
    exact ((hinv.step hmid).calls_trace hafter (hinv.calls_step hmid hcall')).symm
  obtain ⟨-, -, -, -, hguar, -⟩ := hinv.call hmid
  obtain hsame | hchange := hguar.change
  · exact absurd (hsame.saved.mp hb) ha
  · rw [hcall'] at hchange
    obtain ⟨-, -, hheld⟩ := hchange
    refine ⟨a, b, after, htakes, hheld, fun k bytes hlast => ?_⟩
    apply (hinv.step hmid).stays hafter
    rw [hheld k, hlast, some_or]

end History

end Runs

/-! ### A run that can be computed -/

section Play

/-- Opening a file that is there. -/
def Disk.openAs (n : ℕ) (s : Disk κ) (name : Name) : Option (Except Error Handle × Disk κ) :=
  (s.dir name).map fun i => (.ok (s.handle n i), s.opened)

/-- Making a file that is not there. -/
def Disk.createAs (n : ℕ) (s : Disk κ) (name : Name) : Option (Except Error Handle × Disk κ) :=
  if s.root = true ∧ s.dir name = none then some (.ok (s.handle n s.files), s.create name)
  else none

variable {s s' : Disk κ} {name : Name} {r : Except Error Handle}

theorem Disk.opens_of_openAs (h : s.openAs n name = some (r, s')) : Opens n s name r s' := by
  obtain ⟨i, hdir, heq⟩ := map_eq_some_iff.mp h
  cases heq
  exact ⟨i, hdir, rfl, rfl⟩

theorem Disk.creates_of_createAs (h : s.createAs n name = some (r, s'))
    : Creates n s name r s' := by
  obtain ⟨⟨hroot, hdir⟩, heq⟩ := ite_none_right_eq_some.mp h
  cases heq
  exact ⟨hroot, hdir, rfl, rfl⟩

variable [DecidableEq κ]

/-- What a command gives when nothing is in its way, at one o'clock. -/
def Cmd.play (n : ℕ) (p : κ) : (c : Cmd) → Disk κ → Option (Reply c × Disk κ)
  | .unique, s =>
    if s.handles < 2 ^ 128 ∧ s.issued s.handles = none then
      some (s.handles, { s with issued := Function.update s.issued s.handles (some n) })
    else none
  | .now, s => some (3600, s)
  | .isRealDir, s => some (s.root, s)
  | .createDirAll, s => some (.ok (), { s with root := true })
  | .tryExists name, s => some (.ok (s.dir name).isSome, s)
  | .stat name, s =>
    match s.dir name with
    | some i => some (.ok (s.data i).length, s)
    | none => some (.error .notFound, s)
  | .openOrCreate name, s => (s.openAs n name).or (s.createAs n name)
  | .createNew name, s => s.createAs n name
  | .openFile name, s => s.openAs n name
  | .len h, s => some (.ok (s.data h.file).length, s)
  | .readUpTo h offset limit, s => some (.ok (((s.data h.file).drop offset).take limit), s)
  | .readExact h offset count, s =>
    if offset + count ≤ (s.data h.file).length then
      some (.ok (((s.data h.file).drop offset).take count), s)
    else none
  | .write h bytes, s => some (.ok (), s.append h.file bytes)
  | .lock h, s => if s.locks h.file = none then some (.ok (), s.take h) else none
  | .unlock h, s => some (.ok (), s.release h)
  | .close h, s => some ((), s.release h)
  | .rename old new, s => (s.dir old).map fun i => (.ok (), s.rename n old new i)
  | .lockState, s =>
    if s.guard p = none then
      some (s.snapshot p, { s with guard := Function.update s.guard p (some n) })
    else none
  | .unlockState st, s =>
    some ((), { s with
      snapshot := Function.update s.snapshot p st
      guard := Function.update s.guard p none })
  | _, _ => none

/-- The same for an action, whose call's process is known. -/
def World.playAct (checksum : Bytes → Hash128) (w : World κ) : Act κ → Option (World κ)
  | .start p op attempts => some
    { w with
      disk := w.disk.start w.next p op
      running := Function.update w.running w.next (some (program checksum attempts op))
      next := w.next + 1 }
  | .step n =>
    match w.running n, w.disk.calls n with
    | some (.call c rest), some (p, _) =>
      (c.play n p w.disk).map fun (r, disk) =>
        { w with disk := disk, running := Function.update w.running n (some (rest r)) }
    | _, _ => none
  | .finish n =>
    match w.running n with
    | some (.done out) => some
      { w with running := Function.update w.running n none, log := w.log ++ [(n, out)] }
    | _ => none
  | .crash p => some
    { w with
      disk := w.disk.crash p
      running := fun n => if w.disk.isOf p n then none else w.running n }

def World.play (checksum : Bytes → Hash128) (w : World κ) : List (Act κ) → Option (World κ)
  | [] => some w
  | act :: acts => (w.playAct checksum act).bind fun w => w.play checksum acts

theorem Cmd.effect_of_play {c : Cmd} {r : Reply c} (h : c.play n p s = some (r, s'))
    : effect n p c s r s' := by
  cases c with
  | unique =>
    obtain ⟨⟨hlt, hfree⟩, heq⟩ := ite_none_right_eq_some.mp h
    cases heq
    exact ⟨hlt, hfree, rfl⟩
  | now =>
    cases h
    exact ⟨by decide, rfl⟩
  | isRealDir =>
    cases h
    exact ⟨rfl, rfl⟩
  | createDirAll =>
    cases h
    exact .inl ⟨rfl, rfl⟩
  | tryExists name =>
    cases h
    exact .inl ⟨rfl, rfl⟩
  | stat name =>
    unfold Cmd.play at h
    dsimp only at h
    split at h
    · next i hdir =>
      cases h
      exact .inl ⟨i, hdir, rfl, rfl⟩
    · next hdir =>
      cases h
      exact .inr (.inl ⟨hdir, rfl, rfl⟩)
  | openOrCreate name =>
    obtain hopen | ⟨-, hcreate⟩ := or_eq_some_iff.mp h
    · exact .inl (Disk.opens_of_openAs hopen)
    · exact .inr (.inl (Disk.creates_of_createAs hcreate))
  | createNew name => exact .inl (Disk.creates_of_createAs h)
  | openFile name => exact .inl (Disk.opens_of_openAs h)
  | len file =>
    cases h
    exact .inl ⟨rfl, rfl⟩
  | readUpTo file offset limit =>
    cases h
    exact .inl ⟨rfl, rfl⟩
  | readExact file offset count =>
    obtain ⟨hrange, heq⟩ := ite_none_right_eq_some.mp h
    cases heq
    exact .inl ⟨hrange, rfl, rfl⟩
  | write file bytes =>
    cases h
    exact .inl ⟨rfl, rfl⟩
  | lock file =>
    obtain ⟨hfree, heq⟩ := ite_none_right_eq_some.mp h
    cases heq
    exact .inl ⟨hfree, rfl, rfl⟩
  | unlock file =>
    cases h
    exact .inl ⟨rfl, rfl⟩
  | close file =>
    cases h
    rfl
  | rename old new =>
    obtain ⟨i, hdir, heq⟩ := map_eq_some_iff.mp h
    cases heq
    exact .inl ⟨i, hdir, rfl, rfl⟩
  | lockState =>
    obtain ⟨hfree, heq⟩ := ite_none_right_eq_some.mp h
    cases heq
    exact ⟨hfree, rfl, rfl⟩
  | unlockState st =>
    cases h
    rfl
  | expired => cases h
  | tryLock file => cases h
  | remove name => cases h
  | readDir => cases h
  | closeDir => cases h
  | stall => cases h

variable {checksum : Bytes → Hash128} {w w' : World κ}

theorem World.step_of_playAct {act : Act κ} (h : w.playAct checksum act = some w')
    : Step checksum w act w' := by
  cases act with
  | start p op attempts =>
    cases h
    exact .start w p op attempts
  | step n =>
    unfold World.playAct at h
    dsimp only at h
    split at h
    · next c rest p op hrunning hcall =>
      obtain ⟨⟨r, disk⟩, hplay, rfl⟩ := map_eq_some_iff.mp h
      exact .step hrunning hcall (Cmd.effect_of_play hplay)
    · cases h
  | finish n =>
    unfold World.playAct at h
    dsimp only at h
    split at h
    · next out hrunning =>
      cases h
      exact .finish hrunning
    · cases h
  | crash p =>
    cases h
    exact .crash _ p

theorem World.trace_of_play {acts : List (Act κ)} (h : w.play checksum acts = some w')
    : Trace (Step checksum) w acts w' := by
  induction acts generalizing w with
  | nil =>
    cases h
    exact .nil _
  | cons act acts ih =>
    obtain ⟨t, hact, hrest⟩ := bind_eq_some_iff.mp h
    exact .cons (World.step_of_playAct hact) (ih hrest)

end Play

end HdLang.Cache
