import HdLang.Cache.Maintenance
import HdLang.Lib.Transition

/-!
# The store among processes

Any number of processes, each with any number of calls of `publish`, `get`, `touch` and `maintain`,
on one directory. The running calls take their steps one at a time in any order. A process may die
between any two steps: its calls are gone, its locks are free and its snapshot is lost, and what it
has left in the directory stays. `Inv` holds in every state that is reached.
-/

namespace HdLang.Cache

open Rules Io Transition Function Option Rules.Always Rules.Safe Disk

variable {κ : Type}

/-! ### The system -/

structure World (κ : Type) where
  disk : Disk κ
  /-- What is left to do of each running call. -/
  running : ℕ → Option (Prog Outcome)
  /-- The number of the next call. -/
  next : ℕ
  /-- The calls that have ended, and how. -/
  log : List (ℕ × Outcome)

inductive Act (κ : Type)
  /-- A process starts a call; the loop of `lease` may go on so often. -/
  | start (p : κ) (op : Op) (attempts : ℕ)
  | step (n : ℕ)
  | finish (n : ℕ)
  | crash (p : κ)

namespace Disk

variable (s : Disk κ)

/-- Call `n` of process `p` has started. -/
def start (n : ℕ) (p : κ) (op : Op) : Disk κ :=
  { s with calls := Function.update s.calls n (some (p, op)) }

variable [DecidableEq κ]

/-- The call is one of the process. -/
def isOf (p : κ) (n : ℕ) : Bool := (s.calls n).any fun call => call.1 = p

/-- Process `p` has died. -/
def crash (p : κ) : Disk κ :=
  { s with
    locks := fun i => (s.locks i).filter fun h => !s.isOf p h.owner
    snapshot := Function.update s.snapshot p none
    guard := Function.update s.guard p none }

/-- An empty directory, or none. -/
def fresh (root : Bool) : Disk κ where
  root := root
  dir _ := none
  data _ := []
  files := 0
  locks _ := none
  handles := 0
  missed _ := ∅
  snapshot _ := none
  guard _ := none
  issued _ := none
  made _ := none
  sealed _ := False
  packed _ := none
  calls _ := none
  saved _ := False

end Disk

section System

variable [DecidableEq κ] (checksum : Bytes → Hash128)

inductive Step : World κ → Act κ → World κ → Prop
  | start (w : World κ) (p : κ) (op : Op) (attempts : ℕ) :
    Step w (.start p op attempts)
      { w with
        disk := w.disk.start w.next p op
        running := Function.update w.running w.next (some (program checksum attempts op))
        next := w.next + 1 }
  | step {w : World κ} {n : ℕ} {c : Cmd} {rest : Reply c → Prog Outcome} {p : κ} {op : Op}
    {r : Reply c} {disk : Disk κ} (hrunning : w.running n = some (.call c rest))
    (hcall : w.disk.calls n = some (p, op)) (heffect : effect n p c w.disk r disk) :
    Step w (.step n)
      { w with disk := disk, running := Function.update w.running n (some (rest r)) }
  | finish {w : World κ} {n : ℕ} {out : Outcome} (hrunning : w.running n = some (.done out)) :
    Step w (.finish n)
      { w with running := Function.update w.running n none, log := w.log ++ [(n, out)] }
  | crash (w : World κ) (p : κ) :
    Step w (.crash p)
      { w with
        disk := w.disk.crash p
        running := fun n => if w.disk.isOf p n then none else w.running n }

end System

/-- Nothing is there yet, and nothing runs. -/
def World.init (root : Bool) : World κ := ⟨.fresh root, fun _ => none, 0, []⟩

/-! ### A call's outcome -/

/-- What is known of a call that has ended. -/
def Ends (n : ℕ) (op : Op) (out : Outcome) (s : Disk κ) : Prop :=
  match op, out with
  | .publish batch, .published r => PublishEnds n batch r s
  | .get kind hash, .got bytes => ∀ b, bytes = some b → s.Published (key kind.asU16 hash) b
  | .touch .., .touched => True
  | .maintain .., .maintained _ => True
  | _, _ => False

theorem Ends.keeps {n : ℕ} {op : Op} {out : Outcome} {s s' : Disk κ} (h : Ends n op out s)
    (hsaved : s'.saved n ↔ s.saved n)
    (hcalls : ∀ {m x}, s.calls m = some x → s'.calls m = some x) : Ends n op out s' := by
  cases op with
  | publish batch =>
    cases out with
    | published r =>
      cases r with
      | ok _ => exact fun hne => hsaved.mpr (h hne)
      | error e => exact fun hs => h (hsaved.mp hs)
    | got bytes => exact h.elim
    | touched => exact h.elim
    | maintained r => exact h.elim
  | get kind hash =>
    cases out with
    | got bytes =>
      intro b hb
      obtain ⟨m, p, batch, kind, hash, hcall, hmem, hk⟩ := h b hb
      exact ⟨m, p, batch, kind, hash, hcalls hcall, hmem, hk⟩
    | published r => exact h.elim
    | touched => exact h.elim
    | maintained r => exact h.elim
  | touch kind hash => cases out <;> exact h
  | maintain cap bounded => cases out <;> exact h

section Invariant

variable [DecidableEq κ] {checksum : Bytes → Hash128}

/-- **A call keeps its side**, and ends as it should. -/
theorem program_safe {n : ℕ} {p : κ} {op : Op} {s : Disk κ} (attempts : ℕ) (hs : Valid checksum s)
    (hcall : s.calls n = some (p, op)) (hunsaved : ¬s.saved n) :
    (rules checksum n p).Safe (Ends n op) (program checksum attempts op) s := by
  have hframe : Frame checksum n p .nothing fun s : Disk κ => s.calls n = some (p, op) :=
    { calls := fun hPs => ⟨_, hPs⟩
      mine := nofun
      kept := Kept.calls }
  cases op with
  | publish batch =>
    exact bind hs (publish_safe hs ⟨hcall, hunsaved⟩) fun r t _ hR =>
      mono hR fun _ _ h => h
  | get kind hash =>
    refine bind hs (get_safe hframe (fun h => h) hs hcall) fun r t _ hR => ?_
    cases r with
    | ok bytes => exact hR.mono fun t _ hRt b hb => hRt.2 b (by rw [hb])
    | error e => exact hR.mono fun t _ hRt b hb => by cases hb
  | touch kind hash =>
    exact bind hs (touch_safe hframe (fun h => h) hs hcall) fun r t _ hR =>
      mono hR fun _ _ _ => trivial
  | maintain cap bounded =>
    exact bind hs (maintain_safe hs hcall) fun r t _ hR =>
      mono hR fun _ _ _ => trivial

/-- What holds of every state that is reached. -/
structure Inv (checksum : Bytes → Hash128) (w : World κ) : Prop where
  valid : Valid checksum w.disk
  next : ∀ {n : ℕ}, w.disk.calls n ≠ none → n < w.next
  running : ∀ {n : ℕ} {prog : Prog Outcome}, w.running n = some prog →
    ∃ p op, w.disk.calls n = some (p, op) ∧ (rules checksum n p).Safe (Ends n op) prog w.disk
  log : ∀ {n : ℕ} {out : Outcome}, (n, out) ∈ w.log → w.running n = none ∧
    ∃ p op, w.disk.calls n = some (p, op) ∧ Ends n op out w.disk

omit [DecidableEq κ] in
theorem Valid.fresh_disk (root : Bool) : Valid checksum (Disk.fresh (κ := κ) root) where
  made_lt := nofun
  made_name := nofun
  dir_made := nofun
  dir_once := nofun
  made_once _ := nofun
  made_issued := nofun
  lock_stays := nofun
  packed_made := nofun
  packed_sealed := nofun
  dir_packed := nofun
  index_sealed := nofun
  unsealed := nofun
  sealed_made := nofun
  sealed_index := nofun
  indexed := by
    rintro id ⟨k, loc, hget, -⟩
    rw [index_of_none rfl] at hget
    cases hget
  snapshot := nofun
  saved_calls := nofun

theorem Inv.init (root : Bool) : Inv checksum (World.init (κ := κ) root) where
  valid := Valid.fresh_disk root
  next h := absurd rfl h
  running := nofun
  log := nofun

/-! ### Starts and crashes -/

section Start

variable {s : Disk κ} {n : ℕ} {p : κ} {op : Op} (hs : Valid checksum s) (hfree : s.calls n = none)

omit [DecidableEq κ] in
include hfree in
theorem Disk.start_calls {m : ℕ} {x : κ × Op} (h : s.calls m = some x) :
    (s.start n p op).calls m = some x := by
  have hne : m ≠ n := by
    rintro rfl
    rw [hfree] at h
    cases h
  exact (update_of_ne hne _ _).trans h

omit [DecidableEq κ] in
include hfree in
theorem Keeps.start {u : ℕ} {W : Watch} :
    Keeps checksum u W s (s.start n p op) where
  issued := id
  calls := start_calls hfree
  made := id
  sealed := id
  packed := id
  data_sealed _ := rfl
  root := id
  lock := id
  locks _ _ h := h
  made_mine _ _ h := h
  sealed_mine _ _ _ h := h
  data_mine _ _ _ := rfl
  packed_mine _ h := h
  pending _ _ h := h
  tmp _ _ h := h
  pack _ _ h := h
  index _ _ := rfl
  indexed_pack _ _ _ h := h
  unindexed _ _ h := h
  saved _ := Iff.rfl
  missed _ _ _ h := h
  guard _ _ h := ⟨h, rfl⟩
  memory _ _ _ h := ⟨_, h, rfl⟩

omit [DecidableEq κ] in
include hs hfree in
theorem Valid.start : Valid checksum (s.start n p op) := by
  have hgood : ∀ {k loc}, s.Good k loc → (s.start n p op).Good k loc := by
    rintro k loc ⟨j, hpacked, hrange, m, q, batch, kind, hash, hcall, hmem, hk⟩
    exact ⟨j, hpacked, hrange, m, q, batch, kind, hash, start_calls hfree hcall, hmem, hk⟩
  exact
  { hs with
    sealed_index := fun hmade hsealed => by
      obtain ⟨entries, hdecode, hsound⟩ := hs.sealed_index hmade hsealed
      exact ⟨entries, hdecode, fun k loc hget => hgood (hsound k loc hget)⟩
    indexed := fun h => hs.indexed h
    snapshot := fun hst => by
      have hok := hs.snapshot hst
      exact ⟨fun k loc hget => hgood (hok.entries k loc hget), hok.files, hok.touched⟩
    saved_calls := fun {m} hsaved => by
      obtain ⟨x, hx⟩ := ne_none_iff_exists'.mp (hs.saved_calls hsaved)
      rw [start_calls hfree hx]
      exact some_ne_none x }

end Start

section Crash

variable {s : Disk κ} {p : κ}

theorem Keeps.crash {u : ℕ} {W : Watch} (hu : s.isOf p u = false) :
    Keeps checksum u W s (s.crash p) := by
  have hother : ∀ {q op}, s.calls u = some (q, op) → q ≠ p := by
    rintro q op hcall rfl
    rw [isOf, hcall] at hu
    simp at hu
  refine Keeps.calm id (fun {i h} _ howner hlock => ?_) id (fun _ _ hname => hname)
    (fun _ hcall hguard => ?_) fun _ hcall _ hst => ?_
  · rw [hlock]
    exact filter_some_pos (by rw [howner, hu]; rfl)
  · rw [update_of_ne (hother hcall), update_of_ne (hother hcall)]
    exact ⟨hguard, rfl⟩
  · rw [update_of_ne (hother hcall)]
    exact ⟨_, hst, rfl⟩

theorem Valid.crash (hs : Valid checksum s) : Valid checksum (s.crash p) := by
  refine hs.calm id fun {q st} hst => ?_
  by_cases hq : q = p
  · rw [hq, update_self] at hst
    cases hst
  · rw [update_of_ne hq] at hst
    exact hs.snapshot hst

end Crash

/-! ### Steps -/

/-- The action is not one of the call's, and its process lives on. -/
def Apart (w : World κ) (u : ℕ) : Act κ → Prop
  | .step n => u ≠ n
  | .crash p => w.disk.isOf p u = false
  | _ => True

section Steps

variable {w w' : World κ} {act : Act κ}

theorem effect_calls {n : ℕ} {p : κ} {c : Cmd} {s s' : Disk κ} {r : Reply c}
    (h : effect n p c s r s') : s'.calls = s.calls := by
  have hfails : ∀ {α : Type} {r : Except Error α}, Fails s r s' → s'.calls = s.calls := by
    rintro α r ⟨-, rfl⟩
    rfl
  have hmissing : ∀ {α : Type} {name : Name} {r : Except Error α}, Missing s name r s' →
      s'.calls = s.calls := by
    rintro α name r ⟨-, -, rfl⟩
    rfl
  have hopens : ∀ {name : Name} {r : Except Error Handle}, Opens n s name r s' →
      s'.calls = s.calls := by
    rintro name r ⟨i, -, -, rfl⟩
    rfl
  have hcreates : ∀ {name : Name} {r : Except Error Handle}, Creates n s name r s' →
      s'.calls = s.calls := by
    rintro name r ⟨-, -, -, rfl⟩
    rfl
  cases c with
  | unique =>
    obtain ⟨-, -, rfl⟩ := h
    rfl
  | now =>
    obtain ⟨-, rfl⟩ := h
    rfl
  | expired =>
    cases h
    rfl
  | isRealDir =>
    obtain ⟨-, rfl⟩ := h
    rfl
  | createDirAll =>
    obtain ⟨-, rfl⟩ | h := h
    · rfl
    · exact hfails h
  | tryExists name =>
    obtain ⟨-, rfl⟩ | h := h
    · rfl
    · exact hfails h
  | stat name =>
    obtain ⟨i, -, -, rfl⟩ | h | h := h
    · rfl
    · exact hmissing h
    · exact hfails h
  | openOrCreate name => exact h.elim hopens fun h => h.elim hcreates hfails
  | createNew name =>
    obtain h | ⟨-, -, rfl⟩ | h := h
    · exact hcreates h
    · rfl
    · exact hfails h
  | openFile name => exact h.elim hopens fun h => h.elim hmissing hfails
  | len file =>
    obtain ⟨-, rfl⟩ | h := h
    · rfl
    · exact hfails h
  | readUpTo file offset limit =>
    obtain ⟨-, rfl⟩ | h := h
    · rfl
    · exact hfails h
  | readExact file offset len =>
    obtain ⟨-, -, rfl⟩ | h := h
    · rfl
    · exact hfails h
  | write file bytes =>
    obtain ⟨-, rfl⟩ | ⟨part, -, -, rfl⟩ := h
    · rfl
    · rfl
  | lock file =>
    obtain ⟨-, -, rfl⟩ | h := h
    · rfl
    · exact hfails h
  | tryLock file =>
    obtain ⟨-, -, rfl⟩ | ⟨-, -, rfl⟩ | h := h
    · rfl
    · rfl
    · exact hfails h
  | unlock file =>
    obtain ⟨-, rfl⟩ | h := h
    · rfl
    · exact hfails h
  | close file =>
    cases h
    rfl
  | rename old new =>
    obtain ⟨i, -, -, rfl⟩ | h | h := h
    · rfl
    · exact hmissing h
    · exact hfails h
  | remove name =>
    obtain ⟨-, -, rfl⟩ | h | h := h
    · rfl
    · exact hmissing h
    · exact hfails h
  | readDir =>
    obtain ⟨names, -, rfl⟩ | h := h
    · rfl
    · exact hfails h
  | closeDir =>
    obtain ⟨-, rfl⟩ := h
    rfl
  | lockState =>
    obtain ⟨-, -, rfl⟩ := h
    rfl
  | unlockState st =>
    cases h
    rfl
  | stall => exact h.elim

section

variable (h : Inv checksum w)
include h

theorem Inv.call {n : ℕ} (hstep : Step checksum w (.step n) w') :
    ∃ p op prog, w.disk.calls n = some (p, op) ∧ Guar checksum n w.disk w'.disk ∧
      Valid checksum w'.disk ∧ (rules checksum n p).Safe (Ends n op) prog w'.disk ∧
        w'.disk.calls = w.disk.calls ∧
          w' = { w with disk := w'.disk, running := Function.update w.running n (some prog) } := by
  cases hstep with
  | @step _ c rest p op r disk hrunning hcall heffect =>
    obtain ⟨q, op', hcall', hsafe⟩ := h.running hrunning
    rw [hcall] at hcall'
    cases hcall'
    obtain ⟨hvalid, hguar, hrest⟩ := hsafe w.disk h.valid (Rely.refl n w.disk) r disk heffect
    exact ⟨p, op, rest r, hcall, hguar, hvalid, hrest, effect_calls heffect, rfl⟩

theorem Inv.fresh : w.disk.calls w.next = none := by
  by_contra hcall
  exact absurd (h.next hcall) (Nat.lt_irrefl _)

section

variable (hstep : Step checksum w act w')
include hstep

theorem Inv.rely {u : ℕ}
    (hu : Apart w u act) : Rely checksum u w.disk w'.disk := by
  cases act with
  | start p op attempts =>
    cases hstep
    exact Keeps.start h.fresh
  | step n =>
    obtain ⟨-, -, -, -, hguar, -⟩ := h.call hstep
    exact hguar.rely hu
  | finish n =>
    cases hstep
    exact Rely.refl u w.disk
  | crash p =>
    cases hstep
    exact Keeps.crash hu

/-- A call that is apart is as safe after the step. -/
theorem Inv.later
    (hvalid : Valid checksum w'.disk) {u : ℕ} {prog : Prog Outcome} (hu : Apart w u act)
    (hrunning : w.running u = some prog) :
    ∃ p op, w'.disk.calls u = some (p, op) ∧
      (rules checksum u p).Safe (Ends u op) prog w'.disk := by
  obtain ⟨p, op, hcall, hsafe⟩ := h.running hrunning
  have hrely := h.rely hstep hu
  exact ⟨p, op, hrely.calls hcall, hsafe.later h.valid hvalid hrely⟩

/-- **The invariant is kept** by every step. -/
theorem Inv.step : Inv checksum w' := by
  cases act with
  | start p op attempts =>
    have hlater := h.later hstep
    cases hstep
    have hvalid : Valid checksum (w.disk.start w.next p op) := h.valid.start h.fresh
    have hne : ∀ {m : ℕ}, w.disk.calls m ≠ none → m ≠ w.next := fun hm => (h.next hm).ne
    exact
    { valid := hvalid
      next := fun {m} hm => by
        by_cases heq : m = w.next
        · exact heq ▸ Nat.lt_succ_self _
        · have hm' : (w.disk.start w.next p op).calls m = w.disk.calls m := update_of_ne heq _ _
          exact Nat.lt_succ_of_lt (h.next (hm' ▸ hm))
      running := fun {m prog} hm => by
        by_cases heq : m = w.next
        · subst heq
          have hprog : some (program checksum attempts op) = some prog :=
            (update_self w.next _ w.running).symm.trans hm
          cases hprog
          have hcall : (w.disk.start w.next p op).calls w.next = some (p, op) := update_self _ _ _
          exact ⟨p, op, hcall, program_safe attempts hvalid hcall
            fun hsaved => h.valid.saved_calls hsaved h.fresh⟩
        · exact hlater hvalid trivial ((update_of_ne heq _ _).symm.trans hm)
      log := fun {m out} hm => by
        obtain ⟨hrunning, q, op', hcall, hends⟩ := h.log hm
        have heq := hne (by rw [hcall]; exact some_ne_none _)
        exact ⟨(update_of_ne heq _ _).trans hrunning, q, op', start_calls h.fresh hcall,
          hends.keeps Iff.rfl (start_calls h.fresh)⟩ }
  | step n =>
    have hlater := h.later hstep
    obtain ⟨p, op, prog, hcall, hguar, hvalid, hsafe, hcalls, hw⟩ := h.call hstep
    have hrunning' : w'.running = Function.update w.running n (some prog) := by rw [hw]
    have hlog' : w'.log = w.log := by rw [hw]
    have hnext' : w'.next = w.next := by rw [hw]
    exact
    { valid := hvalid
      next := fun {m} hm => by
        rw [hnext']
        exact h.next (hcalls ▸ hm)
      running := fun {m prog'} hm => by
        rw [hrunning'] at hm
        by_cases heq : m = n
        · subst heq
          rw [update_self] at hm
          cases hm
          exact ⟨p, op, hcalls ▸ hcall, hsafe⟩
        · rw [update_of_ne heq] at hm
          exact hlater hvalid heq hm
      log := fun {m out} hm => by
        rw [hlog'] at hm
        obtain ⟨hrunning, q, op', hcall', hends⟩ := h.log hm
        have heq : m ≠ n := by
          rintro rfl
          cases hstep with
          | step hrun =>
            rw [hrunning] at hrun
            cases hrun
        have hrely := hguar.rely heq
        rw [hrunning', update_of_ne heq]
        exact ⟨hrunning, q, op', hrely.calls hcall', hends.keeps (hrely.saved trivial) hrely.calls⟩ }
  | finish n =>
    cases hstep with
    | @finish _ out hrunning =>
      exact
      { h with
        running := fun {m prog} hm => by
          by_cases heq : m = n
          · subst heq
            have hnone : none = some prog := (update_self m none w.running).symm.trans hm
            cases hnone
          · exact h.running ((update_of_ne heq _ _).symm.trans hm)
        log := fun {m out'} hm => by
          obtain hm | hm := List.mem_append.mp hm
          · obtain ⟨hnone, hrest⟩ := h.log hm
            refine ⟨?_, hrest⟩
            show Function.update w.running n none m = none
            by_cases heq : m = n
            · rw [heq, update_self]
            · rw [update_of_ne heq, hnone]
          · cases List.mem_singleton.mp hm
            obtain ⟨p, op, hcall, hsafe⟩ := h.running hrunning
            exact ⟨update_self _ _ _, p, op, hcall, now hsafe h.valid⟩ }
  | crash p =>
    have hlater := h.later hstep
    cases hstep
    exact
    { valid := h.valid.crash
      next := h.next
      running := fun {m prog} hm => by
        have hm' : (if w.disk.isOf p m then none else w.running m) = some prog := hm
        split at hm'
        · cases hm'
        · next hof => exact hlater h.valid.crash (Bool.eq_false_iff.mpr hof) hm'
      log := fun {m out} hm => by
        obtain ⟨hrunning, q, op, hcall, hends⟩ := h.log hm
        refine ⟨?_, q, op, hcall, hends.keeps Iff.rfl fun hx => hx⟩
        show (if w.disk.isOf p m then none else w.running m) = none
        rw [hrunning, ite_self] }

end

end

end Steps

end Invariant

end HdLang.Cache
