import HdLang.Lib.Transition
import Mathlib.Algebra.GroupWithZero.Nat
import Mathlib.Data.List.Nodup
import Mathlib.Data.List.Range

/-!
# Joined calls over a list

`map_join!` starts workers that share a cursor and a list of slots. A worker takes the index at the
cursor, calls the function on the item there and waits for the call; the value goes into the slot of
the index. The frame polls the workers until all are done, in any order, and the calls take any
number of polls.

Workers interleave only where a call is pending, so a poll of one is a sequence of turns of its loop
(`turn`). The indices below the cursor are, each once, those that a worker waits for and those whose
value has come (`Inv.taken`): so no more calls are in flight than there are workers, and when every
worker is done every slot holds the value of its index.
-/

namespace HdLang.MapJoin

open Transition List Option

/-! ### The workers -/

/-- What a poll of a suspension gives. -/
inductive Poll (S U : Type)
  | pending (rest : S)
  | ready (value : U)

/-- The function that is run on the items: the suspension that a call makes, and what a poll of it
gives. Both may read and change the world around them. -/
structure Work (T U S W : Type) where
  call : T → W → S × W
  poll : S → W → Poll S U × W

/-- A worker: at the head of its loop, at the call of an index, or done. -/
inductive Worker (S : Type)
  | loop
  | waiting (index : ℕ) (pending : S)
  | done

def Worker.running {S : Type} : Worker S → Bool
  | .done => false
  | _ => true

/-- What happens in a run: a call on an item, a poll that found the call pending, or its value. -/
inductive Event (T U : Type)
  | called (worker index : ℕ) (item : T)
  | yielded (worker index : ℕ)
  | gave (worker index : ℕ) (value : U)

variable {T U S W : Type}

/-- A `map_join!` at its `all_list!`. The log, which no worker reads, says what has happened. -/
structure State (T U S W : Type) where
  items : List T
  slots : List (Option U)
  /-- The cursor. -/
  next : ℕ
  workers : List (Worker S)
  /-- The worker that the frame is polling. -/
  polled : Option ℕ
  world : W
  log : List (Event T U)

/-- The loop that pushes the workers. -/
def spawn (width len count : ℕ) (workers : List (Worker S)) : List (Worker S) :=
  if count < width ∧ count < len then spawn width len (count + 1) (workers ++ [.loop]) else workers
termination_by len - count

/-- `map_join!` up to its `all_list!`. -/
def State.start (items : List T) (limit : ℕ) (world : W) : State T U S W where
  items := items
  slots := items.map fun _ => none
  next := 0
  workers := spawn (if limit < 1 then 1 else limit) items.length 0 []
  polled := none
  world := world
  log := []

/-- A turn of a worker's loop up to its call, from its call to its value, or to where the poll of
the worker ends; `none` is a panic. -/
def turn (work : Work T U S W) (w : ℕ) (s : State T U S W) : Option (State T U S W) :=
  match s.workers[w]? with
  | some .loop =>
    match s.items[s.next]? with
    | some item =>
      let (pending, world) := work.call item s.world
      some { s with
        next := s.next + 1
        workers := s.workers.set w (.waiting s.next pending)
        world := world
        log := s.log ++ [.called w s.next item] }
    | none => some { s with workers := s.workers.set w .done, polled := none }
  | some (.waiting index pending) =>
    match work.poll pending s.world with
    | (.pending rest, world) =>
      some { s with
        workers := s.workers.set w (.waiting index rest)
        polled := none
        world := world
        log := s.log ++ [.yielded w index] }
    | (.ready value, world) =>
      if index < s.slots.length then
        some { s with
          slots := s.slots.set index (some value)
          workers := s.workers.set w .loop
          world := world
          log := s.log ++ [.gave w index value] }
      else none
  | _ => none

/-- A step: between polls the world changes and the frame polls a worker that is not done, and a
worker that is polled takes a turn. -/
inductive Step (work : Work T U S W) : State T U S W → ℕ → State T U S W → Prop
  | poll {s : State T U S W} {w : ℕ} {worker : Worker S} (hidle : s.polled = none)
    (hworker : s.workers[w]? = some worker) (hrunning : worker.running = true) (world : W) :
    Step work s w { s with polled := some w, world := world }
  | turn {s t : State T U S W} {w : ℕ} (hpolled : s.polled = some w)
    (hturn : turn work w s = some t) :
    Step work s w t

/-- The values in the slots; `none` is the panic for a missing one. -/
def collect : List (Option U) → Option (List U)
  | [] => some []
  | slot :: slots => do
    let value ← slot
    let values ← collect slots
    some (value :: values)

/-! ### The log -/

/-- The calls, as items and their indices. -/
def calls (log : List (Event T U)) : List (T × ℕ) :=
  log.filterMap fun
    | .called _ index item => some (item, index)
    | _ => none

/-- The values that have come, with their indices. -/
def gaves (log : List (Event T U)) : List (ℕ × U) :=
  log.filterMap fun
    | .gave _ index value => some (index, value)
    | _ => none

/-- The indices that workers wait for. -/
def waits (workers : List (Worker S)) : List ℕ :=
  workers.filterMap fun
    | .waiting index _ => some index
    | _ => none

/-- A suspension that a call on `item` made and that is still pending. -/
inductive Started (work : Work T U S W) (item : T) : S → Prop
  | call (world : W) : Started work item (work.call item world).1
  | poll {pending rest : S} {world world' : W} (h : Started work item pending)
    (hpoll : work.poll pending world = (.pending rest, world')) : Started work item rest

/-- A value of a call on `item`. -/
def Gives (work : Work T U S W) (item : T) (value : U) : Prop :=
  ∃ pending world world', Started work item pending ∧
    work.poll pending world = (.ready value, world')

/-- Behind a value comes the call on the next item, if there is one, by the same poll. -/
def Prompt (s : State T U S W) : Prop :=
  ∀ before after w i value, s.log = before ++ .gave w i value :: after →
    (calls before).length < s.items.length →
    match after with
    | [] => s.polled = some w ∧ s.workers[w]? = some .loop
    | e :: _ => ∃ item, s.items[(calls before).length]? = some item ∧
        e = .called w (calls before).length item

/-- How many turns a worker has left without a further item. -/
def Worker.weight : Worker S → ℕ
  | .loop => 1
  | .waiting _ _ => 2
  | .done => 0

/-- How far a run is from its end. -/
def State.left (s : State T U S W) : ℕ :=
  3 * (s.items.length - s.next) + (s.workers.map Worker.weight).sum

section Logs

variable {log : List (Event T U)} {w i : ℕ} {item : T} {value : U}

@[simp] theorem calls_called :
    calls (log ++ [.called w i item]) = calls log ++ [(item, i)] := by
  simp [calls]

@[simp] theorem calls_yielded : calls (log ++ [.yielded w i]) = calls log := by simp [calls]

@[simp] theorem calls_gave : calls (log ++ [.gave w i value]) = calls log := by simp [calls]

@[simp] theorem gaves_called : gaves (log ++ [.called w i item]) = gaves log := by simp [gaves]

@[simp] theorem gaves_yielded : gaves (log ++ [.yielded w i]) = gaves log := by simp [gaves]

@[simp] theorem gaves_gave :
    gaves (log ++ [.gave w i value]) = gaves log ++ [(i, value)] := by
  simp [gaves]

end Logs

/-! ### One turn -/

section Turn

variable {work : Work T U S W} {s t : State T U S W} {w : ℕ}

/-- **What a turn does**: it calls the function on the item at the cursor, ends the worker, ends the
poll at a pending call, or puts a value into its slot. -/
theorem turn_cases (h : turn work w s = some t) :
    (s.workers[w]? = some .loop ∧ ∃ item pending world, s.items[s.next]? = some item ∧
        (pending, world) = work.call item s.world ∧ t = { s with
          next := s.next + 1
          workers := s.workers.set w (.waiting s.next pending)
          world := world
          log := s.log ++ [.called w s.next item] }) ∨
      (s.workers[w]? = some .loop ∧ s.items.length ≤ s.next ∧
        t = { s with workers := s.workers.set w .done, polled := none }) ∨
      ∃ index pending, s.workers[w]? = some (.waiting index pending) ∧
        ((∃ rest world, work.poll pending s.world = (.pending rest, world) ∧ t = { s with
            workers := s.workers.set w (.waiting index rest)
            polled := none
            world := world
            log := s.log ++ [.yielded w index] }) ∨
          ∃ value world, work.poll pending s.world = (.ready value, world) ∧
            index < s.slots.length ∧ t = { s with
              slots := s.slots.set index (some value)
              workers := s.workers.set w .loop
              world := world
              log := s.log ++ [.gave w index value] }) := by
  unfold turn at h
  split at h
  · next hworker =>
    split at h
    · next item hitem =>
      exact .inl ⟨hworker, item, _, _, hitem, rfl, (some.inj h).symm⟩
    · next hitem =>
      exact .inr (.inl ⟨hworker, getElem?_eq_none_iff.mp hitem, (some.inj h).symm⟩)
  · next index pending hworker =>
    refine .inr (.inr ⟨index, pending, hworker, ?_⟩)
    split at h
    · next rest world hpoll => exact .inl ⟨rest, world, hpoll, (some.inj h).symm⟩
    · next value world hpoll =>
      split at h
      · next hindex => exact .inr ⟨value, world, hpoll, hindex, (some.inj h).symm⟩
      · cases h
  · cases h

end Turn

/-! ### The invariant -/

/-- **What holds throughout a run** over `items` with `limit`. -/
structure Inv (work : Work T U S W) (items : List T) (limit : ℕ) (s : State T U S W) : Prop where
  same : s.items = items
  length_slots : s.slots.length = items.length
  length_workers : s.workers.length = min (max limit 1) items.length
  next_le : s.next ≤ items.length
  called : calls s.log = items.zipIdx.take s.next
  /-- The indices below the cursor are those waited for and those whose value has come. -/
  taken : (waits s.workers ++ (gaves s.log).map Prod.fst).Perm (List.range s.next)
  /-- A slot holds the value of its index. -/
  slot : ∀ i value, s.slots[i]? = some (some value) ↔ (i, value) ∈ gaves s.log
  started : ∀ i pending, .waiting i pending ∈ s.workers → ∃ item, items[i]? = some item ∧
    Started work item pending
  gives : ∀ i value, (i, value) ∈ gaves s.log → ∃ item, items[i]? = some item ∧
    Gives work item value
  prompt : Prompt s
  done : .done ∈ s.workers → items.length ≤ s.next
  polled : ∀ w, s.polled = some w → ∃ worker, s.workers[w]? = some worker ∧ worker.running = true

section Start

theorem spawn_eq (width len count : ℕ) (workers : List (Worker S)) :
    spawn width len count workers =
      workers ++ List.replicate (min width len - count) .loop := by
  induction hn : len - count generalizing count workers with
  | zero =>
    rw [spawn, if_neg (by omega), show min width len - count = 0 by omega, replicate_zero,
      append_nil]
  | succ n ih =>
    rw [spawn]
    split
    · rw [ih _ _ (by omega), append_assoc, singleton_append, ← replicate_succ]
      congr 2
      omega
    · rw [show min width len - count = 0 by omega, replicate_zero, append_nil]

theorem workers_start (items : List T) (limit : ℕ) (world : W) :
    (State.start items limit world : State T U S W).workers =
      List.replicate (min (max limit 1) items.length) .loop := by
  show spawn _ _ _ _ = _
  rw [spawn_eq, nil_append, Nat.sub_zero]
  congr 2
  split <;> omega

theorem Inv.start (work : Work T U S W) (items : List T) (limit : ℕ) (world : W) :
    Inv work items limit (State.start items limit world) where
  same := rfl
  length_slots := length_map _
  length_workers := by rw [workers_start, length_replicate]
  next_le := Nat.zero_le _
  called := rfl
  taken := by
    have hnone : waits (State.start items limit world : State T U S W).workers = [] := by
      rw [workers_start, waits, filterMap_replicate]
    rw [hnone]
    exact List.Perm.refl []
  slot := by
    intro i value
    refine iff_of_false (fun h => ?_) (fun h => by cases h)
    have hmap : (items.map fun _ => (none : Option U))[i]? = some (some value) := h
    rw [getElem?_map] at hmap
    obtain ⟨-, -, hitem⟩ := map_eq_some_iff.mp hmap
    cases hitem
  started := by
    intro i pending h
    rw [workers_start] at h
    cases eq_of_mem_replicate h
  gives := by
    intro i value h
    cases h
  prompt := by
    intro before after w i value h
    simp [State.start] at h
  done := by
    intro h
    rw [workers_start] at h
    cases eq_of_mem_replicate h
  polled := by
    intro w h
    cases h

end Start

section Keep

variable {work : Work T U S W} {items : List T} {limit : ℕ} {s t : State T U S W} {w : ℕ}

theorem waits_append (front back : List (Worker S)) :
    waits (front ++ back) = waits front ++ waits back :=
  filterMap_append

variable {workers : List (Worker S)} {old : Worker S}

section

variable (h : workers[w]? = some old) (new : Worker S)
include h new

/-- The workers around one, before and after it changes. -/
theorem around :
    ∃ front back, workers = front ++ ([old] ++ back) ∧
      workers.set w new = front ++ ([new] ++ back) := by
  obtain ⟨hw, hold⟩ := List.getElem?_eq_some_iff.mp h
  refine ⟨workers.take w, workers.drop (w + 1), ?_, ?_⟩
  · rw [← hold, singleton_append, ← drop_eq_getElem_cons hw, take_append_drop]
  · rw [set_eq_take_append_cons_drop, if_pos hw, singleton_append]

/-- A worker that changes puts what it waits for in place of what it waited for. -/
theorem waits_set :
    (waits (workers.set w new) ++ waits [old]).Perm (waits workers ++ waits [new]) := by
  obtain ⟨front, back, hworkers, hset⟩ := around h new
  rw [hset, hworkers]
  simp only [waits_append]
  refine perm_iff_count.mpr fun i => ?_
  simp only [count_append]
  omega

theorem weight_set :
    ((workers.set w new).map Worker.weight).sum + old.weight =
      (workers.map Worker.weight).sum + new.weight := by
  obtain ⟨front, back, hworkers, hset⟩ := around h new
  rw [hset, hworkers]
  simp only [map_append, map_cons, map_nil, sum_append, sum_cons, sum_nil]
  omega

end

theorem Inv.length_calls (hI : Inv work items limit s) : (calls s.log).length = s.next := by
  rw [hI.called, length_take, length_zipIdx]
  exact min_eq_left hI.next_le

theorem Inv.notMem_gaves (hI : Inv work items limit s) {i : ℕ} {pending : S}
    (hw : s.workers[w]? = some (.waiting i pending)) (value : U) :
    (i, value) ∉ gaves s.log := by
  have hnodup := (hI.taken.nodup_iff.mpr nodup_range)
  have hwait : i ∈ waits s.workers := mem_filterMap.mpr ⟨_, mem_of_getElem? hw, rfl⟩
  exact fun hmem => disjoint_of_nodup_append hnodup hwait (mem_map_of_mem hmem)

/-- The log of a prompt state with one more event. -/
theorem prompt_push {e : Event T U} (hs : Prompt s) (hitems : t.items = s.items)
    (hlog : t.log = s.log ++ [e])
    (hgave : ∀ w i value, e = .gave w i value → t.polled = some w ∧ t.workers[w]? = some .loop)
    (hnext : ∀ w, s.polled = some w → s.workers[w]? = some .loop → ∃ item,
      s.items[(calls s.log).length]? = some item ∧ e = .called w (calls s.log).length item) :
    Prompt t := by
  intro before after w i value h hlt
  rw [hlog] at h
  rw [hitems] at hlt
  obtain rfl | ⟨after, last, rfl⟩ := eq_nil_or_concat' after
  · obtain ⟨-, he⟩ := append_inj' h rfl
    exact hgave w i value (singleton_inj.mp he)
  · rw [← cons_append, ← append_assoc] at h
    obtain ⟨hfront, he⟩ := append_inj' h rfl
    obtain rfl := singleton_inj.mp he
    have hprompt := hs before after w i value hfront hlt
    cases after with
    | nil =>
      have hcalls : calls s.log = calls before := by rw [hfront, calls_gave]
      obtain ⟨item, hitem, he⟩ := hnext w hprompt.1 hprompt.2
      rw [hcalls] at hitem he
      exact ⟨item, hitems ▸ hitem, he⟩
    | cons e after => exact hitems ▸ hprompt

variable {new : Worker S}

section

variable (hI : Inv work items limit s)
include hI

/-- The indices below the cursor after a worker has changed. -/
theorem Inv.taken_set {next : ℕ} {log : List (Event T U)} (hold : s.workers[w]? = some old)
    (h : ∀ i, (waits [new]).count i + ((gaves log).map Prod.fst).count i +
      (List.range s.next).count i = (waits [old]).count i +
        ((gaves s.log).map Prod.fst).count i + (List.range next).count i) :
    (waits (s.workers.set w new) ++ (gaves log).map Prod.fst).Perm (List.range next) := by
  refine perm_iff_count.mpr fun i => ?_
  have htaken := perm_iff_count.mp hI.taken i
  have hset := perm_iff_count.mp (waits_set hold new) i
  have hi := h i
  rw [count_append] at htaken hset ⊢
  rw [count_append] at hset
  omega

theorem Inv.started_set
    (hnew : ∀ i pending, new = .waiting i pending → ∃ item, items[i]? = some item ∧
      Started work item pending) (i : ℕ) (pending : S)
    (hmem : .waiting i pending ∈ s.workers.set w new) :
    ∃ item, items[i]? = some item ∧ Started work item pending := by
  obtain hmem | heq := mem_or_eq_of_mem_set hmem
  · exact hI.started i pending hmem
  · exact hnew i pending heq.symm

theorem Inv.done_set (hnew : new ≠ .done) (hmem : .done ∈ s.workers.set w new)
    : items.length ≤ s.next := by
  obtain hmem | heq := mem_or_eq_of_mem_set hmem
  · exact hI.done hmem
  · exact absurd heq.symm hnew

theorem Inv.of_turn (hpolled : s.polled = some w) (h : turn work w s = some t)
    : Inv work items limit t := by
  have hlen := hI.length_calls
  have hw : w < s.workers.length := by
    obtain ⟨worker, hworker, -⟩ := hI.polled w hpolled
    exact (List.getElem?_eq_some_iff.mp hworker).1
  have hself {w' : ℕ} (hw' : s.polled = some w') : w = w' := some.inj (hpolled.symm.trans hw')
  obtain ⟨hloop, item, pending, world, hitem, hcall, rfl⟩ | ⟨hloop, hend, rfl⟩ |
    ⟨index, pending, hwait, ⟨rest, world, hpoll, rfl⟩ | ⟨value, world, hpoll, hindex, rfl⟩⟩ :=
    turn_cases h
  · -- A call on the next item.
    have hitems : items[s.next]? = some item := hI.same ▸ hitem
    have hzip : items.zipIdx[s.next]? = some (item, s.next) := by
      rw [List.getElem?_zipIdx, hitems, map_some, Nat.zero_add]
    have hstarted : Started work item pending := by
      rw [show pending = (work.call item s.world).1 from congrArg Prod.fst hcall]
      exact .call s.world
    exact { hI with
      length_workers := (length_set ..).trans hI.length_workers
      next_le := (List.getElem?_eq_some_iff.mp hitems).1
      called := by
        rw [calls_called, hI.called, take_add_one, hzip]
        rfl
      taken := hI.taken_set hloop fun i => by
        rw [gaves_called, range_succ, count_append]
        show ([s.next].count i) + _ + _ = 0 + _ + _
        omega
      slot := fun i value => by rw [gaves_called, hI.slot i value]
      started := hI.started_set fun i pending' heq => by
        obtain ⟨rfl, rfl⟩ := Worker.waiting.inj heq
        exact ⟨item, hitems, hstarted⟩
      gives := fun i value hmem => hI.gives i value (by rwa [gaves_called] at hmem)
      prompt := by
        refine prompt_push hI.prompt rfl rfl (fun w' i value he => by cases he) fun w' hw' _ => ?_
        obtain rfl := hself hw'
        rw [hlen]
        exact ⟨item, hitem, rfl⟩
      done := fun hmem => le_trans
        (hI.done_set (fun h : Worker.waiting s.next pending = .done => nomatch h) hmem)
        (Nat.le_succ _)
      polled := fun w' hw' => by
        obtain rfl := hself hw'
        exact ⟨_, List.getElem?_set_self hw, rfl⟩ }
  · -- No item is left: the worker is done.
    rw [hI.same] at hend
    exact { hI with
      length_workers := (length_set ..).trans hI.length_workers
      taken := hI.taken_set hloop fun i => rfl
      started := hI.started_set nofun
      prompt := by
        -- Every item has been called on, so nothing is due behind a value.
        intro before after w' i value hlog hlt
        have hprompt := hI.prompt before after w' i value hlog hlt
        cases after with
        | cons e after => exact hprompt
        | nil =>
          have hcalls : calls s.log = calls before := by
            rw [show s.log = before ++ [.gave w' i value] from hlog, calls_gave]
          rw [← hcalls, hlen] at hlt
          exact absurd (hI.same ▸ hlt : s.next < items.length) (by omega)
      done := fun _ => hend
      polled := nofun }
  · -- The call is pending: the poll ends.
    exact { hI with
      length_workers := (length_set ..).trans hI.length_workers
      called := by rw [calls_yielded, hI.called]
      taken := hI.taken_set hwait fun i => by rw [gaves_yielded]; rfl
      slot := fun i value => by rw [gaves_yielded, hI.slot i value]
      started := hI.started_set fun i pending' heq => by
        obtain ⟨rfl, rfl⟩ := Worker.waiting.inj heq
        obtain ⟨item, hitem, hstarted⟩ := hI.started _ pending (mem_of_getElem? hwait)
        exact ⟨item, hitem, .poll hstarted hpoll⟩
      gives := fun i value hmem => hI.gives i value (by rwa [gaves_yielded] at hmem)
      prompt := by
        refine prompt_push hI.prompt rfl rfl (fun w' i value he => by cases he) fun w' hw' hloop => ?_
        obtain rfl := hself hw'
        rw [hwait] at hloop
        cases hloop
      done := hI.done_set nofun
      polled := nofun }
  · -- The value has come.
    have hfresh := hI.notMem_gaves hwait
    exact { hI with
      length_slots := (length_set ..).trans hI.length_slots
      length_workers := (length_set ..).trans hI.length_workers
      called := by rw [calls_gave, hI.called]
      taken := hI.taken_set hwait fun i => by
        rw [gaves_gave, map_append, count_append]
        show 0 + (_ + [index].count i) + (List.range s.next).count i =
          [index].count i + _ + (List.range s.next).count i
        omega
      slot := fun i value' => by
        rw [gaves_gave, mem_append, mem_singleton, Prod.mk.injEq]
        by_cases hi : index = i
        · subst hi
          rw [List.getElem?_set_self hindex, some_inj, some_inj]
          exact ⟨fun h => .inr ⟨rfl, h.symm⟩, fun h => (h.resolve_left (hfresh value')).2.symm⟩
        · rw [List.getElem?_set_ne hi, hI.slot]
          exact ⟨.inl, fun h => h.resolve_right fun heq => hi heq.1.symm⟩
      started := hI.started_set nofun
      gives := fun i value' hmem => by
        rw [gaves_gave, mem_append, mem_singleton] at hmem
        obtain hmem | heq := hmem
        · exact hI.gives i value' hmem
        · obtain ⟨rfl, rfl⟩ := Prod.mk.inj heq
          obtain ⟨item, hitem, hstarted⟩ := hI.started i pending (mem_of_getElem? hwait)
          exact ⟨item, hitem, pending, s.world, world, hstarted, hpoll⟩
      prompt := by
        refine prompt_push hI.prompt rfl rfl (fun w' i value' he => ?_) fun w' hw' hloop => ?_
        · obtain ⟨rfl, -, -⟩ := Event.gave.inj he
          exact ⟨hpolled, List.getElem?_set_self hw⟩
        · obtain rfl := hself hw'
          rw [hwait] at hloop
          cases hloop
      done := hI.done_set nofun
      polled := fun w' hw' => by
        obtain rfl := hself hw'
        exact ⟨_, List.getElem?_set_self hw, rfl⟩ }

/-- **A step** keeps the invariant. -/
theorem Inv.of_step (h : Step work s w t) :
    Inv work items limit t := by
  cases h with
  | turn hpolled hturn => exact hI.of_turn hpolled hturn
  | poll hidle hworker hrunning world =>
    exact { hI with
      prompt := by
        intro before after w' i value hlog hlt
        have hprompt := hI.prompt before after w' i value hlog hlt
        cases after with
        | cons e after => exact hprompt
        | nil =>
          rw [hidle] at hprompt
          cases hprompt.1
      polled := fun w' hw' => ⟨_, some.inj hw' ▸ hworker, hrunning⟩ }

end

/-- **Every state of a run** has the invariant. -/
theorem Inv.of_run {world : W} (h : Run (Step work) (fun _ _ => True)
    (State.start items limit world) s) :
    Inv work items limit s :=
  h.invariant (Inv.start work items limit world) fun hI _ hstep => hI.of_step hstep

end Keep

/-! ### The end -/

section Results

variable {work : Work T U S W} {items : List T} {limit : ℕ} {s t : State T U S W} {w : ℕ}

theorem collect_eq_some : ∀ {slots : List (Option U)}, (∀ slot ∈ slots, slot ≠ none) →
    ∃ values, collect slots = some values ∧ slots = values.map some
  | [], _ => ⟨[], rfl, rfl⟩
  | none :: _, h => absurd rfl (h none mem_cons_self)
  | some value :: slots, h => by
    obtain ⟨values, hvalues, hslots⟩ :=
      collect_eq_some fun slot hslot => h slot (mem_cons_of_mem _ hslot)
    refine ⟨value :: values, ?_, by rw [hslots, map_cons]⟩
    show (collect slots).bind (fun values => some (value :: values)) = _
    rw [hvalues]
    rfl

/-- No more calls are in flight than there are workers. -/
theorem Inv.in_flight (hI : Inv work items limit s) :
    (calls s.log).length ≤ (gaves s.log).length + max limit 1 := by
  have hlen := hI.taken.length_eq
  have hwaits : (waits s.workers).length ≤ s.workers.length := length_filterMap_le ..
  rw [hI.length_workers] at hwaits
  rw [length_append, length_map, length_range] at hlen
  rw [hI.length_calls]
  omega

/-- **When no worker runs** every item has been called on and every slot holds the value of its
index. -/
theorem Inv.finished (hI : Inv work items limit s)
    (h : ∀ worker ∈ s.workers, Worker.running worker = false) :
    calls s.log = items.zipIdx ∧ ((gaves s.log).map Prod.fst).Perm (List.range items.length) ∧
      ∃ values, collect s.slots = some values ∧ values.length = items.length ∧
        ∀ i value, values[i]? = some value ↔ (i, value) ∈ gaves s.log := by
  have hnext : s.next = items.length := by
    refine le_antisymm hI.next_le ?_
    cases hworkers : s.workers with
    | nil =>
      have hlen := hI.length_workers
      rw [hworkers, length_nil] at hlen
      omega
    | cons worker workers =>
      have hmem : worker ∈ s.workers := hworkers ▸ mem_cons_self
      have hrunning := h worker hmem
      cases worker with
      | done => exact hI.done hmem
      | loop => cases hrunning
      | waiting => cases hrunning
  have hwaits : waits s.workers = [] := by
    refine filterMap_eq_nil_iff.mpr fun worker hmem => ?_
    have hrunning := h worker hmem
    cases worker with
    | done => rfl
    | loop => cases hrunning
    | waiting => cases hrunning
  have htaken := hI.taken
  rw [hwaits, nil_append, hnext] at htaken
  obtain ⟨values, hcollect, hslots⟩ := @collect_eq_some U s.slots fun slot hslot hnone => by
    obtain ⟨i, hi, hget⟩ := mem_iff_getElem.mp hslot
    have hmem : i ∈ (gaves s.log).map Prod.fst := by
      rw [htaken.mem_iff, mem_range, ← hI.length_slots]
      exact hi
    obtain ⟨⟨j, value⟩, hgave, rfl⟩ := mem_map.mp hmem
    have hsome := (hI.slot _ value).mpr hgave
    rw [getElem?_eq_getElem hi, hget, hnone] at hsome
    cases hsome
  refine ⟨?_, htaken, values, hcollect, ?_, fun i value => ?_⟩
  · rw [hI.called, hnext, take_of_length_le (by rw [length_zipIdx])]
  · rw [← hI.length_slots, hslots, length_map]
  · rw [← hI.slot, hslots, getElem?_map]
    cases values[i]? <;> simp

/-- A turn brings the run closer to its end unless it finds the call pending. -/
theorem left_turn (h : turn work w s = some t) :
    t.left < s.left ∨ ∃ i, t.log = s.log ++ [.yielded w i] := by
  obtain ⟨hloop, item, pending, world, hitem, -, rfl⟩ | ⟨hloop, -, rfl⟩ |
    ⟨index, pending, hwait, ⟨rest, world, -, rfl⟩ | ⟨value, world, -, -, rfl⟩⟩ := turn_cases h
  · have hnext := (List.getElem?_eq_some_iff.mp hitem).1
    have hweight := weight_set hloop (.waiting s.next pending)
    have hone : (Worker.loop : Worker S).weight = 1 := rfl
    have htwo : (Worker.waiting s.next pending).weight = 2 := rfl
    left
    show 3 * (s.items.length - (s.next + 1)) +
      ((s.workers.set w (.waiting s.next pending)).map Worker.weight).sum < _
    unfold State.left
    omega
  · have hweight := weight_set hloop (.done : Worker S)
    have hone : (Worker.loop : Worker S).weight = 1 := rfl
    have hzero : (Worker.done : Worker S).weight = 0 := rfl
    left
    show 3 * (s.items.length - s.next) + ((s.workers.set w .done).map Worker.weight).sum < _
    unfold State.left
    omega
  · exact .inr ⟨index, rfl⟩
  · have hweight := weight_set hwait (.loop : Worker S)
    have hone : (Worker.loop : Worker S).weight = 1 := rfl
    have htwo : (Worker.waiting index pending).weight = 2 := rfl
    left
    show 3 * (s.items.length - s.next) + ((s.workers.set w .loop).map Worker.weight).sum < _
    unfold State.left
    omega

/-- **A worker that is polled** can take its turn: no index is out of range. -/
theorem Inv.exists_turn (hI : Inv work items limit s) (h : s.polled = some w) :
    ∃ t, turn work w s = some t := by
  obtain ⟨worker, hworker, hrunning⟩ := hI.polled w h
  unfold turn
  rw [hworker]
  cases worker with
  | done => cases hrunning
  | loop => cases hitem : s.items[s.next]? <;> exact ⟨_, rfl⟩
  | waiting index pending =>
    have hindex : index < s.slots.length := by
      obtain ⟨item, hitem, -⟩ := hI.started index pending (mem_of_getElem? hworker)
      rw [hI.length_slots]
      exact (List.getElem?_eq_some_iff.mp hitem).1
    show ∃ t, (match work.poll pending s.world with
      | (.pending rest, world) => _
      | (.ready value, world) => _) = some t
    obtain ⟨rest | value, world⟩ := work.poll pending s.world
    · exact ⟨_, rfl⟩
    · exact ⟨_, if_pos hindex⟩

/-- A call that counts its item down to zero and gives it. -/
def countdown : Work ℕ ℕ ℕ Unit where
  call item world := (item, world)
  poll pending world := if pending = 0 then (.ready 7, world) else (.pending (pending - 1), world)

end Results

end HdLang.MapJoin
