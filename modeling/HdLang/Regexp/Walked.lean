import HdLang.Regexp.AddThread

/-!
# The loops of adding a thread

The inner loop of `add_thread` follows first choices until it meets an instruction with a thread or one
that leads nowhere (`follow_eq`); the outer loop takes the tasks off the stack until none is left. Together
they are the walk (`addThread_eq`), within the stack that they are given.
-/

namespace HdLang.Regexp

open List

open Search (ok_bind sub_eq)

variable {code : List Inst} {slotCount side position size : ℕ} {b b₀ : Buffers}
  {threads : List Thread} {pc turns : ℕ} {program : Program} {w : Walk} {tasks : List Task}

/-- The work that is left: two for each instruction with no thread, one for each task. -/
def Walk.work (w : Walk) (width : ℕ) : ℕ := 2 * (width - w.length) + w.top

/-- The walk takes what an instruction with no thread leads to before the other tasks. -/
theorem walk_visit_of_notMem (hnew : pc ∉ places threads) (scratch : List ℤ) :
    walk code size slotCount position (.visit pc :: tasks) threads scratch =
      walk code size slotCount position
        ((expand code size slotCount position pc scratch).1 ++ tasks) (threads ++ [(pc, scratch)])
        (expand code size slotCount position pc scratch).2 := by
  rw [walk, if_neg hnew]

theorem walk_visit_of_mem (hmem : pc ∈ places threads) (scratch : List ℤ) :
    walk code size slotCount position (.visit pc :: tasks) threads scratch =
      walk code size slotCount position tasks threads scratch := by
  rw [walk, if_pos hmem]

/-- A thread more, and at most one task more, is less work. -/
theorem Followed.work_lt {w' : Walk} {tasks' : List Task} (hlength : w.length = threads.length)
    (hlt : threads.length < code.length)
    (h : Followed code size slotCount side position b₀ w pc tasks threads w' tasks') :
    w'.work code.length < w.work code.length ∧ w'.length = w.length + 1 := by
  have hlength' := h.walking.length
  rw [length_append, length_singleton] at hlength'
  have htop := h.top
  unfold Walk.work
  omega

/-- A walk that comes to `target` when the tasks are done. -/
structure Underway (code : List Inst) (size slotCount side position : ℕ) (b₀ : Buffers)
    (target : List Thread × List ℤ) (w : Walk) (tasks : List Task) (threads : List Thread) :
    Prop where
  walking : Walking code slotCount side b₀ w tasks threads
  reaches : walk code size slotCount position tasks threads w.buffers.scratch = target

section Loops

variable {target : List Thread × List ℤ} (hprogram : Lowered program code) (htargets : Targets code)
  (hside : side + code.length ≤ 2 * code.length)

include hprogram htargets hside

/-- **The inner loop** leaves the walk with the tasks that are left, and no more work. -/
theorem follow_eq (h : Walking code slotCount side b₀ w tasks threads) (hpc : pc < code.length)
    (hroom : tasks.length ≤ threads.length)
    (hreaches : walk code size slotCount position (.visit pc :: tasks) threads w.buffers.scratch =
      target) (hturns : code.length < turns) :
    ∃ w', turning .diverges (followTurn program size slotCount side position) turns (w, pc) = .ok w' ∧
      w'.work code.length ≤ w.work code.length ∧
      ∃ tasks' threads', Underway code size slotCount side position b₀ target w' tasks' threads' ∧
        tasks'.length ≤ threads'.length := by
  let inv : Walk × ℕ → Prop := fun s => s.2 < code.length ∧
    s.1.work code.length ≤ w.work code.length ∧
    ∃ tasks threads, Walking code slotCount side b₀ s.1 tasks threads ∧
      tasks.length ≤ threads.length ∧
      walk code size slotCount position (.visit s.2 :: tasks) threads s.1.buffers.scratch = target
  have hbody : ∀ s, inv s → ∃ r, followTurn program size slotCount side position s = .ok r ∧
      (∀ s', r = .inl s' → inv s' ∧ code.length - s'.1.length < code.length - s.1.length) ∧
      ∀ w', r = .inr w' → w'.work code.length ≤ w.work code.length ∧ ∃ tasks' threads',
        Underway code size slotCount side position b₀ target w' tasks' threads' ∧
          tasks'.length ≤ threads'.length := by
    rintro ⟨v, pc⟩ ⟨hpc, hwork, tasks, threads, h, hroom, hreaches⟩
    dsimp only at hpc hwork h hreaches
    obtain ⟨r, hr, hseen, hnext⟩ := @followTurn_eq _ _ _ position size _ _ _ hprogram
      htargets hside _ _ _ h hpc hroom
    refine ⟨r, hr, ?_⟩
    by_cases hmem : pc ∈ places threads
    · -- The instruction has its thread.
      obtain rfl := hseen hmem
      refine ⟨fun s' hs' => (nomatch hs'), fun b hb => ?_⟩
      obtain rfl := Sum.inr.inj hb
      rw [walk_visit_of_mem hmem] at hreaches
      exact ⟨hwork, tasks, threads, ⟨h, hreaches⟩, hroom⟩
    · rw [walk_visit_of_notMem hmem] at hreaches
      have hlt := h.holds.length_lt hpc hmem
      obtain ⟨w', tasks', rfl, htasks, hfollowed⟩ |
        ⟨w', pc', tasks', rfl, hpc', htasks, hfollowed⟩ := hnext hmem
      · -- It leads nowhere.
        refine ⟨fun s' hs' => (nomatch hs'), fun b hb => ?_⟩
        obtain rfl := Sum.inr.inj hb
        obtain ⟨hless, hlength⟩ := hfollowed.work_lt h.length hlt
        have htop := hfollowed.top
        rw [hfollowed.walking.top, h.top] at htop
        rw [htasks, ← hfollowed.scratch] at hreaches
        refine ⟨by omega, tasks', _, ⟨hfollowed.walking, hreaches⟩, ?_⟩
        rw [length_append, length_singleton]
        omega
      · -- Its first choice is next.
        refine ⟨fun s' hs' => ?_, fun b hb => (nomatch hb)⟩
        obtain rfl := Sum.inl.inj hs'
        obtain ⟨hless, hlength⟩ := hfollowed.work_lt h.length hlt
        have hlength' := h.length
        have htop := hfollowed.top
        rw [hfollowed.walking.top, h.top] at htop
        rw [htasks, ← hfollowed.scratch] at hreaches
        refine ⟨⟨hpc', by dsimp only; omega, tasks', _, hfollowed.walking, ?_, hreaches⟩,
          by dsimp only; omega⟩
        rw [length_append, length_singleton]
        omega
  exact turning_ends inv _ (fun s => code.length - s.1.length) hbody
    ⟨hpc, le_rfl, tasks, threads, h, hroom, hreaches⟩ (by dsimp only; omega)

/-- **One turn of the outer loop** takes a task off the stack, until none is left. -/
theorem walkTurn_eq (h : Underway code size slotCount side position b₀ target w tasks threads)
    (hroom : tasks.length ≤ threads.length + 1) (hturns : code.length < turns) :
    ∃ r, walkTurn turns program size slotCount side position w = .ok r ∧
      (tasks = [] → r = .inr w) ∧
      (tasks ≠ [] → ∃ w' tasks' threads', r = .inl w' ∧
        Underway code size slotCount side position b₀ target w' tasks' threads' ∧
        tasks'.length ≤ threads'.length + 1 ∧ w'.work code.length < w.work code.length) := by
  obtain ⟨hwalking, hreaches⟩ := h
  have htop := hwalking.top
  unfold walkTurn
  cases tasks with
  | nil =>
    rw [length_nil] at htop
    rw [if_neg (show ¬ w.top > 0 by omega)]
    exact ⟨_, rfl, fun _ => rfl, fun hne => absurd rfl hne⟩
  | cons task tasks =>
    rw [length_cons] at htop hroom
    have hshape := hwalking.shaped
    obtain ⟨htask, htasks⟩ := hwalking.stacked
    have hfits := hwalking.fits
    rw [if_pos (show w.top > 0 by omega), sub_eq (show 1 ≤ w.top by omega), ok_bind, htop,
      Nat.add_sub_cancel]
    cases task with
    | visit pc =>
      have hpc : pc < code.length := hfits _ mem_cons_self
      have hpopped : Walking code slotCount side b₀ ⟨w.buffers, tasks.length, w.length⟩ tasks
          threads :=
        ⟨hshape, hwalking.holds, rfl, hwalking.length, htasks,
          fun task ht => hfits task (mem_cons_of_mem _ ht), hwalking.untouched⟩
      obtain ⟨w', hrun, hwork, tasks', threads', hunderway, hroom'⟩ :=
        follow_eq hprogram htargets hside hpopped hpc (by omega) hreaches hturns
      rw [get_eq htask, ok_bind, if_neg (show ¬ (pc : ℤ) < 0 by omega), usize_natCast, ok_bind, hrun,
        ok_bind]
      refine ⟨_, rfl, fun hnil => (nomatch hnil), fun _ => ⟨w', tasks', threads', rfl, hunderway,
        by omega, ?_⟩⟩
      unfold Walk.work at hwork ⊢
      dsimp only at hwork
      omega
    | restore slot value =>
      have hslot : slot < slotCount := hfits _ mem_cons_self
      rw [get_eq htask.1, ok_bind, if_pos (show (-1 - (slot : ℤ)) < 0 by omega),
        show -1 - (-1 - (slot : ℤ)) = slot by omega, usize_natCast, ok_bind, get_eq htask.2,
        ok_bind, put_eq (by rw [hshape.scratch]; exact hslot), ok_bind]
      refine ⟨_, rfl, fun hnil => (nomatch hnil), fun _ => ⟨_, tasks, threads, rfl, ⟨⟨⟨hshape.dense,
        hshape.sparse, hshape.slots, hshape.stack, hshape.values, ?_⟩, ?_, rfl, hwalking.length, ?_,
        fun task ht => hfits task (mem_cons_of_mem _ ht), ?_⟩, ?_⟩, by omega, ?_⟩⟩
      · rw [length_set, hshape.scratch]
      · exact ⟨hwalking.holds.nodup, hwalking.holds.lt, hwalking.holds.length,
          hwalking.holds.dense, hwalking.holds.sparse, hwalking.holds.slots⟩
      · exact htasks.mono fun i _ => ⟨rfl, rfl⟩
      · exact ⟨hwalking.untouched.dense, hwalking.untouched.sparse, hwalking.untouched.slots⟩
      · rw [walk] at hreaches
        exact hreaches
      · unfold Walk.work
        dsimp only
        omega

/-- **Adding a thread** is the walk from its instruction. No read or write is outside its list, so that
the stack has room for every task that is pushed. -/
theorem addThread_eq (hshape : Shaped b code.length slotCount)
    (h : Holds code slotCount b side threads) (hpc : pc < code.length)
    (hturns : 2 * code.length + 1 < turns) :
    ∃ b', addThread turns program size slotCount b side threads.length pc position =
        .ok (b', (walk code size slotCount position [.visit pc] threads b.scratch).1.length) ∧
      Shaped b' code.length slotCount ∧
      Holds code slotCount b' side
        (walk code size slotCount position [.visit pc] threads b.scratch).1 ∧
      b'.scratch = b.scratch ∧ Untouched side code.length slotCount b b' := by
  have hinst : code[pc]? = some code[pc] := List.getElem?_eq_getElem hpc
  have hscratch := @walk_scratch code size slotCount position [.visit pc] threads b.scratch
    hshape.scratch
  unfold addThread
  rw [get_op hprogram hinst, ok_bind]
  by_cases hwaits : code[pc].waits = true
  · have hexpand : expand code size slotCount position pc b.scratch = ([], b.scratch) := by
      unfold expand
      rw [hinst]
      generalize code[pc] = inst at hwaits
      cases inst <;> first | rfl | exact absurd hwaits Bool.noConfusion
    rw [if_pos ((Inst.waits_iff _).mp hwaits), hasThread_eq hshape h hside hpc, ok_bind]
    by_cases hmem : pc ∈ places threads
    · rw [decide_eq_true hmem, if_pos rfl, walk_visit_of_mem hmem, walk]
      exact ⟨b, rfl, hshape, h, rfl, Untouched.refl b⟩
    · obtain ⟨b', hsave, hshape', huntouched, hholds, -, -, hscratch'⟩ :=
        saveSlots_eq hshape h hside hpc hmem
      rw [decide_eq_false hmem, if_neg Bool.false_ne_true, pushThread_eq hshape h hside hpc hmem,
        ok_bind, hsave, ok_bind, walk_visit_of_notMem hmem, hexpand]
      dsimp only
      rw [append_nil, walk]
      refine ⟨b', ?_, hshape', hholds, hscratch', huntouched⟩
      rw [length_append]
      rfl
  · rw [if_neg (mt (Inst.waits_iff _).mpr hwaits), put_eq (by rw [hshape.stack]; omega), ok_bind]
    let inv : Walk → Prop := fun w => ∃ tasks threads', tasks.length ≤ threads'.length + 1 ∧
      Underway code size slotCount side position b
        (walk code size slotCount position [.visit pc] threads b.scratch) w tasks threads'
    have hbody : ∀ w, inv w → ∃ r, walkTurn turns program size slotCount side position w = .ok r ∧
        (∀ w', r = .inl w' → inv w' ∧ w'.work code.length < w.work code.length) ∧
        ∀ w', r = .inr w' → ∃ threads', Underway code size slotCount side position b
          (walk code size slotCount position [.visit pc] threads b.scratch) w' [] threads' := by
      rintro w ⟨tasks, threads', hroom, hunderway⟩
      obtain ⟨r, hr, hend, hgo⟩ :=
        walkTurn_eq hprogram htargets hside hunderway hroom (by omega : code.length < turns)
      refine ⟨r, hr, ?_⟩
      by_cases hnil : tasks = []
      · obtain rfl := hend hnil
        refine ⟨fun s' hs' => (by cases hs'), fun w' hw' => ?_⟩
        obtain rfl := Sum.inr.inj hw'
        exact ⟨threads', hnil ▸ hunderway⟩
      · obtain ⟨w', tasks', threads'', rfl, hunderway', hroom', hless⟩ := hgo hnil
        refine ⟨fun s' hs' => ?_, fun b hb => (by cases hb)⟩
        obtain rfl := Sum.inl.inj hs'
        exact ⟨⟨tasks', threads'', hroom', hunderway'⟩, hless⟩
    have hstart : inv ⟨{ b with stack := b.stack.set 0 (pc : ℤ) }, 1, threads.length⟩ := by
      refine ⟨[.visit pc], threads, Nat.le_add_left _ _, ?_⟩
      refine ⟨⟨⟨hshape.dense, hshape.sparse, hshape.slots, ?_, hshape.values, hshape.scratch⟩, ?_,
        rfl, rfl, ⟨?_, trivial⟩, ?_, ⟨fun _ _ => rfl, fun _ _ => rfl, fun _ _ => rfl⟩⟩, rfl⟩
      · rw [length_set, hshape.stack]
      · exact ⟨h.nodup, h.lt, h.length, h.dense, h.sparse, h.slots⟩
      · exact List.getElem?_set_self (by rw [hshape.stack]; omega)
      · rintro task htask
        obtain rfl := mem_singleton.mp htask
        exact hpc
    obtain ⟨w, hrun, threads', ⟨hwalking, hreaches⟩⟩ :=
      @turning_ends _ _ _ Stop.diverges _ inv _ (fun w => w.work code.length) hbody turns _ hstart
        (by unfold Walk.work; dsimp only; omega)
    rw [walk] at hreaches
    rw [hrun, ok_bind, ← hreaches]
    have hback : w.buffers.scratch = b.scratch := (congrArg Prod.snd hreaches).trans hscratch
    refine ⟨w.buffers, ?_, hwalking.shaped, hwalking.holds, hback, hwalking.untouched⟩
    rw [hwalking.length]
    rfl

end Loops

end HdLang.Regexp
