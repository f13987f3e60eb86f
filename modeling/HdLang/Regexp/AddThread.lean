import HdLang.Regexp.Threads
import HdLang.Search.Needle
import Mathlib.Data.List.Perm.Subperm

/-!
# Adding a thread

`add_thread` extends the thread list as the walk does (`addThread_eq`): a list at one side of the
buffers holds threads (`Holds`), the stack holds the tasks that are left (`Stacked`). Each visit of an
instruction pushes at most one task, so that the stack never needs more entries than the list has room
for threads, and no write of the walk is outside its list.
-/

namespace HdLang.Regexp

open List Option Nat Inst

open Search (ok_bind sub_eq)

/-! ### Checked lists -/

section Lists

variable {α : Type} {list : List α} {i : ℕ} {a : α}

theorem get_eq (h : list[i]? = some a) : get list i = .ok a := by
  unfold get
  rw [h]

theorem put_eq (h : i < list.length) (a : α) : put list i a = .ok (list.set i a) := if_pos h

theorem usize_natCast (n : ℕ) : usize (n : ℤ) = .ok n := by
  unfold usize
  rw [if_pos (Int.natCast_nonneg n), Int.toNat_natCast]

/-- **Copying slots** sets as many entries of the target, and no others. -/
theorem copySlots_eq {source : List ℤ} {sourceBase targetBase count : ℕ}
    (hsource : sourceBase + count ≤ source.length) {target : List ℤ}
    (htarget : targetBase + count ≤ target.length) {slot : ℕ} (hslot : slot ≤ count) :
    ∃ target', copySlots source sourceBase target targetBase count slot = .ok target' ∧
      target'.length = target.length ∧
      ∀ i, target'[i]? = if targetBase + slot ≤ i ∧ i < targetBase + count
        then source[sourceBase + (i - targetBase)]? else target[i]? := by
  induction hn : count - slot generalizing slot target with
  | zero =>
    refine ⟨target, ?_, rfl, fun i => ?_⟩
    · rw [copySlots, dif_neg (by omega)]
    · rw [if_neg (by omega)]
  | succ n ih =>
    have hlt : sourceBase + slot < source.length := by omega
    obtain ⟨target', hrun, hlength, hread⟩ :=
      ih (show targetBase + count ≤ (target.set (targetBase + slot) source[sourceBase + slot]).length
        by rw [length_set]; exact htarget) (show slot + 1 ≤ count by omega) (by omega)
    refine ⟨target', ?_, by rw [hlength, length_set], fun i => ?_⟩
    · rw [copySlots, dif_pos (by omega), get_eq (getElem?_eq_getElem hlt), ok_bind,
        put_eq (by omega), ok_bind]
      exact hrun
    · rw [hread i]
      by_cases hi : i = targetBase + slot
      · rw [if_neg (by omega), if_pos (by omega), hi, getElem?_set_self (by omega),
          Nat.add_sub_cancel_left, getElem?_eq_getElem hlt]
      · rw [getElem?_set_ne (Ne.symm hi)]
        by_cases hin : targetBase + (slot + 1) ≤ i ∧ i < targetBase + count
        · rw [if_pos hin, if_pos (by omega)]
        · rw [if_neg hin, if_neg (by omega)]

end Lists

/-! ### Threads in the buffers -/

/-- Distinct numbers below a bound are no more than the bound. -/
theorem length_le_of_nodup {l : List ℕ} {n : ℕ} (h : l.Nodup) (hlt : ∀ p ∈ l, p < n) :
    l.length ≤ n := by
  have hlength := (subperm_of_subset h fun p hp => mem_range.mpr (hlt p hp)).length_le
  rw [length_range] at hlength
  exact hlength

/-- The lists of a search have the sizes that they were given. -/
structure Shaped (b : Buffers) (width slotCount : ℕ) : Prop where
  dense : b.dense.length = 2 * width
  sparse : b.sparse.length = 2 * width
  slots : b.slots.length = 2 * width * slotCount
  stack : b.stack.length = width + 1
  values : b.values.length = width + 1
  scratch : b.scratch.length = slotCount

/-- The list at `side` holds the threads; slots are held where a thread waits. -/
structure Holds (code : List Inst) (slotCount : ℕ) (b : Buffers) (side : ℕ)
    (threads : List Thread) : Prop where
  nodup : (places threads).Nodup
  lt : ∀ t ∈ threads, t.1 < code.length
  length : ∀ t ∈ threads, t.2.length = slotCount
  dense : ∀ i t, threads[i]? = some t → b.dense[side + i]? = some t.1
  sparse : ∀ i t, threads[i]? = some t → b.sparse[side + t.1]? = some i
  slots : ∀ t ∈ threads, (∀ inst, code[t.1]? = some inst → inst.waits = true) →
    ∀ k < slotCount, b.slots[(side + t.1) * slotCount + k]? = t.2[k]?

/-- Outside the list at `side`, the buffers are as they were. -/
structure Untouched (side width slotCount : ℕ) (b b' : Buffers) : Prop where
  dense : ∀ i, i < side ∨ side + width ≤ i → b'.dense[i]? = b.dense[i]?
  sparse : ∀ i, i < side ∨ side + width ≤ i → b'.sparse[i]? = b.sparse[i]?
  slots : ∀ i, i < side * slotCount ∨ (side + width) * slotCount ≤ i → b'.slots[i]? = b.slots[i]?

variable {code : List Inst} {slotCount side position size : ℕ} {b b' : Buffers}
  {threads : List Thread} {pc : ℕ} {scratch : List ℤ}

theorem Untouched.refl (b : Buffers) : Untouched side code.length slotCount b b :=
  ⟨fun _ _ => rfl, fun _ _ => rfl, fun _ _ => rfl⟩

theorem Untouched.trans {b'' : Buffers} (h : Untouched side code.length slotCount b b')
    (h' : Untouched side code.length slotCount b' b'') :
    Untouched side code.length slotCount b b'' :=
  ⟨fun i hi => (h'.dense i hi).trans (h.dense i hi), fun i hi => (h'.sparse i hi).trans (h.sparse i hi),
    fun i hi => (h'.slots i hi).trans (h.slots i hi)⟩

/-- A list has no more threads than there are instructions. -/
theorem Holds.length_le (h : Holds code slotCount b side threads) : threads.length ≤ code.length := by
  have hlength := length_le_of_nodup h.nodup fun p hp => by
    obtain ⟨t, ht, rfl⟩ := mem_map.mp hp
    exact h.lt t ht
  rw [places, length_map] at hlength
  exact hlength

/-- A list that lacks an instruction has room for a thread. -/
theorem Holds.length_lt (h : Holds code slotCount b side threads) (hpc : pc < code.length)
    (hnew : pc ∉ places threads) : threads.length < code.length := by
  have hall : ∀ p ∈ pc :: places threads, p < code.length := fun p hp => by
    obtain rfl | hp := mem_cons.mp hp
    · exact hpc
    · obtain ⟨t, ht, rfl⟩ := mem_map.mp hp
      exact h.lt t ht
  have hlength := length_le_of_nodup (nodup_cons.mpr ⟨hnew, h.nodup⟩) hall
  rw [length_cons, places, length_map] at hlength
  exact hlength

/-- A list at the other side holds its threads still. -/
theorem Untouched.holds {other : ℕ} (h : Untouched side code.length slotCount b b')
    (hother : other + code.length ≤ side ∨ side + code.length ≤ other)
    (hb : Holds code slotCount b other threads) : Holds code slotCount b' other threads := by
  refine ⟨hb.nodup, hb.lt, hb.length, fun i t ht => ?_, fun i t ht => ?_, fun t ht hwaits k hk => ?_⟩
  · have hlt : i < code.length := by
      have hi := (List.getElem?_eq_some_iff.mp ht).1
      exact lt_of_lt_of_le hi hb.length_le
    rw [h.dense _ (by omega)]
    exact hb.dense i t ht
  · have hlt := hb.lt t (mem_of_getElem? ht)
    rw [h.sparse _ (by omega)]
    exact hb.sparse i t ht
  · have hlt := hb.lt t ht
    rw [h.slots _ ?_]
    · exact hb.slots t ht hwaits k hk
    · obtain hbelow | habove := hother
      · refine .inl (lt_of_lt_of_le ?_ (mul_le_mul_right slotCount hbelow))
        have hrow : (other + t.1 + 1) * slotCount ≤ (other + code.length) * slotCount :=
          mul_le_mul_right _ (by omega)
        rw [succ_mul] at hrow
        omega
      · exact .inr (le_trans (mul_le_mul_right slotCount
          (show side + code.length ≤ other + t.1 by omega)) (le_add_right _ _))

/-- `has` tells whether the list holds a thread at an instruction. -/
theorem hasThread_eq (hshape : Shaped b code.length slotCount)
    (h : Holds code slotCount b side threads) (hside : side + code.length ≤ 2 * code.length)
    (hpc : pc < code.length) :
    hasThread b side threads.length pc = .ok (decide (pc ∈ places threads)) := by
  have hlt : side + pc < b.sparse.length := by
    rw [hshape.sparse]
    omega
  unfold hasThread
  rw [get_eq (List.getElem?_eq_getElem hlt), ok_bind]
  by_cases hplace : b.sparse[side + pc] < threads.length
  · have ht := List.getElem?_eq_getElem hplace
    rw [if_pos hplace, get_eq (h.dense _ _ ht), ok_bind]
    show Except.ok _ = Except.ok _
    congr 1
    apply decide_eq_decide.mpr
    constructor
    · intro heq
      exact heq ▸ mem_map.mpr ⟨_, getElem_mem hplace, rfl⟩
    · intro hmem
      obtain ⟨t, ht', rfl⟩ := mem_map.mp hmem
      obtain ⟨i, hi⟩ := List.getElem?_of_mem ht'
      have hsparse := h.sparse i t hi
      rw [List.getElem?_eq_getElem hlt] at hsparse
      obtain rfl := some.inj hsparse
      rw [hi] at ht
      exact (congrArg Prod.fst (some.inj ht)).symm
  · rw [if_neg hplace]
    show Except.ok false = Except.ok _
    congr 1
    symm
    apply decide_eq_false
    intro hmem
    obtain ⟨t, ht', rfl⟩ := mem_map.mp hmem
    obtain ⟨i, hi⟩ := List.getElem?_of_mem ht'
    have hsparse := h.sparse i t hi
    rw [List.getElem?_eq_getElem hlt] at hsparse
    obtain rfl := some.inj hsparse
    exact hplace (List.getElem?_eq_some_iff.mp hi).1

/-- The list with a thread more, from what was written. -/
theorem Holds.snoc (h : Holds code slotCount b side threads) (hpc : pc < code.length)
    (hnew : pc ∉ places threads) (hscratch : scratch.length = slotCount)
    (hdense : b'.dense = b.dense.set (side + threads.length) pc)
    (hsparse : b'.sparse = b.sparse.set (side + pc) threads.length)
    (hroom : side + threads.length < b.dense.length) (hroom' : side + pc < b.sparse.length)
    (hslots : ∀ t ∈ threads ++ [(pc, scratch)],
      (∀ inst, code[t.1]? = some inst → inst.waits = true) →
      ∀ k < slotCount, b'.slots[(side + t.1) * slotCount + k]? = t.2[k]?) :
    Holds code slotCount b' side (threads ++ [(pc, scratch)]) := by
  have hlast : ∀ i t, (threads ++ [(pc, scratch)])[i]? = some t →
      threads[i]? = some t ∨ i = threads.length ∧ t = (pc, scratch) := by
    intro i t ht
    obtain hlt | hge := lt_or_ge i threads.length
    · rw [List.getElem?_append_left hlt] at ht
      exact .inl ht
    · rw [List.getElem?_append_right hge, List.getElem?_singleton] at ht
      obtain ⟨hzero, ht⟩ := ite_none_right_eq_some.mp ht
      exact .inr ⟨by omega, (some.inj ht).symm⟩
  refine ⟨?_, fun t ht => ?_, fun t ht => ?_, fun i t ht => ?_, fun i t ht => ?_, hslots⟩
  · rw [places, map_append]
    refine nodup_append.mpr ⟨h.nodup, nodup_singleton _, fun p hp q hq => ?_⟩
    rintro rfl
    obtain rfl := mem_singleton.mp hq
    exact hnew hp
  · obtain ht | ht := mem_append.mp ht
    · exact h.lt t ht
    · obtain rfl := mem_singleton.mp ht
      exact hpc
  · obtain ht | ht := mem_append.mp ht
    · exact h.length t ht
    · obtain rfl := mem_singleton.mp ht
      exact hscratch
  · rw [hdense]
    obtain hold | ⟨rfl, rfl⟩ := hlast i t ht
    · have hi := (List.getElem?_eq_some_iff.mp hold).1
      rw [List.getElem?_set_ne (by omega)]
      exact h.dense i t hold
    · rw [List.getElem?_set_self hroom]
  · rw [hsparse]
    obtain hold | ⟨rfl, rfl⟩ := hlast i t ht
    · have hne : t.1 ≠ pc := by
        rintro rfl
        exact hnew (mem_map.mpr ⟨t, mem_of_getElem? hold, rfl⟩)
      rw [List.getElem?_set_ne (by omega)]
      exact h.sparse i t hold
    · rw [List.getElem?_set_self hroom']

/-! ### One thread more -/

/-- The lists with a thread more, before its slots are written. -/
def pushed (b : Buffers) (side count pc : ℕ) : Buffers :=
  { b with dense := b.dense.set (side + count) pc, sparse := b.sparse.set (side + pc) count }

section Push

variable (hshape : Shaped b code.length slotCount) (h : Holds code slotCount b side threads)
  (hside : side + code.length ≤ 2 * code.length) (hpc : pc < code.length)
  (hnew : pc ∉ places threads)

include hshape h hside hpc hnew

theorem pushThread_eq : pushThread b side threads.length pc = .ok (pushed b side threads.length pc) := by
  have hlt := h.length_lt hpc hnew
  unfold pushThread
  rw [put_eq (by rw [hshape.sparse]; omega), ok_bind, put_eq (by rw [hshape.dense]; omega), ok_bind]
  rfl

omit h hside hpc hnew in
theorem shaped_pushed (count pc : ℕ) : Shaped (pushed b side count pc) code.length slotCount :=
  ⟨by rw [pushed, length_set, hshape.dense], by rw [pushed, length_set, hshape.sparse],
    hshape.slots, hshape.stack, hshape.values, hshape.scratch⟩

omit hshape hside in
theorem untouched_pushed :
    Untouched side code.length slotCount b (pushed b side threads.length pc) := by
  have hlt := h.length_lt hpc hnew
  refine ⟨fun i hi => ?_, fun i hi => ?_, fun _ _ => rfl⟩
  · exact getElem?_set_ne (by omega)
  · exact getElem?_set_ne (by omega)

/-- A thread at an instruction that leads on at once. -/
theorem holds_pushed (hpass : ∀ inst, code[pc]? = some inst → inst.waits = false)
    (hscratch : scratch.length = slotCount) :
    Holds code slotCount (pushed b side threads.length pc) side (threads ++ [(pc, scratch)]) := by
  have hlt := h.length_lt hpc hnew
  refine h.snoc hpc hnew hscratch rfl rfl (by rw [hshape.dense]; omega)
    (by rw [hshape.sparse]; omega) fun t ht hwaits k hk => ?_
  obtain ht | ht := mem_append.mp ht
  · exact h.slots t ht hwaits k hk
  · obtain rfl := mem_singleton.mp ht
    have hcode := getElem?_eq_getElem hpc
    exact absurd ((hwaits _ hcode).symm.trans (hpass _ hcode)) Bool.noConfusion

/-- A thread that waits, with the slots it carries. -/
theorem saveSlots_eq :
    ∃ b', saveSlots (pushed b side threads.length pc) side slotCount pc = .ok b' ∧
      Shaped b' code.length slotCount ∧ Untouched side code.length slotCount b b' ∧
      Holds code slotCount b' side (threads ++ [(pc, b.scratch)]) ∧
      b'.stack = b.stack ∧ b'.values = b.values ∧ b'.scratch = b.scratch := by
  have hlt := h.length_lt hpc hnew
  have hshape' := @shaped_pushed _ _ side _ hshape threads.length pc
  have huntouched := untouched_pushed h hpc hnew
  have hrow : (side + pc) * slotCount + slotCount ≤ (side + code.length) * slotCount := by
    rw [← Nat.succ_mul]
    exact Nat.mul_le_mul_right _ (by omega)
  have hroom : (side + pc) * slotCount + slotCount ≤
      (pushed b side threads.length pc).slots.length := by
    rw [hshape'.slots]
    exact hrow.trans (Nat.mul_le_mul_right _ hside)
  obtain ⟨slots, hrun, hlength, hread⟩ :=
    copySlots_eq (show 0 + slotCount ≤ (pushed b side threads.length pc).scratch.length by
      rw [hshape'.scratch, Nat.zero_add]) hroom (Nat.zero_le slotCount)
  refine ⟨{ pushed b side threads.length pc with slots := slots }, ?_, ?_, ?_, ?_, rfl, rfl, rfl⟩
  · unfold saveSlots
    rw [hrun, ok_bind]
    rfl
  · exact ⟨hshape'.dense, hshape'.sparse, hlength.trans hshape'.slots, hshape'.stack, hshape'.values,
      hshape'.scratch⟩
  · refine ⟨huntouched.dense, huntouched.sparse, fun i hi => ?_⟩
    have hlow : side * slotCount ≤ (side + pc) * slotCount :=
      Nat.mul_le_mul_right _ (Nat.le_add_right _ _)
    exact (hread i).trans (if_neg (by omega))
  · refine h.snoc hpc hnew hshape.scratch rfl rfl (by rw [hshape.dense]; omega)
      (by rw [hshape.sparse]; omega) fun t ht hwaits k hk => ?_
    show slots[(side + t.1) * slotCount + k]? = t.2[k]?
    rw [hread]
    obtain hold | hlast := mem_append.mp ht
    · have hne : t.1 ≠ pc := by
        rintro rfl
        exact hnew (mem_map.mpr ⟨t, hold, rfl⟩)
      -- The rows of two instructions are apart.
      have hapart : (side + t.1) * slotCount + k < (side + pc) * slotCount ∨
          (side + pc) * slotCount + slotCount ≤ (side + t.1) * slotCount + k := by
        obtain hless | hmore := Nat.lt_or_gt_of_ne hne
        · refine .inl (lt_of_lt_of_le (Nat.add_lt_add_left hk _) ?_)
          rw [← Nat.succ_mul]
          exact Nat.mul_le_mul_right _ (by omega)
        · refine .inr (le_trans ?_ (Nat.le_add_right _ k))
          rw [← Nat.succ_mul]
          exact Nat.mul_le_mul_right _ (by omega)
      rw [if_neg (by omega)]
      exact h.slots t hold hwaits k hk
    · obtain rfl := mem_singleton.mp hlast
      dsimp only
      rw [if_pos (by omega), Nat.add_sub_cancel_left, Nat.zero_add]
      rfl

end Push

/-! ### The stack -/

/-- The entry at `i` is the task. -/
def TaskAt (b : Buffers) (i : ℕ) : Task → Prop
  | .visit pc => b.stack[i]? = some (pc : ℤ)
  | .restore slot value => b.stack[i]? = some (-1 - (slot : ℤ)) ∧ b.values[i]? = some value

/-- The stack holds the tasks, the first of them on top. -/
def Stacked (b : Buffers) : List Task → Prop
  | [] => True
  | task :: tasks => TaskAt b tasks.length task ∧ Stacked b tasks

/-- A stack that is the same as far as the tasks reach holds them. -/
theorem Stacked.mono {tasks : List Task} (h : Stacked b tasks)
    (hsame : ∀ i < tasks.length, b'.stack[i]? = b.stack[i]? ∧ b'.values[i]? = b.values[i]?) :
    Stacked b' tasks := by
  induction tasks with
  | nil => trivial
  | cons task tasks ih =>
    obtain ⟨htask, htasks⟩ := h
    obtain ⟨hstack, hvalues⟩ := hsame tasks.length (lt_succ_self _)
    refine ⟨?_, ih htasks fun i hi => hsame i (lt_succ_of_lt hi)⟩
    cases task with
    | visit pc => exact hstack.trans htask
    | restore slot value => exact ⟨hstack.trans htask.1, hvalues.trans htask.2⟩

/-- Where an instruction leads is in the code. -/
def Inst.TargetsBelow (width pc : ℕ) : Inst → Prop
  | .split first second => first < width ∧ second < width
  | .jump target => target < width
  | .done => True
  | .char _ => pc + 1 < width
  | .anyChar => pc + 1 < width
  | .class _ _ => pc + 1 < width
  | .begin => pc + 1 < width
  | .end => pc + 1 < width
  | .save _ => pc + 1 < width

/-- No instruction leads out of the code. -/
def Targets (code : List Inst) : Prop :=
  ∀ (pc : ℕ) (inst : Inst), code[pc]? = some inst → inst.TargetsBelow code.length pc

/-- A task is one that the walk can do. -/
def Task.Fits (width slotCount : ℕ) : Task → Prop
  | .visit pc => pc < width
  | .restore slot _ => slot < slotCount

/-! ### The walk -/

/-- The walk of the code: what is in the buffers, and what is still to be done. -/
structure Walking (code : List Inst) (slotCount side : ℕ) (b₀ : Buffers) (w : Walk)
    (tasks : List Task) (threads : List Thread) : Prop where
  shaped : Shaped w.buffers code.length slotCount
  holds : Holds code slotCount w.buffers side threads
  top : w.top = tasks.length
  length : w.length = threads.length
  stacked : Stacked w.buffers tasks
  fits : ∀ task ∈ tasks, task.Fits code.length slotCount
  untouched : Untouched side code.length slotCount b₀ w.buffers

/-- The kind of an instruction, read from the lowered program. -/
theorem get_op {program : Program} (hprogram : Lowered program code) {inst : Inst}
    (hinst : code[pc]? = some inst) : get program.ops pc = .ok inst.op := by
  apply get_eq
  rw [hprogram.ops, getElem?_map, hinst]
  rfl

section Turns

variable {program : Program} (hprogram : Lowered program code) (htargets : Targets code)
  (hside : side + code.length ≤ 2 * code.length) {b₀ : Buffers} {w : Walk} {tasks : List Task}

/-- What remains after an instruction with no thread yet: the buffers with its thread, and the tasks
that it leads to before the others. -/
structure Followed (code : List Inst) (size slotCount side position : ℕ) (b₀ : Buffers)
    (w : Walk) (pc : ℕ) (tasks : List Task) (threads : List Thread) (w' : Walk)
    (tasks' : List Task) : Prop where
  walking : Walking code slotCount side b₀ w' tasks' (threads ++ [(pc, w.buffers.scratch)])
  scratch : w'.buffers.scratch =
    (expand code size slotCount position pc w.buffers.scratch).2
  top : w'.top ≤ w.top + 1

/-- How a turn at an instruction with no thread yet ends: with the tasks it leads to, of which the
first is gone on with. -/
def Turned (code : List Inst) (size slotCount side position : ℕ) (b₀ : Buffers) (w : Walk) (pc : ℕ)
    (tasks : List Task) (threads : List Thread) (r : Walk × ℕ ⊕ Walk) : Prop :=
  (∃ w' tasks', r = .inr w' ∧
    (expand code size slotCount position pc w.buffers.scratch).1 ++ tasks = tasks' ∧
    Followed code size slotCount side position b₀ w pc tasks threads w' tasks') ∨
  ∃ w' pc' tasks', r = .inl (w', pc') ∧ pc' < code.length ∧
    (expand code size slotCount position pc w.buffers.scratch).1 ++ tasks = .visit pc' :: tasks' ∧
    Followed code size slotCount side position b₀ w pc tasks threads w' tasks'

include hprogram htargets hside in
/-- **One turn of the inner loop** goes on with the first task of the walk. -/
theorem followTurn_eq (h : Walking code slotCount side b₀ w tasks threads) (hpc : pc < code.length)
    (hroom : tasks.length ≤ threads.length) :
    ∃ r, followTurn program size slotCount side position (w, pc) = .ok r ∧
      (pc ∈ places threads → r = .inr w) ∧
      (pc ∉ places threads → Turned code size slotCount side position b₀ w pc tasks threads r) := by
  obtain ⟨hshape, hholds, htop, hlength, hstacked, hfits, huntouched⟩ := h
  unfold followTurn
  dsimp only
  rw [hlength, hasThread_eq hshape hholds hside hpc, ok_bind]
  by_cases hmem : pc ∈ places threads
  · rw [decide_eq_true hmem]
    exact ⟨_, rfl, fun _ => rfl, fun hnew => absurd hmem hnew⟩
  · obtain ⟨inst, hinst⟩ : ∃ inst, code[pc]? = some inst := ⟨_, getElem?_eq_getElem hpc⟩
    have htarget := htargets pc inst hinst
    have hoperands := hprogram.operands pc inst hinst
    have hop := get_op hprogram hinst
    have hlt := hholds.length_lt hpc hmem
    rw [decide_eq_false hmem, if_neg Bool.false_ne_true, pushThread_eq hshape hholds hside hpc hmem,
      ok_bind, hop, ok_bind]
    -- A thread at an instruction that leads on, with the buffers' stack and scratch slots `b`.
    have hpass : inst.waits = false → ∀ (b : Buffers) (tasks' : List Task),
        b.dense = (pushed w.buffers side threads.length pc).dense →
        b.sparse = (pushed w.buffers side threads.length pc).sparse →
        b.slots = w.buffers.slots → b.stack.length = code.length + 1 →
        b.values.length = code.length + 1 → b.scratch.length = slotCount →
        Stacked b tasks' → (∀ task ∈ tasks', task.Fits code.length slotCount) →
        Walking code slotCount side b₀ ⟨b, tasks'.length, threads.length + 1⟩ tasks'
          (threads ++ [(pc, w.buffers.scratch)]) := by
      intro hwaits b tasks' hdense hsparse hslots hstack hvalues hscratch hstacked' hfits'
      have hpushed := holds_pushed hshape hholds hside hpc hmem
        (fun i hi => by rw [hinst] at hi; exact some.inj hi ▸ hwaits) hshape.scratch
      have huntouched' := huntouched.trans (untouched_pushed hholds hpc hmem)
      refine ⟨⟨?_, ?_, ?_, hstack, hvalues, hscratch⟩, ?_, rfl, by rw [length_append]; rfl,
        hstacked', hfits', ?_⟩
      · rw [hdense, (shaped_pushed hshape _ _).dense]
      · rw [hsparse, (shaped_pushed hshape _ _).sparse]
      · rw [hslots, hshape.slots]
      · exact ⟨hpushed.nodup, hpushed.lt, hpushed.length, fun i t ht => by
          rw [hdense]; exact hpushed.dense i t ht, fun i t ht => by
          rw [hsparse]; exact hpushed.sparse i t ht, fun t ht hw k hk => by
          rw [hslots]; exact hpushed.slots t ht hw k hk⟩
      · exact ⟨fun i hi => by rw [hdense]; exact huntouched'.dense i hi, fun i hi => by
          rw [hsparse]; exact huntouched'.sparse i hi, fun i hi => by
          rw [hslots]; exact huntouched'.slots i hi⟩
    by_cases hwaits : inst.waits = true
    · -- The thread waits here.
      obtain ⟨b', hsave, hshape', huntouched', hholds', hstack, hvalues, hscratch⟩ :=
        saveSlots_eq hshape hholds hside hpc hmem
      have hexpand : expand code size slotCount position pc w.buffers.scratch =
          ([], w.buffers.scratch) := by
        unfold expand
        rw [hinst]
        cases inst <;> first | rfl | exact absurd hwaits Bool.noConfusion
      rw [if_pos ((inst.waits_iff).mp hwaits), hsave, ok_bind]
      refine ⟨_, rfl, fun h => absurd h hmem, fun _ => .inl ⟨⟨b', w.top, threads.length + 1⟩, tasks,
        rfl, by rw [hexpand]; rfl, ⟨⟨hshape', hholds', htop, by rw [length_append]; rfl, ?_,
        hfits, huntouched.trans huntouched'⟩, by rw [hexpand]; exact hscratch, le_succ _⟩⟩⟩
      exact hstacked.mono fun i _ => ⟨by rw [hstack], by rw [hvalues]⟩
    · have hnot : ¬ inst.op ≤ 4 := fun hle => hwaits ((inst.waits_iff).mpr hle)
      replace hpass := hpass (by simpa using hwaits)
      have hexpand : expand code size slotCount position pc w.buffers.scratch =
          inst.leads size slotCount position pc w.buffers.scratch := by
        unfold expand
        rw [hinst]
      have hroom' : w.top < (pushed w.buffers side threads.length pc).stack.length := by
        rw [(shaped_pushed hshape _ _).stack, htop]
        omega
      -- The tasks stay where they are when an entry is written above them.
      have hkeep : ∀ (b : Buffers) (entry value : ℤ), b.stack = w.buffers.stack.set w.top entry →
          b.values = w.buffers.values ∨ b.values = w.buffers.values.set w.top value →
          Stacked b tasks := by
        intro b entry value hstack hvalues
        refine hstacked.mono fun i hi => ⟨?_, ?_⟩
        · rw [hstack, getElem?_set_ne (by omega)]
        · obtain hvalues | hvalues := hvalues
          · rw [hvalues]
          · rw [hvalues, getElem?_set_ne (by omega)]
      -- The instructions that write nothing leave the other tasks as they are.
      have hsame : Walking code slotCount side b₀
          ⟨pushed w.buffers side threads.length pc, w.top, threads.length + 1⟩ tasks
          (threads ++ [(pc, w.buffers.scratch)]) := htop ▸ hpass _ tasks rfl rfl rfl hshape.stack
        hshape.values hshape.scratch (hstacked.mono fun i _ => ⟨rfl, rfl⟩) hfits
      have hgo : ∀ pc', pc' < code.length →
          expand code size slotCount position pc w.buffers.scratch =
            ([.visit pc'], w.buffers.scratch) →
          Turned code size slotCount side position b₀ w pc tasks threads
            (.inl (⟨pushed w.buffers side threads.length pc, w.top, threads.length + 1⟩, pc')) :=
        fun pc' hpc' heq => .inr ⟨_, pc', tasks, rfl, hpc', by rw [heq]; rfl, hsame, by rw [heq]; rfl,
          le_succ _⟩
      have hstop : expand code size slotCount position pc w.buffers.scratch =
            ([], w.buffers.scratch) →
          Turned code size slotCount side position b₀ w pc tasks threads
            (.inr ⟨pushed w.buffers side threads.length pc, w.top, threads.length + 1⟩) :=
        fun heq => .inl ⟨_, tasks, rfl, by rw [heq]; rfl, hsame, by rw [heq]; rfl, le_succ _⟩
      rw [if_neg hnot]
      cases inst with
      | split first second =>
        rw [if_pos (show (split first second).op = 5 from rfl), get_eq hoperands.2, ok_bind,
          put_eq hroom', ok_bind, get_eq hoperands.1, ok_bind]
        refine ⟨_, rfl, fun h => absurd h hmem, fun _ => .inr ⟨_, first, .visit second :: tasks, rfl,
          htarget.1, by rw [hexpand]; rfl, ?_, by rw [hexpand]; rfl, by dsimp only; omega⟩⟩
        rw [htop]
        refine hpass _ (.visit second :: tasks) rfl rfl rfl ?_ hshape.values hshape.scratch
          ⟨?_, hkeep _ second 0 (by rw [htop]; rfl) (.inl rfl)⟩ ?_
        · rw [length_set, pushed, hshape.stack]
        · exact getElem?_set_self (by rw [← htop]; exact hroom')
        · intro task htask
          obtain rfl | htask := mem_cons.mp htask
          · exact htarget.2
          · exact hfits task htask
      | jump target =>
        rw [if_neg (show ¬ (jump target).op = 5 from (by decide : ¬ (6 : ℤ) = 5)),
          if_pos (show (jump target).op = 6 from rfl), get_eq hoperands, ok_bind]
        exact ⟨_, rfl, fun h => absurd h hmem, fun _ => hgo _ htarget hexpand⟩
      | save slot =>
        rw [if_neg (show ¬ (save slot).op = 5 from (by decide : ¬ (7 : ℤ) = 5)),
          if_neg (show ¬ (save slot).op = 6 from (by decide : ¬ (7 : ℤ) = 6)),
          if_pos (show (save slot).op = 7 from rfl), get_eq hoperands, ok_bind]
        rw [leads] at hexpand
        by_cases hslot : slot < slotCount
        · have hread : w.buffers.scratch[slot]? = some (w.buffers.scratch.getD slot 0) := by
            have hlt' : slot < w.buffers.scratch.length := by rw [hshape.scratch]; exact hslot
            rw [getD_eq_getElem?_getD, getElem?_eq_getElem hlt', getD_some]
          have hroom'' : w.top < (pushed w.buffers side threads.length pc).values.length := by
            rw [(shaped_pushed hshape _ _).values, htop]
            omega
          have hroom''' : slot < (pushed w.buffers side threads.length pc).scratch.length := by
            rw [(shaped_pushed hshape _ _).scratch]
            exact hslot
          have hread' : (pushed w.buffers side threads.length pc).scratch[slot]? =
              some (w.buffers.scratch.getD slot 0) := hread
          rw [if_pos hslot] at hexpand
          rw [if_pos hslot, put_eq hroom', ok_bind, get_eq hread', ok_bind, put_eq hroom'', ok_bind,
            put_eq hroom''', ok_bind]
          refine ⟨_, rfl, fun h => absurd h hmem, fun _ => .inr ⟨_, pc + 1,
            .restore slot (w.buffers.scratch.getD slot 0) :: tasks, rfl, htarget,
            by rw [hexpand]; rfl, ?_, by rw [hexpand]; rfl, by dsimp only; omega⟩⟩
          rw [htop]
          refine hpass _ (.restore slot (w.buffers.scratch.getD slot 0) :: tasks) rfl rfl rfl ?_ ?_ ?_
            ⟨⟨?_, ?_⟩, hkeep _ _ (w.buffers.scratch.getD slot 0) (by rw [htop]; rfl)
              (.inr (by rw [htop]; rfl))⟩ ?_
          · rw [length_set, pushed, hshape.stack]
          · rw [length_set, pushed, hshape.values]
          · rw [length_set, pushed, hshape.scratch]
          · exact getElem?_set_self (by rw [← htop]; exact hroom')
          · exact getElem?_set_self (by rw [← htop]; exact hroom'')
          · intro task htask
            obtain rfl | htask := mem_cons.mp htask
            · exact hslot
            · exact hfits task htask
        · rw [if_neg hslot] at hexpand ⊢
          exact ⟨_, rfl, fun h => absurd h hmem, fun _ => hgo _ htarget hexpand⟩
      | begin =>
        rw [leads] at hexpand
        rw [if_neg (show ¬ begin.op = 5 by decide), if_neg (show ¬ begin.op = 6 by decide),
          if_neg (show ¬ begin.op = 7 by decide), if_pos (show begin.op = 8 from rfl)]
        by_cases hat : position = 0
        · rw [if_pos hat] at hexpand
          rw [if_neg (not_not.mpr hat)]
          exact ⟨_, rfl, fun h => absurd h hmem, fun _ => hgo _ htarget hexpand⟩
        · rw [if_neg hat] at hexpand
          rw [if_pos hat]
          exact ⟨_, rfl, fun h => absurd h hmem, fun _ => hstop hexpand⟩
      | «end» =>
        rw [leads] at hexpand
        rw [if_neg (show ¬ end.op = 5 by decide), if_neg (show ¬ end.op = 6 by decide),
          if_neg (show ¬ end.op = 7 by decide), if_neg (show ¬ end.op = 8 by decide)]
        by_cases hat : position = size
        · rw [if_pos hat] at hexpand
          rw [if_neg (not_not.mpr hat)]
          exact ⟨_, rfl, fun h => absurd h hmem, fun _ => hgo _ htarget hexpand⟩
        · rw [if_neg hat] at hexpand
          rw [if_pos hat]
          exact ⟨_, rfl, fun h => absurd h hmem, fun _ => hstop hexpand⟩
      | char point => exact absurd rfl hwaits
      | anyChar => exact absurd rfl hwaits
      | «class» ranges negated => exact absurd rfl hwaits
      | done => exact absurd rfl hwaits

end Turns

end HdLang.Regexp
