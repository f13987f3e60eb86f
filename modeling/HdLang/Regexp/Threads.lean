import HdLang.Regexp.Vm
import Mathlib.Data.List.Nodup
import Mathlib.Order.Basic

/-!
# Threads

The list of threads at one position, as the walk of `add_thread` extends it: a thread is the place of an
instruction and the slots it carries. The walk works through tasks, the first of them first; a save puts
the old value of its slot back after what it leads to, so that the slots are in the end what they were
(`walk_scratch`).
-/

namespace HdLang.Regexp

open List Inst

/-- A thread: the place of its instruction and its slots. -/
abbrev Thread : Type := ℕ × List ℤ

/-- The places of the instructions of threads. -/
def places (threads : List Thread) : List ℕ := threads.map Prod.fst

/-- What the walk has to do: visit an instruction, or put a value back into a slot. -/
inductive Task
  | visit (pc : ℕ)
  | restore (slot : ℕ) (value : ℤ)

/-- Whether a thread waits at the instruction for the next character. -/
def Inst.waits : Inst → Bool
  | .char _ => true
  | .anyChar => true
  | .class _ _ => true
  | .done => true
  | .begin => false
  | .end => false
  | .split _ _ => false
  | .jump _ => false
  | .save _ => false

section Walks

variable (code : List Inst) (size slotCount position : ℕ)

/-- What follows from an instruction at `pc`, at the same position, and the slots then. -/
def Inst.leads (pc : ℕ) (scratch : List ℤ) : Inst → List Task × List ℤ
  | .split first second => ([.visit first, .visit second], scratch)
  | .jump target => ([.visit target], scratch)
  | .save slot =>
    if slot < slotCount then
      ([.visit (pc + 1), .restore slot (scratch.getD slot 0)], scratch.set slot position)
    else ([.visit (pc + 1)], scratch)
  | .begin => (if position = 0 then [.visit (pc + 1)] else [], scratch)
  | .end => (if position = size then [.visit (pc + 1)] else [], scratch)
  | _ => ([], scratch)

/-- What follows from the instruction at `pc` of the code. -/
def expand (pc : ℕ) (scratch : List ℤ) : List Task × List ℤ :=
  match code[pc]? with
  | some inst => inst.leads size slotCount position pc scratch
  | none => ([], scratch)

/-- The number of instructions with no thread. -/
def unvisited (threads : List Thread) : ℕ :=
  (List.range code.length).countP fun pc => decide (pc ∉ places threads)

variable {code size slotCount position}

theorem length_expand_le (pc : ℕ) (scratch : List ℤ) :
    (expand code size slotCount position pc scratch).1.length ≤ 2 := by
  unfold expand leads
  repeat' split
  all_goals simp

theorem expand_of_length_le {pc : ℕ} (h : code.length ≤ pc) (scratch : List ℤ) :
    expand code size slotCount position pc scratch = ([], scratch) := by
  unfold expand
  rw [getElem?_eq_none h]

theorem unvisited_le (threads : List Thread) (t : Thread) :
    unvisited code (threads ++ [t]) ≤ unvisited code threads := by
  refine countP_mono_left fun pc _ h => ?_
  rw [decide_eq_true_eq] at h ⊢
  exact fun hmem => h (by rw [places, map_append]; exact mem_append_left _ hmem)

/-- A thread for an instruction with none leaves fewer. -/
theorem unvisited_lt {threads : List Thread} {pc : ℕ} (hpc : pc < code.length)
    (hnew : pc ∉ places threads) (slots : List ℤ) :
    unvisited code (threads ++ [(pc, slots)]) < unvisited code threads := by
  unfold unvisited
  have hsplit : range code.length =
      range pc ++ pc :: (range' (pc + 1) (code.length - pc - 1)) := by
    have happend := @range'_append_1 0 pc (code.length - pc - 1 + 1)
    rw [Nat.zero_add, range'_succ, show pc + (code.length - pc - 1 + 1) = code.length by omega]
      at happend
    rw [range_eq_range', range_eq_range', happend]
  have hless : ∀ l : List ℕ, l.countP (fun p => decide (p ∉ places (threads ++ [(pc, slots)]))) ≤
        l.countP (fun p => decide (p ∉ places threads)) := fun l =>
    countP_mono_left fun p _ h => by
      rw [decide_eq_true_eq] at h ⊢
      exact fun hmem => h (by rw [places, map_append]; exact mem_append_left _ hmem)
  have hin : pc ∈ places (threads ++ [(pc, slots)]) := by simp [places]
  rw [hsplit, countP_append, countP_append, countP_cons_of_neg (by simp [hin]),
    countP_cons_of_pos (by simp [hnew])]
  have hleft := hless (range pc)
  have hright := hless (range' (pc + 1) (code.length - pc - 1))
  omega

variable (code size slotCount position)

/-- The walk: the threads with those that the tasks add, and the slots in the end. -/
def walk (tasks : List Task) (threads : List Thread) (scratch : List ℤ) :
    List Thread × List ℤ :=
  match tasks with
  | [] => (threads, scratch)
  | .restore slot value :: tasks => walk tasks threads (scratch.set slot value)
  | .visit pc :: tasks =>
    if pc ∈ places threads then walk tasks threads scratch
    else
      walk ((expand code size slotCount position pc scratch).1 ++ tasks)
        (threads ++ [(pc, scratch)]) (expand code size slotCount position pc scratch).2
termination_by 3 * unvisited code threads + tasks.length
decreasing_by
  · simp
  · simp
  · next hnew =>
    rw [List.length_append, List.length_cons]
    by_cases hpc : pc < code.length
    · have hlt := unvisited_lt hpc hnew scratch
      have htwo := @length_expand_le code size slotCount position pc scratch
      omega
    · rw [expand_of_length_le (Nat.le_of_not_lt hpc)]
      have hle := @unvisited_le code threads (pc, scratch)
      simp only [List.length_nil]
      omega

/-- The slots after the values that tasks put back. -/
def unwind : List Task → List ℤ → List ℤ
  | [], scratch => scratch
  | .visit _ :: tasks, scratch => unwind tasks scratch
  | .restore slot value :: tasks, scratch => unwind tasks (scratch.set slot value)

variable {code size slotCount position}

theorem length_expand (pc : ℕ) (scratch : List ℤ) :
    (expand code size slotCount position pc scratch).2.length = scratch.length := by
  unfold expand leads
  repeat' split
  all_goals simp

/-- What an instruction leads to puts back what it changed. -/
theorem unwind_expand (pc : ℕ) {scratch : List ℤ} (h : scratch.length = slotCount)
    (tasks : List Task) :
    unwind ((expand code size slotCount position pc scratch).1 ++ tasks)
      (expand code size slotCount position pc scratch).2 = unwind tasks scratch := by
  unfold expand
  cases code[pc]? with
  | none => rfl
  | some inst =>
    dsimp only
    cases inst with
    | save slot =>
      rw [leads]
      split
      · next hslot =>
        have hback : (scratch.set slot (position : ℤ)).set slot (scratch.getD slot 0) = scratch := by
          rw [set_set, getD_eq_getElem?_getD, getElem?_eq_getElem (by omega), Option.getD_some,
            set_getElem_self]
        show unwind tasks _ = _
        rw [hback]
      · rfl
    | begin =>
      rw [leads]
      dsimp only
      split <;> rfl
    | «end» =>
      rw [leads]
      dsimp only
      split <;> rfl
    | _ => rfl

/-- **The walk leaves the slots** as the tasks put them back. -/
theorem walk_scratch (tasks : List Task) (threads : List Thread) (scratch : List ℤ)
    (h : scratch.length = slotCount) :
    (walk code size slotCount position tasks threads scratch).2 = unwind tasks scratch := by
  fun_induction walk code size slotCount position tasks threads scratch with
  | case1 threads scratch => rfl
  | case2 threads scratch slot value tasks ih =>
    rw [unwind]
    exact ih (by rw [length_set, h])
  | case3 threads scratch pc tasks hmem ih => exact ih h
  | case4 threads scratch pc tasks hnew ih =>
    rw [ih (by rw [length_expand, h]), unwind_expand pc h]
    rfl

end Walks

end HdLang.Regexp

/-!
## The lowered program

The lists of a lowered program hold, at the place of an instruction, what the machine reads of it
(`lower_holds`), so that the machine's tests of an operation are a case analysis of the instruction.
-/

namespace HdLang.Regexp

/-- The kind of an instruction. -/
def Inst.op : Inst → ℤ
  | .char _ => 0
  | .anyChar => 1
  | .class _ negated => if negated then 3 else 2
  | .done => 4
  | .split _ _ => 5
  | .jump _ => 6
  | .save _ => 7
  | .begin => 8
  | .end => 9

theorem Inst.waits_iff (inst : Inst) : inst.waits = true ↔ inst.op ≤ 4 := by
  cases inst with
  | «class» ranges negated => cases negated <;> simp [waits, op]
  | _ => simp [waits, op]

/-- What the lists hold of the operands of an instruction at `pc`. -/
def Operands (program : Program) (pc : ℕ) : Inst → Prop
  | .char point => program.points[pc]? = some point
  | .class ranges _ => ∃ start stop, program.left[pc]? = some start ∧
      program.right[pc]? = some stop ∧ stop = start + ranges.length ∧
      ∀ k < ranges.length, program.ranges[start + k]? = ranges[k]?
  | .split first second => program.left[pc]? = some first ∧ program.right[pc]? = some second
  | .jump target => program.left[pc]? = some target
  | .save slot => program.left[pc]? = some slot
  | .anyChar => True
  | .done => True
  | .begin => True
  | .end => True

/-- The lists hold the code. -/
structure Lowered (program : Program) (code : List Inst) : Prop where
  ops : program.ops = code.map Inst.op
  left : program.left.length = code.length
  right : program.right.length = code.length
  points : program.points.length = code.length
  operands : ∀ pc inst, code[pc]? = some inst → Operands program pc inst

theorem Operands.lowerInst {program : Program} {pc : ℕ} {inst : Inst} (h : Operands program pc inst)
    (next : Inst) : Operands (lowerInst program next) pc inst := by
  have hkeep : ∀ {α : Type} {list : List α} {a : α} (more : List α), list[pc]? = some a →
      (list ++ more)[pc]? = some a := fun more ha => by
    obtain ⟨hlt, -⟩ := List.getElem?_eq_some_iff.mp ha
    rw [List.getElem?_append_left hlt]
    exact ha
  cases inst with
  | char point =>
    cases next <;> exact hkeep _ h
  | «class» ranges negated =>
    obtain ⟨start, stop, hleft, hright, hstop, hranges⟩ := h
    have hkeep' : ∀ more, ∀ k < ranges.length, (program.ranges ++ more)[start + k]? = ranges[k]? := by
      intro more k hk
      have hread := hranges k hk
      rw [List.getElem?_eq_getElem hk] at hread ⊢
      obtain ⟨hlt, -⟩ := List.getElem?_eq_some_iff.mp hread
      rw [List.getElem?_append_left hlt]
      exact hread
    cases next with
    | «class» more negated' => exact ⟨start, stop, hkeep _ hleft, hkeep _ hright, hstop, hkeep' _⟩
    | _ => exact ⟨start, stop, hkeep _ hleft, hkeep _ hright, hstop, hranges⟩
  | split first second => cases next <;> exact ⟨hkeep _ h.1, hkeep _ h.2⟩
  | jump target => cases next <;> exact hkeep _ h
  | save slot => cases next <;> exact hkeep _ h
  | anyChar => trivial
  | done => trivial
  | begin => trivial
  | «end» => trivial

theorem Lowered.snoc {program : Program} {code : List Inst} (h : Lowered program code) (inst : Inst)
    : Lowered (lowerInst program inst) (code ++ [inst]) := by
  have hlast : ∀ {α : Type} {list : List α} (a : α), list.length = code.length →
      (list ++ [a])[code.length]? = some a := fun a hlength => by
    rw [← hlength, List.getElem?_concat_length]
  refine ⟨?_, ?_, ?_, ?_, fun pc inst' hinst => ?_⟩
  · cases inst <;> simp [lowerInst, h.ops, Inst.op]
  · cases inst <;> simp [lowerInst, h.left]
  · cases inst <;> simp [lowerInst, h.right]
  · cases inst <;> simp [lowerInst, h.points]
  · obtain hlt | hge := Nat.lt_or_ge pc code.length
    · rw [List.getElem?_append_left hlt] at hinst
      exact (h.operands pc inst' hinst).lowerInst inst
    · rw [List.getElem?_append_right hge, List.getElem?_singleton] at hinst
      obtain ⟨hzero, hinst⟩ := Option.ite_none_right_eq_some.mp hinst
      obtain rfl := Option.some.inj hinst
      obtain rfl : pc = code.length := by omega
      cases inst with
      | char point => exact hlast point h.points
      | «class» ranges negated =>
        refine ⟨program.ranges.length, program.ranges.length + ranges.length, hlast _ h.left,
          hlast _ h.right, rfl, fun k hk => ?_⟩
        show (program.ranges ++ ranges)[program.ranges.length + k]? = ranges[k]?
        rw [List.getElem?_append_right (Nat.le_add_right _ _), Nat.add_sub_cancel_left]
      | split first second => exact ⟨hlast first h.left, hlast second h.right⟩
      | jump target => exact hlast target h.left
      | save slot => exact hlast slot h.left
      | anyChar => trivial
      | done => trivial
      | begin => trivial
      | «end» => trivial

/-- **The lowered program holds the code.** -/
theorem lower_lowered (code : List Inst) : Lowered (lower code) code := by
  have hall : ∀ (rest done : List Inst) (program : Program), Lowered program done →
      Lowered (rest.foldl lowerInst program) (done ++ rest) := by
    intro rest
    induction rest with
    | nil =>
      intro done program h
      rw [List.append_nil]
      exact h
    | cons inst rest ih =>
      intro done program h
      have hnext := ih (done ++ [inst]) _ (h.snoc inst)
      rw [List.append_assoc, List.singleton_append] at hnext
      exact hnext
  refine hall code [] ⟨[], [], [], [], []⟩ ⟨rfl, rfl, rfl, rfl, fun pc inst h => ?_⟩
  rw [List.getElem?_nil] at h
  exact nomatch h

end HdLang.Regexp
