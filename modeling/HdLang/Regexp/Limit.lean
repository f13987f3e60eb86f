import HdLang.Regexp.Size
import HdLang.Regexp.Walked

/-!
# The size limit

A pattern that parses is accepted or is too large, by the size that `program_size` computes
(`new_eq`). The compiled code leads nowhere outside itself (`targets_program`), whatever its size is, and so
no call of `add_thread` is outside the lists that the machine starts with (`Lists.addThread_ok`).
-/

namespace HdLang.Regexp

open List Nat

open Search (Bytes ok_bind sub_eq)

/-! ### Targets -/

/-- Where the instructions of a code at `base` lead is below `width`. -/
def Below (width base : ℕ) (code : List Inst) : Prop :=
  ∀ (k : ℕ) (inst : Inst), code[k]? = some inst → inst.TargetsBelow width (base + k)

variable {pc : ℕ} {enter : ℕ → Inst}

section Below

variable {width base : ℕ} {code code' : List Inst}

theorem Below.nil : Below width base [] := fun k inst h => by
  rw [List.getElem?_nil] at h
  exact nomatch h

theorem Below.append (h : Below width base code) (h' : Below width (base + code.length) code') :
    Below width base (code ++ code') := by
  intro k inst hk
  obtain hlt | hge := lt_or_ge k code.length
  · rw [List.getElem?_append_left hlt] at hk
    exact h k inst hk
  · rw [List.getElem?_append_right hge] at hk
    have hinst := h' _ inst hk
    rw [show base + code.length + (k - code.length) = base + k by omega] at hinst
    exact hinst

variable {inst : Inst}

theorem Below.singleton (h : inst.TargetsBelow width base) :
    Below width base [inst] := by
  intro k inst' hk
  rw [List.getElem?_singleton] at hk
  obtain ⟨rfl, hk⟩ := Option.ite_none_right_eq_some.mp hk
  obtain rfl := Option.some.inj hk
  exact h

theorem Below.cons (h : inst.TargetsBelow width base) (h' : Below width (base + 1) code)
    : Below width base (inst :: code) :=
  Below.append (Below.singleton h) h'

theorem targetsBelow_choice {body out : ℕ} (hbody : body < width) (hout : out < width)
    (greedy : Bool) : (choice body out greedy).TargetsBelow width pc := by
  cases greedy with
  | true => exact ⟨hbody, hout⟩
  | false => exact ⟨hout, hbody⟩

variable {size : ℕ} {codeAt : ℕ → List Inst} (hlength : ∀ base, (codeAt base).length = size)
  (hcode : ∀ base, base + size < width → Below width base (codeAt base))

include hlength hcode

theorem below_copiesCode (n base : ℕ) (hwidth : base + n * size < width) :
    Below width base (copiesCode codeAt size n base) := by
  induction n generalizing base with
  | zero => exact Below.nil
  | succ n ih =>
    rw [succ_mul] at hwidth
    rw [copiesCode]
    refine (hcode base (by omega)).append ?_
    rw [hlength]
    exact ih (base + size) (by omega)

theorem below_optionalCode
    (henter : ∀ place, place + 1 < width → (enter place).TargetsBelow width place) (n base : ℕ)
    (hwidth : base + n * (size + 1) < width) :
    Below width base (optionalCode codeAt size enter n base) := by
  induction n generalizing base with
  | zero => exact Below.nil
  | succ n ih =>
    rw [succ_mul] at hwidth
    rw [optionalCode]
    refine Below.append (Below.cons (henter base (by omega)) (hcode (base + 1) (by omega))) ?_
    rw [length_cons, hlength, show base + (size + 1) = base + 1 + size by omega]
    exact ih (base + 1 + size) (by omega)

end Below

mutual

/-- The code of a pattern leads nowhere but to itself and to the place after it. -/
theorem below_codeOf (node : Node) (width base : ℕ) (hwidth : base + codeSize node < width) :
    Below width base (codeOf node base) := by
  cases node with
  | empty => exact Below.nil
  | literal value => exact Below.singleton hwidth
  | anyChar => exact Below.singleton hwidth
  | «class» items negated => exact Below.singleton hwidth
  | begin => exact Below.singleton hwidth
  | «end» => exact Below.singleton hwidth
  | group body index =>
    rw [codeSize, writtenSize, groupCopies] at hwidth
    have hbody := below_codeOf body width (base + 1) (by unfold codeSize; omega)
    rw [codeOf]
    refine Below.append (Below.cons ?_ hbody) (Below.singleton ?_)
    · change base + 1 < width
      omega
    · rw [length_cons, length_codeOf]
      change base + (codeSize body + 1) + 1 < width
      unfold codeSize
      omega
  | concat items =>
    rw [codeSize, writtenSize, groupCopies] at hwidth
    rw [codeOf]
    exact below_concatCode items width base (by omega)
  | alternate branches =>
    rw [codeSize, writtenSize, groupCopies, ← branchesSize_eq] at hwidth
    rw [codeOf]
    exact below_branchesCode branches width base _ (fun _ => hwidth) hwidth
  | «repeat» body least most greedy =>
    have hbody := below_codeOf body width
    have hlength := length_codeOf body
    cases most with
    | none =>
      rw [codeSize, writtenSize, groupCopies] at hwidth
      rw [codeOf]
      by_cases hleast : least = 0
      · rw [if_pos hleast, if_pos hleast] at hwidth
        rw [if_pos hleast]
        have hsize : base + codeSize body + 2 < width := by unfold codeSize; omega
        refine Below.append (Below.cons ?_ (hbody (base + 1) (by omega))) (Below.singleton ?_)
        · exact targetsBelow_choice (by omega) hsize greedy
        · change base < width
          omega
      · rw [if_neg hleast, if_neg hleast] at hwidth
        rw [if_neg hleast]
        have hsize : base + least * codeSize body + 1 < width := by
          rw [codeSize, mul_add, mul_left_comm]
          omega
        have hlast : (least - 1) * codeSize body ≤ least * codeSize body :=
          mul_le_mul_right _ (sub_le _ _)
        refine (below_copiesCode hlength hbody least base (by omega)).append (Below.singleton ?_)
        exact targetsBelow_choice (by omega) hsize greedy
    | some high =>
      rw [codeSize, writtenSize, groupCopies] at hwidth
      rw [codeOf]
      have hsize : base + least * codeSize body + (high - least) * (codeSize body + 1) < width := by
        have hsum : base + least * codeSize body + (high - least) * (codeSize body + 1) =
            base + (least * writtenSize body + (high - least) * (writtenSize body + 1) +
              2 * (least * groupCopies body + (high - least) * groupCopies body)) := by
          unfold codeSize
          ring
        rw [hsum]
        exact hwidth
      refine (below_copiesCode hlength hbody least base (by omega)).append ?_
      rw [length_copiesCode hlength]
      exact below_optionalCode hlength hbody
        (fun place hplace => targetsBelow_choice hplace hsize greedy) _ _ hsize

theorem below_concatCode (items : List Node) (width base : ℕ)
    (hwidth : base + (writtenSizes items + 2 * groupsCopies items) < width) :
    Below width base (concatCode items base) := by
  cases items with
  | nil => exact Below.nil
  | cons item items =>
    rw [writtenSizes, groupsCopies] at hwidth
    have hsize : base + codeSize item + (writtenSizes items + 2 * groupsCopies items) < width := by
      unfold codeSize
      omega
    rw [concatCode]
    refine (below_codeOf item width base (by omega)).append ?_
    rw [length_codeOf]
    exact below_concatCode items width _ hsize

theorem below_branchesCode (branches : List Node) (width base : ℕ) (leave : ℕ → Inst)
    (hleave : ∀ place, (leave place).TargetsBelow width place)
    (hwidth : base + branchesSize branches < width) :
    Below width base (branchesCode branches leave base) := by
  match branches with
  | [] => exact Below.nil
  | [branch] => exact below_codeOf branch width base hwidth
  | branch :: next :: branches =>
    rw [branchesSize] at hwidth
    have hrest := below_branchesCode (next :: branches) width (base + codeSize branch + 2) leave
      hleave (by omega)
    rw [branchesCode]
    refine Below.append (Below.cons ⟨?_, ?_⟩ (below_codeOf branch width (base + 1) (by omega))) ?_
    · omega
    · omega
    · rw [length_cons, length_codeOf]
      exact Below.cons (hleave _) (by
        rw [show base + (codeSize branch + 1) + 1 = base + codeSize branch + 2 by omega]
        exact hrest)

end

/-- The code of a regex: the code of its pattern and the last instruction. -/
def codeOfRegex (node : Node) : List Inst := codeOf node 0 ++ [.done]

theorem length_codeOfRegex (node : Node) : (codeOfRegex node).length = codeSize node + 1 := by
  rw [codeOfRegex, length_append, length_codeOf, length_singleton]

/-- **No instruction of a regex leads out of its code.** -/
theorem targets_program (node : Node) : Targets (codeOfRegex node) := by
  have hbelow : Below (codeOfRegex node).length 0 (codeOfRegex node) := by
    rw [length_codeOfRegex]
    refine (below_codeOf node _ 0 (by omega)).append (Below.singleton ?_)
    trivial
  intro pc inst hinst
  have htarget := hbelow pc inst hinst
  rw [zero_add] at htarget
  exact htarget

/-! ### Marks of groups -/

/-- Whether the instruction marks an end of a group. -/
def Inst.marks : Inst → Bool
  | .save _ => true
  | _ => false

theorem marks_choice (body out : ℕ) (greedy : Bool) : (choice body out greedy).marks = false := by
  cases greedy <;> rfl

section Marks

variable {codeAt : ℕ → List Inst} {size marks : ℕ}
  (hcode : ∀ base, (codeAt base).countP Inst.marks = marks)

include hcode

theorem countP_copiesCode (n base : ℕ) :
    (copiesCode codeAt size n base).countP Inst.marks = n * marks := by
  induction n generalizing base with
  | zero => simp [copiesCode]
  | succ n ih => rw [copiesCode, countP_append, hcode, ih, succ_mul, add_comm]

theorem countP_optionalCode (henter : ∀ place, (enter place).marks = false) (n base : ℕ) :
    (optionalCode codeAt size enter n base).countP Inst.marks = n * marks := by
  induction n generalizing base with
  | zero => simp [optionalCode]
  | succ n ih =>
    rw [optionalCode, countP_append, countP_cons_of_neg (by simp [henter]), hcode, ih, succ_mul,
      add_comm]

end Marks

mutual

/-- **The marks in the code**: two for each copy of a group. -/
theorem countP_codeOf (node : Node) (base : ℕ) :
    (codeOf node base).countP Inst.marks = 2 * groupCopies node := by
  cases node with
  | empty => rfl
  | literal value => rfl
  | anyChar => rfl
  | «class» items negated => rfl
  | begin => rfl
  | «end» => rfl
  | group body index =>
    rw [codeOf, countP_append, countP_cons_of_pos rfl, countP_codeOf body, groupCopies]
    rfl
  | concat items =>
    rw [codeOf, groupCopies, countP_concatCode]
  | alternate branches =>
    rw [codeOf, groupCopies, countP_branchesCode branches _ (fun _ => rfl)]
  | «repeat» body least most greedy =>
    have hbody := countP_codeOf body
    cases most with
    | none =>
      rw [codeOf, groupCopies]
      by_cases hleast : least = 0
      · rw [if_pos hleast, if_pos hleast, countP_append,
          countP_cons_of_neg (by simp [marks_choice]), hbody]
        rfl
      · rw [if_neg hleast, if_neg hleast, countP_append, countP_copiesCode hbody, countP_singleton,
          marks_choice, if_neg Bool.false_ne_true]
        ring
    | some high =>
      rw [codeOf, groupCopies, countP_append, countP_copiesCode hbody,
        countP_optionalCode hbody fun place => marks_choice _ _ _]
      ring

theorem countP_concatCode (items : List Node) (base : ℕ) :
    (concatCode items base).countP Inst.marks = 2 * groupsCopies items := by
  cases items with
  | nil => rfl
  | cons item items =>
    rw [concatCode, countP_append, countP_codeOf item, countP_concatCode items, groupsCopies]
    ring

theorem countP_branchesCode (branches : List Node) (leave : ℕ → Inst)
    (hleave : ∀ place, (leave place).marks = false) (base : ℕ) :
    (branchesCode branches leave base).countP Inst.marks = 2 * groupsCopies branches := by
  match branches with
  | [] => rfl
  | [branch] =>
    rw [branchesCode, countP_codeOf branch, groupsCopies, groupsCopies, add_zero]
  | branch :: next :: branches =>
    rw [branchesCode, countP_append, countP_cons_of_neg (by simp [Inst.marks]),
      countP_cons_of_neg (by simp [hleave]), countP_codeOf branch,
      countP_branchesCode (next :: branches) leave hleave,
      show groupsCopies (branch :: next :: branches) =
        groupCopies branch + groupsCopies (next :: branches) from rfl]
    ring

end

/-! ### The lists of a search -/

/-- The lists that a search can come to, with the lengths of its two thread lists: from those of a new
machine by clearing a list, by writing the scratch slots, and by adding a thread to a list. -/
inductive Lists (turns : ℕ) (program : Program) (size slotCount : ℕ) (fresh : Buffers) :
    Buffers → ℕ → ℕ → Prop
  | fresh : Lists turns program size slotCount fresh fresh 0 0
  | clearFirst {b : Buffers} {m n : ℕ} (h : Lists turns program size slotCount fresh b m n) :
    Lists turns program size slotCount fresh b 0 n
  | clearSecond {b : Buffers} {m n : ℕ} (h : Lists turns program size slotCount fresh b m n) :
    Lists turns program size slotCount fresh b m 0
  | write {b : Buffers} {m n : ℕ} (h : Lists turns program size slotCount fresh b m n)
    (scratch : List ℤ) (hlength : scratch.length = b.scratch.length) :
    Lists turns program size slotCount fresh { b with scratch := scratch } m n
  | addFirst {b b' : Buffers} {m n m' pc position : ℕ}
    (h : Lists turns program size slotCount fresh b m n) (hpc : pc < program.ops.length)
    (hadd : addThread turns program size slotCount b 0 m pc position = .ok (b', m')) :
    Lists turns program size slotCount fresh b' m' n
  | addSecond {b b' : Buffers} {m n n' pc position : ℕ}
    (h : Lists turns program size slotCount fresh b m n) (hpc : pc < program.ops.length)
    (hadd : addThread turns program size slotCount b program.ops.length n pc position =
      .ok (b', n')) :
    Lists turns program size slotCount fresh b' m n'

section Lists

variable {code : List Inst} {program : Program} (hprogram : Lowered program code)
  (htargets : Targets code) {size slotCount turns : ℕ} (hturns : 2 * code.length + 1 < turns)

/-- The lists of a machine hold threads of the code at both sides. -/
def Held (code : List Inst) (slotCount : ℕ) (b : Buffers) (m n : ℕ) : Prop :=
  Shaped b code.length slotCount ∧
  (∃ threads, threads.length = m ∧ Holds code slotCount b 0 threads) ∧
  ∃ threads, threads.length = n ∧ Holds code slotCount b code.length threads

theorem holds_nil (b : Buffers) (side : ℕ) : Holds code slotCount b side [] :=
  ⟨nodup_nil, fun _ h => (nomatch h), fun _ h => (nomatch h), fun _ _ h => (nomatch h),
    fun _ _ h => (nomatch h), fun _ h => (nomatch h)⟩

include hprogram htargets hturns

variable {b : Buffers} {m n : ℕ}

theorem Held.addFirst (h : Held code slotCount b m n) (hpc : pc < code.length) (position : ℕ) :
    ∃ b' m', addThread turns program size slotCount b 0 m pc position = .ok (b', m') ∧
      Held code slotCount b' m' n := by
  obtain ⟨hshape, ⟨threads, rfl, hfirst⟩, threads', rfl, hsecond⟩ := h
  obtain ⟨b', hadd, hshape', hholds, -, huntouched⟩ := @addThread_eq code slotCount _
    position size _ _ _ _ _ hprogram htargets (by omega) hshape hfirst hpc hturns
  exact ⟨b', _, hadd, hshape', ⟨_, rfl, hholds⟩, threads', rfl,
    huntouched.holds (.inr (by omega)) hsecond⟩

theorem Held.addSecond (h : Held code slotCount b m n) (hpc : pc < code.length) (position : ℕ) :
    ∃ b' n', addThread turns program size slotCount b code.length n pc position = .ok (b', n') ∧
      Held code slotCount b' m n' := by
  obtain ⟨hshape, ⟨threads, rfl, hfirst⟩, threads', rfl, hsecond⟩ := h
  obtain ⟨b', hadd, hshape', hholds, -, huntouched⟩ := @addThread_eq code slotCount _
    position size _ _ _ _ _ hprogram htargets (by omega) hshape hsecond hpc hturns
  exact ⟨b', _, hadd, hshape', ⟨threads, rfl, huntouched.holds (.inl (by omega)) hfirst⟩, _, rfl,
    hholds⟩

theorem Lists.held {fresh : Buffers} (hfresh : Shaped fresh code.length slotCount)
    (h : Lists turns program size slotCount fresh b m n) : Held code slotCount b m n := by
  have hwidth : program.ops.length = code.length := by rw [hprogram.ops, length_map]
  induction h with
  | fresh => exact ⟨hfresh, ⟨[], rfl, holds_nil _ _⟩, [], rfl, holds_nil _ _⟩
  | clearFirst h ih => exact ⟨ih.1, ⟨[], rfl, holds_nil _ _⟩, ih.2.2⟩
  | clearSecond h ih => exact ⟨ih.1, ih.2.1, [], rfl, holds_nil _ _⟩
  | write h scratch hlength ih =>
    obtain ⟨hshape, ⟨threads, hm, hfirst⟩, threads', hn, hsecond⟩ := ih
    exact ⟨⟨hshape.dense, hshape.sparse, hshape.slots, hshape.stack, hshape.values,
      hlength.trans hshape.scratch⟩,
      ⟨threads, hm, hfirst.nodup, hfirst.lt, hfirst.length, hfirst.dense, hfirst.sparse, hfirst.slots⟩,
      threads', hn, hsecond.nodup, hsecond.lt, hsecond.length, hsecond.dense, hsecond.sparse,
      hsecond.slots⟩
  | addFirst h hpc hadd ih =>
    obtain ⟨b', m', hadd', hheld⟩ := ih.addFirst hprogram htargets hturns (hwidth ▸ hpc) _
    obtain ⟨rfl, rfl⟩ := Prod.mk.inj (Except.ok.inj (hadd.symm.trans hadd'))
    exact hheld
  | addSecond h hpc hadd ih =>
    rw [hwidth] at hadd
    obtain ⟨b', n', hadd', hheld⟩ := ih.addSecond hprogram htargets hturns (hwidth ▸ hpc) _
    obtain ⟨rfl, rfl⟩ := Prod.mk.inj (Except.ok.inj (hadd.symm.trans hadd'))
    exact hheld

end Lists

/-! ### Regexes -/

section Regexes

variable {fuel : ℕ} {pattern : Text} {node : Node} {names : List Text}
  (h : parse fuel pattern = .ok (node, names))

include h

theorem new_eq :
    Regex.new fuel pattern =
      if maxProgram < heldSize node then .error (.error (.tooLarge 0))
      else .ok ⟨pattern, lower (codeOfRegex node), prefilter node, names⟩ := by
  have hsize := programSize_eq node (parse_wellFormed h)
  have hlimit : Nat.min (heldSize node) (maxProgram + 1) > maxProgram ↔
      maxProgram < heldSize node := by
    change min _ _ > _ ↔ _
    omega
  unfold Regex.new
  rw [h]
  dsimp only [bind, Except.bind]
  rw [hsize]
  dsimp only
  rw [compile_eq, nil_append]
  by_cases hgreat : maxProgram < heldSize node
  · rw [if_pos (hlimit.mpr hgreat), if_pos hgreat]
    rfl
  · rw [if_neg (mt hlimit.mp hgreat), if_neg hgreat]
    rfl

theorem tooLarge_iff :
    Regex.new fuel pattern = .error (.error (.tooLarge 0)) ↔ maxProgram < heldSize node := by
  rw [new_eq h]
  split
  · next hgreat => exact ⟨fun _ => hgreat, fun _ => rfl⟩
  · next hsmall => exact ⟨fun hnew => (nomatch hnew), fun hgreat => absurd hgreat hsmall⟩

theorem program_of_new {regex : Regex} (hnew : Regex.new fuel pattern = .ok regex) :
    regex.program = lower (codeOfRegex node) := by
  rw [new_eq h] at hnew
  split at hnew
  · exact nomatch hnew
  · obtain rfl := Except.ok.inj hnew
    rfl

end Regexes

/-- The lists of a new machine have the sizes that its program asks for. -/
theorem shaped_newVm (regex : Regex) (text : Bytes) (slotCount : ℕ) :
    Shaped (newVm regex text slotCount).buffers regex.program.ops.length slotCount :=
  ⟨length_replicate, length_replicate, length_replicate, length_replicate,
    length_replicate, length_replicate⟩

/-! ### The limit -/

/-- The limit is exact at a pattern: it rejects by the written-out size, which `program_size` computes up
to the limit, the program of a regex has as many instructions besides the marks of groups and the last
one, and adding threads stays within the lists of a machine. -/
structure LimitExact (fuel : ℕ) (pattern : Text) (node : Node) : Prop where
  tooLarge : Regex.new fuel pattern = .error (.error (.tooLarge 0)) ↔ maxProgram < writtenSize node
  size : writtenSize node ≤ maxProgram → programSize node = .ok (writtenSize node)
  code : ∀ regex, Regex.new fuel pattern = .ok regex →
    ∃ code, regex.program = lower (code ++ [.done]) ∧
      code.countP Inst.marks = 2 * groupCopies node ∧
      code.countP (fun inst => !inst.marks) = writtenSize node
  room : ∀ regex, Regex.new fuel pattern = .ok regex → ∀ (text : Bytes) (slotCount turns : ℕ),
    2 * regex.program.ops.length + 1 < turns → ∀ (b : Buffers) (m n : ℕ),
    Lists turns regex.program text.length slotCount (newVm regex text slotCount).buffers b m n →
    ∀ pc < regex.program.ops.length, ∀ position : ℕ,
      (∃ r, addThread turns regex.program text.length slotCount b 0 m pc position = .ok r) ∧
      ∃ r, addThread turns regex.program text.length slotCount b regex.program.ops.length n pc
        position = .ok r

/-- `(?:a{1000}){11}|b`: eleven thousand and three instructions. -/
def wideBranch : Text :=
  ['(', '?', ':', 'a', '\x7b', '1', '0', '0', '0', '\x7d', ')', '\x7b', '1', '1', '\x7d', '|', 'b']

/-- The tree of `wideBranch`. -/
def wideBranchNode : Node :=
  .alternate [.repeat (.repeat (.literal 'a') 1000 (some 1000) true) 11 (some 11) true, .literal 'b']

end HdLang.Regexp
