import HdLang.Regexp.Compile
import Mathlib.Algebra.BigOperators.Group.List.Basic
import Mathlib.Tactic.Ring

/-!
# The code of a pattern

`compile` writes placeholders and sets their targets once these are known. `codeOf` is the code that
results, in one piece for the place where it starts (`compile_eq`); its length is the written-out size
and two marks for each copy of a group (`length_codeOf`).
-/

namespace HdLang.Regexp

open Function List Nat

/-! ### Sizes -/

mutual

/-- The written-out size of a pattern. -/
def writtenSize : Node → ℕ
  | .empty => 0
  | .group body _ => writtenSize body
  | .concat items => writtenSizes items
  | .alternate branches => writtenSizes branches + 2 * (branches.length - 1)
  | .repeat body min none _ =>
    if min = 0 then writtenSize body + 2 else min * writtenSize body + 1
  | .repeat body min (some high) _ =>
    min * writtenSize body + (high - min) * (writtenSize body + 1)
  | .literal _ => 1
  | .anyChar => 1
  | .class _ _ => 1
  | .begin => 1
  | .end => 1

/-- The sum of the written-out sizes. -/
def writtenSizes : List Node → ℕ
  | [] => 0
  | item :: items => writtenSize item + writtenSizes items

end

mutual

/-- The number of copies of groups that a pattern is written out with. -/
def groupCopies : Node → ℕ
  | .group body _ => groupCopies body + 1
  | .concat items => groupsCopies items
  | .alternate branches => groupsCopies branches
  | .repeat body min none _ => if min = 0 then groupCopies body else min * groupCopies body
  | .repeat body min (some high) _ => min * groupCopies body + (high - min) * groupCopies body
  | .empty => 0
  | .literal _ => 0
  | .anyChar => 0
  | .class _ _ => 0
  | .begin => 0
  | .end => 0

/-- The sum of the numbers of copies. -/
def groupsCopies : List Node → ℕ
  | [] => 0
  | item :: items => groupCopies item + groupsCopies items

end

/-! ### Code in one piece -/

/-- `n` copies of a code that is `size` long. -/
def copiesCode (code : ℕ → List Inst) (size : ℕ) : (n base : ℕ) → List Inst
  | 0, _ => []
  | n + 1, base => code base ++ copiesCode code size n (base + size)

/-- `n` optional copies, each after the instruction `enter` gives for its place. -/
def optionalCode (code : ℕ → List Inst) (size : ℕ) (enter : ℕ → Inst) : (n base : ℕ) → List Inst
  | 0, _ => []
  | n + 1, base =>
    enter base :: code (base + 1) ++ optionalCode code size enter n (base + 1 + size)

/-- The places of the first instructions of optional copies. -/
def optionalPlaces (size : ℕ) : (n base : ℕ) → List ℕ
  | 0, _ => []
  | n + 1, base => base :: optionalPlaces size n (base + 1 + size)

/-- The number of instructions of a pattern. -/
def codeSize (node : Node) : ℕ := writtenSize node + 2 * groupCopies node

/-- The number of instructions of alternatives. -/
def branchesSize : List Node → ℕ
  | [] => 0
  | [branch] => codeSize branch
  | branch :: next :: branches => codeSize branch + 2 + branchesSize (next :: branches)

mutual

/-- The code of a pattern that starts at `base`. -/
def codeOf : Node → (base : ℕ) → List Inst
  | .empty, _ => []
  | .literal value, _ => [.char value.toNat]
  | .anyChar, _ => [.anyChar]
  | .class items negated, _ => [.class (classRanges items) negated]
  | .begin, _ => [.begin]
  | .end, _ => [.end]
  | .group body index, base =>
    .save (2 * index) :: codeOf body (base + 1) ++ [.save (2 * index + 1)]
  | .concat items, base => concatCode items base
  | .alternate branches, base =>
    branchesCode branches (fun _ => .jump (base + branchesSize branches)) base
  | .repeat body min none greedy, base =>
    if min = 0 then
      choice (base + 1) (base + codeSize body + 2) greedy :: codeOf body (base + 1) ++ [.jump base]
    else
      copiesCode (codeOf body) (codeSize body) min base ++
        [choice (base + (min - 1) * codeSize body) (base + min * codeSize body + 1) greedy]
  | .repeat body min (some high) greedy, base =>
    let stop := base + min * codeSize body + (high - min) * (codeSize body + 1)
    copiesCode (codeOf body) (codeSize body) min base ++
      optionalCode (codeOf body) (codeSize body) (fun place => choice (place + 1) stop greedy)
        (high - min) (base + min * codeSize body)

/-- The code of a sequence. -/
def concatCode : List Node → (base : ℕ) → List Inst
  | [], _ => []
  | item :: items, base => codeOf item base ++ concatCode items (base + codeSize item)

/-- The code of alternatives, with the instruction `leave` gives for the place after each but the
last. -/
def branchesCode : List Node → (leave : ℕ → Inst) → (base : ℕ) → List Inst
  | [], _, _ => []
  | [branch], _, base => codeOf branch base
  | branch :: next :: branches, leave, base =>
    .split (base + 1) (base + codeSize branch + 2) :: codeOf branch (base + 1) ++
      leave (base + codeSize branch + 1) ::
        branchesCode (next :: branches) leave (base + codeSize branch + 2)

end

/-- The places of the jumps to the end of alternatives. -/
def branchesPlaces : List Node → (base : ℕ) → List ℕ
  | [], _ => []
  | [_], _ => []
  | branch :: next :: branches, base =>
    (base + codeSize branch + 1) :: branchesPlaces (next :: branches) (base + codeSize branch + 2)

/-! ### Lengths -/

section Lengths

variable {code : ℕ → List Inst} {size : ℕ}

theorem length_copiesCode (hcode : ∀ base, (code base).length = size) (n base : ℕ) :
    (copiesCode code size n base).length = n * size := by
  induction n generalizing base with
  | zero => simp [copiesCode]
  | succ n ih =>
    rw [copiesCode, length_append, hcode, ih, succ_mul, add_comm]

theorem length_optionalCode (hcode : ∀ base, (code base).length = size) (enter : ℕ → Inst)
    (n base : ℕ) : (optionalCode code size enter n base).length = n * (size + 1) := by
  induction n generalizing base with
  | zero => simp [optionalCode]
  | succ n ih =>
    rw [optionalCode, length_append, length_cons, hcode, ih, succ_mul, add_comm]

end Lengths

/-- The sizes of alternatives, with the two instructions of each but the last. -/
theorem branchesSize_eq (branches : List Node) :
    branchesSize branches =
      writtenSizes branches + 2 * (branches.length - 1) + 2 * groupsCopies branches := by
  fun_induction branchesSize branches with
  | case1 => simp [writtenSizes, groupsCopies]
  | case2 branch => simp [writtenSizes, groupsCopies, codeSize]
  | case3 branch next branches ih =>
    rw [ih]
    simp only [writtenSizes, groupsCopies, codeSize, length_cons]
    omega

mutual

/-- **The length of the code** is the written-out size and two marks for each copy of a group. -/
theorem length_codeOf (node : Node) (base : ℕ) : (codeOf node base).length = codeSize node := by
  cases node with
  | empty => simp [codeOf, codeSize, writtenSize, groupCopies]
  | literal value => simp [codeOf, codeSize, writtenSize, groupCopies]
  | anyChar => simp [codeOf, codeSize, writtenSize, groupCopies]
  | «class» items negated => simp [codeOf, codeSize, writtenSize, groupCopies]
  | begin => simp [codeOf, codeSize, writtenSize, groupCopies]
  | «end» => simp [codeOf, codeSize, writtenSize, groupCopies]
  | group body index =>
    rw [codeOf, length_append, length_cons, length_codeOf body, codeSize, codeSize, writtenSize,
      groupCopies, length_singleton]
    ring
  | concat items =>
    rw [codeOf, length_concatCode items, codeSize, writtenSize, groupCopies]
  | alternate branches =>
    rw [codeOf, length_branchesCode branches, branchesSize_eq, codeSize, writtenSize, groupCopies]
  | «repeat» body min max greedy =>
    have hbody := length_codeOf body
    cases max with
    | none =>
      by_cases hmin : min = 0
      · rw [codeOf, if_pos hmin, length_append, length_cons, hbody, codeSize, codeSize, writtenSize,
          groupCopies, if_pos hmin, if_pos hmin, length_singleton]
        ring
      · rw [codeOf, if_neg hmin, length_append, length_copiesCode hbody, codeSize, codeSize,
          writtenSize, groupCopies, if_neg hmin, if_neg hmin, length_singleton]
        ring
    | some high =>
      rw [codeOf, length_append, length_copiesCode hbody, length_optionalCode hbody, codeSize,
        codeSize, writtenSize, groupCopies]
      ring

theorem length_concatCode (items : List Node) (base : ℕ) :
    (concatCode items base).length = writtenSizes items + 2 * groupsCopies items := by
  cases items with
  | nil => simp [concatCode, writtenSizes, groupsCopies]
  | cons item items =>
    rw [concatCode, length_append, length_codeOf item, length_concatCode items, writtenSizes,
      groupsCopies, codeSize]
    ring

theorem length_branchesCode (branches : List Node) (leave : ℕ → Inst) (base : ℕ) :
    (branchesCode branches leave base).length = branchesSize branches := by
  match branches with
  | [] => rfl
  | [branch] => rw [branchesCode, branchesSize, length_codeOf branch]
  | branch :: next :: branches =>
    rw [branchesCode, length_append, length_cons, length_cons, length_codeOf branch,
      length_branchesCode (next :: branches), branchesSize]
    ring

end

/-! ### The compiler -/

section Patches

variable {code : ℕ → List Inst} {size : ℕ}

theorem set_append_cons (program rest : List Inst) (old new : Inst) :
    (program ++ old :: rest).set program.length new = program ++ new :: rest := by
  rw [set_append_right _ _ le_rfl, Nat.sub_self, set_cons_zero]

/-- Setting instructions does not change the length that their targets are read from. -/
theorem foldl_set_length (f : ℕ → ℕ → Inst) (places : List ℕ) (program : List Inst) :
    places.foldl (fun program place => program.set place (f place program.length)) program =
      places.foldl (fun p place => p.set place (f place program.length)) program := by
  induction places generalizing program with
  | nil => rfl
  | cons place places ih =>
    rw [foldl_cons, foldl_cons, ih, length_set]

theorem iterate_copies {step : List Inst → List Inst} (hcode : ∀ base, (code base).length = size)
    (hstep : ∀ program, step program = program ++ code program.length) (n : ℕ)
    (program : List Inst) :
    step^[n] program = program ++ copiesCode code size n program.length := by
  induction n generalizing program with
  | zero => rw [iterate_zero_apply, copiesCode, append_nil]
  | succ n ih =>
    rw [iterate_succ_apply, hstep, ih, length_append, hcode, copiesCode, append_assoc]

theorem copiesCode_succ (n base : ℕ) :
    copiesCode code size (n + 1) base = copiesCode code size n base ++ code (base + n * size) := by
  induction n generalizing base with
  | zero => simp [copiesCode]
  | succ n ih =>
    rw [copiesCode, ih, copiesCode, append_assoc, succ_mul, add_assoc, add_comm size]

/-- Optional copies, with their first instructions still to be set. -/
theorem iterate_optional {step : List Inst → List Inst} (hcode : ∀ base, (code base).length = size)
    (hstep : ∀ program, step program = program ++ code program.length) (enter : Inst) (n : ℕ)
    (program : List Inst) (places : List ℕ) :
    (fun s : List Inst × List ℕ => (step (s.1 ++ [enter]), s.2 ++ [s.1.length]))^[n]
        (program, places) =
      (program ++ optionalCode code size (fun _ => enter) n program.length,
        places ++ optionalPlaces size n program.length) := by
  induction n generalizing program places with
  | zero =>
    rw [iterate_zero_apply, optionalCode, optionalPlaces, append_nil, append_nil]
  | succ n ih =>
    rw [iterate_succ_apply]
    dsimp only
    rw [ih, hstep, optionalCode, optionalPlaces]
    simp [hcode, add_assoc, add_comm 1 size]

/-- Setting the first instructions of optional copies. -/
theorem foldl_optional (hcode : ∀ base, (code base).length = size) (old new : ℕ → Inst) (n : ℕ)
    (program : List Inst) :
    (optionalPlaces size n program.length).foldl (fun p place => p.set place (new place))
        (program ++ optionalCode code size old n program.length) =
      program ++ optionalCode code size new n program.length := by
  induction n generalizing program with
  | zero => rfl
  | succ n ih =>
    have hnext := ih (program ++ new program.length :: code (program.length + 1))
    rw [length_append, length_cons, hcode, ← add_assoc,
      add_right_comm program.length size 1] at hnext
    rw [optionalPlaces, foldl_cons, optionalCode, optionalCode, cons_append, set_append_cons,
      ← cons_append, ← append_assoc, hnext, append_assoc]

end Patches

mutual

/-- **The compiler writes the code of the pattern** after the program. -/
theorem compile_eq (node : Node) (program : List Inst) :
    compile node program = program ++ codeOf node program.length := by
  cases node with
  | empty => rw [compile, codeOf, append_nil]
  | literal value => rw [compile, codeOf]
  | anyChar => rw [compile, codeOf]
  | «class» items negated => rw [compile, codeOf]
  | begin => rw [compile, codeOf]
  | «end» => rw [compile, codeOf]
  | group body index =>
    rw [compile, compile_eq body, codeOf, length_append, length_singleton]
    simp
  | concat items => rw [compile, codeOf, compileConcat_eq items]
  | alternate branches =>
    rw [compile, compileAlternate_eq branches, codeOf]
    dsimp only
    rw [nil_append, foldl_set_length (fun _ length => .jump length), length_append,
      length_branchesCode]
    exact foldl_branches branches _ _ program
  | «repeat» body min max greedy =>
    have hbody := compile_eq body
    have hlength := length_codeOf body
    cases max with
    | none =>
      by_cases hmin : min = 0
      · rw [compile, if_pos hmin, codeOf, if_pos hmin]
        dsimp only
        rw [hbody, append_assoc, append_assoc, singleton_append, set_append_cons]
        simp [hlength]
        rfl
      · rw [compile, if_neg hmin, codeOf, if_neg hmin]
        dsimp only
        obtain ⟨n, rfl⟩ : ∃ n, min = n + 1 := ⟨min - 1, by omega⟩
        have hstop : n * codeSize body + codeSize body = (n + 1) * codeSize body :=
          (Nat.succ_mul n _).symm
        rw [Nat.add_sub_cancel, iterate_copies hlength hbody, hbody, copiesCode_succ]
        simp only [length_append, length_copiesCode hlength, hlength, append_assoc, hstop]
    | some high =>
      rw [compile, codeOf]
      dsimp only
      rw [iterate_copies hlength hbody, iterate_optional hlength hbody]
      dsimp only
      rw [nil_append, foldl_set_length (fun place length => choice (place + 1) length greedy),
        foldl_optional hlength]
      simp only [length_append, length_copiesCode hlength, length_optionalCode hlength]
      rw [append_assoc]

theorem compileConcat_eq (items : List Node) (program : List Inst) :
    compileConcat items program = program ++ concatCode items program.length := by
  cases items with
  | nil => rw [compileConcat, concatCode, append_nil]
  | cons item items =>
    rw [compileConcat, concatCode, compile_eq item, compileConcat_eq items, length_append,
      length_codeOf, append_assoc]

theorem compileAlternate_eq (branches : List Node) (program : List Inst) (jumps : List ℕ) :
    compileAlternate branches program jumps =
      (program ++ branchesCode branches (fun _ => .jump 0) program.length,
        jumps ++ branchesPlaces branches program.length) := by
  match branches with
  | [] => simp [compileAlternate, branchesCode, branchesPlaces]
  | [branch] => simp [compileAlternate, branchesCode, branchesPlaces, compile_eq branch]
  | branch :: next :: branches =>
    rw [compileAlternate]
    have hprogram : compile branch (program ++ [.split (program.length + 1) 0]) ++ [.jump 0] =
        program ++ .split (program.length + 1) 0 ::
          (codeOf branch (program.length + 1) ++ [.jump 0]) := by
      rw [compile_eq branch, length_append, length_singleton]
      simp
    have hlength : (compile branch (program ++ [.split (program.length + 1) 0])).length =
        program.length + codeSize branch + 1 := by
      rw [compile_eq branch, length_append, length_append, length_codeOf, length_singleton]
      omega
    rw [compileAlternate_eq (next :: branches), hprogram, set_append_cons, branchesCode,
      branchesPlaces, hlength]
    simp only [length_append, length_cons, length_codeOf, length_nil]
    rw [show program.length + (codeSize branch + (0 + 1) + 1) = program.length + codeSize branch + 2
      by omega]
    simp

theorem foldl_branches (branches : List Node) (old new : ℕ → Inst) (program : List Inst) :
    (branchesPlaces branches program.length).foldl (fun p place => p.set place (new place))
        (program ++ branchesCode branches old program.length) =
      program ++ branchesCode branches new program.length := by
  match branches with
  | [] => rfl
  | [branch] => simp [branchesCode, branchesPlaces]
  | branch :: next :: branches =>
    have hnext := foldl_branches (next :: branches) old new (program ++
      .split (program.length + 1) (program.length + codeSize branch + 2) ::
        (codeOf branch (program.length + 1) ++ [new (program.length + codeSize branch + 1)]))
    have hlength : (program ++ .split (program.length + 1) (program.length + codeSize branch + 2) ::
        (codeOf branch (program.length + 1) ++ [new (program.length + codeSize branch + 1)])).length =
          program.length + codeSize branch + 2 := by
      simp only [length_append, length_cons, length_codeOf, length_nil]
      omega
    have hplace : (program ++ .split (program.length + 1) (program.length + codeSize branch + 2) ::
        codeOf branch (program.length + 1)).length = program.length + codeSize branch + 1 := by
      simp only [length_append, length_cons, length_codeOf]
      omega
    have hold : program ++ branchesCode (branch :: next :: branches) old program.length =
        (program ++ .split (program.length + 1) (program.length + codeSize branch + 2) ::
          codeOf branch (program.length + 1)) ++ old (program.length + codeSize branch + 1) ::
            branchesCode (next :: branches) old (program.length + codeSize branch + 2) := by
      rw [branchesCode]
      simp
    rw [hlength] at hnext
    rw [branchesPlaces, foldl_cons, hold, ← hplace, set_append_cons, hplace, branchesCode]
    simpa using hnext

end

end HdLang.Regexp
