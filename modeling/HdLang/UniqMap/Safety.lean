import HdLang.UniqMap.Cursors
import Mathlib.Tactic.Abel

/-!
# Programs with a map

A program makes a map, runs operations on it and lets go of it, by dropping it or by iterating over
it and dropping the cursor. Whatever the operations are, it replies what the association list replies
and drops what the list drops, in the same order, every value that it moved in has been moved out or
dropped once, and it stops early only for want of memory: no probe runs on, and no slot or index word
outside the buffer, and no slot without a value, is touched.
-/

namespace HdLang.UniqMap

open AssocList Ensures

variable {K V : Type}

inductive Start
  | new
  | withCapacity (capacity : ℕ)

inductive Finish
  | drop
  /-- `iter` on the map itself, with so many calls of `next` before the cursor is dropped. -/
  | intoIter (count : ℕ)

structure Program (K V : Type) where
  start : Start
  ops : List (Op K V)
  finish : Finish

/-- What a program gets: the replies of its operations, and what the last cursor gave. -/
structure Results (K V : Type) where
  replies : List (Reply K V)
  given : List (Option (K × V))
  deriving DecidableEq, Repr

/-- Before the map. -/
def World.start : World K V := ⟨⟨0, fun _ => none, fun _ => 0, 0, 0, 0⟩, [], 0⟩

section Run

variable [BEq K] (platform : Platform) (keys : Keys K)

def runStart : Start → Code K V (UniqMap K V)
  | .new => new platform
  | .withCapacity capacity => withCapacity platform capacity

def runOp : Op K V → Code K V (Reply K V)
  | .len => do return .count (← get).map.size
  | .isEmpty => do return .flag ((← get).map.size == 0)
  | .getRef key => do return .value (← getRef platform keys key)
  | .getMut key f => do return .value (← getMut platform keys key f)
  | .getOrInsert key default f => do
    return .value (some (← getOrInsert platform keys key default f))
  | .containsKey key => do return .flag (← containsKey platform keys key)
  | .insert key value => do return .value (← insert platform keys key value)
  | .remove key => do return .value (← remove platform keys key)
  | .retain keep => do return .visited (← retain platform keep)
  | .reserve additional => do
    reserve platform additional
    return .none
  | .extend other => do
    extend platform keys other
    return .none
  | .clear => do
    clear platform
    return .none
  | .iter count => do return .entries (← (do return (← nexts iterNext count 0).1))
  | .drain count => do return .entries (← drain platform count)

def runOps : List (Op K V) → Code K V (List (Reply K V))
  | [] => pure []
  | op :: ops => do
    let reply ← runOp platform keys op
    return reply :: (← runOps ops)

def runFinish : Finish → Code K V (List (Option (K × V)))
  | .drop => do
    drop
    return []
  | .intoIter count => do
    let (given, _) ← nexts (intoIterNext platform) count 0
    drop
    return given

def Program.run (program : Program K V) : Code K V (Results K V) := do
  let map ← runStart platform program.start
  change fun _ => map
  let replies ← runOps platform keys program.ops
  let given ← runFinish platform program.finish
  return ⟨replies, given⟩

end Run

/-! ### What the association list does -/

section Spec

variable [BEq K]

/-- The replies of the operations, with the entries after them and the values they drop. -/
def effects : List (Op K V) → List (K × V) → List (Reply K V) × List (K × V) × List V
  | [], l => ([], l, [])
  | op :: ops, l =>
    let effect := op.effect l
    let (replies, after, dropped) := effects ops effect.entries
    (effect.reply :: replies, after, effect.dropped ++ dropped)

omit [BEq K] in
/-- What the end of a program gives of the entries. -/
def Finish.given : Finish → List (K × V) → List (Option (K × V))
  | .drop, _ => []
  | .intoIter count, l => firsts count l

omit [BEq K] in
/-- The values that the end of a program drops. -/
def Finish.dropped : Finish → List (K × V) → List V
  | .drop, l => values l
  | .intoIter count, l => values (l.drop count)

def Program.results (program : Program K V) : Results K V :=
  ⟨(effects program.ops []).1, program.finish.given (effects program.ops []).2.1⟩

def Program.dropped (program : Program K V) : List V :=
  (effects program.ops []).2.2 ++ program.finish.dropped (effects program.ops []).2.1

/-- The values that operations with these replies move in. -/
def takes : List (Op K V) → List (Reply K V) → List V
  | op :: ops, reply :: replies => op.takes reply ++ takes ops replies
  | _, _ => []

/-- The values that operations with these replies move out. -/
def gives : List (Op K V) → List (Reply K V) → List V
  | op :: ops, reply :: replies => op.gives reply ++ gives ops replies
  | _, _ => []

omit [BEq K] in
theorem perm_trade {a b v g d e g' d' v' : List V} (h : (a ++ v).Perm (g ++ d ++ e))
    (h' : (b ++ e).Perm (g' ++ d' ++ v')) :
    (a ++ b ++ v).Perm (g ++ g' ++ (d ++ d') ++ v') := by
  simp only [← Multiset.coe_eq_coe, ← Multiset.coe_add] at h h' ⊢
  calc (a : Multiset V) + b + v = (a + v) + b := by abel
    _ = (b + e) + g + d := by rw [h]; abel
    _ = g + g' + (d + d') + v' := by rw [h']; abel

theorem perm_effects (ops : List (Op K V)) (l : List (K × V)) :
    (takes ops (effects ops l).1 ++ values l).Perm
      (gives ops (effects ops l).1 ++ (effects ops l).2.2 ++ values (effects ops l).2.1) := by
  induction ops generalizing l with
  | nil => exact .refl _
  | cons op ops ih =>
    exact perm_trade (op.perm_effect l) (ih (op.effect l).entries)

omit [BEq K] in
theorem Finish.perm_given (finish : Finish) (l : List (K × V)) :
    (values l).Perm (valuesOf (finish.given l) ++ finish.dropped l) := by
  cases finish with
  | drop => exact .refl _
  | intoIter count => rw [Finish.given, Finish.dropped, values_firsts]

end Spec

/-! ### The map refines the list -/

variable [BEq K] {platform : Platform} {keys : Keys K} {world : World K V} {l : List (K × V)}
  {dropped : List V}

section

variable (h : Stands platform keys l dropped world)
include h

theorem Stands.runOp (op : Op K V) :
    Ensures Exhausted (runOp platform keys op) (fun reply after => reply = (op.effect l).reply ∧
      Stands platform keys (op.effect l).entries (dropped ++ (op.effect l).dropped) after) world := by
  have hsame : Stands platform keys l (dropped ++ []) world := by
    rw [List.append_nil]
    exact h
  cases op with
  | len =>
    obtain ⟨t, hholds, rfl⟩ := h.table
    rw [UniqMap.runOp, bind_iff, get_iff, hholds.size]
    exact pure_iff.mpr ⟨rfl, hsame⟩
  | isEmpty =>
    obtain ⟨t, hholds, rfl⟩ := h.table
    rw [UniqMap.runOp, bind_iff, get_iff, hholds.size]
    refine pure_iff.mpr ⟨congrArg Reply.flag ?_, hsame⟩
    cases live t <;> rfl
  | getRef key =>
    rw [UniqMap.runOp, bind_iff]
    exact h.getRef.mono fun r after hr => pure_iff.mpr ⟨congrArg _ hr.2, hr.1 ▸ hsame⟩
  | getMut key f =>
    rw [UniqMap.runOp, bind_iff]
    refine h.getMut.mono fun r after hr => pure_iff.mpr ⟨hr.1, ?_⟩
    have hnone : ((Op.getMut key f).effect l).dropped = [] := by
      rcases hvalue : lookup key l <;> simp only [Op.effect, hvalue]
    rw [hnone, List.append_nil]
    exact hr.2
  | getOrInsert key default f =>
    rw [UniqMap.runOp, bind_iff]
    exact h.getOrInsert.mono fun r after hr => pure_iff.mpr hr
  | containsKey key =>
    rw [UniqMap.runOp, bind_iff]
    exact h.containsKey.mono fun r after hr => pure_iff.mpr ⟨congrArg _ hr.2, hr.1 ▸ hsame⟩
  | insert key value =>
    rw [UniqMap.runOp, bind_iff]
    refine h.insert.mono fun r after hr => pure_iff.mpr ⟨congrArg _ hr.1, ?_⟩
    exact (List.append_nil dropped).symm ▸ hr.2
  | remove key =>
    rw [UniqMap.runOp, bind_iff]
    refine h.remove.mono fun r after hr => pure_iff.mpr ⟨congrArg _ hr.1, ?_⟩
    exact (List.append_nil dropped).symm ▸ hr.2
  | retain keep =>
    rw [UniqMap.runOp, bind_iff]
    exact h.retain.mono fun r after hr => pure_iff.mpr ⟨congrArg _ hr.1, hr.2⟩
  | reserve additional =>
    rw [UniqMap.runOp, bind_iff]
    refine h.reserve.mono fun _ after hr => pure_iff.mpr ⟨rfl, ?_⟩
    exact (List.append_nil dropped).symm ▸ hr
  | extend other =>
    rw [UniqMap.runOp, bind_iff]
    exact (h.extend other).mono fun _ after hr => pure_iff.mpr ⟨rfl, hr⟩
  | clear =>
    rw [UniqMap.runOp, bind_iff]
    exact h.clear.mono fun _ after hr => pure_iff.mpr ⟨rfl, hr⟩
  | iter count =>
    rw [UniqMap.runOp, bind_iff]
    exact h.iter.mono fun r after hr => pure_iff.mpr ⟨congrArg _ hr.1, hr.2 ▸ hsame⟩
  | drain count =>
    rw [UniqMap.runOp, bind_iff]
    exact h.drain.mono fun r after hr => pure_iff.mpr ⟨congrArg _ hr.1, hr.2⟩

theorem Stands.runOps (ops : List (Op K V)) :
    Ensures Exhausted (runOps platform keys ops) (fun replies after =>
      replies = (effects ops l).1 ∧ Stands platform keys (effects ops l).2.1
        (dropped ++ (effects ops l).2.2) after) world := by
  induction ops generalizing l dropped world with
  | nil =>
    rw [UniqMap.runOps, pure_iff, effects, List.append_nil]
    exact ⟨rfl, h⟩
  | cons op ops ih =>
    rw [UniqMap.runOps, bind_iff]
    refine (h.runOp op).mono fun reply after ⟨hreply, hafter⟩ => ?_
    rw [bind_iff]
    refine (ih hafter).mono fun replies after' ⟨hreplies, hafter'⟩ => pure_iff.mpr ?_
    rw [hreply, hreplies]
    rw [List.append_assoc] at hafter'
    exact ⟨rfl, hafter'⟩

theorem Stands.finish (finish : Finish) :
    Ensures Exhausted (runFinish platform finish) (fun given after => given = finish.given l ∧
      after.dropped = dropped ++ finish.dropped l) world := by
  obtain ⟨t, hholds, rfl⟩ := h.table
  cases finish with
  | drop =>
    rw [runFinish, bind_iff]
    refine (ensures_drop (hholds.rest 0) hholds.used).mono fun _ after hdropped => ?_
    exact pure_iff.mpr ⟨rfl, hdropped.trans (congrArg (· ++ _) h.dropped)⟩
  | intoIter count =>
    have hstart : Consumes platform keys world t.length 0 (live t) world :=
      ⟨⟨[], t, hholds, rfl, rfl, rfl, rfl⟩, rfl⟩
    rw [runFinish, bind_iff]
    refine (ensures_nexts steps_intoIterNext hstart).mono fun r after ⟨hr, htable, hdropped⟩ => ?_
    obtain ⟨passed, rest, hholds', -, -, hpassed, hlive⟩ := htable
    rw [bind_iff]
    refine (ensures_drop (hholds'.rest 0) hholds'.used).mono fun _ after' hdropped' => ?_
    refine pure_iff.mpr ⟨hr, ?_⟩
    rw [hdropped', hdropped, h.dropped, live_append, hpassed, hlive]
    rfl

end

variable (keys) in
theorem ensures_start_run (start : Start) :
    Ensures Exhausted (runStart platform start) (fun map after =>
      Holds platform keys map [] ∧ after.dropped = world.dropped) world := by
  cases start with
  | new =>
    have hsmall : 8 * 2 * WORD + platform.slotBytes < USIZE := by
      have hfits := platform.fits
      unfold ROOM at hfits
      unfold WORD USIZE
      omega
    refine (ensures_allocate keys (.inr ⟨0, rfl⟩) hsmall).mono fun map after hr => ?_
    exact ⟨hr.1, hr.2.2.2⟩
  | withCapacity capacity =>
    exact (ensures_withCapacity keys).mono fun map after hr => ⟨hr.1, hr.2.2.2⟩

/-- Whatever the operations are, the program gets the replies of the association list and drops what
the list drops, every value that was moved in is moved out or dropped, and only want of memory stops
it. -/
theorem refines (platform : Platform) (keys : Keys K) (program : Program K V) :
    Ensures Exhausted (program.run platform keys) (fun results world =>
      results = program.results ∧ world.dropped = program.dropped ∧
        (takes program.ops results.replies).Perm (gives program.ops results.replies ++
          valuesOf results.given ++ world.dropped)) World.start := by
  rw [Program.run, Ensures.bind_iff]
  refine (ensures_start_run keys program.start).mono fun map world ⟨hholds, hnone⟩ => ?_
  rw [Ensures.bind_iff, ensures_change, Ensures.bind_iff]
  have hstands : Stands platform keys [] [] { world with map := map } :=
    ⟨⟨[], hholds, rfl⟩, hnone⟩
  refine (hstands.runOps program.ops).mono fun replies after ⟨hreplies, hafter⟩ => ?_
  rw [Ensures.bind_iff]
  refine (hafter.finish program.finish).mono fun given after' ⟨hgiven, hdropped⟩ => ?_
  rw [Ensures.pure_iff, hreplies, hgiven, hdropped]
  refine ⟨rfl, rfl, ?_⟩
  have hend := program.finish.perm_given (effects program.ops []).2.1
  rw [← List.append_nil (valuesOf _ ++ _)] at hend
  have htrade := perm_trade (b := []) (perm_effects program.ops []) hend
  rw [List.append_nil, List.append_nil, values, List.map_nil, List.append_nil] at htrade
  exact htrade

/-- All odd keys share a home, and the new buffers are full of ones. -/
example : let platform : Platform :=
      ⟨.debug, 16, by decide, by decide, fun _ _ => true, fun _ _ => 1⟩
    let keys : Keys ℕ :=
      ⟨fun k => (k % 2).toUInt64, fun _ _ h => by rw [beq_iff_eq.mp h], beq_self_eq_true⟩
    let program : Program ℕ ℕ := ⟨.new, [.insert 1 10, .insert 3 30, .insert 5 50, .remove 1,
      .insert 3 31, .insert 1 11, .iter 4, .drain 1, .insert 7 70], .intoIter 2⟩
    ((program.run platform keys).run World.start).toOption.map (fun p => (p.1, p.2.dropped)) =
      some (⟨[.value none, .value none, .value none, .value (some 10), .value (some 30), .value none,
        .entries [some (3, 31), some (5, 50), some (1, 11), none], .entries [some (3, 31)],
        .value none], [some (7, 70), none]⟩, [50, 11]) := by
  decide +kernel

end HdLang.UniqMap
