import HdLang.Channel.Deque
import Mathlib.Data.List.Forall2

/-!
# Runs over deques

The remaining operations of the deque of `std.collections`: its cursor, collecting, and `Eq`. A
program is a sequence of operations over named deques and cursors, where a deque or a cursor is
copied whenever the program says so. The same program over lists is `listRun`, and
`deque_run_refines` compares the two after every operation.
-/

namespace HdLang.Channel

open Function List

/-- `DequeIter`: the deque as it was when `iter` was called, and the place of the next element. -/
structure DequeIter (T : Type) where
  deque : Deque T
  «at» : ℕ
  deriving DecidableEq, Repr

namespace Deque

variable {T : Type}

def iter (d : Deque T) : DequeIter T := ⟨d, 0⟩

/-- `from_iter`, of the items that the iterator gives. -/
def fromIter (items : List T) : Deque T :=
  let slots := items.foldl (fun slots item => slots ++ [some item]) new.slots
  { (new : Deque T) with slots := slots, count := slots.length }

/-- The loop of `eq`: `left` places from `index` on. -/
def eqFrom [BEq T] (d other : Deque T) : ℕ → ℕ → Except Panic Bool
  | 0, _ => .ok true
  | left + 1, index => do
    let mine ← d.get index
    let theirs ← other.get index
    if mine != theirs then
      .ok false
    else
      eqFrom d other left (index + 1)

def eq [BEq T] (d other : Deque T) : Except Panic Bool :=
  if d.count ≠ other.count then .ok false else d.eqFrom other d.count 0

end Deque

namespace DequeIter

variable {T : Type}

def next (c : DequeIter T) : Except Panic (Option T × DequeIter T) :=
  if c.at ≥ c.deque.count then
    .ok (none, c)
  else do
    let c := { c with «at» := c.at + 1 }
    let value ← c.deque.get (c.at - 1)
    .ok (value, c)

theorem next_lt {c c' : DequeIter T} {x : T} (h : c.next = .ok (some x, c')) :
    c'.deque.count - c'.at < c.deque.count - c.at := by
  unfold next at h
  by_cases hend : c.at ≥ c.deque.count
  · rw [if_pos hend] at h
    cases h
  · rw [if_neg hend] at h
    cases hget : c.deque.get (c.at + 1 - 1) with
    | error e =>
      simp only [hget] at h
      cases h
    | ok value =>
      simp only [hget, ok_bind, Except.ok.injEq, Prod.mk.injEq] at h
      rw [← h.2]
      show c.deque.count - (c.at + 1) < c.deque.count - c.at
      omega

/-- The items that a cursor gives before it gives none. -/
def rest (c : DequeIter T) : Except Panic (List T) :=
  match _h : c.next with
  | .error e => .error e
  | .ok (none, _) => .ok []
  | .ok (some x, c') => do
    let xs ← rest c'
    .ok (x :: xs)
termination_by c.deque.count - c.at
decreasing_by exact next_lt _h

end DequeIter

/-! ### Programs -/

/-- An operation of a program on the deques and the cursors that numbers name. -/
inductive DequeOp (T : Type)
  | new (r : ℕ)
  | copy (r source : ℕ)
  | pushBack (r : ℕ) (value : T)
  | pushFront (r : ℕ) (value : T)
  | popFront (r : ℕ)
  | popBack (r : ℕ)
  | get (r index : ℕ)
  | front (r : ℕ)
  | back (r : ℕ)
  | len (r : ℕ)
  | isEmpty (r : ℕ)
  | collect (r : ℕ) (items : List T)
  | collectIter (r c : ℕ)
  | iter (c r : ℕ)
  | copyIter (c source : ℕ)
  | next (c : ℕ)
  | eq (r other : ℕ)

/-- What an operation returns. -/
inductive Answer (T : Type)
  | void
  | element (value : Option T)
  | size (n : ℕ)
  | flag (b : Bool)
  deriving DecidableEq, Repr

structure DequeState (T : Type) where
  deques : ℕ → Deque T
  cursors : ℕ → DequeIter T

namespace DequeState

variable {T : Type} (s : DequeState T)

/-- Every name stands for an empty deque, or a cursor of one. -/
def init : DequeState T := ⟨fun _ => .new, fun _ => Deque.new.iter⟩

def setDeque (r : ℕ) (d : Deque T) : DequeState T :=
  { s with deques := Function.update s.deques r d }

def setCursor (c : ℕ) (cursor : DequeIter T) : DequeState T :=
  { s with cursors := Function.update s.cursors c cursor }

/-- One operation: what it returns, and the deques and cursors after it. -/
def step [BEq T] : DequeOp T → Except Panic (Answer T × DequeState T)
  | .new r => .ok (.void, s.setDeque r .new)
  | .copy r source => .ok (.void, s.setDeque r (s.deques source))
  | .pushBack r value => do
    let d ← (s.deques r).pushBack value
    .ok (.void, s.setDeque r d)
  | .pushFront r value => do
    let d ← (s.deques r).pushFront value
    .ok (.void, s.setDeque r d)
  | .popFront r => do
    let (value, d) ← (s.deques r).popFront
    .ok (.element value, s.setDeque r d)
  | .popBack r => do
    let (value, d) ← (s.deques r).popBack
    .ok (.element value, s.setDeque r d)
  | .get r index => do
    let value ← (s.deques r).get index
    .ok (.element value, s)
  | .front r => do
    let value ← (s.deques r).front
    .ok (.element value, s)
  | .back r => do
    let value ← (s.deques r).back
    .ok (.element value, s)
  | .len r => .ok (.size (s.deques r).len, s)
  | .isEmpty r => .ok (.flag (s.deques r).isEmpty, s)
  | .collect r items => .ok (.void, s.setDeque r (.fromIter items))
  | .collectIter r c => do
    let items ← (s.cursors c).rest
    .ok (.void, s.setDeque r (.fromIter items))
  | .iter c r => .ok (.void, s.setCursor c (s.deques r).iter)
  | .copyIter c source => .ok (.void, s.setCursor c (s.cursors source))
  | .next c => do
    let (value, cursor) ← (s.cursors c).next
    .ok (.element value, s.setCursor c cursor)
  | .eq r other => do
    let same ← (s.deques r).eq (s.deques other)
    .ok (.flag same, s)

/-- A program: what each operation returns, and the state after it. -/
def run [BEq T] : DequeState T → List (DequeOp T) → Except Panic (List (Answer T × DequeState T))
  | _, [] => .ok []
  | s, op :: ops => do
    let (answer, s) ← s.step op
    let rest ← run s ops
    .ok ((answer, s) :: rest)

end DequeState

/-! ### The same programs over lists -/

/-- The lists that the deques stand for, and the elements that the cursors have yet to give. -/
structure Lists (T : Type) where
  lists : ℕ → List T
  rests : ℕ → List T

namespace Lists

variable {T : Type} (l : Lists T)

def init : Lists T := ⟨fun _ => [], fun _ => []⟩

def setList (r : ℕ) (xs : List T) : Lists T := { l with lists := Function.update l.lists r xs }

def setRest (c : ℕ) (xs : List T) : Lists T := { l with rests := Function.update l.rests c xs }

/-- One operation on the lists. -/
def step [BEq T] : DequeOp T → Answer T × Lists T
  | .new r => (.void, l.setList r [])
  | .copy r source => (.void, l.setList r (l.lists source))
  | .pushBack r value => (.void, l.setList r (l.lists r ++ [value]))
  | .pushFront r value => (.void, l.setList r (value :: l.lists r))
  | .popFront r => (.element (l.lists r).head?, l.setList r (l.lists r).tail)
  | .popBack r => (.element (l.lists r).getLast?, l.setList r (l.lists r).dropLast)
  | .get r index => (.element (l.lists r)[index]?, l)
  | .front r => (.element (l.lists r).head?, l)
  | .back r => (.element (l.lists r).getLast?, l)
  | .len r => (.size (l.lists r).length, l)
  | .isEmpty r => (.flag (l.lists r).isEmpty, l)
  | .collect r items => (.void, l.setList r items)
  | .collectIter r c => (.void, l.setList r (l.rests c))
  | .iter c r => (.void, l.setRest c (l.lists r))
  | .copyIter c source => (.void, l.setRest c (l.rests source))
  | .next c => (.element (l.rests c).head?, l.setRest c (l.rests c).tail)
  | .eq r other => (.flag (l.lists r == l.lists other), l)

def run [BEq T] : Lists T → List (DequeOp T) → List (Answer T × Lists T)
  | _, [] => []
  | l, op :: ops => l.step op :: run (l.step op).2 ops

end Lists

/-! ### Deques as lists -/

namespace Deque

variable {T : Type} {d e : Deque T} {xs ys : List T}

/-- The `count` slots from `head` on hold values, and every other slot is empty. -/
structure Laid (d : Deque T) : Prop where
  fits : d.count ≤ d.slots.length
  held : ∀ i < d.count, ∃ x, d.slots[(d.head + i) % d.slots.length]? = some (some x)
  clear : ∀ p < d.slots.length, (∀ i < d.count, p ≠ (d.head + i) % d.slots.length) →
    d.slots[p]? = some none

namespace Holds

/-- Every slot is some number of places after the front. -/
theorem exists_place {n head p : ℕ} (hhead : head < n) (hp : p < n) :
    ∃ i < n, (head + i) % n = p := by
  by_cases hle : head ≤ p
  · refine ⟨p - head, by omega, ?_⟩
    rw [Nat.add_sub_cancel' hle, Nat.mod_eq_of_lt hp]
  · refine ⟨n - head + p, by omega, ?_⟩
    rw [show head + (n - head + p) = p + n by omega, Nat.add_mod_right, Nat.mod_eq_of_lt hp]

theorem laid (h : d.Holds xs) : d.Laid where
  fits := h.count ▸ h.ring.fits
  held i hi := ⟨_, h.ring.get (h.count ▸ hi)⟩
  clear p hp hother := by
    obtain ⟨i, hi, rfl⟩ := exists_place (h.ring.head_lt (Nat.zero_lt_of_lt hp)) hp
    have hcount : ¬i < d.count := fun hlt => hother i hlt rfl
    rw [h.ring.getElem? i hi, getElem?_eq_none]
    rw [← h.count]
    exact Nat.le_of_not_lt hcount

theorem collectSlots_eq (items : List T) (slots : List (Option T)) :
    items.foldl (fun slots item => slots ++ [some item]) slots = slots ++ items.map some := by
  induction items generalizing slots with
  | nil => simp
  | cons item items ih =>
    rw [foldl_cons, ih, append_assoc, singleton_append, map_cons]

theorem fromIter (items : List T) : (Deque.fromIter items).Holds items := by
  have hslots : (Deque.fromIter items).slots = items.map some ++ replicate 0 none :=
    (collectSlots_eq items []).trans (append_nil _).symm
  refine ⟨?_, ?_⟩
  · rw [hslots]
    exact RingBuffer.fresh items 0
  · show (Deque.fromIter items).slots.length = items.length
    rw [hslots, replicate_zero, append_nil, length_map]

theorem eqFrom_eq [BEq T] (h : d.Holds xs) (h' : e.Holds ys) (hlen : xs.length = ys.length)
    {left index : ℕ} (hleft : index + left = xs.length) :
    d.eqFrom e left index = .ok (xs.drop index == ys.drop index) := by
  induction left generalizing index with
  | zero =>
    rw [drop_of_length_le (by omega), drop_of_length_le (by omega)]
    rfl
  | succ left ih =>
    have hi : index < xs.length := by omega
    have hj : index < ys.length := by omega
    rw [eqFrom, h.get_eq, ok_bind, h'.get_eq, ok_bind, drop_eq_getElem_cons hi,
      drop_eq_getElem_cons hj, getElem?_eq_getElem hi, getElem?_eq_getElem hj,
      cons_beq_cons, ih (by omega)]
    show (if (!(xs[index] == ys[index])) = true then _ else _) = _
    cases xs[index] == ys[index] <;> rfl

theorem eq_eq [BEq T] (h : d.Holds xs) (h' : e.Holds ys) : d.eq e = .ok (xs == ys) := by
  unfold Deque.eq
  rw [h.count, h'.count]
  by_cases hlen : xs.length = ys.length
  · rw [if_neg (not_not.mpr hlen), eqFrom_eq h h' hlen (Nat.zero_add _)]
    rfl
  · rw [if_pos hlen]
    congr 1
    exact (Bool.eq_false_iff.mpr fun hbeq => hlen (length_eq_of_beq hbeq)).symm

end Holds

end Deque

namespace DequeIter

variable {T : Type} {c : DequeIter T} {xs : List T} {x : T}

/-- `c` has yet to give `xs`. -/
def Gives (c : DequeIter T) (xs : List T) : Prop :=
  ∃ all, c.deque.Holds all ∧ c.at ≤ all.length ∧ xs = all.drop c.at

theorem next_nil (h : c.Gives []) : c.next = .ok (none, c) := by
  obtain ⟨all, hall, hle, hdrop⟩ := h
  have hend : all.length ≤ c.at := drop_eq_nil_iff.mp hdrop.symm
  exact if_pos (hall.count ▸ hend)

theorem next_cons (h : c.Gives (x :: xs)) :
    ∃ c', c.next = .ok (some x, c') ∧ c'.Gives xs := by
  obtain ⟨all, hall, hle, hdrop⟩ := h
  have hlt : c.at < all.length := by
    by_contra hge
    rw [drop_of_length_le (Nat.le_of_not_lt hge)] at hdrop
    cases hdrop
  rw [drop_eq_getElem_cons hlt, cons.injEq] at hdrop
  refine ⟨{ c with «at» := c.at + 1 }, ?_, all, hall, hlt, hdrop.2⟩
  rw [next, if_neg (by rw [hall.count]; omega)]
  show (do
    let value ← c.deque.get (c.at + 1 - 1)
    Except.ok (value, { c with «at» := c.at + 1 })) = _
  rw [Nat.add_sub_cancel, hall.get_eq, ok_bind, getElem?_eq_getElem hlt, hdrop.1]

theorem rest_eq (h : c.Gives xs) : c.rest = .ok xs := by
  induction xs generalizing c with
  | nil =>
    have hnext := next_nil h
    unfold rest
    split
    · next hrun =>
      rw [hnext] at hrun
      cases hrun
    · rfl
    · next hrun =>
      rw [hnext] at hrun
      cases hrun
  | cons x xs ih =>
    obtain ⟨c', hnext, hgives⟩ := next_cons h
    unfold rest
    split
    · next hrun =>
      rw [hnext] at hrun
      cases hrun
    · next hrun =>
      rw [hnext] at hrun
      cases hrun
    · next hrun =>
      rw [hnext] at hrun
      cases hrun
      rw [ih hgives, ok_bind]

end DequeIter

/-! ### Programs on deques are programs on lists -/

/-- The lists `l` are what the deques and cursors of `s` stand for. -/
structure Models {T : Type} (s : DequeState T) (l : Lists T) : Prop where
  deques : ∀ r, (s.deques r).Holds (l.lists r)
  cursors : ∀ c, (s.cursors c).Gives (l.rests c)

namespace Models

variable {T : Type} {s : DequeState T} {l : Lists T}

theorem init : Models (DequeState.init : DequeState T) Lists.init where
  deques _ := Deque.Holds.new
  cursors _ := ⟨[], Deque.Holds.new, le_rfl, rfl⟩

theorem setDeque (h : Models s l) (r : ℕ) {d : Deque T} {xs : List T} (hd : d.Holds xs) :
    Models (s.setDeque r d) (l.setList r xs) where
  deques q := by
    show (update s.deques r d q).Holds (update l.lists r xs q)
    by_cases hq : q = r
    · subst hq
      rwa [update_self, update_self]
    · rw [update_of_ne hq, update_of_ne hq]
      exact h.deques q
  cursors := h.cursors

theorem setCursor (h : Models s l) (c : ℕ) {cursor : DequeIter T} {xs : List T}
    (hc : cursor.Gives xs) : Models (s.setCursor c cursor) (l.setRest c xs) where
  deques := h.deques
  cursors q := by
    show (update s.cursors c cursor q).Gives (update l.rests c xs q)
    by_cases hq : q = c
    · subst hq
      rwa [update_self, update_self]
    · rw [update_of_ne hq, update_of_ne hq]
      exact h.cursors q

theorem popFront {d : Deque T} {xs : List T} (h : d.Holds xs) :
    ∃ d', d.popFront = .ok (xs.head?, d') ∧ d'.Holds xs.tail := by
  cases xs with
  | nil => exact ⟨d, h.popFront_nil, h⟩
  | cons x xs => exact h.popFront_cons

theorem popBack {d : Deque T} {xs : List T} (h : d.Holds xs) :
    ∃ d', d.popBack = .ok (xs.getLast?, d') ∧ d'.Holds xs.dropLast := by
  obtain rfl | ⟨front, last, rfl⟩ := xs.eq_nil_or_concat
  · exact ⟨d, h.popBack_nil, h⟩
  · rw [concat_eq_append] at h ⊢
    rw [getLast?_concat, dropLast_concat]
    exact h.popBack_append

theorem next {c : DequeIter T} {xs : List T} (h : c.Gives xs) :
    ∃ c', c.next = .ok (xs.head?, c') ∧ c'.Gives xs.tail := by
  cases xs with
  | nil => exact ⟨c, DequeIter.next_nil h, h⟩
  | cons x xs => exact DequeIter.next_cons h

/-- **One operation** returns what it returns on the lists, and leaves what it leaves there. -/
theorem step [BEq T] (h : Models s l) (op : DequeOp T) :
    ∃ s', s.step op = .ok ((l.step op).1, s') ∧ Models s' (l.step op).2 := by
  cases op with
  | new r => exact ⟨_, rfl, h.setDeque r .new⟩
  | copy r source => exact ⟨_, rfl, h.setDeque r (h.deques source)⟩
  | pushBack r value =>
    obtain ⟨d, hrun, hd⟩ := (h.deques r).pushBack value
    refine ⟨s.setDeque r d, ?_, h.setDeque r hd⟩
    rw [DequeState.step, hrun, ok_bind]
    rfl
  | pushFront r value =>
    obtain ⟨d, hrun, hd⟩ := (h.deques r).pushFront value
    refine ⟨s.setDeque r d, ?_, h.setDeque r hd⟩
    rw [DequeState.step, hrun, ok_bind]
    rfl
  | popFront r =>
    obtain ⟨d, hrun, hd⟩ := popFront (h.deques r)
    refine ⟨s.setDeque r d, ?_, h.setDeque r hd⟩
    rw [DequeState.step, hrun, ok_bind]
    rfl
  | popBack r =>
    obtain ⟨d, hrun, hd⟩ := popBack (h.deques r)
    refine ⟨s.setDeque r d, ?_, h.setDeque r hd⟩
    rw [DequeState.step, hrun, ok_bind]
    rfl
  | get r index =>
    refine ⟨s, ?_, h⟩
    rw [DequeState.step, (h.deques r).get_eq, ok_bind]
    rfl
  | front r =>
    refine ⟨s, ?_, h⟩
    rw [DequeState.step, (h.deques r).front_eq, ok_bind]
    rfl
  | back r =>
    refine ⟨s, ?_, h⟩
    rw [DequeState.step, (h.deques r).back_eq, ok_bind]
    rfl
  | len r =>
    refine ⟨s, ?_, h⟩
    rw [DequeState.step, Deque.len, (h.deques r).count]
    rfl
  | isEmpty r =>
    refine ⟨s, ?_, h⟩
    have hempty : decide ((l.lists r).length = 0) = (l.lists r).isEmpty := by
      cases l.lists r <;> rfl
    rw [DequeState.step, Deque.isEmpty, (h.deques r).count, hempty]
    rfl
  | collect r items => exact ⟨_, rfl, h.setDeque r (.fromIter items)⟩
  | collectIter r c =>
    refine ⟨_, ?_, h.setDeque r (.fromIter (l.rests c))⟩
    rw [DequeState.step, DequeIter.rest_eq (h.cursors c), ok_bind]
    rfl
  | iter c r =>
    exact ⟨_, rfl, h.setCursor c ⟨l.lists r, h.deques r, Nat.zero_le _, rfl⟩⟩
  | copyIter c source => exact ⟨_, rfl, h.setCursor c (h.cursors source)⟩
  | next c =>
    obtain ⟨cursor, hrun, hc⟩ := next (h.cursors c)
    refine ⟨s.setCursor c cursor, ?_, h.setCursor c hc⟩
    rw [DequeState.step, hrun, ok_bind]
    rfl
  | eq r other =>
    refine ⟨s, ?_, h⟩
    rw [DequeState.step, Deque.Holds.eq_eq (h.deques r) (h.deques other), ok_bind]
    rfl

theorem run [BEq T] (h : Models s l) (ops : List (DequeOp T)) :
    ∃ trace, s.run ops = .ok trace ∧
      List.Forall₂ (fun mine theirs => mine.1 = theirs.1 ∧ Models mine.2 theirs.2)
        trace (l.run ops) := by
  induction ops generalizing s l with
  | nil => exact ⟨[], rfl, .nil⟩
  | cons op ops ih =>
    obtain ⟨s', hstep, h'⟩ := h.step op
    obtain ⟨rest, hrun, hrest⟩ := ih h'
    refine ⟨((l.step op).1, s') :: rest, ?_, .cons ⟨rfl, h'⟩ hrest⟩
    rw [DequeState.run, hstep, ok_bind]
    dsimp only
    rw [hrun, ok_bind]

end Models

/-- **A deque is the list of its elements.** Every program runs without a panic, returns what it
returns on lists, and after each operation every deque is its list, with the elements in the
`count` slots from `head` on and every other slot empty. -/
theorem deque_run_refines {T : Type} [BEq T] (ops : List (DequeOp T)) :
    ∃ trace, DequeState.init.run ops = .ok trace ∧
      List.Forall₂ (fun mine theirs => mine.1 = theirs.1 ∧
          (∀ r, (mine.2.deques r).Holds (theirs.2.lists r) ∧ (mine.2.deques r).Laid) ∧
          ∀ c, (mine.2.cursors c).Gives (theirs.2.rests c))
        trace (Lists.init.run ops) := by
  obtain ⟨trace, hrun, hmodels⟩ := Models.init.run ops
  refine ⟨trace, hrun, hmodels.imp ?_⟩
  intro mine theirs h
  exact ⟨h.1, fun r => ⟨h.2.deques r, (h.2.deques r).laid⟩, h.2.cursors⟩

end HdLang.Channel
