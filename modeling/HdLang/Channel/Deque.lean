import HdLang.Lib.RingBuffer

/-!
# The double-ended queue of `std.collections`

A ring buffer: `slots` holds the `count` elements from `head` on, wrapping at its end, and every other
slot is `.None`. A push into a full buffer first copies the elements, front first, into a buffer twice
its size. `Holds d xs` says that `d` is the queue `xs`; each operation has a lemma that gives its
result on the queue, and with it that the operation does not panic. A `usize` is a number: a sum of
two places in a buffer, and a size twice a buffer's, stay below 2^32 in a memory that holds both
buffers.
-/

namespace HdLang.Channel

open List Nat

/-- The panics of the operations below. -/
inductive Panic
  | explicitPanic (message : String)
  | integerDivisionByZero
  | indexOutOfBounds
  deriving DecidableEq, Repr

@[simp] theorem ok_bind {α β : Type} (a : α) (f : α → Except Panic β) :
    ((.ok a : Except Panic α) >>= f) = f a := rfl

/-- `slots[index]`. -/
def read {T : Type} (slots : List (Option T)) (index : ℕ) : Except Panic (Option T) :=
  match slots[index]? with
  | some value => .ok value
  | none => .error .indexOutOfBounds

/-- `slots[index] = value`. -/
def write {T : Type} (slots : List (Option T)) (index : ℕ) (value : Option T) :
    Except Panic (List (Option T)) :=
  if index < slots.length then .ok (slots.set index value) else .error .indexOutOfBounds

structure Deque (T : Type) where
  slots : List (Option T)
  head : ℕ
  count : ℕ
  deriving DecidableEq, Repr

namespace Deque

variable {T : Type}

/-! ### Operations -/

def new : Deque T := ⟨[], 0, 0⟩

variable (d : Deque T)

def len : ℕ := d.count

def isEmpty : Bool := d.count = 0

/-- The slot `offset` places after the front, wrapping at the end. -/
def slot (offset : ℕ) : Except Panic ℕ :=
  if d.slots.length = 0 then .error .integerDivisionByZero
  else .ok ((d.head + offset) % d.slots.length)

/-- The elements from `index` on, `left` of them, after those of `grown`: the first loop of
`reserveOne`. -/
def copyFrom (index : ℕ) : ℕ → List (Option T) → Except Panic (List (Option T))
  | 0, grown => .ok grown
  | left + 1, grown => do
    let place ← d.slot index
    let value ← read d.slots place
    copyFrom (index + 1) left (grown ++ [value])

/-- Makes room for one more element. -/
def reserveOne : Except Panic (Deque T) :=
  let capacity := d.slots.length
  if d.count < capacity then
    .ok d
  else do
    let grown ← d.copyFrom 0 d.count []
    let size := if capacity < 4 then 4 else capacity * 2
    .ok ⟨grown ++ List.replicate (size - grown.length) none, 0, d.count⟩

/-- Adds `value` after the back. -/
def pushBack (value : T) : Except Panic (Deque T) := do
  let d ← d.reserveOne
  let place ← d.slot d.count
  let slots ← write d.slots place (some value)
  .ok { d with slots := slots, count := d.count + 1 }

/-- Adds `value` before the front. -/
def pushFront (value : T) : Except Panic (Deque T) := do
  let d ← d.reserveOne
  let head ← d.slot (d.slots.length - 1)
  let slots ← write d.slots head (some value)
  .ok ⟨slots, head, d.count + 1⟩

/-- Removes the front element and returns it, or nothing when the deque is empty. -/
def popFront : Except Panic (Option T × Deque T) :=
  if d.count = 0 then
    .ok (none, d)
  else do
    let value ← read d.slots d.head
    let slots ← write d.slots d.head none
    let head ← { d with slots := slots }.slot 1
    .ok (value, ⟨slots, head, d.count - 1⟩)

/-- Removes the back element and returns it, or nothing when the deque is empty. -/
def popBack : Except Panic (Option T × Deque T) :=
  if d.count = 0 then
    .ok (none, d)
  else do
    let last ← d.slot (d.count - 1)
    let value ← read d.slots last
    let slots ← write d.slots last none
    .ok (value, { d with slots := slots, count := d.count - 1 })

/-- The element `index` places from the front; nothing out of range. -/
def get (index : ℕ) : Except Panic (Option T) :=
  if index ≥ d.count then
    .ok none
  else do
    let place ← d.slot index
    read d.slots place

def front : Except Panic (Option T) := d.get 0

def back : Except Panic (Option T) := if d.count = 0 then .ok none else d.get (d.count - 1)

/-! ### The queue that a deque holds -/

/-- `d` is the queue `xs`, front first. -/
structure Holds (xs : List T) : Prop where
  ring : RingBuffer d.slots d.head xs
  count : d.count = xs.length

namespace Holds

variable {d} {xs : List T} {x : T}

theorem slot_eq (h : 0 < d.slots.length) (offset : ℕ) :
    d.slot offset = .ok ((d.head + offset) % d.slots.length) :=
  if_neg (Nat.ne_of_gt h)

variable {slots : List (Option T)} {index : ℕ}

theorem write_eq (h : index < slots.length) (value : Option T)
    : write slots index value = .ok (slots.set index value) :=
  if_pos h

theorem read_eq {value : Option T} (h : slots[index]? = some value)
    : read slots index = .ok value := by
  simp [read, h]

theorem new : Holds (new : Deque T) [] where
  ring := RingBuffer.nil
  count := rfl

section

variable (h : d.Holds xs)
include h

theorem read_place {i : ℕ} (hi : i < xs.length) :
    read d.slots ((d.head + i) % d.slots.length) = .ok (some xs[i]) :=
  read_eq (h.ring.get hi)

theorem slots_pos {i : ℕ} (hi : i < xs.length) : 0 < d.slots.length :=
  Nat.lt_of_lt_of_le (zero_lt_of_lt hi) h.ring.fits

theorem copyFrom_eq (left : ℕ) (hleft : index + left = xs.length) :
    d.copyFrom index left ((xs.take index).map some) = .ok (xs.map some) := by
  induction left generalizing index with
  | zero =>
    rw [take_of_length_le (by omega)]
    rfl
  | succ left ih =>
    have hi : index < xs.length := by omega
    have hnext : (xs.take index).map some ++ [some xs[index]] = (xs.take (index + 1)).map some := by
      rw [take_succ_eq_append_getElem hi, map_append, map_singleton]
    show (do
      let place ← d.slot index
      let value ← read d.slots place
      d.copyFrom (index + 1) left ((xs.take index).map some ++ [value])) = _
    rw [slot_eq (h.slots_pos hi), ok_bind, h.read_place hi, ok_bind, hnext]
    exact ih (by omega)

/-- After `reserveOne` the queue is the same and there is room for one more. -/
theorem reserveOne :
    ∃ d', d.reserveOne = .ok d' ∧ d'.Holds xs ∧ xs.length < d'.slots.length := by
  by_cases hroom : d.count < d.slots.length
  · exact ⟨d, if_pos hroom, h, h.count ▸ hroom⟩
  · have hcopy : d.copyFrom 0 d.count [] = .ok (xs.map some) :=
      h.copyFrom_eq d.count (by rw [h.count, Nat.zero_add])
    have hfits := h.ring.fits
    have hcount := h.count
    refine ⟨⟨xs.map some ++ replicate
      ((if d.slots.length < 4 then 4 else d.slots.length * 2) - xs.length) none, 0, d.count⟩,
      ?_, ⟨RingBuffer.fresh xs _, h.count⟩, ?_⟩
    · simp [Deque.reserveOne, hroom, hcopy]
    · simp only [length_append, length_map, length_replicate]
      split <;> omega

theorem pushBack (value : T) :
    ∃ d', d.pushBack value = .ok d' ∧ d'.Holds (xs ++ [value]) := by
  obtain ⟨d₁, hreserve, h₁, hroom⟩ := h.reserveOne
  have hpos : 0 < d₁.slots.length := zero_lt_of_lt hroom
  have hring := h₁.ring.pushBack hroom value
  rw [← h₁.count] at hring
  refine ⟨⟨_, d₁.head, d₁.count + 1⟩, ?_, ⟨hring, ?_⟩⟩
  · simp only [Deque.pushBack, hreserve, ok_bind, slot_eq hpos, write_eq (mod_lt _ hpos)]
  · simp [h₁.count]

theorem pushFront (value : T) :
    ∃ d', d.pushFront value = .ok d' ∧ d'.Holds (value :: xs) := by
  obtain ⟨d₁, hreserve, h₁, hroom⟩ := h.reserveOne
  have hpos : 0 < d₁.slots.length := zero_lt_of_lt hroom
  refine ⟨⟨_, _, d₁.count + 1⟩, ?_, ⟨h₁.ring.pushFront hroom value, ?_⟩⟩
  · simp only [Deque.pushFront, hreserve, ok_bind, slot_eq hpos, write_eq (mod_lt _ hpos)]
  · simp [h₁.count]

end

theorem popFront_nil (h : d.Holds []) : d.popFront = .ok (none, d) := if_pos h.count

theorem popFront_cons (h : d.Holds (x :: xs)) :
    ∃ d', d.popFront = .ok (some x, d') ∧ d'.Holds xs := by
  have hpos : 0 < d.slots.length := h.slots_pos (i := 0) (by simp)
  have hhead : d.head < d.slots.length := h.ring.head_lt hpos
  have hread : read d.slots d.head = .ok (some x) := by
    have hplace := h.read_place (i := 0) (by simp)
    rwa [Nat.add_zero, mod_eq_of_lt hhead] at hplace
  have hcount : d.count = xs.length + 1 := h.count
  have hslot : { d with slots := d.slots.set d.head none }.slot 1 =
      .ok ((d.head + 1) % d.slots.length) := by
    rw [slot_eq (by simpa using hpos), length_set]
  refine ⟨⟨_, _, d.count - 1⟩, ?_, ⟨h.ring.popFront, ?_⟩⟩
  · rw [Deque.popFront, if_neg (by omega), hread, ok_bind, write_eq hhead, ok_bind, hslot, ok_bind]
  · show d.count - 1 = xs.length
    omega

theorem popBack_nil (h : d.Holds []) : d.popBack = .ok (none, d) := if_pos h.count

theorem popBack_append (h : d.Holds (xs ++ [x])) :
    ∃ d', d.popBack = .ok (some x, d') ∧ d'.Holds xs := by
  have hlast : xs.length < (xs ++ [x]).length := by simp
  have hpos : 0 < d.slots.length := h.slots_pos hlast
  have hcount : d.count = xs.length + 1 := by simpa using h.count
  have hread := h.read_place hlast
  rw [getElem_concat_length rfl] at hread
  refine ⟨⟨_, d.head, xs.length⟩, ?_, ⟨h.ring.popBack, rfl⟩⟩
  rw [Deque.popBack, if_neg (by omega), slot_eq hpos, ok_bind, hcount, Nat.add_sub_cancel, hread,
    ok_bind, write_eq (mod_lt _ hpos), ok_bind]

theorem get_eq (h : d.Holds xs) (index : ℕ) : d.get index = .ok xs[index]? := by
  unfold Deque.get
  split
  · next hge => rw [getElem?_eq_none (h.count ▸ hge)]
  · next hlt =>
    have hi : index < xs.length := by rw [← h.count]; omega
    rw [slot_eq (h.slots_pos hi), ok_bind, h.read_place hi, getElem?_eq_getElem hi]

theorem front_eq (h : d.Holds xs) : d.front = .ok xs.head? := by
  rw [Deque.front, h.get_eq, head?_eq_getElem?]

theorem back_eq (h : d.Holds xs) : d.back = .ok xs.getLast? := by
  unfold Deque.back
  rw [h.count]
  split
  · next hnil => rw [length_eq_zero_iff.mp hnil, getLast?_nil]
  · rw [h.get_eq, getLast?_eq_getElem?]

end Holds

end Deque

end HdLang.Channel
