import HdLang.Lib.BinaryHeap
import HdLang.Lib.StableSort
import Mathlib.Data.Multiset.AddSub

/-!
# The heap of `std.collections`

A binary max-heap in a list. A sift moves items into a hole and writes the sifted item once, at its
final place. The comparison is `cmp`, the element type's `Ord`. An index out of bounds is a panic; a
`usize` is a number, as no place computed here is past the end of the list.
-/

namespace HdLang.Collections

/-- The panics of the operations below. -/
inductive Panic
  | indexOutOfBounds
  deriving DecidableEq, Repr

@[simp] theorem ok_bind {α β : Type} (a : α) (f : α → Except Panic β) :
    ((.ok a : Except Panic α) >>= f) = f a := rfl

/-- `items[index]`. -/
def read {T : Type} (items : List T) (index : ℕ) : Except Panic T :=
  match items[index]? with
  | some value => .ok value
  | none => .error .indexOutOfBounds

/-- `items[index] = value`. -/
def write {T : Type} (items : List T) (index : ℕ) (value : T) : Except Panic (List T) :=
  if index < items.length then .ok (items.set index value) else .error .indexOutOfBounds

structure Heap (T : Type) where
  items : List T
  deriving DecidableEq, Repr

namespace Heap

variable {T : Type} (cmp : T → T → Ordering)

def new : Heap T := ⟨[]⟩

def len (h : Heap T) : ℕ := h.items.length

def isEmpty (h : Heap T) : Bool := h.items.length = 0

/-- The loop of `push`: smaller parents move down into the hole at `child`. -/
def siftUp (value : T) (items : List T) (child : ℕ) : Except Panic (List T × ℕ) :=
  if _h : 0 < child then do
    let parent := (child - 1) / 2
    let above ← read items parent
    if cmp above value = .lt then do
      let items ← write items child above
      siftUp value items parent
    else
      .ok (items, child)
  else
    .ok (items, child)
termination_by child

def push (h : Heap T) (value : T) : Except Panic (Heap T) := do
  let items := h.items ++ [value]
  let last := items.length - 1
  let (items, child) ← siftUp cmp value items last
  if child ≠ last then do
    let items ← write items child value
    .ok ⟨items⟩
  else
    .ok ⟨items⟩

/-- Whether the right child of `parent` is the larger one. -/
def rightLarger (items : List T) (size parent : ℕ) : Except Panic Bool :=
  let left := 2 * parent + 1
  if left + 1 < size then do
    let a ← read items left
    let b ← read items (left + 1)
    .ok (cmp a b = .lt)
  else
    .ok false

/-- The loop of `sift_down`: larger children move up into the hole at `parent`. -/
def siftDownLoop (value : T) (size : ℕ) (items : List T) (parent : ℕ) :
    Except Panic (List T × ℕ) :=
  if _h : parent < size / 2 then do
    let right ← rightLarger cmp items size parent
    let larger := if right then 2 * parent + 1 + 1 else 2 * parent + 1
    let below ← read items larger
    if cmp value below = .lt then do
      let items ← write items parent below
      siftDownLoop value size items larger
    else
      .ok (items, parent)
  else
    .ok (items, parent)
termination_by size - parent
decreasing_by
  split <;> omega

def siftDown (items : List T) (start : ℕ) (value : T) : Except Panic (List T) := do
  let (items, parent) ← siftDownLoop cmp value items.length items start
  write items parent value

def pop (h : Heap T) : Except Panic (Option T × Heap T) :=
  match h.items.getLast? with
  | none => .ok (none, h)
  | some last =>
    let items := h.items.dropLast
    if items.length = 0 then
      .ok (some last, ⟨items⟩)
    else do
      let top ← read items 0
      let items ← siftDown cmp items 0 last
      .ok (some top, ⟨items⟩)

def peek (h : Heap T) : Option T := h.items.head?

/-- The loop of `from_iter` that sifts the items before `parent`, the last one first. -/
def heapify : ℕ → List T → Except Panic (List T)
  | 0, items => .ok items
  | parent + 1, items => do
    let value ← read items parent
    let items ← siftDown cmp items parent value
    heapify parent items

/-- `from_iter`, of the items that the iterator gives. -/
def fromIter (items : List T) : Except Panic (Heap T) := do
  let items ← heapify cmp (items.length / 2) items
  .ok ⟨items⟩

end Heap

/-! ### Runs -/

/-- An operation of a program on a heap. -/
inductive Op (T : Type)
  | push (value : T)
  | pop
  | peek
  | fromIter (items : List T)

variable {T : Type} (cmp : T → T → Ordering)

/-- One operation: what it returns, and the heap after it. -/
def step (h : Heap T) : Op T → Except Panic (Option T × Heap T)
  | .push value => do
    let h ← h.push cmp value
    .ok (none, h)
  | .pop => h.pop cmp
  | .peek => .ok (h.peek, h)
  | .fromIter items => do
    let h ← Heap.fromIter cmp items
    .ok (none, h)

/-- A sequence of operations: the result of each, and the heap after it. -/
def run : Heap T → List (Op T) → Except Panic (List (Option T × Heap T))
  | _, [] => .ok []
  | h, op :: ops => do
    let (result, h) ← step cmp h op
    let rest ← run h ops
    .ok ((result, h) :: rest)

/-- `fuel` pops, or fewer when the heap is empty before: the items popped, and the heap left. -/
def popAll : ℕ → Heap T → Except Panic (List T × Heap T)
  | 0, h => .ok ([], h)
  | fuel + 1, h => do
    match ← h.pop cmp with
    | (some x, h) => do
      let (xs, h) ← popAll fuel h
      .ok (x :: xs, h)
    | (none, h) => .ok ([], h)

end HdLang.Collections

/-!
## Heap order

A sift with a hole is a sift of the list in which the hole holds the sifted item: a move into the hole
exchanges two items of that list, and the last write changes nothing in it. So every operation keeps
heap order and the items, and never reads outside the list (`step_spec`), which gives every run of
operations (`heap_safe`).
-/

namespace HdLang.Collections

open BinaryHeap List Option

variable {T : Type} {cmp : T → T → Ordering}

/-- `x` is at most `y`. -/
def AtMost (cmp : T → T → Ordering) (x y : T) : Prop := (cmp x y).isLE = true

instance [Std.TransCmp cmp] : IsTrans T (AtMost cmp) := ⟨fun _ _ _ => StableSort.isLE_trans⟩

instance [Std.TransCmp cmp] : Std.Refl (AtMost cmp) := ⟨fun _ => Std.ReflCmp.isLE_rfl⟩

theorem atMost_of_lt {x y : T} (h : cmp x y = .lt) : AtMost cmp x y := StableSort.isLE_of_lt h

theorem atMost_of_not_lt [Std.TransCmp cmp] {x y : T} (h : ¬cmp y x = .lt) : AtMost cmp x y :=
  StableSort.isLE_of_ne_lt h

theorem read_eq {items : List T} {i : ℕ} {x : T} (h : items[i]? = some x) : read items i = .ok x := by
  rw [read, h]

theorem write_eq {items : List T} {i : ℕ} (h : i < items.length) (x : T) :
    write items i x = .ok (items.set i x) := if_pos h

/-- Moving an item into the hole exchanges it with the sifted one. -/
theorem exchange_hole {items : List T} {hole place : ℕ} {value x : T} (hhole : hole < items.length)
    (hplace : items[place]? = some x) (hne : place ≠ hole) :
    exchange (items.set hole value) hole place = (items.set hole x).set place value := by
  have hx : (items.set hole value)[place]? = some x := by
    rw [List.getElem?_set_ne hne.symm, hplace]
  rw [exchange_eq (List.getElem?_set_self hhole) hx, set_set]

namespace Heap

variable [Std.TransCmp cmp] {items : List T} {value : T}

/-- **The loop of `push`** ends with the sifted item's place in order. -/
theorem siftUp_spec {child : ℕ} (hchild : child < items.length)
    (h : UpReady (AtMost cmp) (items.set child value) child) :
    ∃ items' child', siftUp cmp value items child = .ok (items', child') ∧
      child' < items'.length ∧ (items'.set child' value).Perm (items.set child value) ∧
      HeapFrom (AtMost cmp) 0 (items'.set child' value) ∧
      (child' = child → items' = items) ∧ child' ≤ child := by
  induction child using Nat.strong_induction_on generalizing items with
  | _ child ih =>
    rw [siftUp]
    by_cases hpos : 0 < child
    · rw [dif_pos hpos]
      have hlt : parent child < child := parent_lt hpos
      obtain ⟨above, hparent⟩ : ∃ x, items[parent child]? = some x :=
        ⟨_, List.getElem?_eq_getElem (hlt.trans hchild)⟩
      have habove : (items.set child value)[parent child]? = some above := by
        rw [List.getElem?_set_ne hlt.ne', hparent]
      have hself : (items.set child value)[child]? = some value := List.getElem?_set_self hchild
      have hplace : (child - 1) / 2 = parent child := rfl
      dsimp only
      rw [hplace, read_eq hparent, ok_bind]
      by_cases hless : cmp above value = .lt
      · rw [if_pos hless, write_eq hchild, ok_bind]
        have hmove := h.move hpos hself habove (atMost_of_lt hless)
        rw [exchange_hole hchild hparent hlt.ne] at hmove
        have hlen : parent child < (items.set child above).length := by
          rw [length_set]
          exact hlt.trans hchild
        obtain ⟨items', child', hrun, hin, hperm, hheap, -, hle⟩ := ih _ hlt hlen hmove
        refine ⟨items', child', hrun, hin, hperm.trans ?_, hheap, fun heq => ?_, by omega⟩
        · rw [← exchange_hole hchild hparent hlt.ne]
          exact exchange_perm _ _ _
        · omega
      · rw [if_neg hless]
        refine ⟨items, child, rfl, hchild, List.Perm.refl _, h.finish fun _ => ?_, fun _ => rfl, le_rfl⟩
        intro a b ha hb
        rw [hself] at ha
        rw [habove] at hb
        rw [← some.inj ha, ← some.inj hb]
        exact atMost_of_not_lt hless
    · rw [dif_neg hpos]
      exact ⟨items, child, rfl, hchild, List.Perm.refl _, h.finish fun h0 => absurd h0 hpos,
        fun _ => rfl, le_rfl⟩

/-- **`push`** keeps heap order and adds the value. -/
theorem push_spec {h : Heap T} (hheap : HeapFrom (AtMost cmp) 0 h.items) (value : T) :
    ∃ h', h.push cmp value = .ok h' ∧ HeapFrom (AtMost cmp) 0 h'.items ∧
      h'.items.Perm (value :: h.items) := by
  have hlast : (h.items ++ [value]).length - 1 = h.items.length := by simp
  have hset : (h.items ++ [value]).set h.items.length value = h.items ++ [value] := by simp
  have hready := UpReady.of_append hheap value
  rw [← hset] at hready
  obtain ⟨items', child', hrun, hin, hperm, hheap', hsame, -⟩ := siftUp_spec (by simp) hready
  rw [hset] at hperm
  have hfinal : (items'.set child' value).Perm (value :: h.items) :=
    hperm.trans (perm_append_singleton value h.items)
  unfold push
  dsimp only
  rw [hlast, hrun, ok_bind]
  dsimp only
  by_cases hmoved : child' ≠ h.items.length
  · rw [if_pos hmoved, write_eq hin, ok_bind]
    exact ⟨_, rfl, hheap', hfinal⟩
  · rw [if_neg hmoved]
    have heq := not_not.mp hmoved
    -- nothing moved: the value is where it was pushed
    have hitems := hsame heq
    rw [hitems, heq, hset] at hheap' hfinal
    exact ⟨_, rfl, hitems ▸ hheap', hitems ▸ hfinal⟩

theorem rightLarger_spec {size hole : ℕ} (hsize : size = items.length) (hhole : hole < size / 2)
    {l : List T} (hl : ∀ i, i ≠ hole → l[i]? = items[i]?) :
    ∃ right, rightLarger cmp items size hole = .ok right ∧
      let larger := if right then 2 * hole + 1 + 1 else 2 * hole + 1
      larger < size ∧ 0 < larger ∧ parent larger = hole ∧
        ∀ c, 0 < c → parent c = hole → Below (AtMost cmp) l c larger := by
  subst hsize
  have hleft : 2 * hole + 1 < items.length := by omega
  have hneleft : 2 * hole + 1 ≠ hole := by omega
  have hneright : 2 * hole + 1 + 1 ≠ hole := by omega
  have hself : ∀ {i : ℕ}, Below (AtMost cmp) l i i := by
    intro i a b ha hb
    rw [ha] at hb
    rw [some.inj hb]
    exact Std.Refl.refl b
  unfold rightLarger
  dsimp only
  by_cases hright : 2 * hole + 1 + 1 < items.length
  · obtain ⟨a, ha⟩ : ∃ x, items[2 * hole + 1]? = some x := ⟨_, List.getElem?_eq_getElem hleft⟩
    obtain ⟨b, hb⟩ : ∃ x, items[2 * hole + 1 + 1]? = some x := ⟨_, List.getElem?_eq_getElem hright⟩
    rw [if_pos hright, read_eq ha, ok_bind, read_eq hb, ok_bind]
    refine ⟨_, rfl, ?_⟩
    rw [← hl _ hneleft] at ha
    rw [← hl _ hneright] at hb
    by_cases hless : cmp a b = .lt
    · rw [if_pos (decide_eq_true hless)]
      refine ⟨hright, by omega, (parent_eq_iff (by omega)).mpr (.inr rfl), fun c hc hcp => ?_⟩
      obtain rfl | rfl := (parent_eq_iff hc).mp hcp
      · intro x y hx hy
        rw [ha] at hx
        rw [hb] at hy
        rw [← some.inj hx, ← some.inj hy]
        exact atMost_of_lt hless
      · exact hself
    · rw [if_neg (by rw [decide_eq_true_eq]; exact hless)]
      refine ⟨hleft, by omega, (parent_eq_iff (by omega)).mpr (.inl rfl), fun c hc hcp => ?_⟩
      obtain rfl | rfl := (parent_eq_iff hc).mp hcp
      · exact hself
      · intro x y hx hy
        rw [hb] at hx
        rw [ha] at hy
        rw [← some.inj hx, ← some.inj hy]
        exact atMost_of_not_lt hless
  · rw [if_neg hright]
    refine ⟨false, rfl, hleft, by simp, (parent_eq_iff (by simp)).mpr (.inl rfl),
      fun c hc hcp => ?_⟩
    obtain rfl | rfl := (parent_eq_iff hc).mp hcp
    · exact hself
    · intro x y hx
      have hlt : 2 * hole + 2 < items.length := by
        rw [hl _ (by omega)] at hx
        exact (List.getElem?_eq_some_iff.mp hx).1
      exact absurd hlt hright

/-- **The loop of `sift_down`** ends with the sifted item's place in order. -/
theorem siftDownLoop_spec {lo size hole : ℕ} (hsize : size = items.length) (hhole : hole < size)
    (hlo : lo ≤ hole) (h : DownReady (AtMost cmp) lo (items.set hole value) hole) :
    ∃ items' hole', siftDownLoop cmp value size items hole = .ok (items', hole') ∧
      hole' < items'.length ∧ (items'.set hole' value).Perm (items.set hole value) ∧
      HeapFrom (AtMost cmp) lo (items'.set hole' value) := by
  induction hk : size - hole using Nat.strong_induction_on generalizing items hole with
  | _ k ih =>
    rw [siftDownLoop]
    have hself : (items.set hole value)[hole]? = some value :=
      List.getElem?_set_self (hsize ▸ hhole)
    by_cases hinner : hole < size / 2
    · rw [dif_pos hinner]
      obtain ⟨right, hright, hlarger⟩ := @rightLarger_spec _ cmp _ _ _ _ hsize hinner
        (items.set hole value) fun i hi => List.getElem?_set_ne hi.symm
      rw [hright, ok_bind]
      dsimp only at hlarger ⊢
      generalize hl : (if right = true then 2 * hole + 1 + 1 else 2 * hole + 1) = larger at hlarger ⊢
      obtain ⟨hlt, hpos, hparent, hmax⟩ := hlarger
      have hgt : hole < larger := hparent ▸ parent_lt hpos
      obtain ⟨below, hbelow⟩ : ∃ x, items[larger]? = some x :=
        ⟨_, List.getElem?_eq_getElem (hsize ▸ hlt)⟩
      have hat : (items.set hole value)[larger]? = some below := by
        rw [List.getElem?_set_ne hgt.ne, hbelow]
      rw [read_eq hbelow, ok_bind]
      by_cases hless : cmp value below = .lt
      · rw [if_pos hless, write_eq (hsize ▸ hhole), ok_bind]
        have hmove := h.move hself hat hpos hparent hlo (atMost_of_lt hless) hmax
        rw [exchange_hole (hsize ▸ hhole) hbelow hgt.ne'] at hmove
        obtain ⟨items', hole', hrun, hin, hperm, hheap⟩ := ih (size - larger) (by omega)
          (by rw [length_set, hsize]) hlt (hlo.trans hgt.le) hmove rfl
        refine ⟨items', hole', hrun, hin, hperm.trans ?_, hheap⟩
        rw [← exchange_hole (hsize ▸ hhole) hbelow hgt.ne']
        exact exchange_perm _ _ _
      · rw [if_neg hless]
        refine ⟨items, hole, rfl, hsize ▸ hhole, List.Perm.refl _, h.finish fun c hc hcp => ?_⟩
        intro a b ha hb
        rw [hself] at hb
        obtain rfl := some.inj hb
        exact IsTrans.trans _ _ _ (hmax c hc hcp a below ha hat) (atMost_of_not_lt hless)
    · rw [dif_neg hinner]
      refine ⟨items, hole, rfl, hsize ▸ hhole, List.Perm.refl _, h.finish fun c hc hcp => ?_⟩
      intro a b ha
      -- the hole has no child
      have hlt := (List.getElem?_eq_some_iff.mp ha).1
      rw [length_set, ← hsize] at hlt
      have := (parent_eq_iff hc).mp hcp
      omega

theorem siftDown_spec {lo start : ℕ} (hstart : start < items.length) (hlo : lo ≤ start)
    (h : DownReady (AtMost cmp) lo (items.set start value) start) :
    ∃ items', siftDown cmp items start value = .ok items' ∧
      items'.Perm (items.set start value) ∧ HeapFrom (AtMost cmp) lo items' := by
  obtain ⟨items', hole', hrun, hin, hperm, hheap⟩ := siftDownLoop_spec rfl hstart hlo h
  refine ⟨items'.set hole' value, ?_, hperm, hheap⟩
  unfold siftDown
  rw [hrun, ok_bind]
  exact write_eq hin value

omit [Std.TransCmp cmp] in
/-- **`pop`** of an empty heap. -/
theorem pop_nil {h : Heap T} (hnil : h.items = []) : h.pop cmp = .ok (none, h) := by
  unfold pop
  rw [hnil]
  rfl

/-- **`pop`** takes a largest item and keeps heap order. -/
theorem pop_spec {h : Heap T} (hheap : HeapFrom (AtMost cmp) 0 h.items) (hne : h.items ≠ []) :
    ∃ x h', h.pop cmp = .ok (some x, h') ∧ HeapFrom (AtMost cmp) 0 h'.items ∧
      (x :: h'.items).Perm h.items ∧ ∀ y ∈ h.items, AtMost cmp y x := by
  obtain ⟨front, last, hsplit⟩ : ∃ front last, h.items = front ++ [last] :=
    ⟨_, _, (dropLast_append_getLast hne).symm⟩
  have hlast : h.items.getLast? = some last := by rw [hsplit, List.getLast?_concat]
  have hfront : h.items.dropLast = front := by rw [hsplit, dropLast_concat]
  unfold pop
  rw [hlast]
  dsimp only
  rw [hfront]
  cases front with
  | nil =>
    rw [if_pos length_nil]
    refine ⟨last, ⟨[]⟩, rfl, fun i _ _ a b ha => (nomatch ha), ?_, fun y hy => ?_⟩
    · rw [hsplit]
      exact List.Perm.refl _
    · rw [hsplit, nil_append, mem_singleton] at hy
      rw [hy]
      exact Std.Refl.refl last
  | cons top rest =>
    rw [if_neg (by rw [length_cons]; exact Nat.succ_ne_zero _), read_eq rfl, ok_bind]
    have hroot : h.items[0]? = some top := by rw [hsplit]; rfl
    have hshort : HeapFrom (AtMost cmp) 0 (top :: rest) := by
      rw [hsplit] at hheap
      exact hheap.prefix_
    have hready : DownReady (AtMost cmp) 0 ((top :: rest).set 0 last) 0 := by
      refine DownReady.of_heapFrom (l := top :: rest) (fun i hi _ => hshort i hi (Nat.zero_le _)) _ ?_
      exact fun i hi => List.getElem?_set_ne hi.symm
    obtain ⟨items', hrun, hperm, hheap'⟩ := siftDown_spec (Nat.succ_pos _) le_rfl hready
    rw [hrun, ok_bind]
    refine ⟨top, ⟨items'⟩, rfl, hheap', ?_, root_largest hheap hroot⟩
    rw [hsplit, cons_append]
    exact (hperm.trans (perm_append_singleton last rest).symm).cons top

theorem heapify_spec {start : ℕ} (hstart : start ≤ items.length)
    (h : HeapFrom (AtMost cmp) start items) :
    ∃ items', heapify cmp start items = .ok items' ∧ items'.Perm items ∧
      HeapFrom (AtMost cmp) 0 items' := by
  induction start generalizing items with
  | zero => exact ⟨items, rfl, List.Perm.refl _, h⟩
  | succ start ih =>
    obtain ⟨value, hvalue⟩ : ∃ x, items[start]? = some x := ⟨_, List.getElem?_eq_getElem hstart⟩
    have hset : items.set start value = items := by
      obtain ⟨hlt, rfl⟩ := List.getElem?_eq_some_iff.mp hvalue
      exact set_getElem_self hlt
    have hready : DownReady (AtMost cmp) start (items.set start value) start :=
      DownReady.of_heapFrom h _ fun i hi => List.getElem?_set_ne hi.symm
    obtain ⟨items₁, hrun, hperm, hheap⟩ := siftDown_spec hstart le_rfl hready
    rw [hset] at hperm
    obtain ⟨items₂, hrun', hperm', hheap'⟩ := ih (by rw [hperm.length_eq]; omega) hheap
    refine ⟨items₂, ?_, hperm'.trans hperm, hheap'⟩
    unfold heapify
    rw [read_eq hvalue, ok_bind, hrun, ok_bind, hrun']

/-- **`from_iter`** makes a heap of the items. -/
theorem fromIter_spec (items : List T) :
    ∃ h, fromIter cmp items = .ok h ∧ HeapFrom (AtMost cmp) 0 h.items ∧ h.items.Perm items := by
  have hleaves : HeapFrom (AtMost cmp) (items.length / 2) items := by
    intro i hi hlo a b ha
    have hlt := (List.getElem?_eq_some_iff.mp ha).1
    unfold parent at hlo
    omega
  obtain ⟨items', hrun, hperm, hheap⟩ := heapify_spec (Nat.div_le_self _ _) hleaves
  refine ⟨⟨items'⟩, ?_, hheap, hperm⟩
  unfold fromIter
  rw [hrun, ok_bind]

end Heap

/-! ### Runs -/

/-- What an operation does to the items held, and what it returns. -/
inductive Bag (cmp : T → T → Ordering) : Multiset T → Op T → Option T → Multiset T → Prop
  | push (m : Multiset T) (value : T) : Bag cmp m (.push value) none (value ::ₘ m)
  | popNone : Bag cmp 0 .pop none 0
  | pop {m : Multiset T} {x : T} (h : ∀ y ∈ x ::ₘ m, AtMost cmp y x) :
      Bag cmp (x ::ₘ m) .pop (some x) m
  | peekNone : Bag cmp 0 .peek none 0
  | peek {m : Multiset T} {x : T} (hx : x ∈ m) (h : ∀ y ∈ m, AtMost cmp y x) :
      Bag cmp m .peek (some x) m
  | fromIter (m : Multiset T) (items : List T) : Bag cmp m (.fromIter items) none ↑items

/-- A run whose operations do to the items held what `Bag` says, with heap order after each. -/
inductive Explains (cmp : T → T → Ordering) :
    Multiset T → List (Op T) → List (Option T × Heap T) → Prop
  | nil (m : Multiset T) : Explains cmp m [] []
  | cons {m : Multiset T} {op : Op T} {result : Option T} {h : Heap T} {ops : List (Op T)}
      {rest : List (Option T × Heap T)} (hbag : Bag cmp m op result ↑h.items)
      (hheap : HeapFrom (AtMost cmp) 0 h.items) (hrest : Explains cmp ↑h.items ops rest) :
      Explains cmp m (op :: ops) ((result, h) :: rest)

variable [Std.TransCmp cmp] {h : Heap T}

section

variable (hheap : HeapFrom (AtMost cmp) 0 h.items)
include hheap

/-- **One operation** on a heap. -/
theorem step_spec (op : Op T) :
    ∃ result h', step cmp h op = .ok (result, h') ∧ HeapFrom (AtMost cmp) 0 h'.items ∧
      Bag cmp ↑h.items op result ↑h'.items := by
  cases op with
  | push value =>
    obtain ⟨h', hrun, hheap', hperm⟩ := Heap.push_spec hheap value
    refine ⟨none, h', ?_, hheap', ?_⟩
    · rw [step, hrun, ok_bind]
    · rw [Multiset.coe_eq_coe.mpr hperm, ← Multiset.cons_coe]
      exact .push _ value
  | pop =>
    by_cases hnil : h.items = []
    · refine ⟨none, h, Heap.pop_nil hnil, hheap, ?_⟩
      rw [hnil]
      exact .popNone
    · obtain ⟨x, h', hrun, hheap', hperm, hmax⟩ := Heap.pop_spec hheap hnil
      refine ⟨some x, h', hrun, hheap', ?_⟩
      rw [← Multiset.coe_eq_coe.mpr hperm, ← Multiset.cons_coe]
      refine .pop fun y hy => hmax y (hperm.mem_iff.mp ?_)
      rwa [Multiset.cons_coe, Multiset.mem_coe] at hy
  | peek =>
    refine ⟨h.peek, h, rfl, hheap, ?_⟩
    unfold Heap.peek
    cases hitems : h.items with
    | nil => exact .peekNone
    | cons x items =>
      have hroot : h.items[0]? = some x := by rw [hitems]; rfl
      refine .peek mem_cons_self fun y hy => root_largest hheap hroot y ?_
      rwa [hitems]
  | fromIter items =>
    obtain ⟨h', hrun, hheap', hperm⟩ := @Heap.fromIter_spec _ cmp _ items
    refine ⟨none, h', ?_, hheap', ?_⟩
    · rw [step, hrun, ok_bind]
    · rw [Multiset.coe_eq_coe.mpr hperm]
      exact .fromIter _ items

theorem run_spec (ops : List (Op T)) :
    ∃ trace, run cmp h ops = .ok trace ∧ Explains cmp ↑h.items ops trace := by
  induction ops generalizing h with
  | nil => exact ⟨[], rfl, .nil _⟩
  | cons op ops ih =>
    obtain ⟨result, h', hstep, hheap', hbag⟩ := step_spec hheap op
    obtain ⟨rest, hrun, hrest⟩ := ih hheap'
    refine ⟨(result, h') :: rest, ?_, .cons hbag hheap' hrest⟩
    rw [run, hstep, ok_bind]
    dsimp only
    rw [hrun, ok_bind]

theorem popAll_spec :
    ∃ xs, popAll cmp h.items.length h = .ok (xs, ⟨[]⟩) ∧ xs.Perm h.items ∧
      xs.Pairwise fun x y => AtMost cmp y x := by
  induction hn : h.items.length generalizing h with
  | zero =>
    have hnil := length_eq_zero_iff.mp hn
    refine ⟨[], ?_, ?_, List.Pairwise.nil⟩
    · rw [popAll, ← hnil]
    · rw [hnil]
  | succ n ih =>
    have hne : h.items ≠ [] := fun hnil => by
      rw [hnil] at hn
      cases hn
    obtain ⟨x, h', hrun, hheap', hperm, hmax⟩ := Heap.pop_spec hheap hne
    have hlen : h'.items.length = n := by
      have := hperm.length_eq
      rw [length_cons, hn] at this
      exact Nat.succ.inj this
    obtain ⟨xs, hpops, hxs, hsorted⟩ := ih hheap' hlen
    refine ⟨x :: xs, ?_, (hxs.cons x).trans hperm, pairwise_cons.mpr ⟨fun y hy => ?_, hsorted⟩⟩
    · rw [popAll, hrun, ok_bind]
      dsimp only
      rw [hpops, ok_bind]
    · exact hmax y (hperm.mem_iff.mp (mem_cons_of_mem x (hxs.mem_iff.mp hy)))

end

/-- **A heap keeps heap order and loses nothing**: no operation of any run panics, each does to the
items held what `Bag` says and leaves heap order, and popping what is left until nothing is gives it
in descending order. -/
theorem heap_safe (cmp : T → T → Ordering) [Std.TransCmp cmp] (ops : List (Op T)) :
    ∃ trace, run cmp Heap.new ops = .ok trace ∧ Explains cmp 0 ops trace ∧
      ∀ h ∈ trace.map Prod.snd, ∃ xs, popAll cmp h.items.length h = .ok (xs, ⟨[]⟩) ∧
        xs.Perm h.items ∧ xs.Pairwise fun x y => AtMost cmp y x := by
  have hnew : HeapFrom (AtMost cmp) 0 (Heap.new : Heap T).items := fun i _ _ a b ha => nomatch ha
  obtain ⟨trace, hrun, hexplains⟩ := run_spec hnew ops
  refine ⟨trace, hrun, hexplains, ?_⟩
  have hall : ∀ {m : Multiset T} {ops : List (Op T)} {trace : List (Option T × Heap T)},
      Explains cmp m ops trace → ∀ h ∈ trace.map Prod.snd, HeapFrom (AtMost cmp) 0 h.items := by
    intro m ops trace h
    induction h with
    | nil => exact fun _ hmem => absurd hmem List.not_mem_nil
    | cons _ hheap _ ih =>
      intro h hmem
      rw [List.map_cons, List.mem_cons] at hmem
      exact hmem.elim (fun heq => heq ▸ hheap) (ih h)
  exact fun h hmem => popAll_spec (hall hexplains h hmem)

/-- A run on numbers. -/
theorem heap_safe_nat :
    ∃ trace, run compare (Heap.new : Heap ℕ) [.fromIter [3, 1, 2], .push 5, .pop, .peek] =
        .ok trace ∧ Explains compare 0 [.fromIter [3, 1, 2], .push 5, .pop, .peek] trace ∧
      ∀ h ∈ trace.map Prod.snd, ∃ xs, popAll compare h.items.length h = .ok (xs, ⟨[]⟩) ∧
        xs.Perm h.items ∧ xs.Pairwise fun x y => AtMost compare y x :=
  heap_safe compare _

end HdLang.Collections
