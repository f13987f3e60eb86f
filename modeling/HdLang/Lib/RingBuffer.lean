import Mathlib.Data.Nat.ModEq
import Mathlib.Data.List.Basic

/-!
# RingBuffer buffers

`RingBuffer slots head xs` says that `slots`, read cyclically from `head` on, holds `xs` and nothing else.
One lemma for each operation of a double-ended queue gives the relation of its result: a write at
either end, a cleared slot at either end, and the move into a fresh buffer.
-/

universe u

variable {α : Type u}

/-- `slots` holds `xs` from `head` on, wrapping at its end, and every other slot is empty. -/
structure RingBuffer (slots : List (Option α)) (head : ℕ) (xs : List α) : Prop where
  fits : xs.length ≤ slots.length
  head_lt : 0 < slots.length → head < slots.length
  getElem? : ∀ i < slots.length, slots[(head + i) % slots.length]? = some xs[i]?

namespace RingBuffer

open List Nat

theorem position_inj {n h i j : ℕ} (hi : i < n) (hj : j < n) (heq : (h + i) % n = (h + j) % n) :
    i = j := by
  have hmod : h + i ≡ h + j [MOD n] := heq
  have hcancel : i ≡ j [MOD n] := Nat.ModEq.add_left_cancel' h hmod
  calc
    i = i % n := (mod_eq_of_lt hi).symm
    _ = j % n := hcancel
    _ = j := mod_eq_of_lt hj

variable {slots : List (Option α)} {head : ℕ} {xs : List α} {x : α}

/-- The slot of a place, after a write at another one. -/
theorem set_getElem? (hring : RingBuffer slots head xs) {j : ℕ} (hj : j < slots.length) (v : Option α)
    {i : ℕ} (hi : i < slots.length) :
    (slots.set ((head + j) % slots.length) v)[(head + i) % slots.length]? =
      some (if i = j then v else xs[i]?) := by
  have hlt : (head + i) % slots.length < slots.length := mod_lt _ (by omega)
  by_cases hij : i = j
  · subst hij
    simp [hlt]
  · have hne : (head + j) % slots.length ≠ (head + i) % slots.length :=
      fun h => hij (position_inj hi hj h.symm)
    rw [getElem?_set_ne hne, hring.getElem? i hi, if_neg hij]

theorem nil : RingBuffer ([] : List (Option α)) 0 [] where
  fits := le_rfl
  head_lt := id
  getElem? i hi := absurd hi (Nat.not_lt_zero i)

theorem fresh (xs : List α) (k : ℕ) : RingBuffer (xs.map some ++ List.replicate k none) 0 xs where
  fits := by simp
  head_lt := id
  getElem? i hi := by
    rw [Nat.zero_add, mod_eq_of_lt hi]
    by_cases hx : i < xs.length
    · rw [getElem?_append_left (by simpa using hx)]
      simp [hx]
    · rw [getElem?_append_right (by simpa using hx)]
      simp only [length_append, length_map, length_replicate] at hi
      simp [hx, show i - xs.length < k by omega]

theorem get (hring : RingBuffer slots head xs) {i : ℕ} (hi : i < xs.length) :
    slots[(head + i) % slots.length]? = some (some xs[i]) := by
  rw [hring.getElem? i (Nat.lt_of_lt_of_le hi hring.fits), getElem?_eq_getElem hi]

theorem pushBack (hring : RingBuffer slots head xs) (hroom : xs.length < slots.length) (v : α) :
    RingBuffer (slots.set ((head + xs.length) % slots.length) (some v)) head (xs ++ [v]) where
  fits := by simpa using succ_le_of_lt hroom
  head_lt := by simpa using hring.head_lt
  getElem? i hi := by
    rw [length_set] at hi ⊢
    rw [hring.set_getElem? hroom (some v) hi]
    by_cases heq : i = xs.length
    · simp [heq]
    · rw [if_neg heq, getElem?_append]
      split
      · rfl
      · next hx => simp [show ¬i < xs.length from hx, show i - xs.length ≠ 0 by omega]

theorem popBack (hring : RingBuffer slots head (xs ++ [x])) :
    RingBuffer (slots.set ((head + xs.length) % slots.length) none) head xs where
  fits := by
    have := hring.fits
    simp only [length_append, length_singleton, length_set] at this ⊢
    omega
  head_lt := by simpa using hring.head_lt
  getElem? i hi := by
    have hfits := hring.fits
    rw [length_append, length_singleton] at hfits
    rw [length_set] at hi ⊢
    rw [hring.set_getElem? hfits none hi]
    by_cases heq : i = xs.length
    · simp [heq]
    · rw [if_neg heq, getElem?_append]
      split
      · rfl
      · next hx => simp [show ¬i < xs.length from hx, show i - xs.length ≠ 0 by omega]

theorem popFront (hring : RingBuffer slots head (x :: xs)) :
    RingBuffer (slots.set head none) ((head + 1) % slots.length) xs where
  fits := by
    have := hring.fits
    simp only [length_cons, length_set] at this ⊢
    omega
  head_lt h := by simpa using mod_lt _ (by simpa using h)
  getElem? i hi := by
    rw [length_set] at hi ⊢
    have hhead : head < slots.length := hring.head_lt (by omega)
    have hset : slots.set head none = slots.set ((head + 0) % slots.length) none := by
      rw [Nat.add_zero, mod_eq_of_lt hhead]
    have hplace : ((head + 1) % slots.length + i) % slots.length =
        (head + (i + 1)) % slots.length := by
      rw [mod_add_mod]
      congr 1
      omega
    rw [hplace, hset]
    by_cases hlast : i + 1 < slots.length
    · rw [hring.set_getElem? (by omega) none hlast]
      simp
    · -- the place before the new head is the one just cleared
      have hround : (head + (i + 1)) % slots.length = (head + 0) % slots.length := by
        rw [show i + 1 = slots.length by omega, add_mod_right, Nat.add_zero]
      have hfits := hring.fits
      rw [length_cons] at hfits
      rw [hround, hring.set_getElem? (by omega) none (by omega), if_pos rfl,
        getElem?_eq_none (by omega)]

theorem pushFront (hring : RingBuffer slots head xs) (hroom : xs.length < slots.length) (v : α) :
    RingBuffer (slots.set ((head + (slots.length - 1)) % slots.length) (some v))
      ((head + (slots.length - 1)) % slots.length) (v :: xs) where
  fits := by simpa using succ_le_of_lt hroom
  head_lt h := by simpa using mod_lt _ (by simpa using h)
  getElem? i hi := by
    rw [length_set] at hi ⊢
    cases i with
    | zero =>
      rw [Nat.add_zero, mod_mod]
      have := hring.set_getElem? (j := slots.length - 1) (by omega) (some v)
        (i := slots.length - 1) (by omega)
      simpa using this
    | succ i =>
      have hplace : ((head + (slots.length - 1)) % slots.length + (i + 1)) % slots.length =
          (head + i) % slots.length := by
        rw [mod_add_mod, show head + (slots.length - 1) + (i + 1) = head + i + slots.length by
          omega, add_mod_right]
      rw [hplace, hring.set_getElem? (by omega) (some v) (by omega), if_neg (by omega)]
      simp

end RingBuffer
