import Mathlib.Tactic.Common

/-!
# Byte-addressed memory with little-endian words

A memory is a total function from addresses to bytes; which addresses a program may reach is the
business of its user. The words are natural numbers: a load gives the value of its bytes, least
significant first, and a store keeps the low bits of its value, so a round trip through a word
needs the value to fit (`load32_store32`, `load16_store16`).

The frame facts are all read off one notion: two memories *agree* at an address. A load of a word
depends on the bytes of that word alone (`load32_congr`), and a store, a copy or a fill changes no
byte outside its range (`store32_of_notMem` and its siblings).
-/

namespace ByteMem

/-- A memory: the byte at each address. -/
abbrev Mem := ℕ → UInt8

namespace Mem

variable (m : Mem) (a v : ℕ)

/-! ### Loads and stores -/

/-- The byte at `a`. -/
def load8 : ℕ := (m a).toNat

/-- The two bytes from `a`, least significant first. -/
def load16 : ℕ := m.load8 a + 256 * m.load8 (a + 1)

/-- The four bytes from `a`, least significant first. -/
def load32 : ℕ := m.load16 a + 65536 * m.load16 (a + 2)

/-- The memory with the low byte of `v` at `a`. -/
def store8 : Mem := fun x => if x = a then UInt8.ofNat v else m x

/-- The memory with the low two bytes of `v` from `a`. -/
def store16 : Mem := (m.store8 a v).store8 (a + 1) (v / 256)

/-- The memory with the low four bytes of `v` from `a`. -/
def store32 : Mem := (m.store16 a v).store16 (a + 2) (v / 65536)

/-- The memory with the `count` bytes from `src` also from `dst`, as they were before. -/
def copy (dst src count : ℕ) : Mem :=
  fun x => if dst ≤ x ∧ x < dst + count then m (src + (x - dst)) else m x

/-- The memory with `byte` in the `count` bytes from `dst`. -/
def fill (dst byte count : ℕ) : Mem :=
  fun x => if dst ≤ x ∧ x < dst + count then UInt8.ofNat byte else m x

/-! ### Bytes outside a write -/

variable {m a v}

theorem store8_of_ne {x : ℕ} (h : x ≠ a) : m.store8 a v x = m x := if_neg h

theorem store16_of_notMem {x : ℕ} (h : x < a ∨ a + 2 ≤ x) : m.store16 a v x = m x := by
  unfold store16
  rw [store8_of_ne (by omega), store8_of_ne (by omega)]

theorem store32_of_notMem {x : ℕ} (h : x < a ∨ a + 4 ≤ x) : m.store32 a v x = m x := by
  unfold store32
  rw [store16_of_notMem (by omega), store16_of_notMem (by omega)]

variable {x byte count : ℕ}

theorem fill_of_notMem (h : x < a ∨ a + count ≤ x) :
    m.fill a byte count x = m x := if_neg (by omega)

theorem fill_of_mem (h₁ : a ≤ x) (h₂ : x < a + count) :
    m.fill a byte count x = UInt8.ofNat byte := if_pos ⟨h₁, h₂⟩

theorem copy_of_notMem {src : ℕ} (h : x < a ∨ a + count ≤ x) :
    m.copy a src count x = m x := if_neg (by omega)

theorem copy_of_mem {s : ℕ} {i : ℕ} (h : i < count) :
    m.copy a s count (a + i) = m (s + i) := by
  unfold copy
  rw [if_pos ⟨by omega, by omega⟩, Nat.add_sub_cancel_left]

/-! ### A load depends on its own bytes -/

variable {m' : Mem} {b : ℕ}

theorem load16_congr (h : ∀ i < 2, m (a + i) = m' (b + i)) :
    m.load16 a = m'.load16 b := by
  have h₀ := h 0 (by decide)
  have h₁ := h 1 (by decide)
  unfold load16 load8
  rw [show m a = m' b from h₀, h₁]

theorem load32_congr (h : ∀ i < 4, m (a + i) = m' (b + i)) :
    m.load32 a = m'.load32 b := by
  unfold load32
  rw [load16_congr (fun i hi => h i (by omega)),
    load16_congr (a := a + 2) (b := b + 2) fun i hi => by
      have := h (2 + i) (by omega)
      simpa only [Nat.add_assoc] using this]

/-! ### Round trips and frames of words -/

theorem load8_store8 : (m.store8 a v).load8 a = v % 256 := by
  unfold load8 store8
  rw [if_pos rfl]
  exact UInt8.toNat_ofNat'

theorem load8_store8_of_ne {b : ℕ} (h : b ≠ a) : (m.store8 a v).load8 b = m.load8 b := by
  unfold load8
  rw [store8_of_ne h]

theorem load16_store16 (h : v < 65536) : (m.store16 a v).load16 a = v := by
  unfold load16 store16
  rw [load8_store8_of_ne (by omega), load8_store8, load8_store8]
  omega

theorem load16_store16_of_disjoint (h : b + 2 ≤ a ∨ a + 2 ≤ b) :
    (m.store16 a v).load16 b = m.load16 b :=
  load16_congr fun i hi => store16_of_notMem (by omega)

theorem load32_store32 (h : v < 4294967296) : (m.store32 a v).load32 a = v := by
  have hlow : (m.store16 a v).load16 a = v % 65536 := by
    unfold load16 store16
    rw [load8_store8_of_ne (by omega), load8_store8, load8_store8]
    omega
  unfold load32 store32
  rw [load16_store16_of_disjoint (by omega), hlow, load16_store16 (by omega)]
  omega

/-! ### A fill with zeros is a row of stores -/

theorem fill_none {byte : ℕ} : m.fill a byte 0 = m := funext fun _ => fill_of_notMem (by omega)

theorem fill_zero_add_two {n : ℕ} : m.fill a 0 (n + 2) = (m.fill a 0 n).store16 (a + n) 0 := by
  funext x
  simp only [fill, store16, store8, Nat.zero_div]
  split_ifs <;> first | rfl | omega

theorem fill_zero_add_four {n : ℕ} : m.fill a 0 (n + 4) = (m.fill a 0 n).store32 (a + n) 0 := by
  funext x
  simp only [fill, store32, store16, store8, Nat.zero_div]
  split_ifs <;> first | rfl | omega

end Mem

end ByteMem
