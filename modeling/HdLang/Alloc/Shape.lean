import HdLang.Alloc.Model
import HdLang.Lib.PointerList
import Mathlib.Tactic.IntervalCases

/-!
# What the allocator's memory means

A `Shape` is the abstract heap: what each page is, which slots of a small page have been carved
and which of those are on its free list, each class's list of pages with room, and each class's
freed list. `Shape.WF` is what every reachable shape satisfies. A block is *live* when it is
carved and on no list, or when it is a run.

The abstract operations (`release`, `park`, `popFreed`, `pop`, `openPage`, `openRun`) say what the
operations of `std.rt.alloc` are for: each keeps `WF` and changes the set of live blocks by
exactly the block it names.
-/

namespace HdLang

open Nat

namespace Alloc

/-! ### Size classes -/

/-- The bytes of a block of size class `cls`. -/
def bytesOf (cls : ℕ) : ℕ := sizes.getD (cls - 1) 0

/-- How many slots a page of class `cls` has. -/
def slotsOf (cls : ℕ) : ℕ := (PAGE - 16) / bytesOf cls

/-- The classes are 1 to 20. -/
def IsClass (cls : ℕ) : Prop := 1 ≤ cls ∧ cls ≤ 20

instance (cls : ℕ) : Decidable (IsClass cls) := inferInstanceAs (Decidable (_ ∧ _))

theorem IsClass.facts {cls : ℕ} (h : IsClass cls) :
    16 ≤ bytesOf cls ∧ bytesOf cls ≤ 2048 ∧ bytesOf cls % 16 = 0 ∧ 31 ≤ slotsOf cls ∧
      slotsOf cls * bytesOf cls + 16 ≤ PAGE ∧ PAGE < (slotsOf cls + 1) * bytesOf cls + 16 := by
  obtain ⟨h₁, h₂⟩ := h
  interval_cases cls <;> decide

theorem IsClass.slotsOf_le {cls : ℕ} (h : IsClass cls) : slotsOf cls ≤ 4095 := by
  have hf := h.facts
  have : slotsOf cls * 16 ≤ slotsOf cls * bytesOf cls := mul_le_mul_left _ hf.1
  unfold PAGE at hf
  omega

/-! ### Shapes -/

/-- What a page is. -/
inductive Entry
  | free
  | static
  | small (cls : ℕ)
  | run (count : ℕ)
  | rest (first : ℕ)
  deriving DecidableEq, Repr

/-- The page-table entry of a page. -/
def Entry.code : Entry → ℕ
  | .free => 0
  | .static => SMALL
  | .small cls => SMALL + cls
  | .run count => RUN + count
  | .rest first => REST + first

/-- The abstract heap. -/
structure Shape where
  /-- What each page is. -/
  entry : ℕ → Entry
  /-- How many slots of a small page have been carved. -/
  carved : ℕ → ℕ
  /-- The free list of a small page: slot addresses. -/
  free : ℕ → List ℕ
  /-- The pages of a class that have room. -/
  list : ℕ → List ℕ
  /-- The freed list of a class: slot addresses. -/
  freed : ℕ → List ℕ

/-- The address of slot `k` of the page `p` of class `cls`. -/
def slotAt (p cls k : ℕ) : ℕ := p * PAGE + 16 + k * bytesOf cls

/-- `b` is one of the first `n` slots of the page `p` of class `cls`. -/
def IsSlot (p cls n b : ℕ) : Prop := ∃ k < n, b = slotAt p cls k

namespace Shape

variable (S : Shape)

/-- The page `p` of class `cls` has no room. -/
def Full (p cls : ℕ) : Prop := S.free p = [] ∧ S.carved p = slotsOf cls

instance (p cls : ℕ) : Decidable (S.Full p cls) := inferInstanceAs (Decidable (_ ∧ _))

/-- A block that is handed out: a carved slot on no list, or a run. -/
def Live (b : ℕ) : Prop :=
  (∃ cls, S.entry (b / PAGE) = .small cls ∧ IsSlot (b / PAGE) cls (S.carved (b / PAGE)) b ∧
      b ∉ S.free (b / PAGE) ∧ b ∉ S.freed cls) ∨
    ∃ count, S.entry (b / PAGE) = .run count ∧ b = b / PAGE * PAGE

/-- The bytes of a block. -/
def size (b : ℕ) : ℕ :=
  match S.entry (b / PAGE) with
  | .small cls => bytesOf cls
  | .run count => count * PAGE
  | _ => 0

/-- `a` is an address in the block `b`. -/
def InBlock (b a : ℕ) : Prop := b ≤ a ∧ a < b + S.size b

/-- What every page is agrees with its neighbours, in a heap that knows the pages below
`known`. -/
structure EntryWF (entry : ℕ → Entry) (known : ℕ) : Prop where
  beyond : ∀ p, known ≤ p → entry p = .static
  zero : entry 0 = .static
  isClass : ∀ p cls, entry p = .small cls → IsClass cls
  run_pos : ∀ p n, entry p = .run n → 1 ≤ n
  run_rest : ∀ p n, entry p = .run n → ∀ q, p < q → q < p + n → entry q = .rest p
  rest_run : ∀ q p, entry q = .rest p → ∃ n, entry p = .run n ∧ p < q ∧ q < p + n

/-- **Well-formed shapes**, of a heap whose table knows the pages below `known`. -/
structure WF (known : ℕ) : Prop extends EntryWF S.entry known where
  carved_le : ∀ p cls, S.entry p = .small cls → S.carved p ≤ slotsOf cls
  free_nodup : ∀ p cls, S.entry p = .small cls → (S.free p).Nodup
  free_slot : ∀ p cls, S.entry p = .small cls → ∀ b ∈ S.free p, IsSlot p cls (S.carved p) b
  list_nodup : ∀ cls, IsClass cls → (S.list cls).Nodup
  mem_list : ∀ cls, IsClass cls → ∀ p, p ∈ S.list cls ↔ S.entry p = .small cls ∧ ¬S.Full p cls
  freed_nodup : ∀ cls, IsClass cls → (S.freed cls).Nodup
  freed_slot : ∀ cls, IsClass cls → ∀ b ∈ S.freed cls, S.entry (b / PAGE) = .small cls ∧
    IsSlot (b / PAGE) cls (S.carved (b / PAGE)) b ∧ b ∉ S.free (b / PAGE)

end Shape

/-! ### Slots -/

section Slots

variable {p cls n k b : ℕ}

theorem slotAt_bounds (hc : IsClass cls) (hk : k < slotsOf cls) :
    p * PAGE + 16 ≤ slotAt p cls k ∧ slotAt p cls k + bytesOf cls ≤ (p + 1) * PAGE := by
  have hf := hc.facts
  have hmul : (k + 1) * bytesOf cls ≤ slotsOf cls * bytesOf cls := mul_le_mul_right _ hk
  rw [succ_mul] at hmul
  unfold slotAt
  constructor
  · omega
  · rw [succ_mul]
    omega

theorem slotAt_div (hc : IsClass cls) (hk : k < slotsOf cls) : slotAt p cls k / PAGE = p := by
  have hb := slotAt_bounds (p := p) hc hk
  have hf := hc.facts
  rw [succ_mul] at hb
  unfold PAGE at *
  omega

theorem slotAt_mod (hc : IsClass cls) : slotAt p cls k % 16 = 0 := by
  obtain ⟨m, hm⟩ : 16 ∣ k * bytesOf cls := Dvd.dvd.mul_left (dvd_of_mod_eq_zero hc.facts.2.2.1) k
  unfold slotAt PAGE
  omega

/-- Two slots of one page are a block's bytes apart. -/
theorem slotAt_apart (p cls : ℕ) {k k' : ℕ} (h : k < k') :
    slotAt p cls k + bytesOf cls ≤ slotAt p cls k' := by
  have hmul : (k + 1) * bytesOf cls ≤ k' * bytesOf cls := mul_le_mul_right _ h
  rw [succ_mul] at hmul
  unfold slotAt
  omega

theorem slotAt_injective (hc : IsClass cls) {k' : ℕ} (h : slotAt p cls k = slotAt p cls k') :
    k = k' := by
  have hf := hc.facts
  rcases lt_trichotomy k k' with hlt | heq | hlt
  · have := slotAt_apart p cls hlt
    omega
  · exact heq
  · have := slotAt_apart p cls hlt
    omega

section

variable (h : IsSlot p cls n b)
include h

theorem IsSlot.mono {n' : ℕ} (hn : n ≤ n') : IsSlot p cls n' b := by
  obtain ⟨k, hk, rfl⟩ := h
  exact ⟨k, by omega, rfl⟩

theorem IsSlot.bounds (hc : IsClass cls) (hn : n ≤ slotsOf cls) :
    p * PAGE + 16 ≤ b ∧ b + bytesOf cls ≤ (p + 1) * PAGE := by
  obtain ⟨k, hk, rfl⟩ := h
  exact slotAt_bounds hc (by omega)

theorem IsSlot.div (hc : IsClass cls) (hn : n ≤ slotsOf cls) :
    b / PAGE = p := by
  obtain ⟨k, hk, rfl⟩ := h
  exact slotAt_div hc (by omega)

theorem IsSlot.mod (hc : IsClass cls) : b % 16 = 0 := by
  obtain ⟨k, -, rfl⟩ := h
  exact slotAt_mod hc

/-- Two slots of one page are equal or a block's bytes apart. -/
theorem IsSlot.apart {n' b' : ℕ} (h' : IsSlot p cls n' b') (hne : b ≠ b') :
    b + bytesOf cls ≤ b' ∨ b' + bytesOf cls ≤ b := by
  obtain ⟨k, -, rfl⟩ := h
  obtain ⟨k', -, rfl⟩ := h'
  rcases lt_trichotomy k k' with hlt | heq | hlt
  · exact Or.inl (slotAt_apart p cls hlt)
  · exact absurd (by rw [heq]) hne
  · exact Or.inr (slotAt_apart p cls hlt)

end

/-- The next slot to carve is none of those carved. -/
theorem slotAt_not_isSlot (hc : IsClass cls) : ¬IsSlot p cls n (slotAt p cls n) := by
  rintro ⟨k, hk, h⟩
  have := slotAt_injective hc h
  omega

/-- A nonempty list of distinct slots is no longer than the slots there are. -/
theorem length_le_of_isSlot {l : List ℕ} (hnd : l.Nodup) (h : ∀ b ∈ l, IsSlot p cls n b)
    : l.length ≤ n := by
  have hsub : l ⊆ (List.range n).map (slotAt p cls) := by
    intro b hb
    obtain ⟨k, hk, rfl⟩ := h b hb
    exact List.mem_map.mpr ⟨k, List.mem_range.mpr hk, rfl⟩
  have := (List.Nodup.subperm hnd hsub).length_le
  simpa using this

end Slots

/-! ### Blocks -/

namespace Shape

variable {S : Shape} {known : ℕ}

section Blocks

variable {b a : ℕ}

/-- The first page of the block that a page is part of. -/
def home (S : Shape) (p : ℕ) : ℕ :=
  match S.entry p with
  | .rest first => first
  | _ => p

theorem EntryWF.lt_known {entry : ℕ → Entry} (hE : EntryWF entry known) {p : ℕ}
    (h : entry p ≠ .static) : p < known := by
  by_contra hge
  exact h (hE.beyond p (by omega))

theorem EntryWF.run_known {entry : ℕ → Entry} (hE : EntryWF entry known) {p n : ℕ}
    (h : entry p = .run n) : p + n ≤ known := by
  have hn := hE.run_pos p n h
  rcases lt_or_ge 1 n with h1 | h1
  · have hrest := hE.run_rest p n h (p + n - 1) (by omega) (by omega)
    have := hE.lt_known (p := p + n - 1) (by rw [hrest]; exact Entry.noConfusion)
    omega
  · have := hE.lt_known (p := p) (by rw [h]; exact Entry.noConfusion)
    omega

section

variable (hS : S.WF known) (hb : S.Live b)
include hS hb

/-- Every address of a live block is in a page whose first is the block's. -/
theorem WF.home_eq (ha : S.InBlock b a) :
    S.home (a / PAGE) = b / PAGE := by
  obtain ⟨hle, hlt⟩ := ha
  unfold size at hlt
  rcases hb with ⟨cls, he, hslot, -, -⟩ | ⟨n, he, hb⟩
  · simp only [he] at hlt
    have hbd := hslot.bounds (hS.isClass _ _ he) (hS.carved_le _ _ he)
    have hpage : a / PAGE = b / PAGE := by
      rw [Nat.succ_mul] at hbd
      unfold PAGE at *
      omega
    rw [hpage, home, he]
  · simp only [he] at hlt
    have hlo : b / PAGE ≤ a / PAGE := Nat.div_le_div_right hle
    have hhi : a / PAGE < b / PAGE + n := by
      unfold PAGE at *
      omega
    rcases Nat.eq_or_lt_of_le hlo with heq | hgt
    · rw [← heq, home, he]
    · rw [home, hS.run_rest _ _ he _ hgt hhi]

/-- The page of an address in a live block is neither static nor free, and in a small page the address is past
the header. -/
theorem WF.live_page (ha : S.InBlock b a) :
    S.entry (a / PAGE) ≠ .static ∧ S.entry (a / PAGE) ≠ .free ∧
      ∀ cls, S.entry (a / PAGE) = .small cls → a / PAGE * PAGE + 16 ≤ a := by
  have hhome := hS.home_eq hb ha
  rcases hb with ⟨c₁, he, hslot, -⟩ | ⟨n, he, -⟩
  · unfold Shape.home at hhome
    split at hhome
    · next hrest => simp [hrest]
    · rw [hhome, he]
      have hbd := hslot.bounds (hS.isClass _ _ he) (hS.carved_le _ _ he)
      refine ⟨by simp, by simp, fun _ _ => ?_⟩
      have := ha.1
      omega
  · unfold Shape.home at hhome
    split at hhome
    · next hrest => simp [hrest]
    · rw [hhome, he]
      simp

theorem WF.size_pos : 16 ≤ S.size b := by
  unfold size
  rcases hb with ⟨cls, he, -⟩ | ⟨n, he, -⟩
  · simp only [he]
    exact (hS.isClass _ _ he).facts.1
  · simp only [he]
    have := hS.run_pos _ _ he
    unfold PAGE
    omega

theorem WF.live_mod : b % 16 = 0 := by
  rcases hb with ⟨cls, he, hslot, -⟩ | ⟨n, -, hb⟩
  · exact hslot.mod (hS.isClass _ _ he)
  · unfold PAGE at hb
    omega

theorem WF.live_pos : PAGE ≤ b := by
  have hne : b / PAGE ≠ 0 := by
    intro h
    rcases hb with ⟨cls, he, -⟩ | ⟨n, he, -⟩ <;> rw [h, hS.zero] at he <;> cases he
  unfold PAGE at *
  omega

theorem WF.live_known : b + S.size b ≤ known * PAGE := by
  unfold size
  rcases hb with ⟨cls, he, hslot, -⟩ | ⟨n, he, hb⟩
  · simp only [he]
    have hbd := hslot.bounds (hS.isClass _ _ he) (hS.carved_le _ _ he)
    have hk := hS.lt_known (p := b / PAGE) (by rw [he]; exact Entry.noConfusion)
    have : (b / PAGE + 1) * PAGE ≤ known * PAGE := mul_le_mul_right _ hk
    omega
  · simp only [he]
    have hk := hS.run_known he
    have : (b / PAGE + n) * PAGE ≤ known * PAGE := mul_le_mul_right _ hk
    rw [add_mul] at this
    omega

/-- **Live blocks are disjoint.** -/
theorem WF.live_disjoint {b' : ℕ} (hb' : S.Live b') (hne : b ≠ b')
    : b + S.size b ≤ b' ∨ b' + S.size b' ≤ b := by
  by_contra hover
  have hpos := hS.size_pos hb
  have hpos' := hS.size_pos hb'
  -- the larger of the two addresses would be in both blocks
  have hpage : b / PAGE = b' / PAGE := by
    rcases le_total b b' with hle | hle
    · have h₁ := hS.home_eq hb (a := b') ⟨hle, by omega⟩
      have h₂ := hS.home_eq hb' (a := b') ⟨le_refl _, by omega⟩
      exact h₁.symm.trans h₂
    · have h₁ := hS.home_eq hb (a := b) ⟨le_refl _, by omega⟩
      have h₂ := hS.home_eq hb' (a := b) ⟨hle, by omega⟩
      exact h₁.symm.trans h₂
  rcases hb with ⟨cls, he, hslot, -⟩ | ⟨n, he, hb⟩
  · rcases hb' with ⟨cls', he', hslot', -⟩ | ⟨n', he', hb'⟩
    · rw [← hpage, he] at he'
      obtain rfl : cls = cls' := by injection he'
      rw [← hpage] at hslot'
      have hap := hslot.apart hslot' hne
      have hsz : S.size b = bytesOf cls := by unfold size; simp only [he]
      have hsz' : S.size b' = bytesOf cls := by unfold size; rw [← hpage]; simp only [he]
      omega
    · rw [← hpage, he] at he'
      cases he'
  · rcases hb' with ⟨cls', he', -⟩ | ⟨n', he', hb'⟩
    · rw [← hpage, he] at he'
      cases he'
    · rw [← hpage] at hb'
      exact hne (hb.trans hb'.symm)

end

end Blocks

end Shape

end Alloc

end HdLang
