import HdLang.Alloc.System

/-!
# Heap safety

What holds of every world a program reaches: its blocks are aligned, large enough, in grown memory,
apart from each other and from all memory that is not theirs, and no operation of the allocator
changes what they hold; and `block_of` finds exactly them. An allocation past `LARGEST` bytes in a
release build is the exception: its count of pages wraps to 0, and it hands out a block that the
allocator does not know of.
-/

namespace HdLang

open ByteMem

namespace Alloc

open Transition

/-- The runs of a program in the build `build` each of whose steps `P` allows. -/
abbrev Runs (build : Build) (P : World → Op → Prop) : World → World → Prop :=
  Transition.Run (Step build) P

/-- **A safe world.** -/
structure World.Safe (w : World) : Prop where
  aligned : ∀ k ∈ w.blocks, k.address % 16 = 0
  size : ∀ k ∈ w.blocks, k.size ≤ w.bytes k ∧ 0 < w.bytes k
  grown : ∀ k ∈ w.blocks, k.address + w.bytes k ≤ w.heap.pages * PAGE
  apart : ∀ k ∈ w.blocks, ∀ a, w.InBlock k a → ¬w.Foreign a ∧ ¬w.heap.InTable a
  disjoint : w.blocks.Pairwise fun k k' =>
    k.address + w.bytes k ≤ k'.address ∨ k'.address + w.bytes k' ≤ k.address

section Invariant

variable {build : Build} {w₀ w : World} {P : World → Op → Prop}

theorem World.Initial.stands (h₀ : w₀.Initial) : Stands w₀ Shape.blank := by
  obtain ⟨hF, hb, hf⟩ := h₀
  refine .fresh hF hb fun a ⟨r, hr, _, hlt⟩ => ?_
  rw [hf, List.mem_singleton] at hr
  subst hr
  dsimp only at hlt
  unfold PAGE at *
  omega

theorem stands_of_run (h₀ : w₀.Initial) (hrun : Runs build P w₀ w)
    (hP : ∀ w op, P w op → op.Fits build) : ∃ S, Stands w S := by
  refine hrun.invariant (I := fun w => ∃ S, Stands w S) ⟨_, h₀.stands⟩ ?_
  rintro w op w' ⟨S, hS⟩ hPw hstep
  obtain ⟨S', -, hS', -⟩ := step_refines hS hstep (hP _ _ hPw)
  exact ⟨S', hS'⟩

theorem Stands.safe {S : Shape} (hw : Stands w S) : w.Safe := by
  cases hw with
  | fresh hF hb hK => constructor <;> simp [hb]
  | ready hI hK hB =>
    have hwf := hI.wf
    have hlive : ∀ k ∈ w.blocks, S.Live k.address := fun k hk => (hB.live _).mpr ⟨k, hk, rfl⟩
    have hbytes : ∀ k ∈ w.blocks, w.bytes k = S.size k.address := fun k hk =>
      World.bytes_eq hI (hlive k hk)
    refine ⟨fun k hk => hwf.live_mod (hlive k hk), fun k hk => ?_, fun k hk => ?_,
      fun k hk a hin => ?_, ?_⟩
    · have := hwf.size_pos (hlive k hk)
      rw [hbytes k hk]
      exact ⟨hB.size k hk, by omega⟩
    · rw [hbytes k hk]
      exact (hwf.live_known (hlive k hk)).trans (Nat.mul_le_mul_right _ hI.known_pages)
    · have hns := (hwf.live_page (hlive k hk) (a := a) ⟨hin.1, hbytes k hk ▸ hin.2⟩).1
      exact ⟨fun hf => hns (hK.foreign a hf).1, fun ht => hns (hI.table_static a ht)⟩
    · have hnd : w.blocks.Pairwise fun k k' => k.address ≠ k'.address := by
        have := hB.nodup
        rwa [List.Nodup, List.pairwise_map] at this
      refine hnd.imp_of_mem fun {k k'} hk hk' hne => ?_
      rw [hbytes k hk, hbytes k' hk']
      exact hwf.live_disjoint (hlive k hk) (hlive k' hk') hne

end Invariant

/-! ### A program -/

/-- A program with one page of static data and a heap of at most 16 pages. -/
def small : World := ⟨{ pages := 1, limit := 16, mem := fun _ => 0 }, [], [(0, 1)]⟩

theorem small_initial : small.Initial := ⟨⟨rfl, rfl, by decide, by decide, by decide⟩, rfl, rfl⟩

/-- What is true of the outcome of a run that does not stop. -/
def Gave {α : Type} (q : α → Heap → Bool) : Except Stop (α × Heap) → Bool
  | .ok (r, h) => q r h
  | .error _ => false

theorem Gave.exists {α : Type} {q : α → Heap → Bool} {r : Except Stop (α × Heap)}
    (h : Gave q r = true) : ∃ a s, r = .ok (a, s) ∧ q a s = true := by
  cases r with
  | error => cases h
  | ok p => exact ⟨p.1, p.2, rfl, h⟩

/-- The first allocation of 2048 bytes from `small`. -/
theorem small_alloc : ∃ b h, (alloc .release 2048).run small.heap = .ok (b, h) ∧
    h.pages = 3 ∧ h.capacity = 16256 ∧ h.limit = 16 := by
  have hgave : Gave (fun _ h => decide (h.pages = 3 ∧ h.capacity = 16256 ∧ h.limit = 16))
      ((alloc .release 2048).run small.heap) = true := by decide +kernel
  obtain ⟨b, h, hrun, hh⟩ := Gave.exists hgave
  exact ⟨b, h, hrun, of_decide_eq_true hh⟩

end Alloc

end HdLang
