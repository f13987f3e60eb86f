import HdLang.Alloc.Shape

/-!
# The abstract operations of the allocator

What each part of `std.rt.alloc` does to a `Shape`. An operation comes with two facts: it keeps
`WF`, and it changes the live blocks by the block it names alone.

* `release` — `free_block`: a run's pages become free; a slot goes back to its page's free list,
  and its page to the pool when that was its last live slot and another page heads its class's
  list, or to the list's head when it was full.
* `park` and `popFreed` — a block goes on its class's freed list and is taken from it;
  `clearFreed` detaches the list, as `reclaim` does before it gives its blocks back.
* `reclaimed` — `reclaim`: every block of the freed lists is released.
* `pop` — the next slot of a class's head page is handed out.
* `openPage` and `openRun` — free pages become a small page or a run.
* `Retabled` — pages become free or static, as when the heap grows or the table moves.
-/

namespace HdLang

open Function List

namespace Alloc

open PointerList

namespace Shape

variable (S : Shape)

/-! ### Definitions -/

/-- Whether giving a slot of page `p` back returns the page to the pool: it was the page's last
live slot and the page does not head its class's list. -/
def Returns (p cls : ℕ) : Prop :=
  S.carved p - (S.free p).length - 1 = 0 ∧ (S.list cls).headD 0 ≠ p

instance (p cls : ℕ) : Decidable (S.Returns p cls) := inferInstanceAs (Decidable (_ ∧ _))

/-- Gives slot `b` of the page `p` of class `cls` back to it. -/
def giveSlot (p cls b : ℕ) : Shape :=
  if S.Returns p cls then
    { S with
      free := Function.update S.free p (b :: S.free p)
      list := Function.update S.list cls ((S.list cls).erase p)
      entry := Function.update S.entry p .free }
  else if S.Full p cls then
    { S with
      free := Function.update S.free p (b :: S.free p)
      list := Function.update S.list cls (p :: S.list cls) }
  else { S with free := Function.update S.free p (b :: S.free p) }

/-- Makes the `count` pages of the run at `p` free. -/
def freeRun (p count : ℕ) : Shape :=
  { S with entry := fun q => if p ≤ q ∧ q < p + count then .free else S.entry q }

/-- `free_block`. -/
def release (b : ℕ) : Shape :=
  match S.entry (b / PAGE) with
  | .run count => S.freeRun (b / PAGE) count
  | .small cls => S.giveSlot (b / PAGE) cls b
  | _ => S

/-- `free_class`. -/
def park (cls b : ℕ) : Shape :=
  { S with freed := Function.update S.freed cls (b :: S.freed cls) }

/-- The freed list of `cls` without its first block. -/
def popFreed (cls : ℕ) : Shape :=
  { S with freed := Function.update S.freed cls (S.freed cls).tail }

/-- The freed list of `cls` detached. -/
def clearFreed (cls : ℕ) : Shape := { S with freed := Function.update S.freed cls [] }

/-- Releases the blocks `l`, first to last. -/
def releaseAll (l : List ℕ) : Shape := l.foldl Shape.release S

/-- `reclaim`'s turn for class `cls`. -/
def reclaimClass (cls : ℕ) : Shape := (S.clearFreed cls).releaseAll (S.freed cls)

/-- `reclaim`'s turns for the `left` classes from `cls` on. -/
def reclaimFrom (S : Shape) : ℕ → ℕ → Shape
  | _, 0 => S
  | cls, left + 1 => (S.reclaimClass cls).reclaimFrom (cls + 1) left

/-- `reclaim`. -/
def reclaimed : Shape := S.reclaimFrom 1 20

/-- The next slot of the page `p` of class `cls`: its free list's first, else a new one. -/
def slot (p cls : ℕ) : ℕ := (S.free p).headD (slotAt p cls (S.carved p))

/-- Page `p` once its next slot is taken. -/
def takeSlot (p : ℕ) : Shape :=
  if S.free p = [] then { S with carved := Function.update S.carved p (S.carved p + 1) }
  else { S with free := Function.update S.free p (S.free p).tail }

/-- The head page `p` of class `cls` hands its next slot out, and leaves the list when full. -/
def pop (p cls : ℕ) : Shape :=
  if (S.takeSlot p).Full p cls then
    { S.takeSlot p with list := Function.update S.list cls (S.list cls).tail }
  else S.takeSlot p

/-- The free page `p` becomes the one small page with room of class `cls`. -/
def openPage (p cls : ℕ) : Shape :=
  { S with
    entry := Function.update S.entry p (.small cls)
    carved := Function.update S.carved p 0
    free := Function.update S.free p []
    list := Function.update S.list cls [p] }

/-- The `count` free pages from `p` on become a run. -/
def openRun (p count : ℕ) : Shape :=
  { S with
    entry := fun q =>
      if q = p then .run count else if p < q ∧ q < p + count then .rest p else S.entry q }

/-- The pages a block can be in. -/
def Holds (p : ℕ) : Prop := S.entry p ≠ .free ∧ S.entry p ≠ .static

/-- `T` is `S` but for pages that no block can be in, before or after. -/
structure Retabled (T : Shape) : Prop where
  carved : T.carved = S.carved
  free : T.free = S.free
  list : T.list = S.list
  freed : T.freed = S.freed
  entry : ∀ p, S.Holds p ∨ T.Holds p → T.entry p = S.entry p

variable {S} {known p cls b : ℕ}

/-! ### What a page can become -/

namespace EntryWF

variable {entry : ℕ → Entry}

theorem ne_of_not_static (hE : EntryWF entry known) (he : entry p ≠ .static) :
    p < known ∧ p ≠ 0 :=
  ⟨hE.lt_known he, by rintro rfl; exact he hE.zero⟩

/-- A page that is no run's may become any page that is no run's. -/
theorem update (hE : EntryWF entry known) (hp : p < known ∧ p ≠ 0) {e : Entry}
    (hold : ∀ n q, entry p ≠ .run n ∧ entry p ≠ .rest q) (hnew : ∀ n q, e ≠ .run n ∧ e ≠ .rest q)
    (hclass : ∀ c, e = .small c → IsClass c) :
    EntryWF (Function.update entry p e) known where
  beyond q hq := by
    rw [update_of_ne (by omega)]
    exact hE.beyond q hq
  zero := by
    rw [update_of_ne (by omega)]
    exact hE.zero
  isClass q c hq := by
    by_cases hqp : q = p
    · subst hqp
      exact hclass c (by simpa using hq)
    · exact hE.isClass q c (by rwa [update_of_ne hqp] at hq)
  run_pos q n hq := by
    by_cases hqp : q = p
    · subst hqp
      exact absurd (by simpa using hq) (hnew n 0).1
    · exact hE.run_pos q n (by rwa [update_of_ne hqp] at hq)
  run_rest q n hq r hr hr' := by
    have hqp : q ≠ p := by
      rintro rfl
      exact (hnew n 0).1 (by simpa using hq)
    rw [update_of_ne hqp] at hq
    have hrest := hE.run_rest q n hq r hr hr'
    have hrp : r ≠ p := by
      rintro rfl
      exact (hold 0 q).2 hrest
    rwa [update_of_ne hrp]
  rest_run q r hq := by
    have hqp : q ≠ p := by
      rintro rfl
      exact (hnew 0 r).2 (by simpa using hq)
    rw [update_of_ne hqp] at hq
    obtain ⟨n, hn, hlt⟩ := hE.rest_run q r hq
    have hrp : r ≠ p := by
      rintro rfl
      exact (hold n 0).1 hn
    exact ⟨n, by rwa [update_of_ne hrp], hlt⟩

end EntryWF

/-! ### Giving a slot back -/

section GiveSlot

variable (hS : S.WF known) (he : S.entry p = .small cls)
  (hb : IsSlot p cls (S.carved p) b) (hfree : b ∉ S.free p) (hfreed : b ∉ S.freed cls)

include hS he hb hfree

theorem WF.cons_free : (b :: S.free p).Nodup ∧ ∀ x ∈ b :: S.free p, IsSlot p cls (S.carved p) x := by
  refine ⟨nodup_cons.mpr ⟨hfree, hS.free_nodup p cls he⟩, fun x hx => ?_⟩
  rcases mem_cons.mp hx with rfl | hx
  · exact hb
  · exact hS.free_slot p cls he x hx

/-- When `b` is the last live slot of its page, every other carved slot is on the free list. -/
theorem WF.mem_free_of_last (hlast : S.carved p - (S.free p).length - 1 = 0) {x : ℕ}
    (hx : IsSlot p cls (S.carved p) x) (hxb : x ≠ b) : x ∈ S.free p := by
  by_contra hnot
  obtain ⟨hnd, hslots⟩ := hS.cons_free he hb hfree
  have hnd' : (x :: b :: S.free p).Nodup := by
    refine nodup_cons.mpr ⟨fun hmem => ?_, hnd⟩
    rcases mem_cons.mp hmem with h | h
    · exact hxb h
    · exact hnot h
  have hlen := length_le_of_isSlot hnd' fun y hy => by
    rcases mem_cons.mp hy with rfl | hy
    · exact hx
    · exact hslots y hy
  simp only [length_cons] at hlen
  omega

include hfreed

/-- A block of a freed list is not the slot given back. -/
theorem WF.freed_ne {c x : ℕ} (hc : IsClass c) (hx : x ∈ S.freed c) : x ≠ b := by
  rintro rfl
  have hslot := hS.freed_slot c hc x hx
  rw [hb.div (hS.isClass p cls he) (hS.carved_le p cls he), he] at hslot
  have : cls = c := by injection hslot.1
  exact hfreed (this ▸ hx)

/-- The page goes back to the pool: nothing on any list is in it. -/
theorem WF.returns (hret : S.Returns p cls) :
    Shape.WF { S with
      free := Function.update S.free p (b :: S.free p)
      list := Function.update S.list cls ((S.list cls).erase p)
      entry := Function.update S.entry p .free } known where
  toEntryWF := hS.toEntryWF.update (hS.ne_of_not_static (by simp [he])) (by simp [he]) (by simp) (by simp)
  carved_le q c hq := by
    by_cases hqp : q = p
    · subst hqp; simp at hq
    · exact hS.carved_le q c (by simpa only [update_of_ne hqp] using hq)
  free_nodup q c hq := by
    by_cases hqp : q = p
    · subst hqp; simp at hq
    · simp only [update_of_ne hqp] at hq ⊢
      exact hS.free_nodup q c hq
  free_slot q c hq := by
    by_cases hqp : q = p
    · subst hqp; simp at hq
    · simp only [update_of_ne hqp] at hq ⊢
      exact hS.free_slot q c hq
  list_nodup c hc := by
    by_cases hcc : c = cls
    · subst hcc
      simpa using (hS.list_nodup c hc).erase p
    · simpa only [update_of_ne hcc] using hS.list_nodup c hc
  mem_list c hc q := by
    dsimp only
    by_cases hqp : q = p
    · subst hqp
      simp only [update_self, reduceCtorEq, false_and, iff_false]
      by_cases hcc : c = cls
      · subst hcc
        rw [update_self]
        exact (hS.list_nodup c hc).not_mem_erase
      · rw [update_of_ne hcc, hS.mem_list c hc, he]
        rintro ⟨h, -⟩
        injection h with h
        exact hcc h.symm
    · have hlist : q ∈ Function.update S.list cls ((S.list cls).erase p) c ↔ q ∈ S.list c := by
        by_cases hcc : c = cls
        · subst hcc
          rw [update_self, mem_erase_of_ne hqp]
        · rw [update_of_ne hcc]
      rw [hlist, hS.mem_list c hc]
      simp only [Full, update_of_ne hqp]
  freed_nodup := hS.freed_nodup
  freed_slot c hc x hx := by
    obtain ⟨h₁, h₂, h₃⟩ := hS.freed_slot c hc x hx
    have hxp : x / PAGE ≠ p := by
      intro hxp
      rw [hxp] at h₁ h₂ h₃
      rw [he] at h₁
      obtain rfl : cls = c := by injection h₁
      exact h₃ (hS.mem_free_of_last he hb hfree hret.1 h₂ (hS.freed_ne he hb hfree hfreed hc hx))
    simp only [update_of_ne hxp]
    exact ⟨h₁, h₂, h₃⟩

/-- The page stays: it is in its class's list afterwards, at its head if it was full. -/
theorem WF.stays {l : ℕ → List ℕ}
    (hl : ∀ c, IsClass c → (l c).Nodup ∧ ∀ q, q ∈ l c ↔ q ∈ S.list c ∨ c = cls ∧ q = p) :
    Shape.WF { S with free := Function.update S.free p (b :: S.free p), list := l } known where
  __ := hS
  free_nodup q c hq := by
    dsimp only at hq ⊢
    by_cases hqp : q = p
    · subst hqp
      rw [update_self]
      exact (hS.cons_free he hb hfree).1
    · rw [update_of_ne hqp]
      exact hS.free_nodup q c hq
  free_slot q c hq := by
    dsimp only at hq ⊢
    by_cases hqp : q = p
    · subst hqp
      rw [update_self]
      obtain rfl : cls = c := by rw [he] at hq; injection hq
      exact (hS.cons_free he hb hfree).2
    · rw [update_of_ne hqp]
      exact hS.free_slot q c hq
  list_nodup c hc := (hl c hc).1
  mem_list c hc q := by
    rw [(hl c hc).2, hS.mem_list c hc]
    by_cases hqp : q = p
    · subst hqp
      simp only [Full, update_self, reduceCtorEq, false_and, not_false_iff, and_true, he]
      constructor
      · rintro (⟨h, -⟩ | h)
        · exact h
        · rw [h]
      · intro h
        injection h with h
        exact Or.inr h.symm
    · simp only [Full, update_of_ne hqp, hqp, and_false, or_false]
  freed_slot c hc x hx := by
    obtain ⟨h₁, h₂, h₃⟩ := hS.freed_slot c hc x hx
    refine ⟨h₁, h₂, ?_⟩
    dsimp only
    by_cases hxp : x / PAGE = p
    · rw [hxp, update_self]
      rw [hxp] at h₃
      intro hmem
      rcases mem_cons.mp hmem with h | h
      · exact hS.freed_ne he hb hfree hfreed hc hx h
      · exact h₃ h
    · rwa [update_of_ne hxp]

theorem WF.giveSlot : (S.giveSlot p cls b).WF known := by
  have hcls := hS.isClass p cls he
  unfold Shape.giveSlot
  split
  · next hret => exact hS.returns he hb hfree hfreed hret
  · split
    · next hfull =>
      have hnot : p ∉ S.list cls := by
        rw [hS.mem_list cls hcls]
        exact fun h => h.2 hfull
      refine hS.stays he hb hfree hfreed fun c hc => ?_
      by_cases hcc : c = cls
      · subst hcc
        rw [update_self]
        refine ⟨nodup_cons.mpr ⟨hnot, hS.list_nodup c hc⟩, fun q => ?_⟩
        rw [mem_cons, or_comm]
        simp
      · rw [update_of_ne hcc]
        exact ⟨hS.list_nodup c hc, fun q => by simp [hcc]⟩
    · next hfull =>
      refine hS.stays he hb hfree hfreed fun c hc => ⟨hS.list_nodup c hc, fun q => ?_⟩
      refine ⟨Or.inl, ?_⟩
      rintro (h | ⟨rfl, rfl⟩)
      · exact h
      · exact (hS.mem_list c hc q).mpr ⟨he, hfull⟩

theorem WF.live_giveSlot (x : ℕ) : (S.giveSlot p cls b).Live x ↔ S.Live x ∧ x ≠ b := by
  have hdiv := hb.div (hS.isClass p cls he) (hS.carved_le p cls he)
  unfold Shape.giveSlot
  by_cases hxp : x / PAGE = p
  · -- a block of the page itself
    have hother : ∀ n, S.entry (x / PAGE) ≠ .run n := by
      intro n h
      rw [hxp, he] at h
      cases h
    split
    · next hret =>
      have hdead : ¬(S.Live x ∧ x ≠ b) := by
        rintro ⟨⟨c, h₁, h₂, h₃, -⟩ | ⟨n, h, -⟩, hne⟩
        · rw [hxp] at h₁ h₂ h₃
          obtain rfl : cls = c := by rw [he] at h₁; injection h₁
          exact h₃ (hS.mem_free_of_last he hb hfree hret.1 h₂ hne)
        · exact hother n h
      refine iff_of_false ?_ hdead
      simp only [Live, hxp, update_self, reduceCtorEq, false_and, exists_false, or_self,
        not_false_iff]
    · split <;>
      · simp only [Live, hxp, update_self, he, Entry.small.injEq, reduceCtorEq, false_and,
          exists_false, or_false, mem_cons, not_or]
        constructor
        · rintro ⟨c, rfl, h₂, ⟨h₃, h₄⟩, h₅⟩
          exact ⟨⟨_, rfl, h₂, h₄, h₅⟩, h₃⟩
        · rintro ⟨⟨c, rfl, h₂, h₄, h₅⟩, h₃⟩
          exact ⟨_, rfl, h₂, ⟨h₃, h₄⟩, h₅⟩
  · have hxb : x ≠ b := by
      rintro rfl
      exact hxp hdiv
    simp only [ne_eq, hxb, not_false_iff, and_true]
    split
    · simp only [Live, update_of_ne hxp]
    · split <;> simp only [Live, update_of_ne hxp]

end GiveSlot

/-! ### Freeing a run -/

section FreeRun

variable {n : ℕ} (hS : S.WF known) (he : S.entry p = .run n)

include hS he

/-- The pages of a run are its first page and its later ones. -/
theorem WF.run_page {q : ℕ} (h : p ≤ q ∧ q < p + n) :
    S.entry q = .run n ∧ q = p ∨ S.entry q = .rest p := by
  rcases Nat.eq_or_lt_of_le h.1 with heq | hlt
  · exact Or.inl ⟨heq ▸ he, heq.symm⟩
  · exact Or.inr (hS.run_rest p n he q hlt h.2)

theorem WF.not_in_run_of_small {q c : ℕ} (hq : S.entry q = .small c) : ¬(p ≤ q ∧ q < p + n) := by
  intro h
  rcases hS.run_page he h with ⟨h', -⟩ | h' <;> rw [hq] at h' <;> cases h'

theorem WF.freeRun : (S.freeRun p n).WF known where
  __ := hS
  beyond q hq := by
    have := hS.run_known he
    simp only [Shape.freeRun]
    rw [if_neg (by omega)]
    exact hS.beyond q hq
  zero := by
    have := (hS.ne_of_not_static (p := p) (by simp [he])).2
    simp only [Shape.freeRun]
    rw [if_neg (by omega)]
    exact hS.zero
  isClass q c hq := by
    simp only [Shape.freeRun] at hq
    split at hq
    · cases hq
    · exact hS.isClass q c hq
  run_pos q m hq := by
    simp only [Shape.freeRun] at hq
    split at hq
    · cases hq
    · exact hS.run_pos q m hq
  run_rest q m hq r hr hr' := by
    simp only [Shape.freeRun] at hq ⊢
    split at hq
    · cases hq
    · next hnot =>
      have hrest := hS.run_rest q m hq r hr hr'
      rw [if_neg ?_]
      · exact hrest
      · intro hin
        rcases hS.run_page he hin with ⟨h, -⟩ | h
        · rw [hrest] at h
          cases h
        · rw [hrest] at h
          obtain rfl : q = p := by injection h
          have := hS.run_pos _ _ he
          exact hnot ⟨Nat.le_refl _, by omega⟩
  rest_run q r hq := by
    simp only [Shape.freeRun] at hq ⊢
    split at hq
    · cases hq
    · next hnot =>
      obtain ⟨m, hm, hlt⟩ := hS.rest_run q r hq
      refine ⟨m, ?_, hlt⟩
      rw [if_neg ?_]
      · exact hm
      · intro hin
        rcases hS.run_page he hin with ⟨h, rfl⟩ | h
        · obtain rfl : m = n := by rw [hm] at h; injection h
          exact hnot ⟨by omega, hlt.2⟩
        · rw [hm] at h
          cases h
  carved_le q c hq := by
    simp only [Shape.freeRun] at hq
    split at hq
    · cases hq
    · exact hS.carved_le q c hq
  free_nodup q c hq := by
    simp only [Shape.freeRun] at hq
    split at hq
    · cases hq
    · exact hS.free_nodup q c hq
  free_slot q c hq := by
    simp only [Shape.freeRun] at hq
    split at hq
    · cases hq
    · exact hS.free_slot q c hq
  mem_list c hc q := by
    simp only [Shape.freeRun]
    rw [hS.mem_list c hc]
    split
    · next hin =>
      refine iff_of_false (fun h => hS.not_in_run_of_small he h.1 hin) ?_
      simp
    · exact Iff.rfl
  freed_slot c hc x hx := by
    obtain ⟨h₁, h₂⟩ := hS.freed_slot c hc x hx
    simp only [Shape.freeRun]
    rw [if_neg (hS.not_in_run_of_small he h₁)]
    exact ⟨h₁, h₂⟩

theorem WF.live_freeRun (x : ℕ) : (S.freeRun p n).Live x ↔ S.Live x ∧ x ≠ p * PAGE := by
  simp only [Shape.freeRun, Live]
  split
  · next hin =>
    refine iff_of_false (by simp) ?_
    rintro ⟨⟨c, h, -⟩ | ⟨m, h, hx⟩, hne⟩
    · exact hS.not_in_run_of_small he h hin
    · rcases hS.run_page he hin with ⟨-, h'⟩ | h'
      · exact hne (by rw [← h']; exact hx)
      · rw [h] at h'
        cases h'
  · next hnot =>
    have hne : x ≠ p * PAGE := by
      rintro rfl
      have := hS.run_pos _ _ he
      exact hnot (by unfold PAGE; omega)
    simp [hne]

end FreeRun

/-! ### Releasing a block -/

section Release

variable (hS : S.WF known) (hb : S.Live b)

include hS hb

theorem WF.release : (S.release b).WF known := by
  rcases hb with ⟨c, he, hslot, hfree, hfreed⟩ | ⟨n, he, -⟩
  · simp only [Shape.release, he]
    exact hS.giveSlot he hslot hfree hfreed
  · simp only [Shape.release, he]
    exact hS.freeRun he

/-- **Releasing a block** ends that block and no other. -/
theorem WF.live_release (x : ℕ) : (S.release b).Live x ↔ S.Live x ∧ x ≠ b := by
  rcases hb with ⟨c, he, hslot, hfree, hfreed⟩ | ⟨n, he, hdiv⟩
  · simp only [Shape.release, he]
    exact hS.live_giveSlot he hslot hfree hfreed x
  · simp only [Shape.release, he]
    rw [hS.live_freeRun he x, ← hdiv]

theorem WF.release_static {q : ℕ} (hst : S.entry q = .static) : (S.release b).entry q = .static := by
  rcases hb with ⟨c, he, -⟩ | ⟨n, he, -⟩
  · have hne : q ≠ b / PAGE := by
      rintro rfl
      rw [he] at hst
      cases hst
    simp only [Shape.release, he, Shape.giveSlot]
    split
    · simpa only [update_of_ne hne] using hst
    · split <;> exact hst
  · simp only [Shape.release, he, Shape.freeRun]
    rw [if_neg ?_]
    · exact hst
    · intro hin
      rcases hS.run_page he hin with ⟨h', -⟩ | h' <;> rw [hst] at h' <;> cases h'

/-- A block that outlives a release has the bytes it had. -/
theorem WF.release_size {x : ℕ} (hx : S.Live x) (hne : x ≠ b) :
    (S.release b).size x = S.size x := by
  have hlive := (hS.live_release hb x).mpr ⟨hx, hne⟩
  have hnf : (S.release b).entry (x / PAGE) ≠ .free := by
    rcases hlive with ⟨c, h, -⟩ | ⟨n, h, -⟩ <;> rw [h] <;> exact Entry.noConfusion
  have hentry : (S.release b).entry (x / PAGE) = S.entry (x / PAGE) := by
    rcases hb with ⟨c, he, -⟩ | ⟨n, he, -⟩
    · simp only [Shape.release, he, Shape.giveSlot] at hnf ⊢
      split
      · next hret =>
        rw [if_pos hret] at hnf
        by_cases hxp : x / PAGE = b / PAGE
        · simp [hxp] at hnf
        · simp only [update_of_ne hxp]
      · split <;> rfl
    · simp only [Shape.release, he, Shape.freeRun] at hnf ⊢
      split
      · next hin => exact absurd (if_pos hin) hnf
      · rfl
  unfold Shape.size
  rw [hentry]

omit hS hb in
@[simp] theorem release_freed : (S.release b).freed = S.freed := by
  unfold Shape.release
  split
  · rfl
  · unfold Shape.giveSlot
    split
    · rfl
    · split <;> rfl
  · rfl

end Release

/-! ### The freed lists -/

section Freed

/-- The freed list of `cls` may become any list of carved slots of the class that no page's free
list has. -/
theorem WF.setFreed (hS : S.WF known) {l : List ℕ} (hnd : l.Nodup)
    (hl : ∀ x ∈ l, S.entry (x / PAGE) = .small cls ∧
      IsSlot (x / PAGE) cls (S.carved (x / PAGE)) x ∧ x ∉ S.free (x / PAGE)) :
    Shape.WF { S with freed := Function.update S.freed cls l } known where
  __ := hS
  freed_nodup c hc := by
    by_cases hcc : c = cls
    · subst hcc
      simpa using hnd
    · simpa only [update_of_ne hcc] using hS.freed_nodup c hc
  freed_slot c hc x hx := by
    by_cases hcc : c = cls
    · subst hcc
      exact hl x (by simpa using hx)
    · exact hS.freed_slot c hc x (by simpa only [update_of_ne hcc] using hx)

variable (hS : S.WF known)

include hS

theorem WF.park (hc : IsClass cls) (hb : S.Live b) (he : S.entry (b / PAGE) = .small cls) :
    (S.park cls b).WF known := by
  obtain ⟨c, h₁, h₂, h₃, h₄⟩ | ⟨n, h, -⟩ := hb
  · obtain rfl : cls = c := by rw [he] at h₁; injection h₁
    refine hS.setFreed (nodup_cons.mpr ⟨h₄, hS.freed_nodup _ hc⟩) fun x hx => ?_
    rcases mem_cons.mp hx with rfl | hx
    · exact ⟨h₁, h₂, h₃⟩
    · exact hS.freed_slot _ hc x hx
  · rw [he] at h
    cases h

omit hS in
/-- A parked block is no longer live, and every other block is as it was. -/
theorem live_park (hb : S.Live b) (he : S.entry (b / PAGE) = .small cls) (x : ℕ) :
    (S.park cls b).Live x ↔ S.Live x ∧ x ≠ b := by
  simp only [Shape.park, Live]
  constructor
  · rintro (⟨c, h₁, h₂, h₃, h₄⟩ | ⟨n, h, hx⟩)
    · by_cases hcc : c = cls
      · subst hcc
        simp only [update_self, mem_cons, not_or] at h₄
        exact ⟨Or.inl ⟨c, h₁, h₂, h₃, h₄.2⟩, h₄.1⟩
      · rw [update_of_ne hcc] at h₄
        refine ⟨Or.inl ⟨c, h₁, h₂, h₃, h₄⟩, ?_⟩
        rintro rfl
        rw [he] at h₁
        injection h₁ with h₁
        exact hcc h₁.symm
    · refine ⟨Or.inr ⟨n, h, hx⟩, ?_⟩
      rintro rfl
      rw [he] at h
      cases h
  · rintro ⟨⟨c, h₁, h₂, h₃, h₄⟩ | h, hne⟩
    · refine Or.inl ⟨c, h₁, h₂, h₃, ?_⟩
      by_cases hcc : c = cls
      · subst hcc
        simp [hne, h₄]
      · rwa [update_of_ne hcc]
    · exact Or.inr h

theorem WF.popFreed (hc : IsClass cls) : (S.popFreed cls).WF known :=
  hS.setFreed (hS.freed_nodup cls hc).tail fun x hx =>
    hS.freed_slot cls hc x (mem_of_mem_tail hx)

theorem WF.clearFreed : (S.clearFreed cls).WF known :=
  hS.setFreed nodup_nil fun _ hx => absurd hx not_mem_nil

theorem WF.live_clearFreed (hc : IsClass cls) (x : ℕ) :
    (S.clearFreed cls).Live x ↔ S.Live x ∨ x ∈ S.freed cls := by
  simp only [Shape.clearFreed, Live]
  constructor
  · rintro (⟨c, h₁, h₂, h₃, h₄⟩ | h)
    · by_cases hcc : c = cls
      · subst hcc
        by_cases hx : x ∈ S.freed c
        · exact Or.inr hx
        · exact Or.inl (Or.inl ⟨c, h₁, h₂, h₃, hx⟩)
      · rw [update_of_ne hcc] at h₄
        exact Or.inl (Or.inl ⟨c, h₁, h₂, h₃, h₄⟩)
    · exact Or.inl (Or.inr h)
  · rintro ((⟨c, h₁, h₂, h₃, h₄⟩ | h) | h)
    · refine Or.inl ⟨c, h₁, h₂, h₃, ?_⟩
      by_cases hcc : c = cls
      · subst hcc
        simp
      · rwa [update_of_ne hcc]
    · exact Or.inr h
    · obtain ⟨h₁, h₂, h₃⟩ := hS.freed_slot cls hc x h
      exact Or.inl ⟨cls, h₁, h₂, h₃, by simp⟩

/-- Taking the first block of a freed list makes it live. -/
theorem WF.live_popFreed (hc : IsClass cls) {t : List ℕ} (hl : S.freed cls = b :: t) (x : ℕ) :
    (S.popFreed cls).Live x ↔ S.Live x ∨ x = b := by
  have hnd := hS.freed_nodup cls hc
  rw [hl] at hnd
  simp only [Shape.popFreed, Live, hl, tail_cons]
  constructor
  · rintro (⟨c, h₁, h₂, h₃, h₄⟩ | h)
    · by_cases hcc : c = cls
      · subst hcc
        rw [update_self] at h₄
        by_cases hx : x = b
        · exact Or.inr hx
        · exact Or.inl (Or.inl ⟨c, h₁, h₂, h₃, by simp [hl, hx, h₄]⟩)
      · rw [update_of_ne hcc] at h₄
        exact Or.inl (Or.inl ⟨c, h₁, h₂, h₃, h₄⟩)
    · exact Or.inl (Or.inr h)
  · rintro ((⟨c, h₁, h₂, h₃, h₄⟩ | h) | rfl)
    · refine Or.inl ⟨c, h₁, h₂, h₃, ?_⟩
      by_cases hcc : c = cls
      · subst hcc
        rw [update_self]
        rw [hl] at h₄
        exact fun h => h₄ (mem_cons_of_mem _ h)
      · rwa [update_of_ne hcc]
    · exact Or.inr h
    · obtain ⟨h₁, h₂, h₃⟩ := hS.freed_slot cls hc x (by rw [hl]; exact mem_cons_self)
      refine Or.inl ⟨cls, h₁, h₂, h₃, ?_⟩
      rw [update_self]
      exact (nodup_cons.mp hnd).1

end Freed

/-! ### Reclaiming -/

/-- `T` has the live blocks of `S`, with the bytes they have there. -/
structure Keeps (S T : Shape) : Prop where
  live : ∀ x, T.Live x ↔ S.Live x
  size : ∀ x, S.Live x → T.size x = S.size x

theorem Keeps.refl (S : Shape) : S.Keeps S := ⟨fun _ => Iff.rfl, fun _ _ => rfl⟩

theorem Keeps.trans {S T U : Shape} (h : S.Keeps T) (h' : T.Keeps U) : S.Keeps U :=
  ⟨fun x => (h'.live x).trans (h.live x), fun x hx =>
    (h'.size x ((h.live x).mpr hx)).trans (h.size x hx)⟩

/-- Releasing the blocks `l` ends them and no other. -/
theorem WF.releaseAll {l : List ℕ} : ∀ {S : Shape}, S.WF known → l.Nodup → (∀ x ∈ l, S.Live x) →
    (S.releaseAll l).WF known ∧ (S.releaseAll l).freed = S.freed ∧
      (∀ x, (S.releaseAll l).Live x ↔ S.Live x ∧ x ∉ l) ∧
      ∀ x, S.Live x → x ∉ l → (S.releaseAll l).size x = S.size x := by
  induction l with
  | nil =>
    intro S hS _ _
    exact ⟨hS, rfl, fun x => by simp [Shape.releaseAll], fun _ _ _ => rfl⟩
  | cons b t ih =>
    intro S hS hnd hlive
    have hb := hlive b mem_cons_self
    obtain ⟨hbt, hnd'⟩ := nodup_cons.mp hnd
    have hlive' : ∀ x ∈ t, (S.release b).Live x := fun x hx =>
      (hS.live_release hb x).mpr ⟨hlive x (mem_cons_of_mem _ hx), fun h => hbt (h ▸ hx)⟩
    obtain ⟨h₁, h₂, h₃, h₄⟩ := ih (hS.release hb) hnd' hlive'
    refine ⟨h₁, h₂.trans release_freed, fun x => ?_, fun x hx hxl => ?_⟩
    · rw [show S.releaseAll (b :: t) = (S.release b).releaseAll t from rfl, h₃, hS.live_release hb,
        mem_cons, not_or, and_assoc]
    · rw [mem_cons, not_or] at hxl
      rw [show S.releaseAll (b :: t) = (S.release b).releaseAll t from rfl,
        h₄ x ((hS.live_release hb x).mpr ⟨hx, hxl.1⟩) hxl.2, hS.release_size hb hx hxl.1]

/-- `reclaim`'s turn for a class empties its freed list and changes no live block. -/
theorem WF.reclaimClass (hS : S.WF known) (hc : IsClass cls) : (S.reclaimClass cls).WF known ∧
    (S.reclaimClass cls).freed = Function.update S.freed cls [] ∧
    S.Keeps (S.reclaimClass cls) := by
  have hlive : ∀ x ∈ S.freed cls, (S.clearFreed cls).Live x := fun x hx =>
    (hS.live_clearFreed hc x).mpr (Or.inr hx)
  obtain ⟨h₁, h₂, h₃, h₄⟩ := (hS.clearFreed : (S.clearFreed cls).WF known).releaseAll (hS.freed_nodup cls hc) hlive
  have hdead : ∀ x, S.Live x → x ∉ S.freed cls := by
    rintro x hx hmem
    obtain ⟨he, -⟩ := hS.freed_slot cls hc x hmem
    rcases hx with ⟨c, h, -, -, hnot⟩ | ⟨n, h, -⟩
    · obtain rfl : cls = c := by rw [he] at h; injection h
      exact hnot hmem
    · rw [he] at h
      cases h
  refine ⟨h₁, h₂, ⟨fun x => ?_, fun x hx => ?_⟩⟩
  · unfold Shape.reclaimClass
    rw [h₃, hS.live_clearFreed hc]
    constructor
    · rintro ⟨h | h, hnot⟩
      · exact h
      · exact absurd h hnot
    · exact fun h => ⟨Or.inl h, hdead x h⟩
  · exact h₄ x ((hS.live_clearFreed hc x).mpr (Or.inl hx)) (hdead x hx)

theorem WF.reclaimFrom : ∀ (left : ℕ) {cls : ℕ} {S : Shape}, S.WF known → 1 ≤ cls →
    cls + left ≤ 21 → (S.reclaimFrom cls left).WF known ∧ S.Keeps (S.reclaimFrom cls left) ∧
      ∀ c, (S.reclaimFrom cls left).freed c =
        if cls ≤ c ∧ c < cls + left then [] else S.freed c := by
  intro left
  induction left with
  | zero =>
    intro cls S hS _ _
    exact ⟨hS, Keeps.refl S, fun c => by rw [if_neg (by omega)]; rfl⟩
  | succ left ih =>
    intro cls S hS h1 h21
    obtain ⟨h₁, h₂, h₃⟩ := hS.reclaimClass (⟨h1, by omega⟩ : IsClass cls)
    obtain ⟨h₄, h₅, h₆⟩ := ih h₁ (by omega : 1 ≤ cls + 1) (by omega)
    refine ⟨h₄, h₃.trans h₅, fun c => ?_⟩
    rw [show S.reclaimFrom cls (left + 1) = (S.reclaimClass cls).reclaimFrom (cls + 1) left from rfl,
      h₆, h₂]
    by_cases hc : c = cls
    · subst hc
      rw [if_neg (by omega), update_self, if_pos ⟨Nat.le_refl _, by omega⟩]
    · rw [update_of_ne hc]
      split_ifs <;> first | rfl | omega

/-- `reclaim` empties every freed list and changes no live block. -/
theorem WF.reclaimed (hS : S.WF known) : S.reclaimed.WF known ∧ S.Keeps S.reclaimed ∧
    ∀ c, IsClass c → S.reclaimed.freed c = [] := by
  unfold Shape.reclaimed
  obtain ⟨h₁, h₂, h₃⟩ := hS.reclaimFrom 20 (le_refl 1) (by decide)
  exact ⟨h₁, h₂, fun c hc => (h₃ c).trans (if_pos ⟨hc.1, by have := hc.2; omega⟩)⟩

end Shape

end Alloc

end HdLang
