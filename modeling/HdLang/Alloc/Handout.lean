import HdLang.Alloc.Operations

/-!
# Handing blocks out, and new pages

The second half of the abstract operations: `pop` makes the next slot of a class's head page live,
`openPage` and `openRun` turn free pages into a small page or a run, and a `Retabled` shape differs
from another only in pages that no block can be in.
-/

namespace HdLang

open Function List

namespace Alloc

open PointerList

namespace Shape

variable {S : Shape} {known p cls b : ℕ}

/-! ### Handing a slot out -/

section Pop

variable (hS : S.WF known) (he : S.entry p = .small cls) (hroom : ¬S.Full p cls)

@[simp] theorem takeSlot_entry : (S.takeSlot p).entry = S.entry := by
  unfold takeSlot; split <;> rfl

@[simp] theorem takeSlot_list : (S.takeSlot p).list = S.list := by
  unfold takeSlot; split <;> rfl

@[simp] theorem takeSlot_freed : (S.takeSlot p).freed = S.freed := by
  unfold takeSlot; split <;> rfl

theorem takeSlot_of_ne {q : ℕ} (hq : q ≠ p) :
    (S.takeSlot p).free q = S.free q ∧ (S.takeSlot p).carved q = S.carved q := by
  unfold takeSlot
  split <;> simp [update_of_ne hq]

include hS he in
theorem WF.length_free_le : (S.free p).length ≤ S.carved p :=
  length_le_of_isSlot (hS.free_nodup p cls he) (hS.free_slot p cls he)

include hS he in
theorem WF.live_takeSlot : (S.takeSlot p).carved p - ((S.takeSlot p).free p).length =
    S.carved p - (S.free p).length + 1 := by
  have hlen := hS.length_free_le he
  unfold takeSlot
  split
  · next hnil => simp [hnil]
  · next hne =>
    have hpos : 0 < (S.free p).length := length_pos_iff.mpr hne
    simp only [update_self, List.length_tail]
    omega

include hS he hroom

/-- The slot handed out: carved afterwards, and on no list. -/
theorem WF.slot_isSlot : IsSlot p cls ((S.takeSlot p).carved p) (S.slot p cls) ∧
    (S.takeSlot p).carved p ≤ slotsOf cls ∧ S.slot p cls ∉ (S.takeSlot p).free p := by
  have hle := hS.carved_le p cls he
  unfold takeSlot slot
  split
  · next hnil =>
    have hlt : S.carved p ≠ slotsOf cls := fun h => hroom ⟨hnil, h⟩
    simp only [hnil, update_self, headD_nil]
    exact ⟨⟨S.carved p, by omega, rfl⟩, by omega, not_mem_nil⟩
  · next hne =>
    obtain ⟨f, t, hl⟩ := exists_cons_of_ne_nil hne
    have hnd := hS.free_nodup p cls he
    rw [hl] at hnd
    simp only [hl, update_self, headD_cons, tail_cons]
    exact ⟨hS.free_slot p cls he f (by simp [hl]), hle, (nodup_cons.mp hnd).1⟩

/-- The carved slots are those of before and the one handed out. -/
theorem WF.isSlot_takeSlot (x : ℕ) : (IsSlot p cls ((S.takeSlot p).carved p) x ∧
    x ∉ (S.takeSlot p).free p) ↔
    (IsSlot p cls (S.carved p) x ∧ x ∉ S.free p) ∨ x = S.slot p cls := by
  have hslot := hS.slot_isSlot he hroom
  unfold takeSlot slot at *
  split
  · next hnil =>
    simp only [hnil, update_self, headD_nil, not_mem_nil, not_false_iff, and_true]
    constructor
    · rintro ⟨k, hk, rfl⟩
      rcases Nat.lt_or_ge k (S.carved p) with h | h
      · exact Or.inl ⟨k, h, rfl⟩
      · exact Or.inr (by rw [show k = S.carved p by omega])
    · rintro (h | rfl)
      · exact h.mono (by omega)
      · exact ⟨S.carved p, by omega, rfl⟩
  · next hne =>
    obtain ⟨f, t, hl⟩ := exists_cons_of_ne_nil hne
    simp only [hl, reduceCtorEq, if_false, update_self, headD_cons, tail_cons] at hslot ⊢
    constructor
    · rintro ⟨h₁, h₂⟩
      by_cases hx : x = f
      · exact Or.inr hx
      · exact Or.inl ⟨h₁, by simp [hx, h₂]⟩
    · rintro (⟨h₁, h₂⟩ | rfl)
      · exact ⟨h₁, fun h => h₂ (mem_cons_of_mem _ h)⟩
      · exact ⟨hslot.1, hslot.2.2⟩

theorem WF.slot_not_mem (hc : IsClass cls) {c : ℕ} (hc' : IsClass c) :
    S.slot p cls ∉ S.freed c := by
  intro hmem
  obtain ⟨h₁, h₂, h₃⟩ := hS.freed_slot c hc' _ hmem
  have hslot := hS.slot_isSlot he hroom
  rw [hslot.1.div hc hslot.2.1] at h₁ h₂ h₃
  obtain rfl : cls = c := by rw [he] at h₁; injection h₁
  unfold slot at h₂ h₃
  cases hl : S.free p with
  | nil =>
    rw [hl] at h₂
    exact slotAt_not_isSlot hc h₂
  | cons f t =>
    rw [hl] at h₃
    exact h₃ mem_cons_self

theorem WF.takeSlot {l : ℕ → List ℕ} (hl : ∀ c, IsClass c → (l c).Nodup ∧
    ∀ q, q ∈ l c ↔ S.entry q = .small c ∧ ¬(S.takeSlot p).Full q c) :
    Shape.WF { S.takeSlot p with list := l } known where
  toEntryWF := by simpa using hS.toEntryWF
  carved_le q c hq := by
    rw [takeSlot_entry] at hq
    by_cases hqp : q = p
    · subst hqp
      obtain rfl : cls = c := by rw [he] at hq; injection hq
      exact (hS.slot_isSlot he hroom).2.1
    · dsimp only
      rw [(takeSlot_of_ne hqp).2]
      exact hS.carved_le q c hq
  free_nodup q c hq := by
    rw [takeSlot_entry] at hq
    dsimp only
    by_cases hqp : q = p
    · subst hqp
      have hnd := hS.free_nodup q c hq
      unfold Shape.takeSlot
      split
      · exact hnd
      · simpa using hnd.tail
    · rw [(takeSlot_of_ne hqp).1]
      exact hS.free_nodup q c hq
  free_slot q c hq x hx := by
    rw [takeSlot_entry] at hq
    dsimp only at hx ⊢
    by_cases hqp : q = p
    · subst hqp
      have hslots := hS.free_slot q c hq
      unfold Shape.takeSlot at hx ⊢
      split at hx
      · next hnil =>
        rw [hnil] at hx
        cases hx
      · next hne =>
        rw [if_neg hne]
        simp only [update_self] at hx
        exact hslots x (mem_of_mem_tail hx)
    · rw [(takeSlot_of_ne hqp).1] at hx
      rw [(takeSlot_of_ne hqp).2]
      exact hS.free_slot q c hq x hx
  list_nodup c hc := (hl c hc).1
  mem_list c hc q := by
    rw [takeSlot_entry]
    exact (hl c hc).2 q
  freed_nodup := by simpa using hS.freed_nodup
  freed_slot c hc x hx := by
    rw [takeSlot_freed] at hx
    obtain ⟨h₁, h₂, h₃⟩ := hS.freed_slot c hc x hx
    rw [takeSlot_entry]
    dsimp only
    by_cases hxp : x / PAGE = p
    · rw [hxp] at h₁ h₂ h₃ ⊢
      obtain rfl : cls = c := by rw [he] at h₁; injection h₁
      exact ⟨h₁, (hS.isSlot_takeSlot he hroom x).mpr (Or.inl ⟨h₂, h₃⟩)⟩
    · rw [(takeSlot_of_ne hxp).1, (takeSlot_of_ne hxp).2]
      exact ⟨h₁, h₂, h₃⟩

end Pop

theorem takeSlot_full {q c : ℕ} (hq : q ≠ p) : (S.takeSlot p).Full q c ↔ S.Full q c := by
  simp only [Full, takeSlot_of_ne hq]

section PopHead

variable {t : List ℕ} (hS : S.WF known) (hc : IsClass cls) (hl : S.list cls = p :: t)

include hS hc hl

theorem WF.head_small : S.entry p = .small cls ∧ ¬S.Full p cls :=
  (hS.mem_list cls hc p).mp (by rw [hl]; exact mem_cons_self)

theorem WF.pop : (S.pop p cls).WF known := by
  obtain ⟨he, hroom⟩ := hS.head_small hc hl
  have hnd := hS.list_nodup cls hc
  rw [hl] at hnd
  have hne : ∀ c, c ≠ cls → ∀ q, S.entry q = .small c → q ≠ p := by
    rintro c hcc q hq rfl
    rw [he] at hq
    injection hq with hq
    exact hcc hq.symm
  unfold Shape.pop
  split
  · next hfull =>
    refine hS.takeSlot he hroom fun c hc' => ?_
    by_cases hcc : c = cls
    · subst hcc
      rw [update_self, hl, tail_cons]
      refine ⟨hnd.tail, fun q => ?_⟩
      have hmem := hS.mem_list c hc q
      rw [hl, mem_cons] at hmem
      by_cases hqp : q = p
      · subst hqp
        exact iff_of_false (nodup_cons.mp hnd).1 fun h => h.2 hfull
      · rw [takeSlot_full hqp, ← hmem]
        simp [hqp]
    · rw [update_of_ne hcc]
      refine ⟨hS.list_nodup c hc', fun q => ?_⟩
      rw [hS.mem_list c hc']
      exact and_congr_right fun hq => not_congr (takeSlot_full (hne c hcc q hq)).symm
  · next hfull =>
    refine hS.takeSlot (l := (S.takeSlot p).list) he hroom fun c hc' => ?_
    rw [takeSlot_list]
    refine ⟨hS.list_nodup c hc', fun q => ?_⟩
    rw [hS.mem_list c hc']
    refine and_congr_right fun hq => not_congr ?_
    by_cases hqp : q = p
    · subst hqp
      obtain rfl : cls = c := by rw [he] at hq; injection hq
      exact iff_of_false hroom hfull
    · exact (takeSlot_full hqp).symm

/-- **Handing a slot out** makes that block live, and no other. -/
theorem WF.live_pop (x : ℕ) : (S.pop p cls).Live x ↔ S.Live x ∨ x = S.slot p cls := by
  obtain ⟨he, hroom⟩ := hS.head_small hc hl
  have hfreed := hS.slot_not_mem he hroom hc hc
  have hslot := hS.slot_isSlot he hroom
  have hdiv := hslot.1.div hc hslot.2.1
  have hlive : (S.pop p cls).Live x ↔ (S.takeSlot p).Live x := by
    unfold Shape.pop
    split <;> simp only [Live]
  rw [hlive]
  simp only [Live, takeSlot_entry, takeSlot_freed]
  by_cases hxp : x / PAGE = p
  · simp only [hxp, he, Entry.small.injEq, reduceCtorEq, false_and, exists_false, or_false]
    have hiff := hS.isSlot_takeSlot he hroom x
    constructor
    · rintro ⟨c, rfl, h₂, h₃, h₄⟩
      rcases hiff.mp ⟨h₂, h₃⟩ with h | h
      · exact Or.inl ⟨_, rfl, h.1, h.2, h₄⟩
      · exact Or.inr h
    · rintro (⟨c, rfl, h₂, h₃, h₄⟩ | rfl)
      · have h := hiff.mpr (Or.inl ⟨h₂, h₃⟩)
        exact ⟨_, rfl, h.1, h.2, h₄⟩
      · exact ⟨_, rfl, hslot.1, hslot.2.2, hfreed⟩
  · have hx : x ≠ S.slot p cls := by
      rintro rfl
      exact hxp hdiv
    simp only [takeSlot_of_ne hxp, hx, or_false]

theorem WF.slot_not_live : ¬S.Live (S.slot p cls) := by
  obtain ⟨he, hroom⟩ := hS.head_small hc hl
  have hslot := hS.slot_isSlot he hroom
  have hdiv := hslot.1.div hc hslot.2.1
  rintro (⟨c, h₁, h₂, h₃, -⟩ | ⟨n, h, -⟩)
  · rw [hdiv] at h₁ h₂ h₃
    obtain rfl : cls = c := by rw [he] at h₁; injection h₁
    unfold slot at h₂ h₃
    cases hf : S.free p with
    | nil =>
      rw [hf] at h₂
      exact slotAt_not_isSlot hc h₂
    | cons f t =>
      rw [hf] at h₃
      exact h₃ mem_cons_self
  · rw [hdiv, he] at h
    cases h

end PopHead

/-! ### New pages -/

section Open

variable (hS : S.WF known) (he : S.entry p = .free)

include hS he

theorem WF.openPage (hc : IsClass cls) (hl : S.list cls = []) : (S.openPage p cls).WF known where
  toEntryWF := hS.toEntryWF.update (hS.ne_of_not_static (by simp [he])) (by simp [he]) (by simp)
    (by rintro c h; injection h with h; exact h ▸ hc)
  carved_le q c hq := by
    simp only [Shape.openPage] at hq ⊢
    by_cases hqp : q = p
    · subst hqp; simp
    · rw [update_of_ne hqp] at hq ⊢
      exact hS.carved_le q c hq
  free_nodup q c hq := by
    simp only [Shape.openPage] at hq ⊢
    by_cases hqp : q = p
    · subst hqp; simp
    · rw [update_of_ne hqp] at hq ⊢
      exact hS.free_nodup q c hq
  free_slot q c hq := by
    simp only [Shape.openPage] at hq ⊢
    by_cases hqp : q = p
    · subst hqp; simp
    · rw [update_of_ne hqp] at hq
      rw [update_of_ne hqp, update_of_ne hqp]
      exact hS.free_slot q c hq
  list_nodup c hc' := by
    simp only [Shape.openPage]
    by_cases hcc : c = cls
    · subst hcc; simp
    · rw [update_of_ne hcc]
      exact hS.list_nodup c hc'
  mem_list c hc' q := by
    have hslots := hc.facts.2.2.2.1
    simp only [Shape.openPage, Full]
    by_cases hqp : q = p
    · subst hqp
      simp only [update_self, Entry.small.injEq]
      by_cases hcc : c = cls
      · subst hcc
        simp only [update_self, mem_singleton, true_and, true_iff]
        omega
      · rw [update_of_ne hcc, hS.mem_list c hc', he]
        simp [Ne.symm hcc]
    · simp only [update_of_ne hqp]
      by_cases hcc : c = cls
      · subst hcc
        have hmem := hS.mem_list c hc' q
        rw [hl] at hmem
        rw [update_self, mem_singleton]
        exact iff_of_false hqp fun h => absurd (hmem.mpr h) not_mem_nil
      · rw [update_of_ne hcc]
        exact hS.mem_list c hc' q
  freed_nodup := hS.freed_nodup
  freed_slot c hc' x hx := by
    obtain ⟨h₁, h₂⟩ := hS.freed_slot c hc' x hx
    have hxp : x / PAGE ≠ p := by
      intro h
      rw [h, he] at h₁
      cases h₁
    simp only [Shape.openPage, update_of_ne hxp]
    exact ⟨h₁, h₂⟩

omit hS in
theorem live_openPage (x : ℕ) : (S.openPage p cls).Live x ↔ S.Live x := by
  simp only [Shape.openPage, Live]
  by_cases hxp : x / PAGE = p
  · simp only [hxp, update_self, he, Entry.small.injEq, reduceCtorEq, false_and, exists_false,
      or_false, or_self, iff_false]
    rintro ⟨c, -, ⟨k, hk, -⟩, -⟩
    omega
  · simp only [update_of_ne hxp]

end Open

@[simp] theorem openRun_carved {n : ℕ} : (S.openRun p n).carved = S.carved := rfl

@[simp] theorem openRun_free {n : ℕ} : (S.openRun p n).free = S.free := rfl

@[simp] theorem openRun_list {n : ℕ} : (S.openRun p n).list = S.list := rfl

@[simp] theorem openRun_freed {n : ℕ} : (S.openRun p n).freed = S.freed := rfl

theorem entry_of_openRun {n q : ℕ} (hq : q ≠ p) (hq' : ¬(p < q ∧ q < p + n)) :
    (S.openRun p n).entry q = S.entry q := by
  simp only [Shape.openRun]
  rw [if_neg hq, if_neg hq']

section OpenRun

variable {n : ℕ} (hS : S.WF known) (hn : 1 ≤ n)
  (hfree : ∀ q, p ≤ q → q < p + n → S.entry q = .free)

include hS hn hfree

omit hS in
/-- A page of the new run is no page that a block is in. -/
theorem openRun_of_holds {q : ℕ} (hq : S.Holds q) : q ≠ p ∧ ¬(p < q ∧ q < p + n) := by
  constructor
  · rintro rfl
    exact hq.1 (hfree q (Nat.le_refl _) (by omega))
  · intro h
    exact hq.1 (hfree q (by omega) h.2)

omit hS in
theorem openRun_entry {q : ℕ} (hq : S.Holds q) : (S.openRun p n).entry q = S.entry q := by
  obtain ⟨h₁, h₂⟩ := openRun_of_holds hn hfree hq
  exact entry_of_openRun h₁ h₂

theorem WF.openRun : (S.openRun p n).WF known := by
  have hknown : p + n ≤ known := by
    have := hS.lt_known (p := p + n - 1) (by rw [hfree _ (by omega) (by omega)]; simp)
    omega
  have hp0 : p ≠ 0 := by
    rintro rfl
    have := hfree 0 (Nat.le_refl _) (by omega)
    rw [hS.zero] at this
    cases this
  -- a page of the new run is `run` or `rest`, and any other page is as it was
  have hcases : ∀ q, (q = p ∧ (S.openRun p n).entry q = .run n) ∨
      (p < q ∧ q < p + n ∧ (S.openRun p n).entry q = .rest p) ∨
      (q ≠ p ∧ ¬(p < q ∧ q < p + n) ∧ (S.openRun p n).entry q = S.entry q) := by
    intro q
    by_cases hqp : q = p
    · exact Or.inl ⟨hqp, by simp [Shape.openRun, hqp]⟩
    · by_cases hin : p < q ∧ q < p + n
      · exact Or.inr (Or.inl ⟨hin.1, hin.2, by simp [Shape.openRun, hqp, hin]⟩)
      · exact Or.inr (Or.inr ⟨hqp, hin, entry_of_openRun hqp hin⟩)
  have hsmall : ∀ q c, (S.openRun p n).entry q = .small c → S.entry q = .small c := by
    intro q c hq
    rcases hcases q with ⟨-, h⟩ | ⟨-, -, h⟩ | ⟨-, -, h⟩
    · rw [hq] at h; cases h
    · rw [hq] at h; cases h
    · rw [← h]; exact hq
  constructor
  case toEntryWF =>
    constructor
    case beyond =>
      intro q hq
      rw [entry_of_openRun (by omega) (by omega)]
      exact hS.beyond q hq
    case zero =>
      rw [entry_of_openRun (by omega) (by omega)]
      exact hS.zero
    case isClass => exact fun q c hq => hS.isClass q c (hsmall q c hq)
    case run_pos =>
      intro q m hq
      rcases hcases q with ⟨-, h⟩ | ⟨-, -, h⟩ | ⟨-, -, h⟩
      · rw [hq] at h
        injection h with h
        omega
      · rw [hq] at h; cases h
      · exact hS.run_pos q m (by rw [← h]; exact hq)
    case run_rest =>
      intro q m hq r hr hr'
      rcases hcases q with ⟨rfl, h⟩ | ⟨-, -, h⟩ | ⟨-, -, h⟩
      · obtain rfl : m = n := by rw [hq] at h; injection h
        rcases hcases r with ⟨rfl, -⟩ | ⟨-, -, h'⟩ | ⟨-, h', -⟩
        · omega
        · exact h'
        · exact absurd ⟨hr, hr'⟩ h'
      · rw [hq] at h; cases h
      · have hrest := hS.run_rest q m (by rw [← h]; exact hq) r hr hr'
        rw [openRun_entry hn hfree (by simp [Holds, hrest])]
        exact hrest
    case rest_run =>
      intro q r hq
      rcases hcases q with ⟨-, h⟩ | ⟨h₁, h₂, h⟩ | ⟨-, -, h⟩
      · rw [hq] at h; cases h
      · obtain rfl : r = p := by rw [hq] at h; injection h
        exact ⟨n, by simp [Shape.openRun], h₁, h₂⟩
      · obtain ⟨m, hm, hlt⟩ := hS.rest_run q r (by rw [← h]; exact hq)
        refine ⟨m, ?_, hlt⟩
        rw [openRun_entry hn hfree (by simp [Holds, hm])]
        exact hm
  case carved_le => exact fun q c hq => hS.carved_le q c (hsmall q c hq)
  case free_nodup => exact fun q c hq => hS.free_nodup q c (hsmall q c hq)
  case free_slot => exact fun q c hq => hS.free_slot q c (hsmall q c hq)
  case list_nodup => exact hS.list_nodup
  case mem_list =>
    intro c hc q
    refine (hS.mem_list c hc q).trans (and_congr_left fun _ => ⟨fun hq => ?_, hsmall q c⟩)
    rw [openRun_entry hn hfree (by simp [Holds, hq])]
    exact hq
  case freed_nodup => exact hS.freed_nodup
  case freed_slot =>
    intro c hc x hx
    obtain ⟨h₁, h₂⟩ := hS.freed_slot c hc x hx
    rw [openRun_entry hn hfree (by simp [Holds, h₁])]
    exact ⟨h₁, h₂⟩

omit hS in
/-- **A new run** makes that block live, and no other. -/
theorem live_openRun (x : ℕ) : (S.openRun p n).Live x ↔ S.Live x ∨ x = p * PAGE := by
  have hdiv : p * PAGE / PAGE = p := Nat.mul_div_cancel _ (by decide)
  by_cases hxp : x / PAGE = p
  · have hentry : (S.openRun p n).entry p = .run n := by simp [Shape.openRun]
    have hold : S.entry p = .free := hfree p (Nat.le_refl _) (by omega)
    simp [Live, hxp, hentry, hold]
  · have hx : x ≠ p * PAGE := by
      rintro rfl
      exact hxp hdiv
    simp only [hx, or_false]
    by_cases hin : p < x / PAGE ∧ x / PAGE < p + n
    · have hentry : (S.openRun p n).entry (x / PAGE) = .rest p := by
        simp [Shape.openRun, hxp, hin]
      have hold := hfree (x / PAGE) (by omega) hin.2
      simp only [Live, hentry, hold, reduceCtorEq, false_and, exists_false]
    · have hentry := entry_of_openRun (S := S) hxp hin
      simp only [Live, hentry]
      rfl

end OpenRun

/-! ### Pages that become free or static -/

section Retabled

variable {T : Shape} (h : S.Retabled T)

include h

theorem Retabled.entry_iff {q : ℕ} {e : Entry} (he : e ≠ .free ∧ e ≠ .static) :
    T.entry q = e ↔ S.entry q = e := by
  constructor
  · intro hq
    rw [← h.entry q (Or.inr (by rw [Holds, hq]; exact he))]
    exact hq
  · intro hq
    rw [h.entry q (Or.inl (by rw [Holds, hq]; exact he))]
    exact hq

theorem WF.retabled (hS : S.WF known) {known' : ℕ} (hbeyond : ∀ q, known' ≤ q → T.entry q = .static)
    (hzero : T.entry 0 = .static) : T.WF known' where
  beyond := hbeyond
  zero := hzero
  isClass q c hq := hS.isClass q c ((h.entry_iff (by simp)).mp hq)
  run_pos q n hq := hS.run_pos q n ((h.entry_iff (by simp)).mp hq)
  run_rest q n hq r hr hr' := (h.entry_iff (by simp)).mpr
    (hS.run_rest q n ((h.entry_iff (by simp)).mp hq) r hr hr')
  rest_run q r hq := by
    obtain ⟨n, hn, hlt⟩ := hS.rest_run q r ((h.entry_iff (by simp)).mp hq)
    exact ⟨n, (h.entry_iff (by simp)).mpr hn, hlt⟩
  carved_le q c hq := by
    rw [h.carved]
    exact hS.carved_le q c ((h.entry_iff (by simp)).mp hq)
  free_nodup q c hq := by
    rw [h.free]
    exact hS.free_nodup q c ((h.entry_iff (by simp)).mp hq)
  free_slot q c hq := by
    rw [h.free, h.carved]
    exact hS.free_slot q c ((h.entry_iff (by simp)).mp hq)
  list_nodup := by
    rw [h.list]
    exact hS.list_nodup
  mem_list c hc q := by
    rw [h.list, h.entry_iff (by simp), hS.mem_list c hc]
    simp only [Full, h.free, h.carved]
  freed_nodup := by
    rw [h.freed]
    exact hS.freed_nodup
  freed_slot c hc x hx := by
    rw [h.freed] at hx
    rw [h.entry_iff (by simp), h.free, h.carved]
    exact hS.freed_slot c hc x hx

theorem Retabled.live_iff (x : ℕ) : T.Live x ↔ S.Live x := by
  simp only [Live, h.free, h.carved, h.freed, h.entry_iff (e := .small _) (by simp),
    h.entry_iff (e := .run _) (by simp)]

theorem Retabled.size_eq {x : ℕ} (hx : S.Live x) : T.size x = S.size x := by
  have hhold : S.Holds (x / PAGE) := by
    rcases hx with ⟨c, he, -⟩ | ⟨n, he, -⟩ <;> simp [Holds, he]
  unfold size
  rw [h.entry _ (Or.inl hhold)]

end Retabled

theorem Retabled.refl : S.Retabled S := ⟨rfl, rfl, rfl, rfl, fun _ _ => rfl⟩

theorem Retabled.trans {T U : Shape} (h : S.Retabled T) (h' : T.Retabled U) : S.Retabled U where
  carved := h'.carved.trans h.carved
  free := h'.free.trans h.free
  list := h'.list.trans h.list
  freed := h'.freed.trans h.freed
  entry p hp := by
    rcases hp with hp | hp
    · have := h.entry p (Or.inl hp)
      rw [h'.entry p (Or.inl (by rw [Holds, this]; exact hp)), this]
    · have := h'.entry p (Or.inr hp)
      rw [this, h.entry p (Or.inr (by rw [Holds, ← this]; exact hp))]

end Shape

end Alloc

end HdLang
