import HdLang.Alloc.Invariant

/-!
# Freeing refines `release`, `park` and `clearFreed`

`free_block` on a live block takes a heap that stands for `S` to one that stands for `S.release b`,
`free_class` to one that stands for `S.park cls b`, and `reclaim` to one whose freed lists are empty
and whose live blocks are the same. None of them changes a byte of the memory the rest of the program
owns.
-/

namespace HdLang

open ByteMem Function Ensures List Nat

namespace Alloc

open PointerList

/-! ### Carrying the layout to another shape -/

section Transport

variable {S S' : Shape} {h : Heap} {K : Rest}

theorem Layout.of_shape (hL : Layout S h) (hwf : S'.WF h.known)
    (hst : ∀ p, S.entry p = .static → S'.entry p = .static) : Layout S' h :=
  { hL with wf := hwf, table_static := fun a ha => hst _ (hL.table_static a ha) }

theorem Clear.of_shape (hK : Clear S h K) (hst : ∀ p, S.entry p = .static → S'.entry p = .static)
    (hlive : ∀ b, S.Live b → (∃ a ∈ K, S.InBlock b a) → S'.Live b ∧ S'.size b = S.size b) :
    Clear S' h K where
  foreign a ha := ⟨hst _ (hK.foreign a ha).1, (hK.foreign a ha).2⟩
  held a ha := by
    obtain ⟨b, hb, hin⟩ := hK.held a ha
    obtain ⟨hb', hsz⟩ := hlive b hb ⟨a, Or.inr ha, hin⟩
    exact ⟨b, hb', hin.1, by rw [hsz]; exact hin.2⟩
  bound := hK.bound

theorem Layout.slot_lt (hL : Layout S h) {p c b : ℕ} (he : S.entry p = .small c)
    (hslot : IsSlot p c (S.carved p) b) : b < USIZE := by
  have hbd := hslot.bounds (hL.wf.isClass _ _ he) (hL.wf.carved_le _ _ he)
  have hp := (hL.page_lt (p := p) (by rw [he]; exact Entry.noConfusion)).2.2
  have : (p + 1) * PAGE ≤ 65536 * PAGE := mul_le_mul_right _ hp
  have hf := (hL.wf.isClass _ _ he).facts
  unfold PAGE USIZE at *
  omega

theorem Layout.headD_free_lt (hL : Layout S h) {p c : ℕ} (he : S.entry p = .small c) :
    (S.free p).headD 0 < USIZE := by
  by_cases hnil : S.free p = []
  · rw [hnil]
    decide
  · exact hL.slot_lt he (hL.wf.free_slot p c he _ (headD_mem hnil))

theorem Layout.page_mul_lt (hL : Layout S h) {p : ℕ} (hp : S.entry p ≠ .static) :
    PAGE * p < USIZE := by
  have := (hL.page_lt hp).2.2
  unfold PAGE USIZE
  omega

theorem Shape.WF.zero_notMem_list {known c : ℕ} (hS : S.WF known) (hc : IsClass c) :
    0 ∉ S.list c := by
  intro hmem
  have := ((hS.mem_list c hc 0).mp hmem).1
  rw [hS.zero] at this
  cases this

theorem Layout.headD_list_lt (hL : Layout S h) {c : ℕ} (hc : IsClass c) :
    PAGE * (S.list c).headD 0 < USIZE := by
  by_cases hnil : S.list c = []
  · rw [hnil]
    decide
  · have he := ((hL.wf.mem_list c hc _).mp (headD_mem hnil)).1
    exact hL.page_mul_lt (by rw [he]; exact Entry.noConfusion)

/-- A page of a class's list has its header placed. -/
theorem Shape.WF.header_of_mem {known c p : ℕ} (hS : S.WF known) (hc : IsClass c)
    (hp : p ∈ S.list c) : S.entry p = .free ∨ ∃ cls, S.entry p = .small cls :=
  Or.inr ⟨c, ((hS.mem_list c hc p).mp hp).1⟩

end Transport

/-! ### Releasing a block -/

section Release

variable {E : Stop → Prop} {S : Shape} {h : Heap} {K : Rest} {b : ℕ}

theorem Layout.release (hL : Layout S h) (hb : S.Live b) : Layout (S.release b) h :=
  hL.of_shape (hL.wf.release hb) fun _ hp => hL.wf.release_static hb hp

theorem Clear.release (hK : Clear S h K) (hL : Layout S h) (hb : S.Live b)
    (hbK : ∀ a, S.InBlock b a → a ∉ K) : Clear (S.release b) h K := by
  refine hK.of_shape (fun _ hp => hL.wf.release_static hb hp) ?_
  rintro x hx ⟨a, ha, hin⟩
  have hne : x ≠ b := by
    rintro rfl
    exact hbK a hin ha
  exact ⟨(hL.wf.live_release hb x).mpr ⟨hx, hne⟩, hL.wf.release_size hb hx hne⟩

/-! #### A class's list -/

section Lists

variable {f : Cell → ℕ} {h₁ : Heap} {p c : ℕ} {Q : Unit → Heap → Prop} (hL : Layout S h)
  (hK : Clear S h K) (hcls : IsClass c) (ht : Tracks S K h h₁ f) (hl : Linked f S.list)

/-- Only the link fields of pages and the heads of lists may differ. -/
def SameButLinks (f g : Cell → ℕ) : Prop :=
  ∀ cell, (∀ q, cell ≠ .next q ∧ cell ≠ .prev q ∧ cell ≠ .head q) → g cell = f cell

include hL

theorem Layout.other_list (hcls : IsClass c) {k q : ℕ} (hkc : k ≠ c) (hk : IsClass k)
    (hq : q ∈ S.list k) : q ∉ S.list c := by
  intro hq'
  have h₁ := ((hL.wf.mem_list k hk q).mp hq).1
  have h₂ := ((hL.wf.mem_list c hcls q).mp hq').1
  rw [h₁] at h₂
  injection h₂ with h₂
  exact hkc h₂

include hK hcls ht hl

/-- `unlink` takes a page that does not head its list out of it. -/
theorem Tracks.unlink (hmem : p ∈ S.list c) (hhead : (S.list c).headD 0 ≠ p)
    (hQ : ∀ h₂ g, Tracks S K h h₂ g → SameButLinks f g →
      Linked g (Function.update S.list c ((S.list c).erase p)) → Q () h₂) :
    Ensures E (unlink (p * PAGE) c) Q h₁ := by
  have hwf := hL.wf
  have hnd := hwf.list_nodup c hcls
  have h0 := hwf.zero_notMem_list hcls
  -- the page does not head its list, so it has a predecessor there
  have hprev0 : before 0 (S.list c) p ≠ 0 := fun h =>
    hhead ((before_eq_prev_iff hnd h0 hmem).mp h)
  have hprev : before 0 (S.list c) p ∈ S.list c := (before_mem 0 hmem).resolve_left hprev0
  have hlt : ∀ q ∈ S.list c, PAGE * q < USIZE := fun q hq =>
    hL.page_mul_lt (by rw [((hwf.mem_list c hcls q).mp hq).1]; exact Entry.noConfusion)
  have hheader := fun q => hwf.header_of_mem (p := q) hcls
  unfold Alloc.unlink
  rw [bind_iff]
  refine ht.load32 hL (.next p) (hheader p hmem) rfl rfl ?_
  rw [bind_iff]
  refine ht.load32 hL (.prev p) (hheader p hmem) rfl rfl ?_
  rw [hl.next c hcls p hmem, hl.prev c hcls p hmem]
  dsimp only
  rw [if_pos (by unfold PAGE; omega), bind_iff]
  refine ht.store32 hL hK (.next (before 0 (S.list c) p)) (hheader _ hprev) rfl
    (by simp only [Cell.addr]; rw [mul_comm]) ?_ fun h₂ ht₂ => ?_
  · rcases after_mem_or_zero (l := S.list c) (x := p) with h | h
    · rw [h]
      decide
    · exact hlt _ h
  · rw [ite_iff]
    have hh : ∀ k, IsClass k → f (.head k) =
        PAGE * (update S.list c ((S.list c).erase p) k).headD 0 := by
      intro k hk
      rw [hl.head k hk]
      by_cases hkc : k = c
      · subst hkc
        rw [update_self, headD_erase_of_ne hhead]
      · rw [update_of_ne hkc]
    have hn : ∀ k, IsClass k → ∀ q ∈ update S.list c ((S.list c).erase p) k,
        (update f (.next (before 0 (S.list c) p)) (PAGE * after (S.list c) p)) (.next q) =
          PAGE * after (update S.list c ((S.list c).erase p) k) q := by
      intro k hk q hq
      by_cases hkc : k = c
      · subst hkc
        rw [update_self] at hq ⊢
        rw [after_erase hnd h0 hmem hq]
        split
        · next heq => rw [heq, update_self]
        · next hne =>
          rw [update_of_ne (by simpa using hne)]
          exact hl.next k hk q (mem_of_mem_erase hq)
      · rw [update_of_ne hkc] at hq ⊢
        have hne : q ≠ before 0 (S.list c) p := by
          rintro rfl
          exact hL.other_list hcls hkc hk hq hprev
        rw [update_of_ne (by simpa using hne)]
        exact hl.next k hk q hq
    constructor
    · intro hn0
      have hn0' : after (S.list c) p ≠ 0 := by
        intro h
        exact hn0 (by rw [h, mul_zero])
      have hmem' := after_mem_or_zero.resolve_left hn0'
      refine ht₂.store32 hL hK (.prev (after (S.list c) p)) (hheader _ hmem') rfl
        (by simp only [Cell.addr]; rw [mul_comm]) (hlt _ hprev) fun h₃ ht₃ => ?_
      refine hQ h₃ _ ht₃ (fun cell hne => ?_) ⟨fun k hk => ?_, fun k hk q hq => ?_,
        fun k hk q hq => ?_⟩
      · rw [update_of_ne (hne _).2.1, update_of_ne (hne _).1]
      · simpa using hh k hk
      · simpa using hn k hk q hq
      · by_cases hkc : k = c
        · subst hkc
          rw [update_self] at hq ⊢
          rw [before_erase hnd h0 hmem hq]
          split
          · next heq => rw [heq, update_self]
          · next hne =>
            rw [update_of_ne (by simpa using hne), update_of_ne (by simp)]
            exact hl.prev k hk q (mem_of_mem_erase hq)
        · rw [update_of_ne hkc] at hq ⊢
          have hne : q ≠ after (S.list c) p := by
            rintro rfl
            exact hL.other_list hcls hkc hk hq hmem'
          rw [update_of_ne (by simpa using hne), update_of_ne (by simp)]
          exact hl.prev k hk q hq
    · intro hn0
      have hn0' : after (S.list c) p = 0 := by
        by_contra h
        exact hn0 (by unfold PAGE; omega)
      rw [pure_iff]
      refine hQ h₂ _ ht₂ (fun cell hne => update_of_ne (hne _).1 _ _)
        ⟨fun k hk => ?_, hn, fun k hk q hq => ?_⟩
      · simpa using hh k hk
      · rw [update_of_ne (by simp)]
        by_cases hkc : k = c
        · subst hkc
          rw [update_self] at hq ⊢
          have hq' := mem_of_mem_erase hq
          have hq0 : q ≠ after (S.list k) p := by
            rw [hn0']
            exact fun h => h0 (h ▸ hq')
          rw [before_erase hnd h0 hmem hq, if_neg hq0]
          exact hl.prev k hk q hq'
        · rw [update_of_ne hkc] at hq ⊢
          exact hl.prev k hk q hq

/-- The stores that put a page at the head of its class's list. -/
theorem Tracks.push (he : S.entry p = .small c) (hnot : p ∉ S.list c)
    (hQ : ∀ h₂ g, Tracks S K h h₂ g → SameButLinks f g →
      Linked g (Function.update S.list c (p :: S.list c)) → Q () h₂) :
    Ensures E (do
      Alloc.store32 (p * PAGE + 4) (f (.head c))
      Alloc.store32 (p * PAGE + 8) 0
      if f (.head c) ≠ 0 then Alloc.store32 (f (.head c) + 8) (p * PAGE)
      Alloc.setHead c (p * PAGE)) Q h₁ := by
  have hwf := hL.wf
  have hnd := hwf.list_nodup c hcls
  have hplaced : S.entry p = .free ∨ ∃ cls, S.entry p = .small cls := Or.inr ⟨c, he⟩
  have hlt : p * PAGE < USIZE := by
    rw [mul_comm]
    exact hL.page_mul_lt (by rw [he]; exact Entry.noConfusion)
  -- the page is on no list at all
  have hother : ∀ k, IsClass k → ∀ q ∈ S.list k, q ≠ p := by
    rintro k hk q hq rfl
    have hq' := ((hwf.mem_list k hk q).mp hq).1
    rw [he] at hq'
    injection hq' with hq'
    exact hnot (hq' ▸ hq)
  rw [bind_iff, hl.head c hcls]
  refine ht.store32 hL hK (.next p) hplaced rfl rfl (hL.headD_list_lt hcls) fun h₂ ht₂ => ?_
  rw [bind_iff]
  refine ht₂.store32 hL hK (.prev p) hplaced rfl rfl (by decide) fun h₃ ht₃ => ?_
  dsimp only
  rw [ite_iff]
  have hn : ∀ k, IsClass k → ∀ q ∈ update S.list c (p :: S.list c) k,
      (update f (.next p) (PAGE * (S.list c).headD 0)) (.next q) =
        PAGE * after (update S.list c (p :: S.list c) k) q := by
    intro k hk q hq
    by_cases hkc : k = c
    · subst hkc
      rw [update_self] at hq ⊢
      by_cases hqp : q = p
      · subst hqp
        rw [update_self, after_cons_self]
      · rw [update_of_ne (by simpa using hqp), after_cons_of_ne hqp]
        exact hl.next k hk q ((mem_cons.mp hq).resolve_left hqp)
    · rw [update_of_ne hkc] at hq ⊢
      rw [update_of_ne (by simpa using hother k hk q hq)]
      exact hl.next k hk q hq
  constructor
  · intro hh0
    have hnil : S.list c ≠ [] := by
      intro h
      exact hh0 (by rw [h]; rfl)
    have hmem := headD_mem hnil
    rw [bind_iff]
    refine ht₃.store32 hL hK (.prev ((S.list c).headD 0)) (hwf.header_of_mem hcls hmem) rfl
      (by simp only [Cell.addr]; rw [mul_comm]) hlt fun h₄ ht₄ => ?_
    refine ht₄.setHead hL hK hcls hlt fun h₅ ht₅ => ?_
    refine hQ h₅ _ ht₅ (fun cell hne => ?_) ⟨fun k hk => ?_, fun k hk q hq => ?_,
      fun k hk q hq => ?_⟩
    · rw [update_of_ne (hne _).2.2, update_of_ne (hne _).2.1, update_of_ne (hne _).2.1,
        update_of_ne (hne _).1]
    · by_cases hkc : k = c
      · subst hkc
        simp [mul_comm]
      · simpa [hkc] using hl.head k hk
    · simpa using hn k hk q hq
    · by_cases hkc : k = c
      · subst hkc
        rw [update_self] at hq ⊢
        by_cases hqp : q = p
        · subst hqp
          have hne := hother k hk _ hmem
          rw [update_of_ne (by simp), update_of_ne (by simpa using Ne.symm hne), update_self,
            before_cons_self, mul_zero]
        · have hq' := (mem_cons.mp hq).resolve_left hqp
          rw [before_push hq' hnot hnd]
          split
          · next heq =>
            rw [update_of_ne (by simp), heq, update_self, mul_comm]
          · next hne =>
            rw [update_of_ne (by simp), update_of_ne (by simpa using hne),
              update_of_ne (by simpa using hqp), update_of_ne (by simp)]
            exact hl.prev k hk q hq'
      · rw [update_of_ne hkc] at hq ⊢
        have hne : q ≠ (S.list c).headD 0 := by
          rintro rfl
          exact hL.other_list hcls hkc hk hq hmem
        rw [update_of_ne (by simp), update_of_ne (by simpa using hne),
          update_of_ne (by simpa using hother k hk q hq), update_of_ne (by simp)]
        exact hl.prev k hk q hq
  · intro hh0
    have hnil : S.list c = [] := by
      refine (headD_eq_zero_iff (hwf.zero_notMem_list hcls)).mp ?_
      by_contra h
      exact hh0 (by unfold PAGE; omega)
    refine ht₃.setHead hL hK hcls hlt fun h₅ ht₅ => ?_
    refine hQ h₅ _ ht₅ (fun cell hne => ?_) ⟨fun k hk => ?_, fun k hk q hq => ?_,
      fun k hk q hq => ?_⟩
    · rw [update_of_ne (hne _).2.2, update_of_ne (hne _).2.1, update_of_ne (hne _).1]
    · by_cases hkc : k = c
      · subst hkc
        simp [mul_comm]
      · simpa [hkc] using hl.head k hk
    · simpa using hn k hk q hq
    · by_cases hkc : k = c
      · subst hkc
        rw [update_self, hnil, mem_singleton] at hq
        subst hq
        simp
      · rw [update_of_ne hkc] at hq ⊢
        simpa [hother k hk q hq] using hl.prev k hk q hq

end Lists

/-! #### A run -/

theorem Rep.freeRun {f : Cell → ℕ} {known p n : ℕ} (hR : Rep f S known) :
    Rep (fun c => match c with
      | .entry q => if p ≤ q ∧ q < p + n then 0 else f (.entry q)
      | c => f c) (S.freeRun p n) known := by
  have hsmall : ∀ q c, (S.freeRun p n).entry q = .small c → S.entry q = .small c := by
    intro q c hq
    simp only [Shape.freeRun] at hq
    split at hq
    · cases hq
    · exact hq
  constructor
  case toLinked => exact ⟨hR.head, hR.next, hR.prev⟩
  case freed => exact hR.freed
  case size => exact hR.size
  case reciprocal => exact hR.reciprocal
  case entry =>
    intro q hq
    simp only [Shape.freeRun]
    split
    · rfl
    · exact hR.entry q hq
  case first => exact fun q c hq => hR.first q c (hsmall q c hq)
  case live => exact fun q c hq => hR.live q c (hsmall q c hq)
  case bump => exact fun q c hq => hR.bump q c (hsmall q c hq)
  case linkFree => exact fun q c hq => hR.linkFree q c (hsmall q c hq)
  case linkFreed => exact hR.linkFreed

/-! #### A slot -/

/-- The stores every small release makes: the slot before its page's free list, one fewer live. -/
def given (f : Cell → ℕ) (S : Shape) (p b : ℕ) : Cell → ℕ :=
  Function.update (Function.update (Function.update f (.link b) ((S.free p).headD 0)) (.first p) b)
    (.live p) (S.carved p - (S.free p).length - 1)

/-- The values after those stores, and after others that give the pages `entry` and the lists `l`,
stand for the shape with the slot on its page's free list, those entries and those lists. -/
theorem Rep.given {f g : Cell → ℕ} {p c known : ℕ} (hR : Rep f S known) (hS : S.WF known)
    (he : S.entry p = .small c) (hslot : IsSlot p c (S.carved p) b) (hfree : b ∉ S.free p)
    (hfreed : b ∉ S.freed c) {entry : ℕ → Entry} {l : ℕ → List ℕ}
    (hcell : ∀ cell, (∀ q, cell ≠ .next q ∧ cell ≠ .prev q ∧ cell ≠ .entry q ∧ cell ≠ .head q) →
      g cell = given f S p b cell) (hentry : ∀ q < known, g (.entry q) = (entry q).code)
    (hsmall : ∀ q k, entry q = .small k → S.entry q = .small k) (hlinked : Linked g l) :
    Rep g { S with free := Function.update S.free p (b :: S.free p), list := l, entry := entry }
      known := by
  have hdiv := hslot.div (hS.isClass _ _ he) (hS.carved_le _ _ he)
  constructor
  case toLinked => exact hlinked
  case freed =>
    intro k hk
    rw [hcell _ (by simp)]
    simpa [Alloc.given] using hR.freed k hk
  case size =>
    intro k hk
    rw [hcell _ (by simp)]
    simpa [Alloc.given] using hR.size k hk
  case reciprocal =>
    intro k hk
    rw [hcell _ (by simp)]
    simpa [Alloc.given] using hR.reciprocal k hk
  case entry => exact hentry
  case first =>
    intro q k hq
    rw [hcell _ (by simp)]
    by_cases hqp : q = p
    · subst hqp
      simp [Alloc.given]
    · simpa [Alloc.given, hqp] using hR.first q k (hsmall q k hq)
  case live =>
    intro q k hq
    rw [hcell _ (by simp)]
    by_cases hqp : q = p
    · subst hqp
      simp only [Alloc.given, update_self, length_cons]
      omega
    · simpa [Alloc.given, hqp] using hR.live q k (hsmall q k hq)
  case bump =>
    intro q k hq
    rw [hcell _ (by simp)]
    simpa [Alloc.given] using hR.bump q k (hsmall q k hq)
  case linkFree =>
    intro q k hq x hx
    rw [hcell _ (by simp)]
    dsimp only at hx ⊢
    have hq' := hsmall q k hq
    by_cases hqp : q = p
    · subst hqp
      rw [update_self] at hx ⊢
      by_cases hxb : x = b
      · subst hxb
        simp [Alloc.given]
      · rw [after_cons_of_ne hxb]
        have hx' : x ∈ S.free q := (mem_cons.mp hx).resolve_left hxb
        simpa [Alloc.given, hxb] using hR.linkFree q k hq' x hx'
    · rw [update_of_ne hqp] at hx ⊢
      have hxb : x ≠ b := by
        rintro rfl
        have := (hS.free_slot q k hq' x hx).div (hS.isClass _ _ hq') (hS.carved_le _ _ hq')
        exact hqp (this ▸ hdiv)
      simpa [Alloc.given, hxb] using hR.linkFree q k hq' x hx
  case linkFreed =>
    intro k hk x hx
    rw [hcell _ (by simp)]
    have hxb : x ≠ b := hS.freed_ne he hslot hfree hfreed hk hx
    simpa [Alloc.given, hxb] using hR.linkFreed k hk x hx

section FreeBlock

variable (hI : Inv S h) (hK : Clear S h K) (hb : S.Live b) (hbK : ∀ a, S.InBlock b a → a ∉ K)

include hI hK hb hbK

theorem freeBlock_run {n : ℕ} (he : S.entry (b / PAGE) = .run n) :
    Ensures E (freeBlock b) (fun _ h' => Inv (S.release b) h' ∧ Frame K h h') h := by
  have hL := hI.toLayout
  have hwf := hL.wf
  have ht := Tracks.refl S K h
  have hns : S.entry (b / PAGE) ≠ .static := by rw [he]; exact Entry.noConfusion
  have hknown := hwf.run_known he
  have hn : n < SMALL := by
    have h₁ := hL.known_pages
    have h₂ := hL.pages_limit
    have h₃ := hL.limit_le
    have h₄ : n ≤ h.known := le_trans (le_add_left _ _) hknown
    simp only [SMALL]
    omega
  obtain ⟨hkind, hlow⟩ := Entry.code_run hn
  unfold freeBlock
  rw [bind_iff]
  refine ht.entryAt hL (hL.page_lt hns).1 ?_
  rw [hI.rep.entry _ (hL.page_lt hns).2.1, he]
  dsimp only
  rw [if_pos hkind, bind_iff, get_iff, bind_iff]
  have hcap := hL.known_le
  have hend := hL.table_pages
  rw [hlow]
  refine ensures_fill (by omega) ?_
  refine (ht.zeroEntries hL hK (n := n) (p := b / PAGE) (by omega)).lowerHint fun h₁ ht₁ => ?_
  refine ⟨ht₁.inv (hL.release hb) (hK.release hL hb hbK) (fun q c hq => Or.inl ?_) ?_, ht₁.frame⟩
  · simp only [Shape.release, he, Shape.freeRun] at hq
    split at hq
    · cases hq
    · exact hq
  · simp only [Shape.release, he]
    exact hI.rep.freeRun

theorem freeBlock_small {c : ℕ} (he : S.entry (b / PAGE) = .small c)
    (hslot : IsSlot (b / PAGE) c (S.carved (b / PAGE)) b) (hfree : b ∉ S.free (b / PAGE))
    (hfreed : b ∉ S.freed c) :
    Ensures E (freeBlock b) (fun _ h' => Inv (S.release b) h' ∧ Frame K h h') h := by
  have hL := hI.toLayout
  have hwf := hL.wf
  have ht := Tracks.refl S K h
  have hL' := hL.release hb
  have hK' := hK.release hL hb hbK
  have hrel : S.release b = S.giveSlot (b / PAGE) c b := by simp only [Shape.release, he]
  have hsz : S.size b = bytesOf c := by simp only [Shape.size, he]
  generalize hp : b / PAGE = p at *
  have hcls := hwf.isClass p c he
  have hf := hcls.facts
  have hle := hwf.carved_le p c he
  have hns : S.entry p ≠ .static := by rw [he]; exact Entry.noConfusion
  obtain ⟨hkind, hsm, hlow⟩ := Entry.code_small hcls
  have hplaced : S.entry p = .free ∨ ∃ cls, S.entry p = .small cls := Or.inr ⟨c, he⟩
  have hlink : Placed S h K (.link b) := by
    refine ⟨⟨c, hp ▸ he, hp ▸ hslot.mono hle⟩, fun a ha ha' => hbK a ⟨ha, by omega⟩⟩
  have hslots := hcls.slotsOf_le
  unfold freeBlock
  rw [hp, bind_iff]
  refine ht.entryAt hL (hL.page_lt hns).1 ?_
  rw [hI.rep.entry _ (hL.page_lt hns).2.1, he]
  dsimp only
  rw [if_neg (by omega), if_pos ⟨hkind, hsm⟩, hlow, bind_iff]
  refine ht.full hL hcls hplaced ?_
  rw [bind_iff]
  refine ht.load32 hL (.first p) hplaced rfl rfl ?_
  rw [hI.rep.first p c he, bind_iff]
  refine ht.store32 hL hK (.link b) hlink rfl rfl (hL.headD_free_lt he) fun h₁ ht₁ => ?_
  rw [bind_iff]
  refine ht₁.store32 hL hK (.first p) hplaced rfl rfl (hL.slot_lt he hslot) fun h₂ ht₂ => ?_
  rw [bind_iff]
  refine ht₂.load16 hL (.live p) hplaced rfl rfl ?_
  rw [update_of_ne (by simp), update_of_ne (by simp), hI.rep.live p c he, bind_iff]
  refine ht₂.store16 hL hK (.live p) hplaced rfl rfl (by omega) fun h₃ ht₃ => ?_
  rw [bind_iff]
  refine ht₃.head hL hcls ?_
  have ht₃' : Tracks S K h h₃ (given h.view S p b) := ht₃
  have hlinked : Linked (given h.view S p b) S.list :=
    ⟨fun k hk => by simpa [given] using hI.rep.head k hk,
      fun k hk q hq => by simpa [given] using hI.rep.next k hk q hq,
      fun k hk q hq => by simpa [given] using hI.rep.prev k hk q hq⟩
  have hentry : ∀ q < h.known, (given h.view S p b) (.entry q) = (S.entry q).code :=
    fun q hq => by simpa [given] using hI.rep.entry q hq
  clear ht₃
  change Ensures E (if _ ∧ given h.view S p b (.head c) ≠ p * PAGE then _ else _) _ _
  have hheadc := hlinked.head c hcls
  have hret : (S.carved p - (S.free p).length - 1 = 0 ∧ given h.view S p b (.head c) ≠ p * PAGE) ↔
      S.Returns p c := by
    rw [hheadc, Nat.mul_comm p PAGE]
    refine and_congr_right fun _ => not_congr (Nat.mul_right_inj (by decide))
  have hfull := hI.rep.full hwf he
  rw [hI.rep.first p c he] at hfull
  simp only [gt_iff_lt] at hfull ⊢
  simp only [hret, hfull]
  rw [ite_iff]
  constructor
  · intro hr
    -- the page returns to the pool
    have hfin : ∀ {h₄ : Heap} {g : Cell → ℕ}, Tracks S K h h₄ g →
        SameButLinks (given h.view S p b) g →
        Linked g (update S.list c ((S.list c).erase p)) →
        Ensures E (do setEntry p 0; lowerHint p)
          (fun _ h' => Inv (S.release b) h' ∧ Frame K h h') h₄ := by
      intro h₄ g ht₄ hsame hlk
      rw [bind_iff]
      refine ht₄.setEntry hL hK (hL.page_lt hns).1 (by decide) fun h₅ ht₅ => ?_
      refine ht₅.lowerHint fun h₆ ht₆ => ⟨?_, ht₆.frame⟩
      have hsmall : ∀ q k, update S.entry p .free q = .small k → S.entry q = .small k := by
        intro q k hq
        by_cases hqp : q = p
        · subst hqp
          simp at hq
        · rwa [update_of_ne hqp] at hq
      rw [hrel] at hL' hK' ⊢
      unfold Shape.giveSlot at hL' hK' ⊢
      rw [if_pos hr] at hL' hK' ⊢
      refine ht₆.inv hL' hK' (fun q k hq => Or.inl (hsmall q k hq)) ?_
      refine hI.rep.given hwf he hslot hfree hfreed (fun cell hne => ?_) (fun q hq => ?_) hsmall
        ⟨fun k hk => ?_, fun k hk q hq => ?_, fun k hk q hq => ?_⟩
      · rw [update_of_ne (hne p).2.2.1]
        exact hsame cell fun q => ⟨(hne q).1, (hne q).2.1, (hne q).2.2.2⟩
      · by_cases hqp : q = p
        · subst hqp
          simp [Entry.code]
        · simp only [update_of_ne hqp]
          rw [update_of_ne (by simpa using hqp), hsame _ (by simp)]
          exact hentry q hq
      · simpa using hlk.head k hk
      · simpa using hlk.next k hk q hq
      · simpa using hlk.prev k hk q hq
    by_cases hfl : S.Full p c
    · -- a full page is on no list, so erasing it changes nothing
      have hnot : p ∉ S.list c := fun hmem => ((hwf.mem_list c hcls p).mp hmem).2 hfl
      simp only [hfl, decide_true, not_true_eq_false, if_false]
      refine hfin ht₃' (fun _ _ => rfl) ?_
      rw [erase_of_not_mem hnot, update_eq_self]
      exact hlinked
    · have hmem : p ∈ S.list c := (hwf.mem_list c hcls p).mpr ⟨he, hfl⟩
      simp only [hfl, decide_false, Bool.false_eq_true, not_false_eq_true, if_true]
      rw [bind_iff]
      exact ht₃'.unlink hL hK hcls hlinked hmem hr.2 fun h₄ g ht₄ hsame hlk => hfin ht₄ hsame hlk
  · intro hr
    have hrel' : S.giveSlot p c b = _ := if_neg hr
    rw [hrel, hrel'] at hL' hK' ⊢
    have hst : ∀ {l : ℕ → List ℕ} {h₄ : Heap} {g : Cell → ℕ}, Tracks S K h h₄ g →
        SameButLinks (given h.view S p b) g → Linked g l →
        Rep g { S with free := update S.free p (b :: S.free p), list := l } h.known := by
      intro l h₄ g ht₄ hsame hlk
      refine hI.rep.given hwf he hslot hfree hfreed (fun cell hne => ?_) (fun q hq => ?_)
        (fun _ _ hq => hq) hlk
      · exact hsame cell fun q => ⟨(hne q).1, (hne q).2.1, (hne q).2.2.2⟩
      · rw [hsame _ (by simp)]
        exact hentry q hq
    by_cases hfl : S.Full p c
    · -- a full page has room again: it becomes its list's head
      have hnot : p ∉ S.list c := fun hmem => ((hwf.mem_list c hcls p).mp hmem).2 hfl
      simp only [hfl, decide_true, if_true] at hL' hK' ⊢
      refine ht₃'.push hL hK hcls hlinked he hnot fun h₄ g ht₄ hsame hlk => ⟨?_, ht₄.frame⟩
      exact ht₄.inv hL' hK' (fun q k hq => Or.inl hq) (hst ht₄ hsame hlk)
    · simp only [hfl, decide_false, Bool.false_eq_true, if_false] at hL' hK' ⊢
      rw [pure_iff]
      refine ⟨?_, ht₃'.frame⟩
      exact ht₃'.inv hL' hK' (fun q k hq => Or.inl hq) (hst ht₃' (fun _ _ => rfl) hlinked)

/-- **`free_block` refines `release`.** -/
theorem freeBlock_spec :
    Ensures E (freeBlock b) (fun _ h' => Inv (S.release b) h' ∧ Frame K h h') h := by
  have hb' := hb
  rcases hb' with ⟨c, he, hslot, hfree, hfreed⟩ | ⟨n, he, -⟩
  · exact freeBlock_small hI hK hb hbK he hslot hfree hfreed
  · exact freeBlock_run hI hK hb hbK he

end FreeBlock

end Release

/-! ### The freed lists -/

section Freed

variable {E : Stop → Prop} {S : Shape} {h : Heap} {K : Rest} {b cls : ℕ}

theorem IsClass.ne_zero (hc : IsClass cls) : cls ≠ 0 := one_le_iff_ne_zero.mp hc.1

theorem Layout.headD_freed_lt (hL : Layout S h) (hc : IsClass cls) :
    (S.freed cls).headD 0 < USIZE := by
  by_cases hnil : S.freed cls = []
  · rw [hnil]
    decide
  · obtain ⟨he, hslot, -⟩ := hL.wf.freed_slot cls hc _ (headD_mem hnil)
    exact hL.slot_lt he hslot

/-- The values `g` stand for the shape whose freed list of `cls` is `l` when they give that list
and its links and are otherwise those of `S`. -/
theorem Rep.setFreed {f g : Cell → ℕ} {known : ℕ} (hR : Rep f S known) {l : List ℕ}
    (hhead : g (.freed cls) = l.headD 0) (hlink : ∀ b ∈ l, g (.link b) = after l b)
    (hcell : ∀ c, (∀ x, c ≠ .link x) → c ≠ .freed cls → g c = f c)
    (hfree : ∀ p c, S.entry p = .small c → ∀ x ∈ S.free p, g (.link x) = f (.link x))
    (hfreed : ∀ c, IsClass c → c ≠ cls → ∀ x ∈ S.freed c, g (.link x) = f (.link x)) :
    Rep g { S with freed := Function.update S.freed cls l } known := by
  constructor
  case toLinked =>
    refine ⟨fun c hc => ?_, fun c hc p hp => ?_, fun c hc p hp => ?_⟩
    · rw [hcell _ (by simp) (by simp)]
      exact hR.head c hc
    · rw [hcell _ (by simp) (by simp)]
      exact hR.next c hc p hp
    · rw [hcell _ (by simp) (by simp)]
      exact hR.prev c hc p hp
  case freed =>
    intro c hc
    by_cases hcc : c = cls
    · subst hcc
      simpa using hhead
    · rw [hcell _ (by simp) (by simpa using hcc)]
      simpa [hcc] using hR.freed c hc
  case size =>
    intro c hc
    rw [hcell _ (by simp) (by simp)]
    exact hR.size c hc
  case reciprocal =>
    intro c hc
    rw [hcell _ (by simp) (by simp)]
    exact hR.reciprocal c hc
  case entry =>
    intro p hp
    rw [hcell _ (by simp) (by simp)]
    exact hR.entry p hp
  case first =>
    intro p c hp
    rw [hcell _ (by simp) (by simp)]
    exact hR.first p c hp
  case live =>
    intro p c hp
    rw [hcell _ (by simp) (by simp)]
    exact hR.live p c hp
  case bump =>
    intro p c hp
    rw [hcell _ (by simp) (by simp)]
    exact hR.bump p c hp
  case linkFree =>
    intro p c hp x hx
    rw [hfree p c hp x hx]
    exact hR.linkFree p c hp x hx
  case linkFreed =>
    intro c hc x hx
    dsimp only at hx ⊢
    by_cases hcc : c = cls
    · subst hcc
      rw [update_self] at hx ⊢
      exact hlink x hx
    · rw [update_of_ne hcc] at hx ⊢
      rw [hfreed c hc hcc x hx]
      exact hR.linkFreed c hc x hx

theorem Clear.park (hK : Clear S h K) (hb : S.Live b) (he : S.entry (b / PAGE) = .small cls)
    (hbK : ∀ a, S.InBlock b a → a ∉ K) : Clear (S.park cls b) h K := by
  refine hK.of_shape (fun _ hp => hp) ?_
  rintro x hx ⟨a, ha, hin⟩
  have hne : x ≠ b := by
    rintro rfl
    exact hbK a hin ha
  exact ⟨(Shape.live_park hb he x).mpr ⟨hx, hne⟩, rfl⟩

/-- **`free_class` refines `park`.** -/
theorem freeClass_spec (hI : Inv S h) (hK : Clear S h K) (hb : S.Live b)
    (hbK : ∀ a, S.InBlock b a → a ∉ K) (hc : IsClass cls) (he : S.entry (b / PAGE) = .small cls) :
    Ensures E (freeClass b cls) (fun _ h' => Inv (S.park cls b) h' ∧ Frame K h h') h := by
  have hL := hI.toLayout
  have hwf := hL.wf
  have ht := Tracks.refl S K h
  have hL' := hL.of_shape (hwf.park hc hb he) fun _ hp => hp
  have hK' := hK.park hb he hbK
  obtain ⟨c, he', hslot, hfree, hfreed⟩ | ⟨n, he', -⟩ := hb
  case inr =>
    rw [he] at he'
    cases he'
  obtain rfl : cls = c := by rw [he] at he'; injection he'
  have hsz : S.size b = bytesOf cls := by simp only [Shape.size, he]
  have hf := hc.facts
  have hlink : Placed S h K (.link b) :=
    ⟨⟨cls, he, hslot.mono (hwf.carved_le _ _ he)⟩, fun a ha ha' => hbK a ⟨ha, by omega⟩⟩
  unfold freeClass
  rw [if_neg hc.ne_zero, bind_iff, get_iff, bind_iff]
  refine ht.load32 hL (.freed cls) hc rfl rfl ?_
  rw [hI.rep.freed cls hc, bind_iff]
  refine ht.store32 hL hK (.link b) hlink rfl rfl (hL.headD_freed_lt hc) fun h₁ ht₁ => ?_
  refine ht₁.store32 hL hK (.freed cls) hc rfl rfl (hL.slot_lt he hslot) fun h₂ ht₂ => ?_
  refine ⟨ht₂.inv hL' hK' (fun p c hp => Or.inl hp) ?_, ht₂.frame⟩
  refine hI.rep.setFreed (by simp) (fun x hx => ?_) (fun c hl hne => ?_) (fun p c hp x hx => ?_)
    (fun c hc' hcc x hx => ?_)
  · by_cases hxb : x = b
    · subst hxb
      simp
    · have hx' := (mem_cons.mp hx).resolve_left hxb
      rw [after_cons_of_ne hxb]
      simpa [hxb] using hI.rep.linkFreed cls hc x hx'
  · rw [update_of_ne hne, update_of_ne (hl b)]
  · have hxb : x ≠ b := by
      rintro rfl
      have := (hwf.free_slot p c hp x hx).div (hwf.isClass _ _ hp) (hwf.carved_le _ _ hp)
      exact hfree (this ▸ hx)
    simp [hxb]
  · have hxb : x ≠ b := by
      rintro rfl
      have := (hwf.freed_slot c hc' x hx).1
      rw [he] at this
      injection this with this
      exact hcc this.symm
    simp [hxb]

/-! #### `reclaim` -/

/-- `a` is in one of the blocks `l`. -/
def Shape.InBlocks (S : Shape) (l : List ℕ) (a : ℕ) : Prop := ∃ x ∈ l, S.InBlock x a

/-- The inner loop of `reclaim` on a list of live blocks that is threaded through them. -/
theorem giveBack_spec : ∀ (fuel : ℕ) {l : List ℕ} {S : Shape} {h : Heap}, Inv S h → Clear S h K →
    l.length < fuel → l.Nodup → (∀ x ∈ l, S.Live x) → (∀ a, S.InBlocks l a → a ∉ K) →
    (∀ x ∈ l, h.mem.load32 x = after l x) →
    Ensures E (giveBack fuel (l.headD 0))
      (fun _ h' => Inv (S.releaseAll l) h' ∧ Clear (S.releaseAll l) h' K ∧ Frame K h h') h := by
  intro fuel
  induction fuel with
  | zero =>
    intro l S h _ _ hlen
    omega
  | succ fuel ih =>
    intro l S h hI hK hlen hnd hlive hlK hlink
    have hwf := hI.wf
    unfold giveBack
    rw [ite_iff]
    cases l with
    | nil =>
      refine ⟨fun _ => ?_, fun h0 => absurd rfl h0⟩
      rw [pure_iff]
      exact ⟨hI, hK, Frame.refl K h⟩
    | cons b t =>
      have hb := hlive b mem_cons_self
      have hbt := (nodup_cons.mp hnd).1
      have hne : ∀ x ∈ t, x ≠ b := fun x hx h => hbt (h ▸ hx)
      -- the rest of the list is memory that freeing `b` must leave as it is
      have hK₁ : Clear S h ⟨K.foreign, K.held ∪ {a | S.InBlocks t a}⟩ := by
        constructor
        · exact hK.foreign
        · rintro a (ha | ⟨x, hx, hin⟩)
          · exact hK.held a ha
          · exact ⟨x, hlive x (mem_cons_of_mem _ hx), hin⟩
        · rintro a (ha | ha | ⟨x, hx, hin⟩)
          · exact hK.bound a (Or.inl ha)
          · exact hK.bound a (Or.inr ha)
          · have h₁ := hwf.live_known (hlive x (mem_cons_of_mem _ hx))
            have h₂ := mul_le_mul_right PAGE hI.known_pages
            have h₃ := hin.2
            omega
      have hbK : ∀ a, S.InBlock b a → a ∉ (⟨K.foreign, K.held ∪ {a | S.InBlocks t a}⟩ : Rest) := by
        rintro a hin (ha | ha | ⟨x, hx, hin'⟩)
        · exact hlK a ⟨b, mem_cons_self, hin⟩ (Or.inl ha)
        · exact hlK a ⟨b, mem_cons_self, hin⟩ (Or.inr ha)
        · have h₁ := hwf.live_disjoint hb (hlive x (mem_cons_of_mem _ hx)) (Ne.symm (hne x hx))
          have h₂ := hin.1
          have h₃ := hin.2
          have h₄ := hin'.1
          have h₅ := hin'.2
          omega
      refine ⟨fun h0 => ?_, fun _ => ?_⟩
      · have := hwf.live_pos hb
        rw [headD_cons] at h0
        unfold PAGE at this
        omega
      rw [headD_cons, bind_iff]
      refine ensures_load32 ?_ ?_
      · have h₁ := hwf.live_known hb
        have h₂ := hwf.size_pos hb
        have h₃ := mul_le_mul_right PAGE hI.known_pages
        omega
      rw [hlink b mem_cons_self, after_cons_self, bind_iff]
      refine (freeBlock_spec hI hK₁ hb hbK).mono fun _ h₁ ⟨hI₁, hfr⟩ => ?_
      have hlive₁ : ∀ x ∈ t, (S.release b).Live x := fun x hx =>
        (hwf.live_release hb x).mpr ⟨hlive x (mem_cons_of_mem _ hx), hne x hx⟩
      have hin₁ : ∀ a, (S.release b).InBlocks t a → S.InBlocks t a := by
        rintro a ⟨x, hx, h₁, h₂⟩
        rw [hwf.release_size hb (hlive x (mem_cons_of_mem _ hx)) (hne x hx)] at h₂
        exact ⟨x, hx, h₁, h₂⟩
      have hlink₁ : ∀ x ∈ t, h₁.mem.load32 x = after t x := by
        intro x hx
        rw [← after_cons_of_ne (hne x hx) (l := t), ← hlink x (mem_cons_of_mem _ hx)]
        refine Mem.load32_congr fun i hi => hfr.kept _ (Or.inr (Or.inr ⟨x, hx, by omega, ?_⟩))
        have := hwf.size_pos (hlive x (mem_cons_of_mem _ hx))
        omega
      have hK₂ : Clear (S.release b) h K :=
        (hK₁.release hI.toLayout hb hbK).mono (fun _ h => h) fun _ h => Or.inl h
      rw [length_cons] at hlen
      refine (ih hI₁ (hK₂.of_sameVars hfr.vars) (by omega) (nodup_cons.mp hnd).2 hlive₁ (fun a ha hmem => ?_) hlink₁).mono
        fun _ h₂ ⟨hI₂, hK₃, hfr₂⟩ => ⟨hI₂, hK₃, ?_⟩
      · obtain ⟨x, hx, hin⟩ := hin₁ a ha
        exact hlK a ⟨x, mem_cons_of_mem _ hx, hin⟩ hmem
      · have hkept : ∀ a ∈ K, h₁.mem a = h.mem a := fun a ha =>
          hfr.kept a (ha.imp id Or.inl)
        exact (Frame.mk hfr.vars hkept).trans hfr₂

/-- `reclaim`'s turn for one class, before the statements `rest`. -/
theorem reclaimClass_spec (hI : Inv S h) (hK : Clear S h K) (hc : IsClass cls) {rest : Run Unit}
    {Q : Unit → Heap → Prop} (hQ : ∀ h', Inv (S.reclaimClass cls) h' →
      Clear (S.reclaimClass cls) h' K → Frame K h h' → Ensures E rest Q h') :
    Ensures E (do
      let h ← get
      let place := h.table + FREED + 4 * cls
      let block ← load32 place
      store32 place 0
      giveBack (h.pages * PAGE) block
      rest) Q h := by
  have hL := hI.toLayout
  have hwf := hL.wf
  have ht := Tracks.refl S K h
  have hwf' : (S.clearFreed cls).WF h.known := hwf.clearFreed
  have hL' := hL.of_shape hwf' fun _ hp => hp
  have hK' : Clear (S.clearFreed cls) h K := hK.of_shape (fun _ hp => hp) fun b hb _ =>
    ⟨(hwf.live_clearFreed hc b).mpr (Or.inl hb), rfl⟩
  rw [bind_iff, get_iff]
  dsimp only
  rw [bind_iff]
  refine ht.load32 hL (.freed cls) hc rfl rfl ?_
  rw [hI.rep.freed cls hc, bind_iff]
  refine ht.store32 hL hK (.freed cls) hc rfl rfl (by decide) fun h₁ ht₁ => ?_
  have hI₁ : Inv (S.clearFreed cls) h₁ := by
    refine ht₁.inv hL' hK' (fun p c hp => Or.inl hp) ?_
    refine hI.rep.setFreed (by simp) (by simp) (fun c _ hne => ?_) (by simp) (by simp)
    rw [update_of_ne hne]
  have hlive : ∀ x ∈ S.freed cls, (S.clearFreed cls).Live x := fun x hx =>
    (hwf.live_clearFreed hc x).mpr (Or.inr hx)
  have hdead : ∀ a, (S.clearFreed cls).InBlocks (S.freed cls) a → a ∉ K := by
    rintro a ⟨x, hx, h₁, h₂⟩
    obtain ⟨he, hslot, -⟩ := hwf.freed_slot cls hc x hx
    refine hK.notMem_slot hwf he hslot (hwf.freed_not_live hc hx) h₁ ?_
    have hsz : (S.clearFreed cls).size x = bytesOf cls := by
      simp only [Shape.size, Shape.clearFreed, he]
    omega
  have hlen : (S.freed cls).length < h.pages * PAGE := by
    have hpages := hL.table_pages
    have htab := hL.table_pos
    refine length_lt_of_nodup (hwf.freed_nodup cls hc) (hwf.zero_notMem_freed hc) (by omega)
      fun x hx => ?_
    · have h₁ := hwf'.live_known (hlive x hx)
      have h₂ := hwf'.size_pos (hlive x hx)
      have h₃ := mul_le_mul_right PAGE hL.known_pages
      omega
  rw [bind_iff]
  refine (giveBack_spec _ hI₁ (hK'.of_sameVars ht₁.vars) hlen (hwf.freed_nodup cls hc) hlive hdead
    fun x hx => ?_).mono fun _ h₂ h => hQ h₂ h.1 h.2.1 (ht₁.frame.trans h.2.2)
  · obtain ⟨he, hslot, -⟩ := hwf.freed_slot cls hc x hx
    have hf := hc.facts
    have hplaced : Placed S h K (.link x) :=
      ⟨⟨cls, he, hslot.mono (hwf.carved_le _ _ he)⟩, fun a ha ha' =>
        hK.notMem_slot hwf he hslot (hwf.freed_not_live hc hx) ha (by omega)⟩
    have hview := ht₁.view (.link x) hplaced
    rw [Heap.view_word rfl, update_of_ne (by simp), hI.rep.linkFreed cls hc x hx] at hview
    exact hview

theorem reclaimFrom_spec : ∀ (left : ℕ) {cls : ℕ} {S : Shape} {h : Heap}, Inv S h → Clear S h K →
    1 ≤ cls → cls + left ≤ 21 →
    Ensures E (reclaimFrom cls left) (fun _ h' => Inv (S.reclaimFrom cls left) h' ∧
      Clear (S.reclaimFrom cls left) h' K ∧ Frame K h h') h := by
  intro left
  induction left with
  | zero =>
    intro cls S h hI hK _ _
    unfold reclaimFrom
    rw [pure_iff]
    exact ⟨hI, hK, Frame.refl K h⟩
  | succ left ih =>
    intro cls S h hI hK h1 h21
    unfold reclaimFrom
    refine reclaimClass_spec hI hK ⟨h1, by omega⟩ fun h₁ hI₁ hK₁ hf₁ => ?_
    exact (ih hI₁ hK₁ (by omega) (by omega)).mono fun _ _ ⟨hI₂, hK₂, hf₂⟩ =>
      ⟨hI₂, hK₂, hf₁.trans hf₂⟩

/-- **`reclaim` refines `reclaimed`.** -/
theorem reclaim_spec (hI : Inv S h) (hK : Clear S h K) :
    Ensures E reclaim (fun _ h' => Inv S.reclaimed h' ∧ Clear S.reclaimed h' K ∧ Frame K h h') h :=
  reclaimFrom_spec 20 hI hK (by decide) (by decide)

end Freed

end Alloc

end HdLang
