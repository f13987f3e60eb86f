import HdLang.Alloc.Grow

/-!
# Allocating refines `popFreed`, `pop`, `openPage` and `openRun`

A block comes from its class's freed list, from the head page of its class, which may be new, or from a
run of new pages. `Served` and `Handed` say which, as relations between the shapes before and
after.
-/

namespace HdLang

open ByteMem Function Ensures List Nat

namespace Alloc

open PointerList

/-! ### What an allocation does to the shape -/

/-- `page_of`: the shape `T` in which the page `p` heads the list of class `cls`. -/
inductive Served (S : Shape) (cls : ℕ) : ℕ → Shape → Prop
  | head {p : ℕ} {t : List ℕ} (hl : S.list cls = p :: t) : Served S cls p S
  | reclaimed {p : ℕ} {t : List ℕ} (hn : S.list cls = []) (hl : S.reclaimed.list cls = p :: t) :
    Served S cls p S.reclaimed
  | opened {p : ℕ} {T : Shape} (hn : S.list cls = []) (hl : S.reclaimed.list cls = [])
    (hT : S.reclaimed.Retabled T) (hwf : ∃ known, T.WF known) (hp : T.entry p = .free) :
    Served S cls p (T.openPage p cls)

/-- An allocation gives a block and its bytes. -/
inductive Handed (S : Shape) : ℕ → ℕ → Shape → Prop
  | freed {cls b : ℕ} {t : List ℕ} (hc : IsClass cls) (hl : S.freed cls = b :: t) :
    Handed S b (bytesOf cls) (S.popFreed cls)
  | slot {cls p : ℕ} {T : Shape} (hc : IsClass cls) (hn : S.freed cls = []) (hT : Served S cls p T) :
    Handed S (T.slot p cls) (bytesOf cls) (T.pop p cls)
  | run {p n : ℕ} {T : Shape} (hn : 1 ≤ n) (hT : S.reclaimed.Retabled T)
    (hp : ∀ q, p ≤ q → q < p + n → T.entry q = .free) :
    Handed S (p * PAGE) (n * PAGE) (T.openRun p n)

section Abstract

variable {S T S' : Shape} {cls p b bytes known : ℕ}

theorem Shape.Retabled.keeps (h : S.Retabled T) : S.Keeps T :=
  ⟨h.live_iff, fun _ hx => h.size_eq hx⟩

/-- The page heads its class's list, and no block begins or ends. -/
theorem Served.facts (h : Served S cls p T) (hS : S.WF known) (hc : IsClass cls) :
    (∃ t, T.list cls = p :: t) ∧ (∃ k, T.WF k) ∧ S.Keeps T := by
  obtain ⟨hwf, hkeeps, -⟩ := hS.reclaimed
  cases h with
  | head hl => exact ⟨⟨_, hl⟩, ⟨_, hS⟩, Shape.Keeps.refl S⟩
  | reclaimed hn hl => exact ⟨⟨_, hl⟩, ⟨_, hwf⟩, hkeeps⟩
  | opened hn hl hT hwfT hp =>
    rename_i T
    obtain ⟨k, hk⟩ := hwfT
    have hlT : T.list cls = [] := by rw [hT.list, hl]
    refine ⟨⟨[], by simp [Shape.openPage]⟩, ⟨k, hk.openPage hp hc hlT⟩, (hkeeps.trans hT.keeps).trans
      ⟨fun x => Shape.live_openPage hp x, fun x hx => ?_⟩⟩
    have hxp : x / PAGE ≠ p := by
      intro h
      rcases hx with ⟨c, he, -⟩ | ⟨n, he, -⟩ <;> rw [h, hp] at he <;> cases he
    simp only [Shape.size, Shape.openPage, update_of_ne hxp]

theorem Shape.pop_entry : (S.pop p cls).entry = S.entry := by
  unfold Shape.pop
  split <;> simp

/-- **An allocation** begins the one block, which was not live, and leaves the others as they are. -/
theorem Handed.facts (h : Handed S b bytes S') (hS : S.WF known) :
    (∀ x, S'.Live x ↔ S.Live x ∨ x = b) ∧ ¬S.Live b ∧ S'.size b = bytes ∧
      ∀ x, S.Live x → S'.size x = S.size x := by
  obtain ⟨hwf, hkeeps, -⟩ := hS.reclaimed
  cases h with
  | freed hc hl =>
    rename_i cls t
    have hmem : b ∈ S.freed cls := by rw [hl]; exact mem_cons_self
    obtain ⟨he, -⟩ := hS.freed_slot cls hc b hmem
    refine ⟨hS.live_popFreed hc hl, hS.freed_not_live hc hmem, ?_, fun x _ => rfl⟩
    simp only [Shape.size, Shape.popFreed, he]
  | slot hc hn hs =>
    rename_i cls p T
    obtain ⟨⟨t, hl⟩, ⟨k, hwfT⟩, hk⟩ := hs.facts hS hc
    obtain ⟨he, hroom⟩ := hwfT.head_small hc hl
    obtain ⟨hslot, hle, -⟩ := hwfT.slot_isSlot he hroom
    refine ⟨fun x => ?_, fun hlive => ?_, ?_, fun x hx => ?_⟩
    · rw [hwfT.live_pop hc hl, hk.live]
    · exact hwfT.slot_not_live hc hl ((hk.live _).mpr hlive)
    · simp only [Shape.size, Shape.pop_entry, hslot.div hc hle, he]
    · rw [← hk.size x hx]
      simp only [Shape.size, Shape.pop_entry]
  | run hn hR hp =>
    rename_i p n T
    have hk := hkeeps.trans hR.keeps
    refine ⟨fun x => ?_, fun hlive => ?_, ?_, fun x hx => ?_⟩
    · rw [Shape.live_openRun hn hp, hk.live]
    · have hfree := hp p (Nat.le_refl _) (by omega)
      have hdiv : p * PAGE / PAGE = p := Nat.mul_div_cancel _ (by decide)
      rcases (hk.live _).mpr hlive with ⟨c, he, -⟩ | ⟨m, he, -⟩ <;> rw [hdiv, hfree] at he <;>
        cases he
    · simp only [Shape.size, Shape.openRun, Nat.mul_div_cancel _ (by decide : 0 < PAGE), if_true]
    · have hx' := (hk.live x).mpr hx
      have hholds : T.Holds (x / PAGE) := by
        rcases hx' with ⟨c, he, -⟩ | ⟨m, he, -⟩ <;> simp [Shape.Holds, he]
      rw [← hk.size x hx]
      unfold Shape.size
      rw [Shape.openRun_entry hn hp hholds]

end Abstract

section Pop

variable {E : Stop → Prop} {S : Shape} {h : Heap} {K : Rest} {p c : ℕ} {t : List ℕ}

/-- The values `g` stand for the shape whose page `p` has handed its next slot out. -/
theorem Rep.takeSlot {f g : Cell → ℕ} {known : ℕ} (hR : Rep f S known) (hS : S.WF known)
    {l : ℕ → List ℕ}
    (hcell : ∀ cell, (∀ q, cell ≠ .next q ∧ cell ≠ .prev q ∧ cell ≠ .head q) → cell ≠ .first p →
      cell ≠ .live p → cell ≠ .bump p → g cell = f cell)
    (hfirst : g (.first p) = ((S.takeSlot p).free p).headD 0)
    (hlive : g (.live p) = (S.takeSlot p).carved p - ((S.takeSlot p).free p).length)
    (hbump : ∀ c, S.entry p = .small c → g (.bump p) * 16 = 16 + (S.takeSlot p).carved p * bytesOf c)
    (hlinked : Linked g l) : Rep g { S.takeSlot p with list := l } known := by
  constructor
  case toLinked => exact hlinked
  case freed =>
    intro k hk
    rw [hcell _ (by simp) (by simp) (by simp) (by simp)]
    simpa using hR.freed k hk
  case size =>
    intro k hk
    rw [hcell _ (by simp) (by simp) (by simp) (by simp)]
    exact hR.size k hk
  case reciprocal =>
    intro k hk
    rw [hcell _ (by simp) (by simp) (by simp) (by simp)]
    exact hR.reciprocal k hk
  case entry =>
    intro q hq
    rw [hcell _ (by simp) (by simp) (by simp) (by simp)]
    simpa using hR.entry q hq
  case first =>
    intro q k hq
    by_cases hqp : q = p
    · subst hqp
      exact hfirst
    · rw [hcell _ (by simp) (by simpa using hqp) (by simp) (by simp)]
      simp only [Shape.takeSlot_of_ne hqp]
      exact hR.first q k (by simpa using hq)
  case live =>
    intro q k hq
    by_cases hqp : q = p
    · subst hqp
      exact hlive
    · rw [hcell _ (by simp) (by simp) (by simpa using hqp) (by simp)]
      simp only [Shape.takeSlot_of_ne hqp]
      exact hR.live q k (by simpa using hq)
  case bump =>
    intro q k hq
    by_cases hqp : q = p
    · subst hqp
      exact hbump k (by simpa using hq)
    · rw [hcell _ (by simp) (by simp) (by simp) (by simpa using hqp)]
      simp only [Shape.takeSlot_of_ne hqp]
      exact hR.bump q k (by simpa using hq)
  case linkFree =>
    intro q k hq x hx
    have hq' : S.entry q = .small k := by simpa using hq
    rw [hcell _ (by simp) (by simp) (by simp) (by simp)]
    dsimp only at hx ⊢
    by_cases hqp : q = p
    · subst hqp
      unfold Shape.takeSlot at hx ⊢
      by_cases hnil : S.free q = []
      · rw [if_pos hnil] at hx ⊢
        exact hR.linkFree q k hq' x hx
      · rw [if_neg hnil] at hx ⊢
        dsimp only at hx ⊢
        rw [update_self] at hx ⊢
        have hnd := hS.free_nodup q k hq'
        have hlink := hR.linkFree q k hq' x (mem_of_mem_tail hx)
        cases hfr : S.free q with
        | nil => exact absurd hfr hnil
        | cons b rest =>
          rw [hfr] at hnd hx hlink
          rw [tail_cons] at hx ⊢
          have hxb : x ≠ b := fun h => (nodup_cons.mp hnd).1 (h ▸ hx)
          rwa [after_cons_of_ne hxb] at hlink
    · simp only [Shape.takeSlot_of_ne hqp] at hx ⊢
      exact hR.linkFree q k hq' x hx
  case linkFreed =>
    intro k hk x hx
    rw [hcell _ (by simp) (by simp) (by simp) (by simp)]
    simpa using hR.linkFreed k hk x (by simpa using hx)

/-- A slot of a page's free list is a cell of the allocator's. -/
theorem Inv.link_placed (hI : Inv S h) (hK : Clear S h K) {b : ℕ} (he : S.entry p = .small c)
    (hb : b ∈ S.free p) : Placed S h K (.link b) := by
  have hwf := hI.wf
  have hslot := hwf.free_slot p c he b hb
  have hle := hwf.carved_le p c he
  have hdiv := hslot.div (hwf.isClass p c he) hle
  have hf := (hwf.isClass p c he).facts
  exact ⟨⟨c, hdiv ▸ he, hdiv ▸ hslot.mono hle⟩, fun a ha ha' =>
    hK.notMem_slot hwf he hslot (hwf.free_not_live he hb) ha (by omega)⟩

/-- `slotOf` takes the page's next slot: it changes the page's list or its bump offset. -/
theorem slotOf_spec (hI : Inv S h) (hK : Clear S h K) (he : S.entry p = .small c)
    (hroom : ¬S.Full p c) {Q : ℕ → Heap → Prop}
    (hQ : ∀ h' g, Tracks S K h h' g →
      (∀ cell, cell ≠ .first p → cell ≠ .bump p → g cell = h.view cell) →
      g (.first p) = ((S.takeSlot p).free p).headD 0 →
      g (.bump p) * 16 = 16 + (S.takeSlot p).carved p * bytesOf c → Q (S.slot p c) h') :
    Ensures E (slotOf (p * PAGE) c) Q h := by
  have hL := hI.toLayout
  have hwf := hL.wf
  have ht := Tracks.refl S K h
  have hcls := hwf.isClass p c he
  have hf := hcls.facts
  have hle := hwf.carved_le p c he
  have h0 := hwf.zero_notMem_free he
  have hplaced : S.entry p = .free ∨ ∃ cls, S.entry p = .small cls := Or.inr ⟨c, he⟩
  have hfirst := hI.rep.first p c he
  have hbump := hI.rep.bump p c he
  unfold slotOf
  rw [bind_iff]
  refine ht.load32 hL (.first p) hplaced rfl rfl ?_
  rw [ite_iff]
  constructor
  · intro hne
    have hnil : S.free p ≠ [] := by
      intro hnil
      rw [hfirst, hnil] at hne
      exact hne rfl
    have hmem := headD_mem hnil
    rw [hfirst, bind_iff]
    refine ht.load32 hL (.link _) (hI.link_placed hK he hmem) rfl rfl ?_
    rw [hI.rep.linkFree p c he _ hmem, bind_iff]
    have hafter : after (S.free p) ((S.free p).headD 0) = ((S.takeSlot p).free p).headD 0 := by
      unfold Shape.takeSlot
      rw [if_neg hnil]
      dsimp only
      rw [update_self]
      cases hfr : S.free p with
      | nil => exact absurd hfr hnil
      | cons b rest => simp
    have hlt : after (S.free p) ((S.free p).headD 0) < USIZE := by
      rcases after_mem_or_zero (l := S.free p) (x := (S.free p).headD 0) with h' | h'
      · rw [h']
        decide
      · exact hL.slot_lt he (hwf.free_slot p c he _ h')
    refine ht.store32 hL hK (.first p) hplaced rfl rfl hlt fun h₁ ht₁ => pure_iff.mpr ?_
    have hslot : S.slot p c = (S.free p).headD 0 := by
      unfold Shape.slot
      cases hfr : S.free p with
      | nil => exact absurd hfr hnil
      | cons b rest => rfl
    rw [← hslot]
    refine hQ h₁ _ ht₁ (fun cell h₁ _ => update_of_ne h₁ _ _) ?_ ?_
    · rw [update_self, hafter]
    · rw [update_of_ne (by simp), hbump]
      unfold Shape.takeSlot
      rw [if_neg hnil]
  · intro hz
    have hnil : S.free p = [] := by
      rw [← headD_eq_zero_iff h0, ← hfirst]
      exact not_not.mp hz
    have hlt : S.carved p < slotsOf c := by
      rcases lt_or_eq_of_le hle with h' | h'
      · exact h'
      · exact absurd ⟨hnil, h'⟩ hroom
    have hmul : (S.carved p + 1) * bytesOf c ≤ slotsOf c * bytesOf c := mul_le_mul_right _ hlt
    rw [succ_mul] at hmul
    obtain ⟨m, hm⟩ : 16 ∣ S.carved p * bytesOf c := Dvd.dvd.mul_left (dvd_of_mod_eq_zero hf.2.2.1) _
    rw [bind_iff]
    refine ht.load16 hL (.bump p) hplaced rfl rfl ?_
    rw [bind_iff]
    refine ht.classBytes hL hcls ?_
    rw [hI.rep.size c hcls, hbump, bind_iff]
    refine ht.store16 hL hK (.bump p) hplaced rfl rfl (by unfold PAGE at hf; omega)
      fun h₁ ht₁ => pure_iff.mpr ?_
    have hslot : S.slot p c = p * PAGE + (16 + S.carved p * bytesOf c) := by
      unfold Shape.slot slotAt
      rw [hnil, headD_nil, add_assoc]
    rw [← hslot]
    refine hQ h₁ _ ht₁ (fun cell _ h₂ => update_of_ne h₂ _ _) ?_ ?_
    · rw [update_of_ne (by simp), hfirst]
      unfold Shape.takeSlot
      rw [if_pos hnil]
    · rw [update_self]
      unfold Shape.takeSlot
      rw [if_pos hnil]
      dsimp only
      rw [update_self, succ_mul]
      omega

/-- The links once the head page of class `c` has left its list. -/
theorem Linked.tail {f g : Cell → ℕ} (hL : Layout S h) (hl : Linked f S.list) (hc : IsClass c)
    (hlist : S.list c = p :: t) (hhead : g (.head c) = PAGE * t.headD 0)
    (hheads : ∀ k, k ≠ c → g (.head k) = f (.head k))
    (hnext : ∀ q, q ≠ p → g (.next q) = f (.next q)) (hfirst : t ≠ [] → g (.prev (t.headD 0)) = 0)
    (hprev : ∀ q, (t ≠ [] → q ≠ t.headD 0) → g (.prev q) = f (.prev q)) :
    Linked g (Function.update S.list c t) := by
  have hnd := hL.wf.list_nodup c hc
  rw [hlist] at hnd
  have hpt := (nodup_cons.mp hnd).1
  have hother : ∀ k, k ≠ c → IsClass k → ∀ q ∈ S.list k, q ∉ p :: t := by
    intro k hkc hk q hq hq'
    rw [← hlist] at hq'
    exact hL.other_list hc hkc hk hq hq'
  have hmem : t ≠ [] → t.headD 0 ∈ p :: t := fun h => mem_cons_of_mem _ (headD_mem h)
  refine ⟨fun k hk => ?_, fun k hk q hq => ?_, fun k hk q hq => ?_⟩
  · by_cases hkc : k = c
    · subst hkc
      rw [update_self, hhead]
    · rw [update_of_ne hkc, hheads k hkc]
      exact hl.head k hk
  · by_cases hkc : k = c
    · subst hkc
      rw [update_self] at hq ⊢
      have hqp : q ≠ p := fun h => hpt (h ▸ hq)
      have := hl.next k hk q (by rw [hlist]; exact mem_cons_of_mem _ hq)
      rw [hlist, after_cons_of_ne hqp] at this
      rw [hnext q hqp, this]
    · rw [update_of_ne hkc] at hq ⊢
      have hqp : q ≠ p := fun h => hother k hkc hk q hq (h ▸ mem_cons_self)
      rw [hnext q hqp]
      exact hl.next k hk q hq
  · by_cases hkc : k = c
    · subst hkc
      rw [update_self] at hq ⊢
      have hqp : q ≠ p := fun h => hpt (h ▸ hq)
      by_cases hqh : q = t.headD 0
      · have htn : t ≠ [] := fun h => by rw [h] at hq; cases hq
        cases t with
        | nil => exact absurd rfl htn
        | cons a t =>
          obtain rfl : q = a := hqh
          rw [before_cons_self, mul_zero]
          exact hfirst htn
      · have := hl.prev k hk q (by rw [hlist]; exact mem_cons_of_mem _ hq)
        rw [hlist, before_cons_of_ne hqp, before_of_ne_head 0 hqh] at this
        rw [hprev q fun _ => hqh, this]
    · rw [update_of_ne hkc] at hq ⊢
      rw [hprev q fun htn h => hother k hkc hk q hq (h ▸ hmem htn)]
      exact hl.prev k hk q hq

/-- `alloc`'s statements after `page_of`: the head page of the class hands its next slot out. -/
theorem takeHead_spec (hI : Inv S h) (hK : Clear S h K) (hc : IsClass c) (hl : S.list c = p :: t) :
    Ensures E (do
      let slot ← slotOf (p * PAGE) c
      store16 (p * PAGE + 12) ((← load16 (p * PAGE + 12)) + 1)
      if ← full (p * PAGE) c then do
        let next ← load32 (p * PAGE + 4)
        setHead c next
        if next ≠ 0 then store32 (next + 8) 0
        store32 (p * PAGE + 4) 0
      pure slot) (fun slot h' => slot = S.slot p c ∧ Inv (S.pop p c) h' ∧ Clear (S.pop p c) h' K ∧
        Frame K h h') h := by
  have hL := hI.toLayout
  have hwf := hL.wf
  obtain ⟨he, hroom⟩ := hwf.head_small hc hl
  have hwf' := hwf.pop hc hl
  have hlive := hwf.live_pop hc hl
  have hplaced : S.entry p = .free ∨ ∃ cls, S.entry p = .small cls := Or.inr ⟨c, he⟩
  have hL' : Layout (S.pop p c) h := hL.of_shape hwf' fun q hq => by rw [Shape.pop_entry]; exact hq
  have hK' : Clear (S.pop p c) h K := by
    refine hK.of_shape (fun q hq => by rw [Shape.pop_entry]; exact hq) fun b hb _ =>
      ⟨(hlive b).mpr (Or.inl hb), ?_⟩
    simp only [Shape.size, Shape.pop_entry]
  obtain ⟨hslot, hle', -⟩ := hwf.slot_isSlot he hroom
  have hlive16 := hwf.live_takeSlot he
  have hslots := hc.slotsOf_le
  rw [bind_iff]
  refine slotOf_spec hI hK he hroom fun h₁ g₁ ht₁ hcell₁ hfirst₁ hbump₁ => ?_
  rw [bind_iff]
  refine ht₁.load16 hL (.live p) hplaced rfl rfl ?_
  rw [hcell₁ _ (by simp) (by simp), hI.rep.live p c he, ← hlive16, bind_iff]
  refine ht₁.store16 hL hK (.live p) hplaced rfl rfl (by omega) fun h₂ ht₂ => ?_
  generalize hg₂ : Function.update g₁ (.live p) _ = g₂ at ht₂
  have hcell₂ : ∀ cell, cell ≠ .first p → cell ≠ .live p → cell ≠ .bump p →
      g₂ cell = h.view cell := by
    intro cell h1 h2 h3
    rw [← hg₂, update_of_ne h2]
    exact hcell₁ cell h1 h3
  have hfirst₂ : g₂ (.first p) = ((S.takeSlot p).free p).headD 0 := by
    rw [← hg₂, update_of_ne (by simp)]
    exact hfirst₁
  have hbump₂ : g₂ (.bump p) * 16 = 16 + (S.takeSlot p).carved p * bytesOf c := by
    rw [← hg₂, update_of_ne (by simp)]
    exact hbump₁
  have hlive₂ : g₂ (.live p) = (S.takeSlot p).carved p - ((S.takeSlot p).free p).length := by
    rw [← hg₂, update_self]
  have hlinked₂ : Linked g₂ S.list := by
    refine ⟨fun k hk => ?_, fun k hk q hq => ?_, fun k hk q hq => ?_⟩
    · rw [hcell₂ _ (by simp) (by simp) (by simp)]
      exact hI.rep.head k hk
    · rw [hcell₂ _ (by simp) (by simp) (by simp)]
      exact hI.rep.next k hk q hq
    · rw [hcell₂ _ (by simp) (by simp) (by simp)]
      exact hI.rep.prev k hk q hq
  -- the end of the run, whichever way the list went
  have hfin : ∀ {h₃ : Heap} {g : Cell → ℕ} {l : ℕ → List ℕ}, Tracks S K h h₃ g →
      SameButLinks g₂ g → Linked g l → S.pop p c = { S.takeSlot p with list := l } →
      Inv (S.pop p c) h₃ ∧ Clear (S.pop p c) h₃ K ∧ Frame K h h₃ := by
    intro h₃ g l ht₃ hsame hlk hpop
    refine ⟨ht₃.inv hL' hK' (fun q k hq => Or.inl ?_) ?_, hK'.of_sameVars ht₃.vars, ht₃.frame⟩
    · rwa [Shape.pop_entry] at hq
    · rw [hpop]
      refine hI.rep.takeSlot hwf (fun cell hn h1 h2 h3 => ?_) ?_ ?_ (fun k hk => ?_) hlk
      · rw [hsame cell hn]
        exact hcell₂ cell h1 h2 h3
      · rw [hsame _ (by simp)]
        exact hfirst₂
      · rw [hsame _ (by simp)]
        exact hlive₂
      · obtain rfl : c = k := by rw [he] at hk; injection hk
        rw [hsame _ (by simp)]
        exact hbump₂
  have h0 : 0 ∉ (S.takeSlot p).free p := by
    intro hmem
    refine hwf.zero_notMem_free he ?_
    unfold Shape.takeSlot at hmem
    split at hmem
    · exact hmem
    · dsimp only at hmem
      rw [update_self] at hmem
      exact mem_of_mem_tail hmem
  rw [bind_iff]
  refine ht₂.full hL hc hplaced ?_
  have hsize₂ : g₂ (.size c) = bytesOf c := by
    rw [hcell₂ _ (by simp) (by simp) (by simp)]
    exact hI.rep.size c hc
  have hfull : (g₂ (.first p) = 0 ∧ g₂ (.bump p) * 16 + g₂ (.size c) > PAGE) ↔
      (S.takeSlot p).Full p c := by
    rw [hsize₂]
    exact full_iff hc h0 hle' hfirst₂ hbump₂
  simp only [gt_iff_lt] at hfull ⊢
  by_cases hfl : (S.takeSlot p).Full p c
  · have hpop : S.pop p c = { S.takeSlot p with list := Function.update S.list c t } := by
      unfold Shape.pop
      rw [if_pos hfl, hl, tail_cons]
    simp only [hfull, hfl, decide_true, if_true]
    have hnext : g₂ (.next p) = PAGE * t.headD 0 := by
      have := hlinked₂.next c hc p (by rw [hl]; exact mem_cons_self)
      rwa [hl, after_cons_self] at this
    rw [bind_iff]
    refine ht₂.load32 hL (.next p) hplaced rfl rfl ?_
    have hlt : PAGE * t.headD 0 < USIZE := by
      by_cases htn : t = []
      · rw [htn]
        decide
      · have hmem : t.headD 0 ∈ S.list c := by
          rw [hl]
          exact mem_cons_of_mem _ (headD_mem htn)
        exact hL.page_mul_lt (by
          rw [((hwf.mem_list c hc _).mp hmem).1]; exact Entry.noConfusion)
    rw [hnext, bind_iff]
    refine ht₂.setHead hL hK hc hlt fun h₃ ht₃ => ?_
    rw [ite_iff]
    constructor
    · intro hn0
      have htn : t ≠ [] := by
        rintro rfl
        exact hn0 (by simp)
      have hmem : t.headD 0 ∈ S.list c := by
        rw [hl]
        exact mem_cons_of_mem _ (headD_mem htn)
      rw [bind_iff]
      refine ht₃.store32 hL hK (.prev (t.headD 0)) (hwf.header_of_mem hc hmem) rfl
        (by simp only [Cell.addr]; rw [mul_comm]) (by decide) fun h₄ ht₄ => ?_
      rw [bind_iff]
      refine ht₄.store32 hL hK (.next p) hplaced rfl rfl (by decide) fun h₅ ht₅ => ?_
      rw [pure_iff]
      refine ⟨rfl, hfin ht₅ (fun cell hn => ?_) (hlinked₂.tail hL hc hl ?_ (fun k hk => ?_)
        (fun q hq => ?_) (fun _ => ?_) fun q hq => ?_) hpop⟩
      · rw [update_of_ne (hn _).1, update_of_ne (hn _).2.1, update_of_ne (hn _).2.2]
      · rw [update_of_ne (by simp), update_of_ne (by simp), update_self]
      · rw [update_of_ne (by simp), update_of_ne (by simp), update_of_ne (by simpa using hk)]
      · rw [update_of_ne (by simpa using hq), update_of_ne (by simp), update_of_ne (by simp)]
      · rw [update_of_ne (by simp), update_self]
      · rw [update_of_ne (by simp), update_of_ne (by simpa using hq htn), update_of_ne (by simp)]
    · intro hn0
      have htn : t = [] := by
        by_contra htn
        have hne : t.headD 0 ≠ 0 := fun hz => hwf.zero_notMem_list hc (by
          rw [hl, ← hz]; exact mem_cons_of_mem _ (headD_mem htn))
        exact hn0 (by unfold PAGE; omega)
      rw [bind_iff]
      refine ht₃.store32 hL hK (.next p) hplaced rfl rfl (by decide) fun h₅ ht₅ => ?_
      rw [pure_iff]
      refine ⟨rfl, hfin ht₅ (fun cell hn => ?_) (hlinked₂.tail hL hc hl ?_ (fun k hk => ?_)
        (fun q hq => ?_) (fun h => absurd htn h) fun q _ => ?_) hpop⟩
      · rw [update_of_ne (hn _).1, update_of_ne (hn _).2.2]
      · rw [update_of_ne (by simp), update_self]
      · rw [update_of_ne (by simp), update_of_ne (by simpa using hk)]
      · rw [update_of_ne (by simpa using hq), update_of_ne (by simp)]
      · rw [update_of_ne (by simp), update_of_ne (by simp)]
  · have hpop : S.pop p c = { S.takeSlot p with list := S.list } := by
      unfold Shape.pop
      rw [if_neg hfl]
      conv_rhs => rw [← Shape.takeSlot_list (S := S) (p := p)]
    simp only [hfull, hfl, decide_false, Bool.false_eq_true, if_false]
    rw [pure_iff]
    exact ⟨rfl, hfin ht₂ (fun _ _ => rfl) hlinked₂ hpop⟩

end Pop

/-! ### A page for a class -/

section PageOf

variable {E : Stop → Prop} {S : Shape} {h : Heap} {K : Rest} {c p : ℕ}

/-- The end of `page_of`: the free page `p` becomes the one page of class `c`. -/
theorem openPage_spec (hI : Inv S h) (hK : Clear S h K) (hc : IsClass c) (hp : S.entry p = .free)
    (hl : S.list c = []) :
    Ensures E (do
      setEntry (p * PAGE / PAGE) (SMALL + c)
      fill (p * PAGE) 0 14
      store16 (p * PAGE + 14) 1
      setHead c (p * PAGE)
      pure (p * PAGE)) (fun page h' => page = p * PAGE ∧ Inv (S.openPage p c) h' ∧
        Clear (S.openPage p c) h' K ∧ Frame K h h') h := by
  have hL := hI.toLayout
  have hwf := hL.wf
  have ht := Tracks.refl S K h
  have hns : S.entry p ≠ .static := by rw [hp]; exact Entry.noConfusion
  have hplt := hL.page_lt hns
  have hwf' := hwf.openPage hp hc hl
  have hst : ∀ q, S.entry q = .static → (S.openPage p c).entry q = .static := by
    intro q hq
    have hqp : q ≠ p := fun h => hns (h ▸ hq)
    simpa only [Shape.openPage, update_of_ne hqp] using hq
  have hL' := hL.of_shape hwf' hst
  have hK' : Clear (S.openPage p c) h K := by
    refine hK.of_shape hst fun b hb _ => ⟨(Shape.live_openPage hp b).mpr hb, ?_⟩
    have hbp : b / PAGE ≠ p := by
      intro h
      rcases hb with ⟨k, he, -⟩ | ⟨n, he, -⟩ <;> rw [h, hp] at he <;> cases he
    simp only [Shape.size, Shape.openPage, update_of_ne hbp]
  have hsmall : ∀ q k, (S.openPage p c).entry q = .small k → q ≠ p → S.entry q = .small k := by
    intro q k hq hqp
    simpa only [Shape.openPage, update_of_ne hqp] using hq
  have hnotin : ∀ k, IsClass k → ∀ q ∈ S.list k, q ≠ p := by
    rintro k hk q hq rfl
    rw [((hwf.mem_list k hk q).mp hq).1] at hp
    cases hp
  rw [Nat.mul_div_cancel _ (by decide : 0 < PAGE), bind_iff]
  refine ht.setEntry hL hK hplt.1 ?_ fun h₁ ht₁ => ?_
  · have := hc.2
    simp only [SMALL, USIZE]
    omega
  rw [bind_iff]
  refine ensures_fill ?_ ?_
  · rw [ht₁.vars.pages]
    have := Nat.mul_le_mul_right PAGE (Nat.le_trans hplt.2.1 hL.known_pages)
    rw [Nat.succ_mul] at this
    exact Nat.le_trans (Nat.add_le_add_left (by decide) _) this
  rw [bind_iff]
  refine (ht₁.zeroHeader hL hK (Or.inl hp)).store16 hL hK (.bump p) (Or.inl hp) rfl rfl (by decide)
    fun h₂ ht₂ => ?_
  rw [bind_iff]
  have hlt : p * PAGE < USIZE := by
    have := hplt.2.2
    unfold PAGE USIZE
    omega
  refine ht₂.setHead hL hK hc hlt fun h₃ ht₃ => pure_iff.mpr ?_
  refine ⟨rfl, ht₃.inv hL' hK' (fun q k hq => ?_) ?_, hK'.of_sameVars ht₃.vars, ht₃.frame⟩
  · by_cases hqp : q = p
    · subst hqp
      exact Or.inr ⟨hp, by simp [Shape.openPage]⟩
    · exact Or.inl (hsmall q k hq hqp)
  · have hR := hI.rep
    constructor
    case toLinked =>
      refine ⟨fun k hk => ?_, fun k hk q hq => ?_, fun k hk q hq => ?_⟩
      · by_cases hkc : k = c
        · subst hkc
          simp [Shape.openPage, Nat.mul_comm]
        · simpa [Shape.openPage, hkc] using hR.head k hk
      · by_cases hkc : k = c
        · subst hkc
          obtain rfl : q = p := by simpa [Shape.openPage] using hq
          simp [Shape.openPage]
        · have hq' : q ∈ S.list k := by simpa [Shape.openPage, hkc] using hq
          simpa [Shape.openPage, hkc, hnotin k hk q hq'] using hR.next k hk q hq'
      · by_cases hkc : k = c
        · subst hkc
          obtain rfl : q = p := by simpa [Shape.openPage] using hq
          simp [Shape.openPage]
        · have hq' : q ∈ S.list k := by simpa [Shape.openPage, hkc] using hq
          simpa [Shape.openPage, hkc, hnotin k hk q hq'] using hR.prev k hk q hq'
    case freed =>
      intro k hk
      simpa [Shape.openPage] using hR.freed k hk
    case size =>
      intro k hk
      simpa using hR.size k hk
    case reciprocal =>
      intro k hk
      simpa using hR.reciprocal k hk
    case entry =>
      intro q hq
      by_cases hqp : q = p
      · subst hqp
        simp [Shape.openPage, Entry.code]
      · simpa [Shape.openPage, hqp] using hR.entry q hq
    case first =>
      intro q k hq
      by_cases hqp : q = p
      · subst hqp
        simp [Shape.openPage]
      · simpa [Shape.openPage, hqp] using hR.first q k (hsmall q k hq hqp)
    case live =>
      intro q k hq
      by_cases hqp : q = p
      · subst hqp
        simp [Shape.openPage]
      · simpa [Shape.openPage, hqp] using hR.live q k (hsmall q k hq hqp)
    case bump =>
      intro q k hq
      by_cases hqp : q = p
      · subst hqp
        simp [Shape.openPage]
      · simpa [Shape.openPage, hqp] using hR.bump q k (hsmall q k hq hqp)
    case linkFree =>
      intro q k hq x hx
      by_cases hqp : q = p
      · subst hqp
        simp [Shape.openPage] at hx
      · have hx' : x ∈ S.free q := by simpa [Shape.openPage, hqp] using hx
        simpa [Shape.openPage, hqp] using hR.linkFree q k (hsmall q k hq hqp) x hx'
    case linkFreed =>
      intro k hk x hx
      simpa [Shape.openPage] using hR.linkFreed k hk x hx

/-- `page_of` gives a page that heads its class's list. -/
theorem pageOf_spec (hE : S.list c = [] → h.NoRoom 1 → E exhausted) (hI : Inv S h)
    (hK : Clear S h K) (hc : IsClass c) :
    Ensures E (pageOf c) (fun page h' => ∃ p T, page = p * PAGE ∧ Served S c p T ∧ Inv T h' ∧
      Clear T h' K ∧ Extends K h h' ∧ (S.list c ≠ [] → SameVars h h')) h := by
  unfold pageOf
  rw [bind_iff]
  refine (Tracks.refl S K h).head hI.toLayout hc ?_
  rw [hI.rep.head c hc, ite_iff]
  constructor
  · intro hne
    rw [pure_iff]
    obtain ⟨t, hl⟩ : ∃ t, S.list c = (S.list c).headD 0 :: t :=
      headD_eq_of_head rfl fun h => hne (by rw [h, mul_zero])
    exact ⟨_, S, mul_comm _ _, .head hl, hI, hK, Extends.refl K h, fun _ => SameVars.refl h⟩
  · intro hz
    have hn : S.list c = [] := by
      rw [← headD_eq_zero_iff (hI.wf.zero_notMem_list hc)]
      by_contra h
      exact hz (by unfold PAGE; omega)
    rw [bind_iff]
    refine (reclaim_spec hI hK).mono fun _ h₁ ⟨hI₁, hK₁, hf₁⟩ => ?_
    rw [bind_iff]
    refine (Tracks.refl S.reclaimed K h₁).head hI₁.toLayout hc ?_
    rw [hI₁.rep.head c hc, ite_iff]
    constructor
    · intro hne
      rw [pure_iff]
      obtain ⟨t, hl⟩ : ∃ t, S.reclaimed.list c = (S.reclaimed.list c).headD 0 :: t :=
        headD_eq_of_head rfl fun h => hne (by rw [h, mul_zero])
      exact ⟨_, _, mul_comm _ _, .reclaimed hn hl, hI₁, hK₁, hf₁.extends, fun h => absurd hn h⟩
    · intro hz₁
      have hl : S.reclaimed.list c = [] := by
        rw [← headD_eq_zero_iff (hI₁.wf.zero_notMem_list hc)]
        by_contra h
        exact hz₁ (by unfold PAGE; omega)
      rw [bind_iff]
      have hE₁ : h₁.NoRoom 1 → E exhausted := by
        unfold Heap.NoRoom at *
        rw [hf₁.vars.pages, hf₁.vars.limit, hf₁.vars.capacity]
        exact hE hn
      refine (take_spec hE₁ hI₁ hK₁ (le_refl 1)).mono fun p h₂ ⟨T, hT, hI₂, hK₂, hext, hfree⟩ => ?_
      have hp := hfree p (le_refl _) (by omega)
      have hlT : T.list c = [] := by rw [hT.list, hl]
      refine (openPage_spec hI₂ hK₂ hc hp hlT).mono fun page h₃ ⟨hpage, hI₃, hK₃, hf₃⟩ => ?_
      exact ⟨p, _, hpage, .opened hn hl hT ⟨_, hI₂.wf⟩ hp, hI₃, hK₃,
        (hf₁.extends.trans hext).trans hf₃.extends, fun h => absurd hn h⟩

/-- **A small block.** -/
theorem allocSmall_spec (hE : S.list c = [] → h.NoRoom 1 → E exhausted) (hI : Inv S h)
    (hK : Clear S h K) (hc : IsClass c) :
    Ensures E (allocSmall c) (fun b h' => ∃ S', Handed S b (bytesOf c) S' ∧ Inv S' h' ∧
      Clear S' h' K ∧ Extends K h h' ∧ (S.list c ≠ [] → SameVars h h')) h := by
  have hL := hI.toLayout
  have hwf := hL.wf
  have ht := Tracks.refl S K h
  have hfreed := hI.rep.freed c hc
  unfold allocSmall
  rw [bind_iff, get_iff]
  dsimp only
  rw [bind_iff]
  refine ht.load32 hL (.freed c) hc rfl rfl ?_
  rw [hfreed, ite_iff]
  constructor
  · intro hne
    -- the class's freed list has a block
    obtain ⟨t, hl⟩ : ∃ t, S.freed c = (S.freed c).headD 0 :: t := headD_eq_of_head rfl hne
    generalize (S.freed c).headD 0 = b at hl hne
    have hmem : b ∈ S.freed c := by rw [hl]; exact mem_cons_self
    have hnd := hwf.freed_nodup c hc
    rw [hl] at hnd
    obtain ⟨he, hslot, -⟩ := hwf.freed_slot c hc b hmem
    have hf := hc.facts
    have hplaced : Placed S h K (.link b) :=
      ⟨⟨c, he, hslot.mono (hwf.carved_le _ _ he)⟩, fun a ha ha' =>
        hK.notMem_slot hwf he hslot (hwf.freed_not_live hc hmem) ha (by omega)⟩
    have hlink := hI.rep.linkFreed c hc b hmem
    rw [hl, after_cons_self] at hlink
    have hlt : t.headD 0 < USIZE := by
      by_cases htn : t = []
      · rw [htn]
        decide
      · have hmem' : t.headD 0 ∈ S.freed c := by
          rw [hl]
          exact mem_cons_of_mem _ (headD_mem htn)
        obtain ⟨he', hslot', -⟩ := hwf.freed_slot c hc _ hmem'
        exact hL.slot_lt he' hslot'
    have hK' : Clear (S.popFreed c) h K := hK.of_shape (fun _ hp => hp) fun x hx _ =>
      ⟨(hwf.live_popFreed hc hl x).mpr (Or.inl hx), rfl⟩
    rw [bind_iff]
    refine ht.load32 hL (.link b) hplaced rfl rfl ?_
    rw [hlink, bind_iff]
    refine ht.store32 hL hK (.freed c) hc rfl rfl hlt fun h₁ ht₁ => pure_iff.mpr ?_
    refine ⟨_, .freed hc hl, ht₁.inv (hL.of_shape (hwf.popFreed hc) fun _ hp => hp) hK'
      (fun q k hq => Or.inl hq) ?_, hK'.of_sameVars ht₁.vars, ht₁.frame.extends,
      fun _ => ht₁.vars⟩
    refine hI.rep.setFreed ?_ (fun x hx => ?_) (fun cell _ h₂ => update_of_ne h₂ _ _)
      (by simp) (by simp)
    · rw [update_self, hl, tail_cons]
    · rw [hl, tail_cons] at hx ⊢
      have hxb : x ≠ b := fun h => (nodup_cons.mp hnd).1 (h ▸ hx)
      rw [update_of_ne (by simp), hI.rep.linkFreed c hc x (by
        rw [hl]; exact mem_cons_of_mem _ hx), hl, after_cons_of_ne hxb]
  · intro hz
    have hn : S.freed c = [] := by
      rw [← headD_eq_zero_iff (hwf.zero_notMem_freed hc)]
      exact not_not.mp hz
    rw [bind_iff]
    refine (pageOf_spec hE hI hK hc).mono fun page h₁ ⟨p, T, hpage, hT, hI₁, hK₁, hext, hsame⟩ => ?_
    subst hpage
    obtain ⟨⟨t, hl⟩, -⟩ := hT.facts hwf hc
    refine (takeHead_spec hI₁ hK₁ hc hl).mono fun slot h₂ ⟨hslot, hI₂, hK₂, hf₂⟩ => ?_
    subst hslot
    exact ⟨_, .slot hc hn hT, hI₂, hK₂, hext.trans hf₂.extends, fun h => (hsame h).trans hf₂.vars⟩

end PageOf

/-! ### A run -/

section Runs

variable {E : Stop → Prop} {S : Shape} {h : Heap} {K : Rest} {p n : ℕ}

theorem Rep.openRun {f : Cell → ℕ} {known : ℕ} (hR : Rep f S known) (hn : 1 ≤ n)
    (hfree : ∀ q, p ≤ q → q < p + n → S.entry q = .free) :
    Rep (fun c => match c with
      | .entry q => if p + 1 ≤ q ∧ q < p + 1 + (n - 1) then REST + p
          else Function.update f (.entry p) (RUN + n) (.entry q)
      | c => Function.update f (.entry p) (RUN + n) c) (S.openRun p n) known := by
  have hsmall : ∀ q c, (S.openRun p n).entry q = .small c → S.entry q = .small c := by
    intro q c hq
    simp only [Shape.openRun] at hq
    split at hq
    · cases hq
    · split at hq
      · cases hq
      · exact hq
  constructor
  case toLinked => exact ⟨fun k hk => by simpa using hR.head k hk,
    fun k hk q hq => by simpa using hR.next k hk q hq,
    fun k hk q hq => by simpa using hR.prev k hk q hq⟩
  case freed => exact fun k hk => by simpa using hR.freed k hk
  case size => exact fun k hk => by simpa using hR.size k hk
  case reciprocal => exact fun k hk => by simpa using hR.reciprocal k hk
  case entry =>
    intro q hq
    simp only [Shape.openRun]
    by_cases hqp : q = p
    · subst hqp
      rw [if_neg (by omega), update_self, if_pos rfl]
      rfl
    · rw [if_neg hqp]
      by_cases hin : p < q ∧ q < p + n
      · rw [if_pos (by omega), if_pos hin]
        rfl
      · rw [if_neg (by omega), if_neg hin, update_of_ne (by simpa using hqp)]
        exact hR.entry q hq
  case first => exact fun q k hq => by simpa using hR.first q k (hsmall q k hq)
  case live => exact fun q k hq => by simpa using hR.live q k (hsmall q k hq)
  case bump => exact fun q k hq => by simpa using hR.bump q k (hsmall q k hq)
  case linkFree => exact fun q k hq x hx => by simpa using hR.linkFree q k (hsmall q k hq) x hx
  case linkFreed => exact fun k hk x hx => by simpa using hR.linkFreed k hk x hx

/-- **A run** of `n` pages. -/
theorem openRun_spec (hE : E exhausted) (hI : Inv S h) (hK : Clear S h K) (hn : 1 ≤ n) :
    Ensures E (do
      reclaim
      let first ← take n
      setEntry first (RUN + n)
      setEntries (REST + first) (first + 1) (n - 1)
      pure (first * PAGE)) (fun b h' => ∃ S', Handed S b (n * PAGE) S' ∧ Inv S' h' ∧
        Clear S' h' K ∧ Extends K h h') h := by
  rw [bind_iff]
  refine (reclaim_spec hI hK).mono fun _ h₁ ⟨hI₁, hK₁, hf₁⟩ => ?_
  rw [bind_iff]
  refine (take_spec (fun _ => hE) hI₁ hK₁ hn).mono fun p h₂ ⟨T, hT, hI₂, hK₂, hext, hfree⟩ => ?_
  have hL := hI₂.toLayout
  have hwf := hL.wf
  have ht := Tracks.refl T K h₂
  have hp := hfree p (le_refl _) (by omega)
  have hlast := hfree (p + n - 1) (by omega) (by omega)
  have hlt := hL.page_lt (p := p + n - 1) (by rw [hlast]; exact Entry.noConfusion)
  have hwf' := hwf.openRun hn hfree
  have hst : ∀ q, T.entry q = .static → (T.openRun p n).entry q = .static := by
    intro q hq
    simp only [Shape.openRun]
    rw [if_neg (fun h => by rw [h, hp] at hq; cases hq), if_neg (fun h => by
      rw [hfree q (by omega) h.2] at hq; cases hq)]
    exact hq
  have hL' := hL.of_shape hwf' hst
  have hK' : Clear (T.openRun p n) h₂ K := by
    refine hK₂.of_shape hst fun b hb _ => ⟨(Shape.live_openRun hn hfree b).mpr (Or.inl hb), ?_⟩
    have hholds : T.Holds (b / PAGE) := by
      rcases hb with ⟨c, he, -⟩ | ⟨m, he, -⟩ <;> simp [Shape.Holds, he]
    unfold Shape.size
    rw [Shape.openRun_entry hn hfree hholds]
  rw [bind_iff]
  refine ht.setEntry hL hK₂ (by omega) (by unfold RUN USIZE; omega) fun h₃ ht₃ => ?_
  rw [bind_iff]
  refine Tracks.setEntries hL hK₂ (by unfold REST USIZE; omega) ht₃ (by omega) fun h₄ ht₄ =>
    pure_iff.mpr ?_
  refine ⟨_, .run hn hT hfree, ht₄.inv hL' hK' (fun q k hq => Or.inl ?_) ?_,
    hK'.of_sameVars ht₄.vars, (hf₁.extends.trans hext).trans ht₄.frame.extends⟩
  · simp only [Shape.openRun] at hq
    split at hq
    · cases hq
    · split at hq
      · cases hq
      · exact hq
  · exact hI₂.rep.openRun hn hfree

end Runs

/-! ### Size classes -/

/-- The smallest size class whose blocks have `size` bytes. -/
def sizeClass (size : ℕ) : ℕ :=
  if size ≤ 16 then 1
  else if size ≤ 128 then (size + 15) / 16
  else 9 + (sizes.drop 8).findIdx (fun bytes => decide (size ≤ bytes))

/-- The classes from 9 on as `class_of`'s loop goes through them. -/
theorem sizeClass_eq {size c : ℕ} (hbig : 128 < size) (h9 : 9 ≤ c) (h20 : c ≤ 20)
    (hlow : ∀ k, 9 ≤ k → k < c → bytesOf k < size) (hc : size ≤ bytesOf c) :
    sizeClass size = c := by
  unfold sizeClass
  rw [if_neg (by omega), if_neg (by omega)]
  have hlen : (sizes.drop 8).length = 12 := by decide
  have hget : ∀ i, (hi : i < (sizes.drop 8).length) → (sizes.drop 8)[i] = bytesOf (9 + i) := by
    intro i hi
    unfold bytesOf
    rw [getElem_drop, getD_eq_getElem?_getD,
      show 9 + i - 1 = 8 + i by omega, List.getElem?_eq_getElem, Option.getD_some]
  have hidx : (sizes.drop 8).findIdx (fun bytes => decide (size ≤ bytes)) = c - 9 := by
    rw [findIdx_eq (by omega)]
    refine ⟨?_, fun j hj => ?_⟩
    · rw [hget _ (by omega), show 9 + (c - 9) = c by omega]
      exact decide_eq_true hc
    · rw [hget _ (by omega)]
      exact decide_eq_false (Nat.not_le_of_lt (hlow _ (by omega) (by omega)))
  rw [hidx]
  omega

theorem sizeClass_facts {size : ℕ} (hs : size ≤ 2048) :
    IsClass (sizeClass size) ∧ size ≤ bytesOf (sizeClass size) := by
  have hex : ∃ c, 9 ≤ c ∧ c ≤ 20 ∧ size ≤ bytesOf c :=
    ⟨20, by decide, by decide, hs.trans (by decide)⟩
  by_cases h16 : size ≤ 16
  · have : sizeClass size = 1 := if_pos h16
    rw [this]
    exact ⟨by decide, h16.trans (by decide)⟩
  · by_cases h128 : size ≤ 128
    · have hcls : sizeClass size = (size + 15) / 16 := by
        unfold sizeClass
        rw [if_neg h16, if_pos h128]
      rw [hcls]
      have hlo : 2 ≤ (size + 15) / 16 := by omega
      have hhi : (size + 15) / 16 ≤ 8 := by omega
      have hle : size ≤ 16 * ((size + 15) / 16) := by omega
      generalize (size + 15) / 16 = k at *
      have hk : bytesOf k = 16 * k := by interval_cases k <;> rfl
      exact ⟨⟨by omega, by omega⟩, hk ▸ hle⟩
    · classical
      obtain ⟨h9, h20, hle⟩ := Nat.find_spec hex
      have hmin : ∀ k, 9 ≤ k → k < Nat.find hex → bytesOf k < size := by
        intro k hk hlt
        have := Nat.find_min hex hlt
        by_contra hge
        exact this ⟨hk, by omega, Nat.le_of_not_lt hge⟩
      rw [sizeClass_eq (by omega) h9 h20 hmin hle]
      exact ⟨⟨by omega, h20⟩, hle⟩

section ClassOf

variable {E : Stop → Prop} {S : Shape} {h : Heap}

theorem classFrom_spec (hI : Inv S h) {size : ℕ} (hbig : 128 < size) (hs : size ≤ 2048) :
    ∀ (fuel : ℕ) {c : ℕ}, 9 ≤ c → c ≤ 20 → 21 - c ≤ fuel → (∀ k, 9 ≤ k → k < c → bytesOf k < size) →
      Ensures E (classFrom size fuel c) (fun r h' => r = sizeClass size ∧ h' = h) h := by
  intro fuel
  induction fuel with
  | zero =>
    intro c _ h20 hfuel
    omega
  | succ fuel ih =>
    intro c h9 h20 hfuel hlow
    have hc : IsClass c := ⟨by omega, h20⟩
    unfold classFrom
    rw [bind_iff]
    refine (Tracks.refl S ∅ h).classBytes hI.toLayout hc ?_
    rw [hI.rep.size c hc, ite_iff]
    constructor
    · intro hlt
      have hne : c ≠ 20 := by
        rintro rfl
        have : bytesOf 20 = 2048 := rfl
        omega
      refine ih (by omega) (by omega) (by omega) fun k hk hk' => ?_
      rcases Nat.lt_succ_iff_lt_or_eq.mp hk' with h' | rfl
      · exact hlow k hk h'
      · exact hlt
    · intro hge
      rw [pure_iff]
      exact ⟨(sizeClass_eq hbig h9 h20 hlow (Nat.le_of_not_lt hge)).symm, rfl⟩

/-- `class_of` finds the smallest class that holds the block. -/
theorem classOf_spec (hI : Inv S h) {size : ℕ} (hs : size ≤ 2048) :
    Ensures E (classOf size) (fun r h' => r = sizeClass size ∧ h' = h) h := by
  unfold classOf
  rw [ite_iff]
  refine ⟨fun h16 => pure_iff.mpr ⟨(if_pos h16).symm, rfl⟩, fun h16 => ?_⟩
  rw [ite_iff]
  refine ⟨fun h128 => pure_iff.mpr ⟨?_, rfl⟩, fun h128 => ?_⟩
  · unfold sizeClass
    rw [if_neg h16, if_pos h128]
  · exact classFrom_spec hI (by omega) hs size (le_refl 9) (by decide) (by omega) fun k hk hk' => by omega

end ClassOf

end Alloc

end HdLang
