import HdLang.Alloc.Safety

/-!
# Retained pages

When a free empties a small page, the page returns to the pool unless it heads its class's list. A
shape is `Tidy` when no empty page is left behind: each is the head of its class's list. One step
breaks this: a block given back to a page that was full puts the page at the head of the list, and
if the head was an empty page, it stays, empty and no longer the head (`Shape.Strands`). Every
other step keeps it.
-/

namespace HdLang

open ByteMem Function List

namespace Alloc

open PointerList Transition

namespace Shape

/-! ### Empty pages -/

section Definitions

variable (S : Shape)

/-- The live count of a small page: its carved slots that are not on its free list. -/
def count (p : ℕ) : ℕ := S.carved p - (S.free p).length

/-- **No page is retained**: an empty small page heads its class's list. -/
def Tidy : Prop := ∀ p c, S.entry p = .small c → S.count p = 0 → (S.list c).headD 0 = p

/-- Giving the block `b` back puts its page, which was full, before an empty head. -/
def Strands (b : ℕ) : Prop :=
  ∃ c q t, S.entry (b / PAGE) = .small c ∧ S.Full (b / PAGE) c ∧ S.list c = q :: t ∧ S.count q = 0

/-- No block of `l`, given back in turn, strands a page. -/
def CleanAll (S : Shape) : List ℕ → Prop
  | [] => True
  | b :: l => ¬S.Strands b ∧ (S.release b).CleanAll l

/-- No block strands a page in `reclaim`'s turns for the `left` classes from `cls` on. -/
def CleanFrom (S : Shape) : ℕ → ℕ → Prop
  | _, 0 => True
  | cls, left + 1 =>
    (S.clearFreed cls).CleanAll (S.freed cls) ∧ (S.reclaimClass cls).CleanFrom (cls + 1) left

/-- **No free strands a page** in the step `op`, nor in a `reclaim` that it makes: an allocation
reclaims for a large block, and for a small one when its class has neither a freed block nor a page
with room. -/
def Clean : Op → Prop
  | .alloc size | .allocClass size _ =>
    (size ≤ 2048 → S.freed (sizeClass size) = [] ∧ S.list (sizeClass size) = []) → S.CleanFrom 1 20
  | .freeBlock k => ¬S.Strands k.address
  | .freeClass k cls => cls = 0 → ¬S.Strands k.address
  | .reclaim => S.CleanFrom 1 20
  | _ => True

end Definitions

variable {S T S' : Shape} {known p cls b : ℕ}

/-! ### What keeps a shape tidy -/

theorem WF.ne_zero (hS : S.WF known) (he : S.entry p = .small cls) : p ≠ 0 := by
  rintro rfl
  rw [hS.zero] at he
  cases he

/-- In a tidy shape an empty page is its class's first. -/
theorem Tidy.list_eq (hT : S.Tidy) (hS : S.WF known) (he : S.entry p = .small cls)
    (h0 : S.count p = 0) : ∃ t, S.list cls = p :: t := by
  have hhead := hT p cls he h0
  cases hl : S.list cls with
  | nil =>
    rw [hl] at hhead
    exact absurd hhead.symm (hS.ne_zero he)
  | cons q t =>
    rw [hl] at hhead
    exact ⟨t, by rw [show q = p from hhead]⟩

/-- A shape with the small pages and the lists of a tidy one is tidy. -/
theorem Tidy.congr (hT : S.Tidy) (hcarved : T.carved = S.carved) (hfree : T.free = S.free)
    (hlist : T.list = S.list) (he : ∀ p c, T.entry p = .small c → S.entry p = .small c) :
    T.Tidy := by
  intro p c hp h0
  rw [hlist]
  refine hT p c (he p c hp) ?_
  rwa [count, hcarved, hfree] at h0

section GiveSlot

variable (hS : S.WF known) (hT : S.Tidy) (he : S.entry p = .small cls)

include hS hT he

/-- A page that is not the one given back to is empty only if it was. -/
theorem Tidy.giveSlot (hclean : ∀ q t, S.Full p cls → S.list cls = q :: t → S.count q ≠ 0) :
    (S.giveSlot p cls b).Tidy := by
  have hc := hS.isClass p cls he
  have hfree : ∀ q, q ≠ p → Function.update S.free p (b :: S.free p) q = S.free q := fun q hq =>
    update_of_ne hq _ _
  have hlist : ∀ c l, c ≠ cls → Function.update S.list cls l c = S.list c := fun c l h =>
    update_of_ne h _ _
  unfold Shape.giveSlot
  split
  · next hret =>
    -- the page leaves, and it was not the head
    intro q c hq h0
    have hqp : q ≠ p := by
      rintro rfl
      simp at hq
    simp only [update_of_ne hqp] at hq
    have hhead := hT q c hq (by simpa only [count, hfree q hqp] using h0)
    dsimp only
    by_cases hcc : c = cls
    · subst hcc
      rw [update_self, headD_erase_of_ne hret.2, hhead]
    · rw [hlist c _ hcc, hhead]
  · next hret =>
    split
    · next hfull =>
      -- the page becomes the head
      intro q c hq h0
      by_cases hqp : q = p
      · subst hqp
        have hslots := hc.facts.2.2.2.1
        simp only [count, update_self, length_cons, hfull.1, hfull.2, length_nil] at h0
        omega
      · have h0' : S.count q = 0 := by simpa only [count, hfree q hqp] using h0
        dsimp only
        by_cases hcc : c = cls
        · subst hcc
          obtain ⟨t, ht⟩ := hT.list_eq hS hq h0'
          exact absurd h0' (hclean q t hfull ht)
        · rw [hlist c _ hcc]
          exact hT q c hq h0'
    · -- the page stays where it is
      intro q c hq h0
      by_cases hqp : q = p
      · subst hqp
        have hcc : cls = c := by
          have h := he.symm.trans hq
          injection h
        subst hcc
        by_contra hne
        refine hret ⟨?_, hne⟩
        simpa only [count, update_self, length_cons, Nat.sub_sub] using h0
      · exact hT q c hq (by simpa only [count, hfree q hqp] using h0)

end GiveSlot

/-- A release that strands no page keeps a shape tidy. -/
theorem Tidy.release (hT : S.Tidy) (hS : S.WF known) (hn : ¬S.Strands b) :
    (S.release b).Tidy := by
  unfold Shape.release
  split
  · refine hT.congr rfl rfl rfl fun q c hq => ?_
    simp only [freeRun] at hq
    split at hq
    · cases hq
    · exact hq
  · next cls he =>
    exact hT.giveSlot hS he fun q t hfull hl h0 => hn ⟨cls, q, t, he, hfull, hl, h0⟩
  · exact hT

theorem Tidy.clearFreed (hT : S.Tidy) : (S.clearFreed cls).Tidy :=
  hT.congr rfl rfl rfl fun _ _ h => h

theorem Tidy.releaseAll : ∀ {l : List ℕ} {S : Shape}, S.Tidy → S.WF known → l.Nodup →
    (∀ x ∈ l, S.Live x) → S.CleanAll l → (S.releaseAll l).Tidy
  | [], _, hT, _, _, _, _ => hT
  | b :: l, S, hT, hS, hnd, hl, hclean => by
    obtain ⟨hb, hnd⟩ := nodup_cons.mp hnd
    have hlive := hl b mem_cons_self
    refine Tidy.releaseAll (S := S.release b) (hT.release hS hclean.1) (hS.release hlive) hnd
      (fun x hx => ?_) hclean.2
    refine (hS.live_release hlive x).mpr ⟨hl x (mem_cons_of_mem _ hx), ?_⟩
    rintro rfl
    exact hb hx

/-- `reclaim`'s turns keep a shape tidy when they strand no page. -/
theorem Tidy.reclaimFrom : ∀ (left : ℕ) {cls : ℕ} {S : Shape}, S.Tidy → S.WF known → 1 ≤ cls →
    cls + left ≤ 21 → S.CleanFrom cls left → (S.reclaimFrom cls left).Tidy
  | 0, _, _, hT, _, _, _, _ => hT
  | left + 1, cls, S, hT, hS, h1, h2, hclean => by
    have hc : IsClass cls := ⟨h1, by omega⟩
    refine Tidy.reclaimFrom left (S := S.reclaimClass cls) ?_ (hS.reclaimClass hc).1 (by omega)
      (by omega) hclean.2
    refine hT.clearFreed.releaseAll hS.clearFreed (hS.freed_nodup cls hc) (fun x hx => ?_) hclean.1
    exact (hS.live_clearFreed hc x).mpr (Or.inr hx)

section

variable (hT : S.Tidy)
include hT

theorem Tidy.reclaimed (hS : S.WF known) (hclean : S.CleanFrom 1 20) :
    S.reclaimed.Tidy :=
  hT.reclaimFrom 20 hS (by decide) (by decide) hclean

theorem Tidy.retabled (h : S.Retabled T) : T.Tidy :=
  hT.congr h.carved h.free h.list fun _ _ he => (h.entry_iff (by simp)).mp he

/-- The head page of a class hands a slot out: the empty page of the class could only be it. -/
theorem Tidy.pop (hS : S.WF known) (hc : IsClass cls) {t : List ℕ} (hl : S.list cls = p :: t)
    : (S.pop p cls).Tidy := by
  have hlive := hS.live_takeSlot (hS.head_small hc hl).1
  intro q c hq h0
  have hcarved : (S.pop p cls).carved = (S.takeSlot p).carved := by
    unfold Shape.pop
    split <;> rfl
  have hfree : (S.pop p cls).free = (S.takeSlot p).free := by
    unfold Shape.pop
    split <;> rfl
  have hentry : (S.pop p cls).entry = S.entry := by
    unfold Shape.pop
    split <;> simp
  rw [count, hcarved, hfree] at h0
  rw [hentry] at hq
  by_cases hqp : q = p
  · subst hqp
    omega
  · obtain ⟨hqc, hqf⟩ := takeSlot_of_ne (S := S) hqp
    have h0' : S.count q = 0 := by rwa [hqc, hqf] at h0
    have hhead := hT q c hq h0'
    have hcc : c ≠ cls := by
      rintro rfl
      rw [hl] at hhead
      exact hqp hhead.symm
    have hlist : (S.pop p cls).list c = S.list c := by
      unfold Shape.pop
      split
      · exact update_of_ne hcc _ _
      · simp
    rw [hlist, hhead]

/-- A class with no page with room gets a new one. -/
theorem Tidy.openPage (hS : S.WF known) (hl : S.list cls = []) :
    (S.openPage p cls).Tidy := by
  intro q c hq h0
  simp only [Shape.openPage, count] at hq h0 ⊢
  by_cases hqp : q = p
  · subst hqp
    have hcc : cls = c := by simpa using hq
    subst hcc
    simp
  · rw [update_of_ne hqp] at hq
    rw [update_of_ne hqp, update_of_ne hqp] at h0
    have hcc : c ≠ cls := by
      rintro rfl
      obtain ⟨t, ht⟩ := hT.list_eq hS hq h0
      rw [hl] at ht
      cases ht
    rw [update_of_ne hcc]
    exact hT q c hq h0

theorem Tidy.openRun {n : ℕ} : (S.openRun p n).Tidy :=
  hT.congr rfl rfl rfl fun q c hq => by
    simp only [Shape.openRun] at hq
    split at hq
    · cases hq
    · split at hq
      · cases hq
      · exact hq

/-- An allocation whose reclaim strands no page keeps a shape tidy. -/
theorem Tidy.allots {size : ℕ} (hS : S.WF known)
    (hclean : (size ≤ 2048 → S.freed (sizeClass size) = [] ∧ S.list (sizeClass size) = []) →
      S.CleanFrom 1 20) (h : S.Allots size b S') : S'.Tidy := by
  obtain ⟨bytes, hle, hcls, h⟩ := h
  obtain ⟨hwf, -, -⟩ := hS.reclaimed
  cases h with
  | freed hc hl => exact hT.congr rfl rfl rfl fun _ _ h => h
  | slot hc hn hs =>
    rename_i cls p T
    have hsmall : size ≤ 2048 := hle.trans hc.facts.2.1
    obtain rfl : cls = sizeClass size :=
      bytesOf_injective hc (sizeClass_facts hsmall).1 (hcls hsmall)
    obtain ⟨⟨t, hl⟩, ⟨k, hk⟩, -⟩ := hs.facts hS hc
    refine Tidy.pop ?_ hk hc hl
    cases hs with
    | head => exact hT
    | reclaimed hnil => exact hT.reclaimed hS (hclean fun _ => ⟨hn, hnil⟩)
    | opened hnil hl' hT' hwf' hp =>
      obtain ⟨k', hk'⟩ := hwf'
      exact ((hT.reclaimed hS (hclean fun _ => ⟨hn, hnil⟩)).retabled hT').openPage hk'
        (by rw [hT'.list, hl'])
  | run hn hT' hp =>
    rename_i p n T
    have hbig : ¬size ≤ 2048 := by
      intro hsmall
      have h₁ := hcls hsmall
      have h₂ := (sizeClass_facts hsmall).1.facts.2.1
      unfold PAGE at h₁
      omega
    exact ((hT.reclaimed hS (hclean fun h => absurd h hbig)).retabled hT').openRun

end

/-- **One step** that strands no page keeps a shape tidy. -/
theorem Step.tidy {op : Op} (hstep : S.Step op S') (hT : S.Tidy) (hS : S.WF known)
    (hclean : S.Clean op) : S'.Tidy := by
  cases hstep with
  | alloc h => exact hT.allots hS hclean h
  | allocClass h => exact hT.allots hS hclean h
  | freeBlock hk => exact hT.release hS hclean
  | freeRun hk => exact hT.release hS (hclean rfl)
  | freeClass => exact hT.congr rfl rfl rfl fun _ _ h => h
  | reclaim => exact hT.reclaimed hS hclean
  | grow => exact hT
  | write => exact hT

/-! ### Every block freed -/

/-- With no live block and no freed one, every page is free, static or an empty small page. -/
theorem WF.empty (hS : S.WF known) (hlive : ∀ b, ¬S.Live b) (hfreed : ∀ c, IsClass c → S.freed c = [])
    (p : ℕ) : S.entry p = .free ∨ S.entry p = .static ∨
      ∃ c, S.entry p = .small c ∧ S.count p = 0 := by
  have hrun : ∀ q n, S.entry q ≠ .run n := by
    intro q n he
    have hdiv : q * PAGE / PAGE = q := Nat.mul_div_cancel q (by decide)
    exact hlive (q * PAGE) (Or.inr ⟨n, by rw [hdiv, he], by rw [hdiv]⟩)
  cases he : S.entry p with
  | free => exact Or.inl rfl
  | static => exact Or.inr (Or.inl rfl)
  | run n => exact absurd he (hrun p n)
  | rest q =>
    obtain ⟨n, hn, -⟩ := hS.rest_run p q he
    exact absurd hn (hrun q n)
  | small c =>
    refine Or.inr (Or.inr ⟨c, rfl, ?_⟩)
    have hc := hS.isClass p c he
    -- every carved slot is on the free list
    have hsub : (List.range (S.carved p)).map (slotAt p c) ⊆ S.free p := by
      intro b hb
      obtain ⟨k, hk, rfl⟩ := mem_map.mp hb
      have hslot : IsSlot p c (S.carved p) (slotAt p c k) := ⟨k, List.mem_range.mp hk, rfl⟩
      have hdiv := hslot.div hc (hS.carved_le p c he)
      by_contra hnot
      refine hlive (slotAt p c k) (Or.inl ⟨c, ?_, ?_, ?_, ?_⟩)
      · rw [hdiv, he]
      · rwa [hdiv]
      · rwa [hdiv]
      · rw [hfreed c hc]
        exact not_mem_nil
    have hnd : ((List.range (S.carved p)).map (slotAt p c)).Nodup :=
      nodup_range.map_on fun _ _ _ _ h => slotAt_injective hc h
    have hlen := (List.Nodup.subperm hnd hsub).length_le
    rw [length_map, length_range] at hlen
    exact Nat.sub_eq_zero_of_le hlen

theorem static_of_release {q : ℕ} (h : (S.release b).entry q = .static) : S.entry q = .static := by
  unfold Shape.release freeRun giveSlot at h
  split at h
  · dsimp only at h
    split at h
    · cases h
    · exact h
  · split at h
    · by_cases hq : q = b / PAGE
      · subst hq
        simp at h
      · simpa only [update_of_ne hq] using h
    · split at h <;> exact h
  · exact h

theorem static_of_releaseAll {q : ℕ} : ∀ {l : List ℕ} {S : Shape},
    (S.releaseAll l).entry q = .static → S.entry q = .static
  | [], _, h => h
  | _ :: _, _, h => static_of_release (static_of_releaseAll h)

theorem static_of_reclaimFrom {q : ℕ} : ∀ (left : ℕ) {cls : ℕ} {S : Shape},
    (S.reclaimFrom cls left).entry q = .static → S.entry q = .static
  | 0, _, _, h => h
  | left + 1, _, S, h => static_of_releaseAll (S := S.clearFreed _) (static_of_reclaimFrom left h)

theorem static_of_reclaimed {q : ℕ} (h : S.reclaimed.entry q = .static) : S.entry q = .static := by
  unfold Shape.reclaimed at h
  exact static_of_reclaimFrom 20 h

end Shape

/-! ### Retained pages in memory -/

namespace World

/-- The page `p` is a small page of class `c` that counts no live block. -/
structure EmptyPage (w : World) (p c : ℕ) : Prop where
  isClass : IsClass c
  known : p < w.heap.known
  entry : w.heap.view (.entry p) = SMALL + c
  live : w.heap.view (.live p) = 0

/-- Every empty page heads its class's list. -/
def Tidy (w : World) : Prop := ∀ p c, w.EmptyPage p c → w.heap.view (.head c) = p * PAGE

/-- The step `op` strands no page in the shape that `w` stands for. -/
def Clean (w : World) (op : Op) : Prop := ∀ S, Stands w S → S.Clean op

end World

section Retention

variable {build : Build} {w₀ w : World} {S : Shape} {p c : ℕ}

theorem Entry.small_of_code {e : Entry} (hc : IsClass c) (h : e.code = SMALL + c) :
    e = .small c := by
  have h1 := hc.1
  have h2 := hc.2
  cases e <;> simp only [Entry.code, SMALL, RUN, REST] at h <;> first | omega | congr 1; omega

theorem Inv.emptyPage_iff (hI : Inv S w.heap) : w.EmptyPage p c ↔
    S.entry p = .small c ∧ S.count p = 0 := by
  constructor
  · rintro ⟨hc, hk, he, hl⟩
    have hsmall := Entry.small_of_code hc ((hI.rep.entry p hk).symm.trans he)
    exact ⟨hsmall, (hI.rep.live p c hsmall).symm.trans hl⟩
  · rintro ⟨he, h0⟩
    have hk := hI.wf.lt_known (p := p) (by rw [he]; exact Entry.noConfusion)
    refine ⟨hI.wf.isClass p c he, hk, ?_, (hI.rep.live p c he).trans h0⟩
    rw [hI.rep.entry p hk, he]
    rfl

theorem Stands.tidy (hw : Stands w S) (hT : S.Tidy) : w.Tidy := by
  intro p c hp
  cases hw with
  | fresh hF hb hK =>
    have := hp.known
    rw [hF.known] at this
    omega
  | ready hI hK hB =>
    obtain ⟨he, h0⟩ := hI.emptyPage_iff.mp hp
    rw [hI.rep.head c hp.isClass, hT p c he h0, Nat.mul_comm]

theorem Stands.wf (hw : Stands w S) : ∃ known, S.WF known := by
  cases hw with
  | fresh => exact ⟨0, Shape.blank_wf 0⟩
  | ready hI => exact ⟨_, hI.wf⟩

/-- Every world that a run reaches with no page stranded stands for a tidy shape. -/
theorem tidy_of_run (h₀ : w₀.Initial)
    (hrun : Runs build (fun w op => op.Fits build ∧ w.Clean op) w₀ w) :
    ∃ S, Stands w S ∧ S.Tidy := by
  refine hrun.invariant (I := fun w => ∃ S, Stands w S ∧ S.Tidy)
    ⟨_, h₀.stands, fun p c he => by cases he⟩ ?_
  rintro w op w' ⟨S, hS, hT⟩ ⟨hfits, hclean⟩ hstep
  obtain ⟨S', hSS', hS', -⟩ := step_refines hS hstep hfits
  obtain ⟨known, hwf⟩ := hS.wf
  exact ⟨S', hS', hSS'.tidy hT hwf (hclean S hS)⟩

end Retention

theorem Shape.cleanFrom_of_freed_nil : ∀ (left : ℕ) {cls : ℕ} {S : Shape},
    (S.freed = fun _ => []) → S.CleanFrom cls left
  | 0, _, _, _ => trivial
  | left + 1, cls, S, hf => by
    have hnil : S.freed cls = [] := congrFun hf cls
    have hclass : S.reclaimClass cls = S.clearFreed cls := by
      rw [Shape.reclaimClass, hnil]
      rfl
    refine ⟨by rw [hnil]; trivial, Shape.cleanFrom_of_freed_nil left ?_⟩
    rw [hclass, Shape.clearFreed, hf]
    exact update_eq_self _ _

section Stranded

variable {w : World} {S S' : Shape} {p b n : ℕ}

/-- The world has handed out `n` blocks of 2048 bytes, all of them in the page `p`. -/
structure Filled (w : World) (S : Shape) (p n : ℕ) : Prop where
  inv : Inv S w.heap
  clear : Clear S w.heap (w.rest S)
  holds : Holds w S
  entry : S.entry p = .small 20
  carved : S.carved p = n
  free : S.free p = []
  list : S.list 20 = if n < 31 then [p] else []
  freed : S.freed = fun _ => []
  room : ¬w.heap.NoRoom 1

theorem Stands.ready_of_small (hw : Stands w S) (he : S.entry p = .small n) :
    Inv S w.heap ∧ Clear S w.heap (w.rest S) ∧ Holds w S := by
  cases hw with
  | fresh => cases he
  | ready hI hK hB => exact ⟨hI, hK, hB⟩

/-- A block for 2048 bytes when the class has no page with room: a page is opened for it. -/
theorem opened_of_allots (h : S.Allots 2048 b S') (hl : S.list 20 = []) (hf : S.freed = fun _ => []) :
    ∃ T p, S.Retabled T ∧ T.entry p = .free ∧ S' = (T.openPage p 20).pop p 20 := by
  have hrec : S.reclaimed = S := Shape.reclaimed_of_freed_nil fun c => congrFun hf c
  obtain ⟨bytes, -, hcls, h⟩ := h
  have hbytes : bytes = 2048 := hcls (le_refl _)
  cases h with
  | freed hc hl' => rw [hf] at hl'; cases hl'
  | run hn =>
    unfold PAGE at hbytes
    omega
  | slot hc hn hs =>
    obtain rfl := bytesOf_injective hc (by decide : IsClass 20) hbytes
    cases hs with
    | head hl' => rw [hl] at hl'; cases hl'
    | reclaimed _ hl' => rw [hrec, hl] at hl'; cases hl'
    | opened _ _ hT _ hp => exact ⟨_, _, hrec ▸ hT, hp, rfl⟩

/-- A block for 2048 bytes when the class has a page with room. -/
theorem pop_of_allots (h : S.Allots 2048 b S') (hl : S.list 20 = [p]) (hf : S.freed = fun _ => []) :
    S' = S.pop p 20 := by
  obtain ⟨bytes, -, hcls, h⟩ := h
  have hbytes : bytes = 2048 := hcls (le_refl _)
  cases h with
  | freed hc hl' => rw [hf] at hl'; cases hl'
  | run hn =>
    unfold PAGE at hbytes
    omega
  | slot hc hn hs =>
    obtain rfl := bytesOf_injective hc (by decide : IsClass 20) hbytes
    cases hs with
    | head hl' => rw [hl] at hl'; cases hl'; rfl
    | reclaimed hl' => rw [hl] at hl'; cases hl'
    | opened hl' => rw [hl] at hl'; cases hl'

/-- The page `p` with no free slot hands its next slot out. -/
theorem pop_facts (hf : S.free p = []) (hl : S.list 20 = [p]) (hn : S.carved p = n) (hlt : n < 31) :
    (S.pop p 20).entry = S.entry ∧ (S.pop p 20).free = S.free ∧ (S.pop p 20).freed = S.freed ∧
      (S.pop p 20).carved p = n + 1 ∧ (∀ q, q ≠ p → (S.pop p 20).carved q = S.carved q) ∧
      (S.pop p 20).list 20 = if n + 1 < 31 then [p] else [] := by
  have htake : S.takeSlot p = { S with carved := Function.update S.carved p (n + 1) } := by
    rw [Shape.takeSlot, if_pos hf, hn]
  have hfull : (S.takeSlot p).Full p 20 ↔ ¬n + 1 < 31 := by
    have hslots : slotsOf 20 = 31 := by decide
    rw [htake, Shape.Full, hslots]
    simp only [hf, update_self, true_and]
    omega
  unfold Shape.pop
  split
  · next h =>
    rw [if_neg (hfull.mp h), htake, hl]
    refine ⟨rfl, rfl, rfl, update_self _ _ _, fun q hq => update_of_ne hq _ _, ?_⟩
    simp
  · next h =>
    rw [if_pos (not_not.mp (mt hfull.mpr h)), htake]
    exact ⟨rfl, rfl, rfl, update_self _ _ _, fun q hq => update_of_ne hq _ _, hl⟩

theorem opened_facts {T : Shape} (hT : S.Retabled T) :
    ((T.openPage p 20).pop p 20).entry = Function.update T.entry p (.small 20) ∧
      ((T.openPage p 20).pop p 20).carved p = 1 ∧ ((T.openPage p 20).pop p 20).free p = [] ∧
      ((T.openPage p 20).pop p 20).list 20 = [p] ∧ ((T.openPage p 20).pop p 20).freed = S.freed ∧
      ∀ q, q ≠ p → ((T.openPage p 20).pop p 20).carved q = S.carved q ∧
        ((T.openPage p 20).pop p 20).free q = S.free q := by
  obtain ⟨h₁, h₂, h₃, h₄, h₅, h₆⟩ := pop_facts (S := T.openPage p 20) (p := p) (n := 0)
    (by simp [Shape.openPage]) (by simp [Shape.openPage]) (by simp [Shape.openPage]) (by decide)
  refine ⟨h₁, h₄, ?_, h₆, h₃.trans hT.freed, fun q hq => ⟨?_, ?_⟩⟩
  · rw [h₂]
    exact update_self _ _ _
  · rw [h₅ q hq]
    exact (update_of_ne hq _ _).trans (congrFun hT.carved q)
  · rw [h₂]
    exact (update_of_ne hq _ _).trans (congrFun hT.free q)

theorem filled_first : ∃ w S p, Runs .release (fun _ op => op.Fits .release) small w ∧
    Filled w S p 1 := by
  obtain ⟨b, h, hrun, hp, hc, hl⟩ := small_alloc
  have hfits : (Op.alloc 2048).Fits .release := fun _ => by decide
  have hstep : Step .release small (.alloc 2048) ⟨h, [⟨b, 2048⟩], small.foreign⟩ :=
    .alloc (by decide) hrun
  obtain ⟨S, hstepS, hS, -⟩ := step_refines small_initial.stands hstep hfits
  cases hstepS with
  | alloc hall =>
    obtain ⟨T, p, hT, hfree, rfl⟩ := opened_of_allots hall rfl rfl
    obtain ⟨h₁, h₂, h₃, h₄, h₅, -⟩ := opened_facts (p := p) hT
    have he : ((T.openPage p 20).pop p 20).entry p = .small 20 := by
      rw [h₁]
      exact update_self _ _ _
    refine ⟨_, (T.openPage p 20).pop p 20, p, .tail (.refl small) hfits hstep, ?_⟩
    obtain ⟨hI, hK, hB⟩ := hS.ready_of_small he
    refine ⟨hI, hK, hB, he, h₂, h₃, h₄, h₅, ?_⟩
    unfold Heap.NoRoom
    dsimp only
    omega

theorem Filled.next (hw : Filled w S p n) (hn : n < 31) :
    ∃ w' S', Step .release w (.alloc 2048) w' ∧ Filled w' S' p (n + 1) := by
  have hl : S.list 20 = [p] := by rw [hw.list, if_pos hn]
  have hspec : Ensures (fun _ => False) (alloc .release 2048)
      (Gives S (w.rest S) w.heap 2048) w.heap := by
    refine alloc_spec (fun hE => ?_) (fun h _ => absurd rfl h) hw.inv hw.clear fun _ => by decide
    have := (hE (le_refl _)).1
    rw [show sizeClass 2048 = 20 by decide, hl] at this
    cases this
  obtain ⟨b, h, hrun, hg⟩ := hspec.exists_run
  have hvars : SameVars w.heap h := by
    obtain ⟨-, -, -, -, -, -, -, -, hsame⟩ := hg
    refine hsame (le_refl _) ?_
    rw [show sizeClass 2048 = 20 by decide, hl]
    exact cons_ne_nil _ _
  obtain ⟨S', hall, hS, -⟩ := Stands.handed hw.inv.wf hw.holds hg
  obtain rfl := pop_of_allots hall hl hw.freed
  obtain ⟨h₁, h₂, h₃, h₄, -, h₆⟩ := pop_facts hw.free hl hw.carved hn
  have he : (S.pop p 20).entry p = .small 20 := by rw [h₁, hw.entry]
  obtain ⟨hI, hK, hB⟩ := hS.ready_of_small he
  refine ⟨_, S.pop p 20, .alloc (by decide) hrun,
    ⟨hI, hK, hB, he, h₄, by rw [h₂, hw.free], h₆, h₃.trans hw.freed, ?_⟩⟩
  have hroom := hw.room
  unfold Heap.NoRoom at hroom ⊢
  dsimp only
  rw [hvars.pages, hvars.limit, hvars.capacity]
  exact hroom

theorem filled_run : ∀ n, n < 31 → ∃ w S p, Runs .release (fun _ op => op.Fits .release) small w ∧
    Filled w S p (n + 1)
  | 0, _ => filled_first
  | n + 1, hn => by
    obtain ⟨w, S, p, hrun, hw⟩ := filled_run n (by omega)
    obtain ⟨w', S', hstep, hw'⟩ := hw.next (by omega)
    have hfits : (Op.alloc 2048).Fits .release := fun _ => by decide
    exact ⟨w', S', p, .tail hrun hfits hstep, hw'⟩

/-- Frees the program's block that is slot 0 of the small page `p`. -/
theorem Stands.free_slot (hw : Stands w S) (he : S.entry p = .small 20) (hpos : 0 < S.carved p)
    (hfree : S.free p = []) (hfreed : S.freed = fun _ => []) :
    ∃ w' op, op.Fits .release ∧ Step .release w op w' ∧
      Stands w' (S.giveSlot p 20 (slotAt p 20 0)) := by
  obtain ⟨hI, hK, hB⟩ := hw.ready_of_small he
  have hslot : IsSlot p 20 (S.carved p) (slotAt p 20 0) := ⟨0, hpos, rfl⟩
  have hdiv := hslot.div (by decide) (hI.wf.carved_le p 20 he)
  have hlive : S.Live (slotAt p 20 0) := by
    refine Or.inl ⟨20, ?_, ?_, ?_, ?_⟩
    · rw [hdiv, he]
    · rwa [hdiv]
    · rw [hdiv, hfree]
      exact not_mem_nil
    · rw [hfreed]
      exact not_mem_nil
  obtain ⟨k, hk, hka⟩ := (hB.live _).mp hlive
  obtain ⟨hK', hbK⟩ := Stands.without hI hK hB hk
  obtain ⟨_, h, hrun, -⟩ := (freeBlock_spec (E := fun _ => False) hI hK'
    (hka ▸ hlive : S.Live k.address) hbK).exists_run
  have hstep : Step .release w (.freeBlock k) ⟨h, w.blocks.erase k, w.foreign⟩ := .freeBlock hk hrun
  obtain ⟨S', hS', hst, -⟩ := step_refines (.ready hI hK hB) hstep trivial
  refine ⟨_, .freeBlock k, trivial, hstep, ?_⟩
  cases hS' with
  | freeBlock =>
    have hrel : S.release k.address = S.giveSlot p 20 (slotAt p 20 0) := by
      rw [hka, Shape.release, hdiv, he]
    rwa [hrel] at hst

end Stranded

end Alloc

end HdLang
