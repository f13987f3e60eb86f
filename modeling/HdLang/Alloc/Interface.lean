import HdLang.Alloc.Allocate

/-!
# The allocator's functions

The specifications of the functions of `std.rt.alloc` that the rest of a program calls: `alloc` and
`alloc_class` hand a block out, also as the first allocation of the program, and `block_of` and
`block_bytes` look blocks up. Those of the functions that free are in `HdLang.Alloc.Free`.
-/

namespace HdLang

open ByteMem Function Ensures List Nat

namespace Alloc

open PointerList

/-! ### The first allocation -/

/-- The heap before the first allocation. -/
structure Fresh (h : Heap) : Prop where
  table : h.table = 0
  known : h.known = 0
  pages_pos : 0 < h.pages
  pages_limit : h.pages ≤ h.limit
  limit_le : h.limit ≤ 65536

/-- The shape of a heap with no page of the allocator's but the table's. -/
def Shape.blank : Shape := ⟨fun _ => .static, fun _ => 0, fun _ => [], fun _ => [], fun _ => []⟩

theorem Shape.blank_wf (known : ℕ) : Shape.blank.WF known where
  beyond _ _ := rfl
  zero := rfl
  isClass _ _ h := Entry.noConfusion h
  run_pos _ _ h := Entry.noConfusion h
  run_rest _ _ h := Entry.noConfusion h
  rest_run _ _ h := Entry.noConfusion h
  carved_le _ _ h := Entry.noConfusion h
  free_nodup _ _ _ := nodup_nil
  free_slot _ _ h := Entry.noConfusion h
  list_nodup _ _ := nodup_nil
  mem_list _ _ p := by simp [blank]
  freed_nodup _ _ := nodup_nil
  freed_slot _ _ b hb := absurd hb not_mem_nil

theorem Shape.not_live_blank (b : ℕ) : ¬Shape.blank.Live b := by
  rintro (⟨c, h, -⟩ | ⟨n, h, -⟩) <;> cases h

section Start

variable {E : Stop → Prop} {h : Heap} {K : Rest}

/-- Storing a table of words sets its cells, here `mk c` on. -/
theorem Tracks.storeWords {S : Shape} {h₀ : Heap} {mk : ℕ → Cell} (hL : Layout S h₀)
    (hK : Clear S h₀ K) (hmk : mk = .size ∨ mk = .reciprocal) {Q : Unit → Heap → Prop} :
    ∀ {values : List ℕ} {c : ℕ} {h : Heap} {f : Cell → ℕ}, Tracks S K h₀ h f → 1 ≤ c →
      c + values.length ≤ 21 → (∀ v ∈ values, v < USIZE) →
      (∀ h' g, Tracks S K h₀ h' g → (∀ cell, (∀ k, cell ≠ mk k) → g cell = f cell) →
        (∀ k < c, g (mk k) = f (mk k)) →
        (∀ i < values.length, g (mk (c + i)) = values.getD i 0) → Q () h') →
      Ensures E (Alloc.storeWords ((mk c).addr h₀.table) values) Q h := by
  intro values
  induction values with
  | nil =>
    intro c h f ht _ _ _ hQ
    unfold Alloc.storeWords
    rw [pure_iff]
    exact hQ h f ht (fun _ _ => rfl) (fun _ _ => rfl) (by simp)
  | cons v values ih =>
    intro c h f ht h1 h21 hlt hQ
    rw [length_cons] at h21
    have hplaced : Placed S h₀ K (mk c) := by
      rcases hmk with rfl | rfl <;> exact ⟨h1, by omega⟩
    have hw : (mk c).width = 4 := by rcases hmk with rfl | rfl <;> rfl
    have hnext : (mk c).addr h₀.table + 4 = (mk (c + 1)).addr h₀.table := by
      rcases hmk with rfl | rfl <;> simp only [Cell.addr] <;> omega
    have hinj : ∀ k k', mk k = mk k' → k = k' := by
      rcases hmk with rfl | rfl <;> simp
    unfold Alloc.storeWords
    rw [bind_iff]
    refine ht.store32 hL hK (mk c) hplaced hw rfl (hlt v mem_cons_self) fun h₁ ht₁ => ?_
    rw [hnext]
    refine ih ht₁ (by omega) (by omega) (fun x hx => hlt x (mem_cons_of_mem _ hx))
      fun h₂ g ht₂ hcell hlow hval => hQ h₂ g ht₂ (fun cell hne => ?_) (fun k hk => ?_)
        fun i hi => ?_
    · rw [hcell cell hne, update_of_ne (hne c)]
    · rw [hlow k (by omega), update_of_ne (fun h => by have := hinj _ _ h; omega)]
    · cases i with
      | zero => rw [add_zero, hlow c (by omega), update_self, getD_cons_zero]
      | succ i =>
        rw [length_cons] at hi
        rw [getD_cons_succ, ← hval i (by omega), show c + (i + 1) = c + 1 + i by omega]

/-- The heap once `start` has a page for the table. -/
def Heap.tabled (h : Heap) : Heap :=
  { h.grown 1 with
    table := h.pages * PAGE, heap := h.pages * PAGE, capacity := (PAGE - LISTS) / 4 }

theorem Fresh.tabled (hF : Fresh h) (hlim : h.pages + 1 ≤ h.limit)
    (hK : ∀ a ∈ K, a < h.pages * PAGE) (hheld : K.held = ∅) :
    Layout Shape.blank h.tabled ∧ Clear Shape.blank h.tabled K := by
  have hpos := hF.pages_pos
  have hknown := hF.known
  have hcap : (LISTS + 4 * ((PAGE - LISTS) / 4)) % PAGE = 0 := by decide
  refine ⟨⟨Shape.blank_wf _, mul_pos hpos (by decide), mul_mod_left _ _, hcap, ?_, ?_,
    hlim, hF.limit_le, ?_, fun _ _ => rfl⟩, ⟨fun a ha => ⟨rfl, fun hin => ?_⟩, by simp [hheld], fun a ha => ?_⟩⟩
  · change h.known ≤ _
    omega
  · change h.known ≤ h.pages + 1
    omega
  · change h.pages * PAGE + LISTS + 4 * ((PAGE - LISTS) / 4) ≤ (h.pages + 1) * PAGE
    rw [succ_mul]
    simp only [PAGE, LISTS]
    omega
  · have h₁ : h.pages * PAGE ≤ a := hin.1
    have h₂ := hK a (Or.inl ha)
    omega
  · have h₁ := hK a ha
    change a < (h.pages + 1) * PAGE
    rw [succ_mul]
    omega

/-- The words of a page the heap has just grown by are 0. -/
theorem Heap.tabled_view {c : Cell} (hw : c.width = 4) (hp : c.page = none)
    (hr : c.addr h.tabled.table + 4 ≤ h.pages * PAGE + LISTS) : h.tabled.view c = 0 := by
  have haddr : h.pages * PAGE ≤ c.addr h.tabled.table := by
    have htab : h.tabled.table = h.pages * PAGE := rfl
    cases c <;> simp only [Cell.page, reduceCtorEq] at hp <;> rw [htab] <;> simp only [Cell.addr] <;>
      omega
  have hzero : ∀ i < 4, h.tabled.mem (c.addr h.tabled.table + i) = 0 := by
    intro i hi
    refine Mem.fill_of_mem (by omega) ?_
    unfold PAGE LISTS at *
    omega
  rw [Heap.view_word hw]
  exact (Mem.load32_congr (b := 0) hzero : _ = Mem.load32 (fun _ => 0) 0)

/-- Setting entries past the end of the heap stops. -/
theorem setEntries_outOfBounds (hE : E .outOfBounds) {Q : Unit → Heap → Prop} {e : ℕ} :
    ∀ {n p : ℕ} {h : Heap}, h.pages * PAGE < h.table + LISTS + 4 * (p + n) → 0 < n →
      Ensures E (setEntries e p n) Q h := by
  intro n
  induction n with
  | zero => exact fun _ hn => absurd hn (by decide)
  | succ n ih =>
    intro p h hend _
    unfold setEntries setEntry Alloc.store32
    rw [bind_iff, bind_iff, get_iff, bind_iff, get_iff, ite_iff]
    refine ⟨fun hin => ?_, fun _ => throw_iff.mpr hE⟩
    rw [set_iff]
    rcases Nat.eq_zero_or_pos n with rfl | hn
    · omega
    · exact ih (by dsimp only; omega) hn

/-- **The first allocation's set-up** gives a blank heap. It stops when the table's page has no room
for an entry for each page. -/
theorem start_spec (hE : E exhausted) (hF : Fresh h) (hE' : 16256 ≤ h.pages → E .outOfBounds)
    (hK : ∀ a ∈ K, a < h.pages * PAGE) (hheld : K.held = ∅) :
    Ensures E start (fun _ h' => Inv Shape.blank h' ∧ Clear Shape.blank h' K ∧ Extends K h h')
      h := by
  unfold start
  rw [bind_iff]
  refine ensures_growPages (fun _ => hE) fun hlim => ?_
  obtain ⟨hL, hKc⟩ := hF.tabled hlim hK hheld
  have hext : Extends K h h.tabled := ⟨Nat.le_add_right _ _, rfl, fun a ha =>
    Mem.fill_of_notMem (Or.inl (hK a ha))⟩
  rw [bind_iff, modify_iff]
  change Ensures E _ _ h.tabled
  have hpages : h.tabled.pages = h.pages + 1 := rfl
  have hcap : h.tabled.capacity = 16256 := rfl
  have htab : h.tabled.table = h.pages * PAGE := rfl
  have hknown : h.tabled.known = 0 := hF.known
  have hzero := @Heap.tabled_view h
  generalize h.tabled = h₁ at *
  unfold initClasses
  rw [bind_iff, bind_iff, get_iff, bind_iff]
  refine Tracks.storeWords hL hKc (Or.inl (rfl : Cell.size = _)) (Tracks.refl _ K h₁) (Nat.le_refl 1)
    (by decide) (by decide) fun h₂ g₂ ht₂ hcell₂ _ hval₂ => ?_
  refine Tracks.storeWords hL hKc (Or.inr (rfl : Cell.reciprocal = _)) ht₂ (Nat.le_refl 1)
    (by decide) (by decide) fun h₃ g₃ ht₃ hcell₃ _ hval₃ => ?_
  have hI₃ : Inv Shape.blank h₃ := by
    refine ht₃.inv hL hKc (fun _ _ hp => Entry.noConfusion hp) ?_
    constructor
    case toLinked =>
      refine ⟨fun k hk => ?_, fun _ _ _ hp => absurd hp not_mem_nil,
        fun _ _ _ hp => absurd hp not_mem_nil⟩
      rw [hcell₃ _ (by simp), hcell₂ _ (by simp), hzero rfl rfl]
      · rfl
      · have := hk.2
        simp only [Cell.addr, htab, LISTS]
        omega
    case freed =>
      intro k hk
      rw [hcell₃ _ (by simp), hcell₂ _ (by simp), hzero rfl rfl]
      · rfl
      · have := hk.2
        simp only [Cell.addr, htab, LISTS, FREED]
        omega
    case size =>
      intro k hk
      have h₁ := hk.1
      have h₂ := hk.2
      have hlen : sizes.length = 20 := rfl
      rw [hcell₃ _ (by simp), show k = 1 + (k - 1) by omega, hval₂ (k - 1) (by omega)]
      unfold bytesOf
      rw [Nat.add_sub_cancel_left]
    case reciprocal =>
      intro k hk
      have h₁ := hk.1
      have h₂ := hk.2
      have hlen : reciprocals.length = 20 := rfl
      rw [show k = 1 + (k - 1) by omega, hval₃ (k - 1) (by omega), Nat.add_sub_cancel_left]
    case entry => exact fun p hp => by omega
    case first => exact fun _ _ hp => Entry.noConfusion hp
    case live => exact fun _ _ hp => Entry.noConfusion hp
    case bump => exact fun _ _ hp => Entry.noConfusion hp
    case linkFree => exact fun _ _ hp => Entry.noConfusion hp
    case linkFreed => exact fun _ _ _ hb => absurd hb not_mem_nil
  have hK₃ := hKc.of_sameVars ht₃.vars
  have hv := ht₃.vars
  rw [bind_iff]
  by_cases hroom : h.pages + 1 ≤ 16256
  · have hclaim : Claimable Shape.blank h₃ K h.pages 1 .static :=
      ⟨Or.inr rfl, fun _ _ _ => rfl, by rw [hv.capacity]; omega, by rw [hv.pages]; omega,
        Or.inl rfl, Or.inl rfl⟩
    refine (claim_spec hI₃ hK₃ hclaim).mono fun _ h₄ hclaimed => ?_
    obtain ⟨hI₄, hK₄, hkept₄, hp₄, hl₄, -⟩ := hclaimed
    have hblank : Shape.blank.retable h.pages 1 .static = Shape.blank := by
      simp [Shape.retable, Shape.blank]
    rw [hblank] at hI₄ hK₄
    rw [modify_iff]
    refine ⟨hI₄.of_mem_eq ⟨rfl, rfl, rfl, rfl, rfl⟩ rfl, hK₄.of_sameVars ⟨rfl, rfl, rfl, rfl, rfl⟩,
      hext.trans (ht₃.frame.extends.trans ⟨Nat.le_of_eq hp₄.symm, hl₄, hkept₄⟩)⟩
  · have hend : h₃.pages * PAGE < h₃.table + LISTS + 4 * (h.pages + 1) := by
      rw [hv.pages, hv.table, hpages, htab, Nat.succ_mul]
      simp only [PAGE, LISTS]
      omega
    have hstop := hE' (by omega)
    unfold claim
    rw [bind_iff, get_iff, bind_iff]
    have hk₃ : h₃.known = 0 := hv.known.trans hknown
    rw [hk₃, Nat.sub_zero]
    by_cases hin : 0 + h.pages ≤ 16256
    · refine Tracks.setEntries hI₃.toLayout hK₃ (by decide) (Tracks.refl _ K h₃)
        (by rw [hv.capacity]; omega) fun h₄ ht₄ => ?_
      rw [bind_iff]
      refine setEntries_outOfBounds hstop ?_ (by decide)
      rw [ht₄.vars.pages, ht₄.vars.table]
      exact hend
    · refine setEntries_outOfBounds hstop ?_ (by omega)
      rw [hv.pages, hv.table, hpages, htab, Nat.succ_mul]
      simp only [PAGE, LISTS]
      omega

end Start

/-! ### Handing a block out -/

section Allocation

variable {E : Stop → Prop} {S : Shape} {h : Heap} {K : Rest} {build : Build} {size : ℕ}

/-- An allocation of `size` bytes gives `b` and the heap `h'`. -/
def Gives (S : Shape) (K : Rest) (h : Heap) (size b : ℕ) (h' : Heap) : Prop :=
  ∃ bytes S', size ≤ bytes ∧ (size ≤ 2048 → bytes = bytesOf (sizeClass size)) ∧
    Handed S b bytes S' ∧ Inv S' h' ∧ Clear S' h' K ∧ Extends K h h' ∧
    (size ≤ 2048 → S.list (sizeClass size) ≠ [] → SameVars h h')

/-- The most bytes whose count of pages a release build computes right. -/
def LARGEST : ℕ := 4294901760

/-- A build that checks its arithmetic may stop at an overflow of the page count. -/
def MayOverflow (E : Stop → Prop) (build : Build) (size : ℕ) : Prop :=
  build ≠ .release → USIZE ≤ size + PAGE → E overflow

/-- The pages of a run hold its bytes, unless their count wraps. -/
theorem allocRun_spec (hE : E exhausted) (hO : MayOverflow E build size) (hI : Inv S h)
    (hK : Clear S h K) (hbig : 2048 < size) (hfits : build = .release → size ≤ LARGEST) :
    Ensures E (allocRun build size) (Gives S K h size) h := by
  have hrun : ∀ {n : ℕ}, size ≤ n * PAGE → 1 ≤ n → Ensures E (do
      reclaim
      let first ← take n
      setEntry first (RUN + n)
      setEntries (REST + first) (first + 1) (n - 1)
      pure (first * PAGE)) (Gives S K h size) h := by
    intro n hn hpos
    refine (openRun_spec hE hI hK hpos).mono fun b h' ⟨S', hS', hI', hK', hext⟩ => ?_
    exact ⟨_, S', hn, fun hle => absurd hle (by omega), hS', hI', hK', hext,
      fun hle => absurd hle (by omega)⟩
  unfold allocRun
  rw [bind_iff]
  refine ensures_plus (a := size) (b := PAGE) (fun hlt => ?_) (fun hge hrel => ?_)
    fun hge hrel => hO hrel hge
  · rw [bind_iff]
    refine ensures_minus (fun _ => ?_) (fun hlt' => ?_) fun hlt' => ?_
    · refine hrun ?_ ?_ <;> unfold PAGE <;> omega
    · unfold PAGE at hlt'
      omega
    · unfold PAGE at hlt'
      omega
  · -- the sum wraps to 0 at the largest size, and the difference back
    have hsize : size = LARGEST := by
      have := hfits hrel
      unfold LARGEST USIZE PAGE at *
      omega
    subst hsize
    rw [bind_iff]
    refine ensures_minus (fun hle => ?_) (fun _ _ => ?_) fun _ hrel' => absurd hrel hrel'
    · exact absurd hle (by decide)
    · exact hrun (by decide) (by decide)

theorem alloc_ready (hE : (size ≤ 2048 → S.list (sizeClass size) = [] ∧ h.NoRoom 1) → E exhausted)
    (hO : MayOverflow E build size) (hI : Inv S h) (hK : Clear S h K)
    (hfits : build = .release → size ≤ LARGEST) :
    Ensures E (if size > 2048 then allocRun build size else do
      let cls ← classOf size
      allocSmall cls) (Gives S K h size) h := by
  rw [ite_iff]
  refine ⟨fun hbig => allocRun_spec (hE fun hle => absurd hle (Nat.not_le_of_lt hbig)) hO hI hK hbig
    hfits, fun hsmall => ?_⟩
  have hle : size ≤ 2048 := Nat.le_of_not_lt hsmall
  obtain ⟨hc, hbytes⟩ := sizeClass_facts hle
  rw [bind_iff]
  refine (classOf_spec hI hle).mono fun cls h₁ ⟨hcls, hh⟩ => ?_
  subst hcls hh
  refine (allocSmall_spec (fun hl hr => hE fun _ => ⟨hl, hr⟩) hI hK hc).mono
    fun b h' ⟨S', hS', hI', hK', hext, hsame⟩ => ?_
  exact ⟨_, S', hbytes, fun _ => rfl, hS', hI', hK', hext, fun _ => hsame⟩

/-- **`alloc`** in a heap with a table. -/
theorem alloc_spec (hE : (size ≤ 2048 → S.list (sizeClass size) = [] ∧ h.NoRoom 1) → E exhausted)
    (hO : MayOverflow E build size) (hI : Inv S h) (hK : Clear S h K)
    (hfits : build = .release → size ≤ LARGEST) :
    Ensures E (alloc build size) (Gives S K h size) h := by
  have htab : h.table ≠ 0 := pos_iff_ne_zero.mp hI.table_pos
  unfold alloc
  rw [bind_iff, get_iff, if_neg htab]
  exact alloc_ready hE hO hI hK hfits

/-- **`alloc`** as the program's first allocation. -/
theorem alloc_first (hE : E exhausted) (hF : Fresh h) (hE' : 16256 ≤ h.pages → E .outOfBounds)
    (hO : MayOverflow E build size) (hK : ∀ a ∈ K, a < h.pages * PAGE) (hheld : K.held = ∅)
    (hfits : build = .release → size ≤ LARGEST) :
    Ensures E (alloc build size) (Gives Shape.blank K h size) h := by
  unfold alloc
  rw [bind_iff, get_iff, if_pos hF.table, bind_iff]
  refine (start_spec hE hF hE' hK hheld).mono fun _ h₁ ⟨hI₁, hK₁, hext₁⟩ => ?_
  refine (alloc_ready (fun _ => hE) hO hI₁ hK₁ hfits).mono
    fun b h' ⟨bytes, S', hle, hcls, hS', hI', hK', hext, _⟩ => ?_
  exact ⟨bytes, S', hle, hcls, hS', hI', hK', hext₁.trans hext, fun _ hl => absurd rfl hl⟩

/-- `cls` is what a caller of `alloc_class` may give for a block of `size` bytes. -/
def ClassFor (size cls : ℕ) : Prop := cls = 0 ∨ size ≤ 2048 ∧ cls = sizeClass size

/-- **`alloc_class`** in a heap with a table. -/
theorem allocClass_spec {cls : ℕ} (hE : E exhausted) (hO : MayOverflow E build size) (hI : Inv S h)
    (hK : Clear S h K) (hcls : ClassFor size cls) (hfits : build = .release → size ≤ LARGEST) :
    Ensures E (allocClass build size cls) (Gives S K h size) h := by
  have htab : h.table ≠ 0 := pos_iff_ne_zero.mp hI.table_pos
  unfold allocClass
  rcases hcls with rfl | ⟨hle, rfl⟩
  · rw [if_pos rfl]
    exact alloc_spec (fun _ => hE) hO hI hK hfits
  · obtain ⟨hc, hbytes⟩ := sizeClass_facts hle
    rw [if_neg hc.ne_zero, bind_iff, get_iff, if_neg htab]
    refine (allocSmall_spec (fun _ _ => hE) hI hK hc).mono
      fun b h' ⟨S', hS', hI', hK', hext, hsame⟩ => ?_
    exact ⟨_, S', hbytes, fun _ => rfl, hS', hI', hK', hext, fun _ => hsame⟩

/-- **`alloc_class`** as the program's first allocation. -/
theorem allocClass_first {cls : ℕ} (hE : E exhausted) (hF : Fresh h)
    (hE' : 16256 ≤ h.pages → E .outOfBounds) (hO : MayOverflow E build size)
    (hK : ∀ a ∈ K, a < h.pages * PAGE) (hheld : K.held = ∅) (hcls : ClassFor size cls)
    (hfits : build = .release → size ≤ LARGEST) :
    Ensures E (allocClass build size cls) (Gives Shape.blank K h size) h := by
  unfold allocClass
  rcases hcls with rfl | ⟨hle, rfl⟩
  · rw [if_pos rfl]
    exact alloc_first hE hF hE' hO hK hheld hfits
  · obtain ⟨hc, hbytes⟩ := sizeClass_facts hle
    rw [if_neg hc.ne_zero, bind_iff, get_iff, if_pos hF.table, bind_iff]
    refine (start_spec hE hF hE' hK hheld).mono fun _ h₁ ⟨hI₁, hK₁, hext₁⟩ => ?_
    refine (allocSmall_spec (fun _ _ => hE) hI₁ hK₁ hc).mono
      fun b h' ⟨S', hS', hI', hK', hext, _⟩ => ?_
    exact ⟨_, S', hbytes, fun _ => rfl, hS', hI', hK', hext₁.trans hext, fun _ hl => absurd rfl hl⟩

end Allocation

/-! ### Looking blocks up -/

/-- The reciprocal of a class's bytes gives the quotient of every offset in a page. -/
theorem reciprocal_exact {c k r : ℕ} (hc : IsClass c) (hr : r < bytesOf c)
    (hlt : k * bytesOf c + r < PAGE) :
    ((k * bytesOf c + r) * reciprocals.getD (c - 1) 0) >>> 32 = k := by
  obtain ⟨h₁, h₂⟩ := hc
  rw [shiftRight_eq_div_pow]
  unfold PAGE at hlt
  interval_cases c <;> simp only [bytesOf, sizes, reciprocals, getD_cons_succ, getD_cons_zero,
    reduceSub] at hr hlt ⊢ <;> omega

section Lookup

variable {E : Stop → Prop} {S : Shape} {h : Heap} {a b : ℕ}

/-- **`block_bytes`** gives the bytes of a live block. -/
theorem blockBytes_spec (hI : Inv S h) (hb : S.Live b) :
    Ensures E (blockBytes b) (fun r h' => r = S.size b ∧ h' = h) h := by
  have hL := hI.toLayout
  have ht := Tracks.refl S ∅ h
  have hns : S.entry (b / PAGE) ≠ .static := by
    rcases hb with ⟨c, he, -⟩ | ⟨n, he, -⟩ <;> rw [he] <;> exact Entry.noConfusion
  have hlt := hL.page_lt hns
  unfold blockBytes
  rw [bind_iff]
  refine ht.entryAt hL hlt.1 ?_
  rw [hI.rep.entry _ hlt.2.1]
  rcases hb with ⟨c, he, -⟩ | ⟨n, he, -⟩
  · have hc := hL.wf.isClass _ _ he
    obtain ⟨hkind, -, hlow⟩ := Entry.code_small hc
    rw [he, if_neg (by omega), hlow]
    refine ht.classBytes hL hc ?_
    exact ⟨by rw [hI.rep.size c hc]; simp only [Shape.size, he], rfl⟩
  · have hn := hL.wf.run_known he
    have hn' : n ≤ h.known := le_trans (le_add_left _ _) hn
    have hp := hL.known_pages
    have hl := hL.pages_limit
    have hl' := hL.limit_le
    obtain ⟨hkind, hlow⟩ := Entry.code_run (n := n) (by simp only [SMALL]; omega)
    rw [he, if_pos hkind, hlow, pure_iff]
    exact ⟨by simp only [Shape.size, he], rfl⟩

/-- **`block_of`** finds the block of every address in a live block. -/
theorem blockOf_spec (hI : Inv S h) (hb : S.Live b) (ha : S.InBlock b a) :
    Ensures E (blockOf a) (fun r h' => r = b ∧ h' = h) h := by
  have hL := hI.toLayout
  have hwf := hL.wf
  have ht := Tracks.refl S ∅ h
  obtain ⟨hst, -, hoff⟩ := hwf.live_page hb ha
  have hlt := hL.page_lt hst
  have hhome := hwf.home_eq hb ha
  unfold blockOf
  rw [bind_iff, get_iff, if_neg (by omega), bind_iff]
  refine ht.entryAt hL hlt.1 ?_
  rw [hI.rep.entry _ hlt.2.1]
  unfold Shape.home at hhome
  cases he : S.entry (a / PAGE) with
  | free =>
    rw [he] at hhome
    rcases hb with ⟨c, hb, -⟩ | ⟨n, hb, -⟩ <;> rw [← hhome, he] at hb <;> cases hb
  | static => exact absurd he hst
  | small c =>
    rw [he] at hhome
    have hc := hwf.isClass _ _ he
    obtain ⟨hkind, hsm, hlow⟩ := Entry.code_small hc
    have hge := hoff c he
    rw [if_neg (by omega), if_neg (by omega), if_pos ⟨hkind, hsm, hge⟩, hlow, bind_iff]
    refine ht.load32 hL (.size c) hc rfl rfl ?_
    rw [bind_iff]
    refine ht.load32 hL (.reciprocal c) hc rfl rfl ?_
    rw [hI.rep.size c hc, hI.rep.reciprocal c hc, pure_iff]
    refine ⟨?_, rfl⟩
    -- the address is `r` bytes into slot `k`
    obtain ⟨k, hk, hbk⟩ : IsSlot (a / PAGE) c (S.carved (a / PAGE)) b := by
      rcases hb with ⟨c', hb, hslot, -⟩ | ⟨n, hb, -⟩
      · rw [← hhome, he] at hb
        obtain rfl : c = c' := by injection hb
        rw [← hhome] at hslot
        exact hslot
      · rw [← hhome, he] at hb
        cases hb
    have hbd := slotAt_bounds (p := a / PAGE) hc (lt_of_lt_of_le hk (hwf.carved_le _ _ he))
    have hsz : S.size b = bytesOf c := by
      unfold Shape.size
      rw [← hhome, he]
    obtain ⟨h₁, h₂⟩ := ha
    rw [hsz] at h₂
    rw [hbk] at h₁ h₂ ⊢
    rw [succ_mul] at hbd
    unfold slotAt at *
    have hx : a - a / PAGE * PAGE - 16 =
        k * bytesOf c + (a - (a / PAGE * PAGE + 16 + k * bytesOf c)) := by omega
    rw [hx, reciprocal_exact hc (by omega) (by omega)]
  | run n =>
    rw [he] at hhome
    have hbr : b = a / PAGE * PAGE := by
      rcases hb with ⟨c, hb, -⟩ | ⟨m, -, hb⟩
      · rw [← hhome, he] at hb
        cases hb
      · exact hb.trans (congrArg (· * PAGE) hhome.symm)
    have hn := hwf.run_known he
    have hn' : n ≤ h.known := le_trans (le_add_left _ _) hn
    have hp := hL.known_pages
    have hl := hL.pages_limit
    have hl' := hL.limit_le
    obtain ⟨hkind, -⟩ := Entry.code_run (n := n) (by simp only [SMALL]; omega)
    rw [if_pos hkind, pure_iff]
    exact ⟨hbr.symm, rfl⟩
  | rest p =>
    rw [he] at hhome
    obtain ⟨m, hm, -⟩ := hwf.rest_run _ _ he
    have hbr : b = p * PAGE := by
      rcases hb with ⟨c, hb, -⟩ | ⟨n, -, hb⟩
      · rw [← hhome, hm] at hb
        cases hb
      · exact hb.trans (congrArg (· * PAGE) hhome.symm)
    have hp := (hL.page_lt (p := p) (by rw [hm]; exact Entry.noConfusion)).2.2
    obtain ⟨hkind, hlow⟩ := Entry.code_rest (p := p) (by simp only [SMALL]; omega)
    rw [if_neg (by omega), if_pos hkind, pure_iff, hlow]
    exact ⟨hbr.symm, rfl⟩

/-- **`block_of`** is 0 in static pages and past the known ones. -/
theorem blockOf_static (hI : Inv S h) (ha : S.entry (a / PAGE) = .static) :
    Ensures E (blockOf a) (fun r h' => r = 0 ∧ h' = h) h := by
  have hL := hI.toLayout
  have hcap := hL.known_le
  unfold blockOf
  rw [bind_iff, get_iff, ite_iff]
  refine ⟨fun _ => pure_iff.mpr ⟨rfl, rfl⟩, fun hlt => ?_⟩
  rw [bind_iff]
  refine (Tracks.refl S ∅ h).entryAt hL (by omega) ?_
  rw [hI.rep.entry _ (by omega), ha, if_neg (by decide), if_neg (by decide),
    if_neg (fun h => h.2.1 rfl), pure_iff]
  exact ⟨rfl, rfl⟩

theorem blockOf_fresh (hF : Fresh h) : Ensures E (blockOf a) (fun r h' => r = 0 ∧ h' = h) h := by
  unfold blockOf
  rw [bind_iff, get_iff, if_pos (by rw [hF.known]; exact zero_le _), pure_iff]
  exact ⟨rfl, rfl⟩

end Lookup

end Alloc

end HdLang
