import HdLang.Alloc.Free

/-!
# Growing the heap and finding free pages

`claim` marks pages, `move_table` takes the table to larger pages, `extend` grows the heap by free
pages and `take` finds free pages next to each other. Each gives a heap that stands for a shape that
differs only in pages no block can be in, and changes no byte the rest of the program owns. `start` makes
the first table.
-/

namespace HdLang

open ByteMem Ensures Nat Mem

namespace Alloc

open PointerList

/-- From `h` to `h'` the heap has not shrunk and the bytes of `K` have not changed. -/
structure Extends (K : Rest) (h h' : Heap) : Prop where
  pages : h.pages ≤ h'.pages
  limit : h'.limit = h.limit
  kept : ∀ a ∈ K, h'.mem a = h.mem a

theorem Extends.refl (K : Rest) (h : Heap) : Extends K h h := ⟨le_refl _, rfl, fun _ _ => rfl⟩

theorem Extends.trans {K : Rest} {h₀ h₁ h₂ : Heap} (h : Extends K h₀ h₁) (h' : Extends K h₁ h₂) :
    Extends K h₀ h₂ :=
  ⟨h.pages.trans h'.pages, h'.limit.trans h.limit, fun a ha => (h'.kept a ha).trans (h.kept a ha)⟩

theorem Frame.extends {K : Rest} {h h' : Heap} (hf : Frame K h h') : Extends K h h' :=
  ⟨le_of_eq hf.vars.pages.symm, hf.vars.limit, hf.kept⟩

/-! ### Marking pages -/

namespace Shape

/-- The pages from `first` up to `first + count` are free or static. -/
def retable (S : Shape) (first count : ℕ) (e : Entry) : Shape :=
  { S with entry := fun q => if first ≤ q ∧ q < first + count then e else S.entry q }

variable {S : Shape} {first count known : ℕ} {e : Entry}

theorem retabled_retable (he : e = .free ∨ e = .static)
    (hst : ∀ q, first ≤ q → q < first + count → S.entry q = .static) :
    S.Retabled (S.retable first count e) where
  carved := rfl
  free := rfl
  list := rfl
  freed := rfl
  entry q hq := by
    simp only [retable, Holds] at hq ⊢
    split
    · next hin =>
      rw [if_pos hin, hst q hin.1 hin.2] at hq
      rcases hq with ⟨-, h⟩ | ⟨h₁, h₂⟩
      · exact absurd rfl h
      · rcases he with rfl | rfl
        · exact absurd rfl h₁
        · exact absurd rfl h₂
    · rfl

theorem WF.retable (hS : S.WF known) (he : e = .free ∨ e = .static)
    (hst : ∀ q, first ≤ q → q < first + count → S.entry q = .static)
    (hzero : e = .static ∨ 0 < first) :
    (S.retable first count e).WF (max known (first + count)) := by
  refine hS.retabled (retabled_retable he hst) (fun q hq => ?_) ?_
  · simp only [Shape.retable]
    rw [if_neg (by omega)]
    exact hS.beyond q (by omega)
  · simp only [Shape.retable]
    split
    · next hin =>
      rcases hzero with h | h
      · exact h
      · omega
    · exact hS.zero

end Shape

section Claim

variable {E : Stop → Prop} {S : Shape} {h : Heap} {K : Rest} {first count : ℕ} {e : Entry}

/-- `claim`'s pages are static before it and static or free after it. -/
structure Claimable (S : Shape) (h : Heap) (K : Rest) (first count : ℕ) (e : Entry) : Prop where
  entry : e = .free ∨ e = .static
  static : ∀ q, first ≤ q → q < first + count → S.entry q = .static
  capacity : first + count ≤ h.capacity
  pages : first + count ≤ h.pages
  pos : e = .static ∨ 0 < first
  /-- A page that becomes free is neither the table's nor the rest of the program's. -/
  unused : e = .static ∨ ∀ a, first ≤ a / PAGE → a / PAGE < first + count → ¬h.InTable a ∧ a ∉ K

theorem Claimable.entry_of_static (hc : Claimable S h K first count e) {a : ℕ}
    (hst : S.entry (a / PAGE) = .static) (ha : h.InTable a ∨ a ∈ K) :
    (S.retable first count e).entry (a / PAGE) = .static := by
  simp only [Shape.retable]
  split
  · next hin =>
    rcases hc.unused with h | h
    · exact h
    · obtain ⟨h₁, h₂⟩ := h a hin.1 hin.2
      exact absurd ha (not_or.mpr ⟨h₁, h₂⟩)
  · exact hst

theorem Claimable.clear (hc : Claimable S h K first count e) (hK : Clear S h K) :
    Clear (S.retable first count e) h K where
  foreign a ha := ⟨hc.entry_of_static (hK.foreign a ha).1 (Or.inr (Or.inl ha)), (hK.foreign a ha).2⟩
  held a ha := by
    have hR := Shape.retabled_retable hc.entry hc.static
    obtain ⟨b, hb, hin⟩ := hK.held a ha
    refine ⟨b, (hR.live_iff b).mpr hb, hin.1, ?_⟩
    rw [hR.size_eq hb]
    exact hin.2
  bound := hK.bound

/-- `claim` gives the pages their entry; the bindings but `known` stay. -/
theorem claim_spec (hI : Inv S h) (hK : Clear S h K) (hc : Claimable S h K first count e) :
    Ensures E (claim first count e.code) (fun _ h' => Inv (S.retable first count e) h' ∧
      Clear (S.retable first count e) h' K ∧ (∀ a ∈ K, h'.mem a = h.mem a) ∧
      h'.pages = h.pages ∧ h'.limit = h.limit ∧ h'.table = h.table ∧ h'.capacity = h.capacity ∧
      h'.known = max h.known (first + count)) h := by
  have hL := hI.toLayout
  have hwf := hL.wf
  have hcap := hc.capacity
  have hpages := hc.pages
  have hknown := hL.known_le
  have hkp := hL.known_pages
  have hwf' := hwf.retable hc.entry hc.static hc.pos
  have hR := Shape.retabled_retable hc.entry hc.static
  have hK' := hc.clear hK
  have hcode : e.code < USIZE := by
    rcases hc.entry with rfl | rfl <;> decide
  unfold claim
  rw [bind_iff, get_iff, bind_iff]
  refine Tracks.setEntries hL hK (by decide) (Tracks.refl S K h) (by omega) fun h₁ ht₁ => ?_
  rw [bind_iff]
  refine Tracks.setEntries hL hK hcode ht₁ hcap fun h₂ ht₂ => ?_
  rw [modify_iff]
  have hv := ht₂.vars
  have hrep : Rep h₂.view (S.retable first count e) (max h.known (first + count)) := by
    have hsmall : ∀ q c, (S.retable first count e).entry q = .small c → S.entry q = .small c :=
      fun q c hq => (hR.entry_iff (by simp)).mp hq
    refine ht₂.rep hwf' (by omega) hK' (fun q c hq => Or.inl (hsmall q c hq)) ?_
    have hr := hI.rep
    constructor
    case toLinked => exact ⟨hr.head, hr.next, hr.prev⟩
    case freed => exact hr.freed
    case size => exact hr.size
    case reciprocal => exact hr.reciprocal
    case entry =>
      intro q hq
      simp only [Shape.retable]
      split
      · rfl
      · split
        · next hin hin' =>
          rw [hwf.beyond q (by omega)]
          rfl
        · exact hr.entry q (by omega)
    case first => exact fun q c hq => hr.first q c (hsmall q c hq)
    case live => exact fun q c hq => hr.live q c (hsmall q c hq)
    case bump => exact fun q c hq => hr.bump q c (hsmall q c hq)
    case linkFree => exact fun q c hq => hr.linkFree q c (hsmall q c hq)
    case linkFreed => exact hr.linkFreed
  have htable : ∀ a, h.InTable a → (S.retable first count e).entry (a / PAGE) = .static :=
    fun a ha => hc.entry_of_static (hL.table_static a ha) (Or.inl ha)
  have hfin : ∀ h₃ : Heap, h₃.mem = h₂.mem → h₃.pages = h.pages → h₃.limit = h.limit →
      h₃.table = h.table → h₃.capacity = h.capacity → h₃.known = max h.known (first + count) →
      Inv (S.retable first count e) h₃ ∧ Clear (S.retable first count e) h₃ K ∧
        (∀ a ∈ K, h₃.mem a = h.mem a) ∧ h₃.pages = h.pages ∧ h₃.limit = h.limit ∧
        h₃.table = h.table ∧ h₃.capacity = h.capacity ∧
        h₃.known = max h.known (first + count) := by
    intro h₃ hm h1 h2 h3 h4 h5
    refine ⟨⟨⟨h5 ▸ hwf', h3 ▸ hL.table_pos, h3 ▸ hL.table_page, h4 ▸ hL.capacity_page, by omega,
      by omega, ?_, ?_, ?_, ?_⟩, ?_⟩, ⟨?_, ?_, ?_⟩, fun a ha => ?_, h1, h2, h3, h4, h5⟩
    · rw [h1, h2]
      exact hL.pages_limit
    · rw [h2]
      exact hL.limit_le
    · rw [h1, h3, h4]
      exact hL.table_pages
    · intro a ha
      unfold Heap.InTable at ha
      rw [h3, h4] at ha
      exact htable a ha
    · rw [h5]
      have hview : h₃.view = h₂.view := by
        funext c
        simp only [Heap.view, hm, h3, hv.table]
      rw [hview]
      exact hrep
    · intro a ha
      unfold Heap.InTable
      rw [h3, h4]
      exact hK'.foreign a ha
    · exact hK'.held
    · intro a ha
      rw [h1]
      exact hK.bound a ha
    · rw [hm]
      exact ht₂.kept a ha
  split
  · next hgt =>
    rw [hv.known] at hgt
    exact hfin _ rfl hv.pages hv.limit hv.table hv.capacity (by dsimp only; omega)
  · next hle =>
    rw [hv.known] at hle
    exact hfin _ rfl hv.pages hv.limit hv.table hv.capacity (by rw [hv.known]; omega)

end Claim

/-! ### New pages -/

section Grow

variable {E : Stop → Prop} {S : Shape} {h : Heap} {K : Rest} {need : ℕ}

theorem Heap.view_congr {h' : Heap} {c : Cell} (htab : h'.table = h.table)
    (hm : ∀ a, c.addr h.table ≤ a → a < c.addr h.table + c.width → h'.mem a = h.mem a) :
    h'.view c = h.view c := by
  rcases c.width_cases with h2 | h4
  · rw [Heap.view_half h2, Heap.view_half h2, htab]
    exact load16_congr fun i hi => hm _ (by omega) (by omega)
  · rw [Heap.view_word h4, Heap.view_word h4, htab]
    exact load32_congr fun i hi => hm _ (by omega) (by omega)

/-- A heap with more pages stands for the same shape. -/
theorem Inv.grown (hI : Inv S h) {count : ℕ} (hlim : h.pages + count ≤ h.limit) :
    Inv S (h.grown count) := by
  have hL := hI.toLayout
  have hL' : Layout S (h.grown count) :=
    ⟨hL.wf, hL.table_pos, hL.table_page, hL.capacity_page, hL.known_le,
      le_trans hL.known_pages (le_add_right _ _), hlim, hL.limit_le,
      hL.table_pages.trans (mul_le_mul_right _ (le_add_right _ _)), hL.table_static⟩
  refine ⟨hL', ?_⟩
  have ht : Tracks S ∅ h { h with mem := (h.grown count).mem } h.view := by
    refine ⟨⟨rfl, rfl, rfl, rfl, rfl⟩, fun c hc => Heap.view_congr rfl fun a ha ha' => ?_,
      fun a ha => absurd ha (Rest.notMem_empty a)⟩
    have := hc.in_pages hL
    exact fill_of_notMem (by omega)
  exact (ht.inv hL ⟨fun a ha => absurd ha (Set.notMem_empty a), fun a ha =>
    absurd ha (Set.notMem_empty a), fun a ha => absurd ha (Rest.notMem_empty a)⟩ (fun p c hp => Or.inl hp) hI.rep).rep

theorem Clear.grown (hK : Clear S h K) (count : ℕ) : Clear S (h.grown count) K where
  __ := hK
  bound a ha := lt_of_lt_of_le (hK.bound a ha) (mul_le_mul_right _ (le_add_right _ _))

theorem Clear.grown_kept (hK : Clear S h K) (count : ℕ) : ∀ a ∈ K, (h.grown count).mem a = h.mem a :=
  fun a ha => fill_of_notMem (Or.inl (hK.bound a ha))

variable {count : ℕ}

theorem ensures_growPages (hE : h.limit < h.pages + count → E exhausted) {Q : ℕ → Heap → Prop}
    (hQ : h.pages + count ≤ h.limit → Q h.pages (h.grown count)) :
    Ensures E (growPages count) Q h := by
  unfold growPages grow
  rw [bind_iff, bind_iff, get_iff, ite_iff]
  constructor
  · intro hle
    rw [bind_iff, set_iff, pure_iff]
    exact pure_iff.mpr (hQ hle)
  · intro hgt
    rw [pure_iff]
    exact throw_iff.mpr (hE (Nat.lt_of_not_le hgt))

/-! ### Moving the table -/

/-- A page of the table is static, and the rest of the program owns no byte of it. -/
theorem Layout.page_of_table (hL : Layout S h) {q : ℕ} (hq : h.table / PAGE ≤ q)
    (hq' : q < h.table / PAGE + (LISTS + 4 * h.capacity + PAGE - 1) / PAGE) :
    ∀ a, a / PAGE = q → h.InTable a := by
  have h₁ := hL.table_page
  have h₂ := hL.capacity_page
  rintro a rfl
  unfold Heap.InTable
  unfold PAGE LISTS at *
  omega

/-- The heap once `move_table` has copied the table to the pages from `first` on. -/
def Heap.moved (h : Heap) (first count : ℕ) : Heap :=
  { h with
    mem := h.mem.copy (first * PAGE) h.table (LISTS + 4 * h.known)
    table := first * PAGE
    capacity := (count * PAGE - LISTS) / 4 }

theorem Inv.moved (hI : Inv S h) (hK : Clear S h K) {first count : ℕ}
    (hend : first + count = h.pages) (hfirst : h.known ≤ first)
    (htable : h.table + LISTS + 4 * h.capacity ≤ first * PAGE)
    (hroom : LISTS + 4 * h.known ≤ count * PAGE) (hown : ∀ a ∈ K, a < first * PAGE) :
    Inv S (h.moved first count) ∧ Clear S (h.moved first count) K ∧
      ∀ a ∈ K, (h.moved first count).mem a = h.mem a := by
  have hL := hI.toLayout
  have hpos := hL.table_pos
  have hcount : 1 ≤ count := by
    by_contra hlt
    obtain rfl : count = 0 := by omega
    unfold LISTS at hroom
    omega
  have hcap : LISTS + 4 * ((count * PAGE - LISTS) / 4) = count * PAGE := by
    unfold PAGE LISTS
    omega
  have hpages : first * PAGE + count * PAGE = h.pages * PAGE := by rw [← Nat.add_mul, hend]
  have hfirst0 : 0 < first := by
    rcases Nat.eq_zero_or_pos first with rfl | h
    · omega
    · exact h
  have hintable : ∀ a, (h.moved first count).InTable a → first * PAGE ≤ a := fun a ha => ha.1
  have hknown' : (h.moved first count).known = h.known := rfl
  have hL' : Layout S (h.moved first count) := by
    refine ⟨hL.wf, Nat.mul_pos hfirst0 (by decide), Nat.mul_mod_left _ _, ?_, ?_,
      hL.known_pages, hL.pages_limit, hL.limit_le, ?_, fun a ha => ?_⟩
    · simp only [Heap.moved, hcap, Nat.mul_mod_left]
    · simp only [Heap.moved]
      omega
    · simp only [Heap.moved]
      omega
    · refine hL.wf.beyond _ (Nat.le_trans hfirst ?_)
      have := hintable a ha
      unfold PAGE at *
      omega
  have hmem : ∀ a, a < first * PAGE → (h.moved first count).mem a = h.mem a := fun a ha =>
    copy_of_notMem (Or.inl ha)
  refine ⟨⟨hL', ?_⟩, ⟨fun a ha => ?_, hK.held, hK.bound⟩, fun a ha => hmem a (hown a ha)⟩
  · refine hI.rep.congr hL.wf hL.known_le hK (fun p c hp => Or.inl hp) fun c hc hent => ?_
    cases hp : c.page with
    | none =>
      -- a word of the table is at the same offset in its copy
      obtain ⟨off, hoff, hoff'⟩ : ∃ off, (∀ t, c.addr t = t + off) ∧
          off + c.width ≤ LISTS + 4 * h.known := by
        cases c <;> simp only [Cell.page, reduceCtorEq] at hp <;>
          simp only [Placed, IsClass] at hc <;> simp only [Cell.addr, Cell.width]
        case head k => exact ⟨4 * k, fun _ => rfl, by unfold LISTS; omega⟩
        case freed k => exact ⟨FREED + 4 * k, fun t => by omega, by unfold LISTS FREED; omega⟩
        case size k =>
          exact ⟨SIZES + 4 * (k - 1), fun t => by omega, by unfold LISTS SIZES; omega⟩
        case reciprocal k =>
          exact ⟨RECIPROCALS + 4 * (k - 1), fun t => by omega,
            by unfold LISTS RECIPROCALS; omega⟩
        case entry p =>
          have : p < h.known := hent p rfl
          exact ⟨LISTS + 4 * p, fun t => by omega, by omega⟩
      have hbyte : ∀ i, i < c.width → (h.moved first count).mem (first * PAGE + off + i) =
          h.mem (h.table + off + i) := by
        intro i hi
        have hoff : off + i < LISTS + 4 * h.known := by omega
        have := copy_of_mem (m := h.mem) (a := first * PAGE) (s := h.table) hoff
        rw [Nat.add_assoc, Nat.add_assoc]
        exact this
      rcases c.width_cases with h2 | h4
      · rw [Heap.view_half h2, Heap.view_half h2, hoff, hoff]
        exact load16_congr fun i hi => hbyte i (by omega)
      · rw [Heap.view_word h4, Heap.view_word h4, hoff, hoff]
        exact load32_congr fun i hi => hbyte i (by omega)
    | some p =>
      have haddr : ∀ t, c.addr t = c.addr h.table := by
        cases c <;> simp only [Cell.page, reduceCtorEq] at hp <;> exact fun _ => rfl
      have hr := hc.page_range hL hp
      have hns : S.entry p ≠ .static := by
        rcases hc.page_entry hp with h | ⟨cls, h⟩ <;> rw [h] <;> exact Entry.noConfusion
      have hlt : (p + 1) * PAGE ≤ first * PAGE :=
        Nat.mul_le_mul_right _ (Nat.le_trans (hL.page_lt hns).2.1 hfirst)
      rcases c.width_cases with h2 | h4
      · rw [Heap.view_half h2, Heap.view_half h2, haddr]
        exact load16_congr fun i hi => hmem _ (by omega)
      · rw [Heap.view_word h4, Heap.view_word h4, haddr]
        exact load32_congr fun i hi => hmem _ (by omega)
  · refine ⟨(hK.foreign a ha).1, fun hin => ?_⟩
    have h₁ := hown a (Or.inl ha)
    have h₂ := hintable a hin
    omega

/-- What `move_table` gives: the table has room for `need` pages and lies past them, and no page at
or past `fresh`, where the last growth began, changes. -/
def Moved (S : Shape) (K : Rest) (h : Heap) (fresh need : ℕ) (h' : Heap) : Prop :=
  ∃ S', S.Retabled S' ∧ Inv S' h' ∧ Clear S' h' K ∧ Extends K h h' ∧ need ≤ h'.capacity ∧
    need * PAGE ≤ h'.table ∧ ∀ q, fresh ≤ q → q < need → S'.entry q = .static

variable {fresh : ℕ}

/-- `move_table`'s statements, for a new table of `count` pages. -/
theorem moveTable_pages (hE : E exhausted) (hI : Inv S h) (hK : Clear S h K)
    (hneed : h.pages = need) (hfresh : fresh < need) (hknown : h.known ≤ fresh)
    (htable : h.table + LISTS + 4 * h.capacity ≤ fresh * PAGE)
    (hcount' : LISTS + 8 * need ≤ count * PAGE ∧ count ≤ need ∧ 1 ≤ count) :
    Ensures E (do
      let first ← growPages count
      let h ← get
      copy (first * PAGE) h.table (LISTS + 4 * h.known)
      let old := h.table / PAGE
      let oldCount := (LISTS + 4 * h.capacity + PAGE - 1) / PAGE
      modify fun h => { h with table := first * PAGE, capacity := (count * PAGE - LISTS) / 4 }
      claim first count SMALL
      claim old oldCount 0
      lowerHint old) (fun _ h' => Moved S K h fresh need h') h := by
  have hL := hI.toLayout
  have hwf := hL.wf
  have hown : ∀ a ∈ K, a < need * PAGE := fun a ha => hneed ▸ hK.bound a ha
  have htend := hL.table_pages
  have hkcap := hL.known_le
  have hlimit := hL.limit_le
  have hplimit := hL.pages_limit
  rw [bind_iff]
  refine ensures_growPages (fun _ => hE) fun hlim => ?_
  rw [hneed, bind_iff, get_iff, bind_iff]
  have hI₁ := hI.grown hlim
  have hK₁ := hK.grown count
  obtain ⟨hI₂, hK₂, hkept₂⟩ := hI₁.moved hK₁
    (show need + count = _ by rw [Heap.grown_pages, hneed]) (by rw [Heap.grown_known]; omega)
    (by rw [Heap.grown_table, Heap.grown_capacity, ← hneed]; exact htend)
    (by rw [Heap.grown_known]; omega) hown
  refine ensures_copy ?_ ?_ ?_
  · rw [Heap.grown_known, Heap.grown_pages, hneed, Nat.add_mul]
    omega
  · rw [Heap.grown_known, Heap.grown_pages, Heap.grown_table, Nat.add_mul]
    omega
  rw [bind_iff, modify_iff]
  change Ensures E _ _ ((h.grown count).moved need count)
  generalize hh₂ : (h.grown count).moved need count = h₂ at *
  have hv₂ : h₂.pages = need + count ∧ h₂.limit = h.limit ∧ h₂.table = need * PAGE ∧
      h₂.capacity = (count * PAGE - LISTS) / 4 ∧ h₂.known = h.known := by
    subst hh₂
    exact ⟨by simp only [Heap.moved, Heap.grown, hneed], rfl, rfl, rfl, rfl⟩
  obtain ⟨hp₂, hl₂, ht₂, hc₂, hk₂⟩ := hv₂
  have hcap₂ : 2 * need ≤ h₂.capacity := by omega
  rw [bind_iff]
  -- the new table's pages are static
  have hclaim₁ : Claimable S h₂ K need count .static :=
    ⟨Or.inr rfl, fun q hq _ => hwf.beyond q (by omega), by omega, by omega, Or.inl rfl, Or.inl rfl⟩
  refine (claim_spec hI₂ hK₂ hclaim₁).mono fun _ h₃ ⟨hI₃, hK₃, hkept₃, hp₃, hl₃, ht₃, hc₃, hk₃⟩ => ?_
  rw [bind_iff]
  -- the old table's pages are free
  obtain ⟨oldCount, holdc⟩ : ∃ n, (LISTS + 4 * h.capacity + PAGE - 1) / PAGE = n := ⟨_, rfl⟩
  rw [Heap.grown_table, Heap.grown_capacity, holdc]
  change Ensures E (claim (h.table / PAGE) oldCount Entry.free.code) _ _
  have hold : h.table / PAGE + oldCount ≤ fresh ∧ 0 < h.table / PAGE := by
    have h₁ := hL.table_page
    have h₂ := hL.capacity_page
    have h₃ := hL.table_pos
    unfold PAGE LISTS at *
    omega
  have hintable : ∀ q, h.table / PAGE ≤ q → q < h.table / PAGE + oldCount → ∀ a, a / PAGE = q →
      h.InTable a := fun q hq hq' => hL.page_of_table hq (by rw [holdc]; exact hq')
  have hentry₃ : ∀ q, q < need → (S.retable need count .static).entry q = S.entry q := by
    intro q hq
    simp only [Shape.retable]
    rw [if_neg (by omega)]
  have hclaim₂ : Claimable (S.retable need count .static) h₃ K (h.table / PAGE) oldCount .free := by
    refine ⟨Or.inl rfl, fun q hq hq' => ?_, by omega, by omega, Or.inr hold.2,
      Or.inr fun a ha ha' => ⟨fun hin => ?_, fun hmem => ?_⟩⟩
    · rw [hentry₃ q (by omega)]
      have := hintable q hq hq' (q * PAGE) (Nat.mul_div_cancel _ (by decide))
      have hst := hL.table_static _ this
      rwa [Nat.mul_div_cancel _ (by decide : 0 < PAGE)] at hst
    · have h₁ := hin.1
      rw [ht₃, ht₂] at h₁
      unfold PAGE at *
      omega
    · have hin := hintable _ ha ha' a rfl
      rcases hK.owned a hmem with ⟨-, hnot⟩ | ⟨b, hb, hba⟩
      · exact hnot hin
      · exact (hwf.live_page hb hba).1 (hL.table_static a hin)
  refine (claim_spec hI₃ hK₃ hclaim₂).mono fun _ h₄ ⟨hI₄, hK₄, hkept₄, hp₄, hl₄, ht₄, hc₄, hk₄⟩ => ?_
  have hR₁ := Shape.retabled_retable hclaim₁.entry hclaim₁.static
  have hR₂ := Shape.retabled_retable hclaim₂.entry hclaim₂.static
  unfold lowerHint
  rw [modify_iff]
  have hfin : ∀ h₅ : Heap, h₅.mem = h₄.mem → SameVars h₄ h₅ →
      Moved S K h fresh need h₅ := by
    intro h₅ hm hv
    refine ⟨_, hR₁.trans hR₂, hI₄.of_mem_eq hv hm, hK₄.of_sameVars hv, ⟨?_, ?_, fun a ha => ?_⟩,
      ?_, ?_, fun q hq hq' => ?_⟩
    · rw [hv.pages]
      omega
    · rw [hv.limit]
      omega
    · rw [hm, hkept₄ a ha, hkept₃ a ha, hkept₂ a ha, hK.grown_kept count a ha]
    · rw [hv.capacity]
      omega
    · rw [hv.table]
      omega
    · have : ¬(h.table / PAGE ≤ q ∧ q < h.table / PAGE + oldCount) := by omega
      rw [show ((S.retable need count .static).retable (h.table / PAGE) oldCount .free).entry q =
        (S.retable need count .static).entry q from if_neg this, hentry₃ q hq']
      exact hwf.beyond q (by omega)
  split
  · exact hfin _ rfl ⟨rfl, rfl, rfl, rfl, rfl⟩
  · exact hfin _ rfl (SameVars.refl _)

/-- `move_table` with the heap grown to `need` pages. -/
theorem moveTable_spec (hE : E exhausted) (hI : Inv S h) (hK : Clear S h K) (hneed : h.pages = need)
    (hfresh : fresh < need) (hknown : h.known ≤ fresh)
    (htable : h.table + LISTS + 4 * h.capacity ≤ fresh * PAGE) :
    Ensures E (moveTable need) (fun _ h' => Moved S K h fresh need h') h := by
  have hpages := hI.pages_limit
  have hlimit := hI.limit_le
  -- the new table has room for the pages it is in as well
  have hcount : ∀ count, (LISTS + 8 * need + PAGE - 1) / PAGE = count →
      LISTS + 8 * need ≤ count * PAGE ∧ count ≤ need ∧ 1 ≤ count := by
    intro count hc
    unfold LISTS PAGE at *
    omega
  exact moveTable_pages hE hI hK hneed hfresh hknown htable (hcount _ rfl)

/-- The heap cannot grow by `count` pages within the host's limit and the table's entries. -/
def Heap.NoRoom (h : Heap) (count : ℕ) : Prop :=
  h.limit < h.pages + count ∨ h.capacity < h.pages + count

theorem extend_spec (hE : h.NoRoom count → E exhausted) (hI : Inv S h) (hK : Clear S h K)
    (hcount : 1 ≤ count) :
    Ensures E (extend count) (fun first h' => ∃ S', S.Retabled S' ∧ Inv S' h' ∧ Clear S' h' K ∧
      Extends K h h' ∧ ∀ q, first ≤ q → q < first + count → S'.entry q = .free) h := by
  have hL := hI.toLayout
  have hwf := hL.wf
  have hkp := hL.known_pages
  unfold extend
  rw [bind_iff]
  refine ensures_growPages (fun hlt => hE (Or.inl hlt)) fun hlim => ?_
  have hI₁ := hI.grown hlim
  have hK₁ := hK.grown count
  have hext : Extends K h (h.grown count) := ⟨Nat.le_add_right _ _, rfl, hK.grown_kept count⟩
  -- the last two statements, once the table has room
  have hfin : ∀ {S₂ : Shape} {h₂ : Heap}, S.Retabled S₂ → Inv S₂ h₂ → Clear S₂ h₂ K →
      Extends K h h₂ → h.pages + count ≤ h₂.pages → h.pages + count ≤ h₂.capacity →
      (∀ q, h.pages ≤ q → q < h.pages + count → S₂.entry q = .static) →
      (∀ a, h.pages ≤ a / PAGE → a / PAGE < h.pages + count → ¬h₂.InTable a) →
      Ensures E (do claim h.pages count 0; pure h.pages) (fun first h' => ∃ S', S.Retabled S' ∧
        Inv S' h' ∧ Clear S' h' K ∧ Extends K h h' ∧
        ∀ q, first ≤ q → q < first + count → S'.entry q = .free) h₂ := by
    intro S₂ h₂ hR hI₂ hK₂ hext₂ hpages hcap hst hnot
    have hpos : 0 < h.pages := by
      have h₁ := hL.table_pos
      have h₂ := hL.table_pages
      rcases Nat.eq_zero_or_pos h.pages with h₀ | h₀
      · rw [h₀] at h₂
        omega
      · exact h₀
    have hclaim : Claimable S₂ h₂ K h.pages count .free := by
      refine ⟨Or.inl rfl, hst, hcap, hpages, Or.inr hpos, Or.inr fun a ha ha' =>
        ⟨hnot a ha ha', fun hmem => ?_⟩⟩
      have := hK.bound a hmem
      unfold PAGE at *
      omega
    rw [bind_iff]
    refine (claim_spec hI₂ hK₂ hclaim).mono
      fun _ h₃ ⟨hI₃, hK₃, hkept, hp₃, hl₃, _⟩ => pure_iff.mpr ?_
    refine ⟨_, hR.trans (Shape.retabled_retable hclaim.entry hclaim.static), hI₃, hK₃,
      hext₂.trans ⟨Nat.le_of_eq hp₃.symm, hl₃, hkept⟩, fun q hq hq' => ?_⟩
    simp only [Shape.retable]
    rw [if_pos ⟨hq, hq'⟩]
  rw [bind_iff, get_iff]
  dsimp only
  rw [ite_iff]
  have htend := hL.table_pages
  have hgp := h.grown_pages count
  constructor
  · intro hgt
    rw [bind_iff]
    refine (moveTable_spec (hE (Or.inr hgt)) hI₁ hK₁ rfl (by omega : h.pages < _) hkp htend).mono
      fun _ h₂ ⟨S₂, hR, hI₂, hK₂, hext₂, hcap, htab, hst⟩ => ?_
    refine hfin hR hI₂ hK₂ (hext.trans hext₂) hext₂.pages hcap hst fun a _ ha' hin => ?_
    have := hin.1
    unfold PAGE at *
    omega
  · intro hle
    refine hfin Shape.Retabled.refl hI₁ hK₁ hext (Nat.le_refl _) (Nat.le_of_not_lt hle)
      (fun q hq _ => hwf.beyond q (by omega)) fun a ha _ hin => ?_
    have := hin.2
    rw [Heap.grown_table, Heap.grown_capacity] at this
    unfold PAGE at *
    omega

/-! ### Finding free pages -/

/-- `take`'s scan changes nothing and gives free pages next to each other. -/
theorem scan_spec (hI : Inv S h) : ∀ (left : ℕ) {number first run : ℕ},
    number + left ≤ h.known → first + run = number →
    (∀ q, first ≤ q → q < number → S.entry q = .free) →
    Ensures E (scan count left number first run) (fun r h' => h' = h ∧
      ∀ q, r.1 ≤ q → q < r.1 + r.2 → S.entry q = .free) h := by
  intro left
  induction left with
  | zero =>
    intro number first run _ hrun hfree
    unfold scan
    rw [pure_iff]
    exact ⟨rfl, fun q hq hq' => hfree q hq (by omega)⟩
  | succ left ih =>
    intro number first run hknown hrun hfree
    have hcap := hI.known_le
    unfold scan
    rw [ite_iff]
    constructor
    · intro _
      rw [bind_iff]
      refine (Tracks.refl S ∅ h).entryAt hI.toLayout (p := number) (by omega) ?_
      rw [hI.rep.entry number (by omega), ite_iff]
      constructor
      · intro hzero
        refine ih (by omega) (by omega) fun q hq hq' => ?_
        rcases Nat.lt_succ_iff_lt_or_eq.mp hq' with hlt | rfl
        · exact hfree q hq hlt
        · cases he : S.entry q with
          | free => rfl
          | _ => rw [he] at hzero; simp only [Entry.code, SMALL, RUN, REST] at hzero; omega
      · intro _
        exact ih (by omega) rfl fun q hq hq' => by omega
    · intro _
      rw [pure_iff]
      exact ⟨rfl, fun q hq hq' => hfree q hq (by omega)⟩

/-- **`take`** gives free pages next to each other. -/
theorem take_spec (hE : h.NoRoom count → E exhausted) (hI : Inv S h) (hK : Clear S h K)
    (hcount : 1 ≤ count) :
    Ensures E (take count) (fun first h' => ∃ S', S.Retabled S' ∧ Inv S' h' ∧ Clear S' h' K ∧
      Extends K h h' ∧ ∀ q, first ≤ q → q < first + count → S'.entry q = .free) h := by
  unfold take
  rw [bind_iff, get_iff, bind_iff]
  have hscan : Ensures E (scan count (h.known - h.hint) h.hint h.hint 0) (fun r h' => h' = h ∧
      ∀ q, r.1 ≤ q → q < r.1 + r.2 → S.entry q = .free) h := by
    rcases Nat.lt_or_ge h.known h.hint with hlt | hle
    · rw [Nat.sub_eq_zero_of_le hlt.le]
      unfold scan
      rw [pure_iff]
      exact ⟨rfl, fun q hq hq' => by omega⟩
    · exact scan_spec hI _ (by omega) rfl fun q hq hq' => by omega
  refine hscan.mono fun r h₁ ⟨hh, hfree⟩ => ?_
  subst hh
  obtain ⟨first, run⟩ := r
  dsimp only at hfree ⊢
  rw [ite_iff]
  constructor
  · intro _
    exact extend_spec hE hI hK hcount
  · intro hge
    rw [ite_iff]
    constructor
    · intro _
      rw [bind_iff, modify_iff, pure_iff]
      exact ⟨S, Shape.Retabled.refl, hI.of_mem_eq ⟨rfl, rfl, rfl, rfl, rfl⟩ rfl,
        hK.of_sameVars ⟨rfl, rfl, rfl, rfl, rfl⟩, ⟨Nat.le_refl _, rfl, fun _ _ => rfl⟩,
        fun q hq hq' => hfree q hq (by omega)⟩
    · intro _
      rw [pure_iff]
      exact ⟨S, Shape.Retabled.refl, hI, hK, Extends.refl K _,
        fun q hq hq' => hfree q hq (by omega)⟩

end Grow

end Alloc

end HdLang
