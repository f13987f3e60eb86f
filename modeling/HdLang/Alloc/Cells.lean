import HdLang.Alloc.Handout

/-!
# The allocator's words in memory

The allocator reads and writes words of three kinds: those of its table, those of a small page's
16-byte header, and the first word of a slot that is on a list. Each is a `Cell`, and `Heap.view`
reads it. `Placed` cells lie where a `Layout` puts them: no two of them overlap
(`Placed.disjoint`) and none has a byte of the memory `K` that the rest of the program owns
(`Placed.clear`), so a store to one changes no other and nothing of `K`.

`Tracks` follows a run of the allocator's code by its cells: each load reads the tracked value and
each store updates it. `Rep` says which shape the values of the cells stand for, and `Inv` joins
it to the layout: it is the invariant of the heap between the allocator's operations.
-/

namespace HdLang

open ByteMem Nat

namespace Alloc

open PointerList

/-! ### Cells -/

/-- A word the allocator reads or writes. -/
inductive Cell
  | head (cls : ℕ)
  | freed (cls : ℕ)
  | size (cls : ℕ)
  | reciprocal (cls : ℕ)
  | entry (page : ℕ)
  | first (page : ℕ)
  | next (page : ℕ)
  | prev (page : ℕ)
  | live (page : ℕ)
  | bump (page : ℕ)
  | link (block : ℕ)
  deriving DecidableEq

namespace Cell

/-- Where a cell is, for a table at `table`. -/
def addr (table : ℕ) : Cell → ℕ
  | head cls => table + 4 * cls
  | freed cls => table + FREED + 4 * cls
  | size cls => table + SIZES + 4 * (cls - 1)
  | reciprocal cls => table + RECIPROCALS + 4 * (cls - 1)
  | entry page => table + LISTS + 4 * page
  | first page => page * PAGE
  | next page => page * PAGE + 4
  | prev page => page * PAGE + 8
  | live page => page * PAGE + 12
  | bump page => page * PAGE + 14
  | link block => block

/-- How many bytes a cell has. -/
def width : Cell → ℕ
  | live _ => 2
  | bump _ => 2
  | _ => 4

end Cell

/-- The value of a cell. -/
def Heap.view (h : Heap) (c : Cell) : ℕ :=
  if c.width = 2 then h.mem.load16 (c.addr h.table) else h.mem.load32 (c.addr h.table)

theorem Cell.width_cases (c : Cell) : c.width = 2 ∨ c.width = 4 := by
  cases c <;> simp [Cell.width]

variable {c : Cell}

theorem Heap.view_half {h : Heap} (hw : c.width = 2) :
    h.view c = h.mem.load16 (c.addr h.table) := if_pos hw

theorem Heap.view_word {h : Heap} (hw : c.width = 4) :
    h.view c = h.mem.load32 (c.addr h.table) := if_neg (by omega)

/-! ### Layout -/

/-- `a` is in the page table or the rest of its pages. -/
def Heap.InTable (h : Heap) (a : ℕ) : Prop :=
  h.table ≤ a ∧ a < h.table + LISTS + 4 * h.capacity

/-- Where the table and the pages are. -/
structure Layout (S : Shape) (h : Heap) : Prop where
  wf : S.WF h.known
  table_pos : 0 < h.table
  table_page : h.table % PAGE = 0
  capacity_page : (LISTS + 4 * h.capacity) % PAGE = 0
  known_le : h.known ≤ h.capacity
  known_pages : h.known ≤ h.pages
  pages_limit : h.pages ≤ h.limit
  limit_le : h.limit ≤ 65536
  table_pages : h.table + LISTS + 4 * h.capacity ≤ h.pages * PAGE
  table_static : ∀ a, h.InTable a → S.entry (a / PAGE) = .static

/-- The memory of the rest of the program: its static data and the pages other parts of it grew, and
the bytes of the blocks it holds. -/
structure Rest where
  foreign : Set ℕ
  held : Set ℕ

instance : Membership ℕ Rest := ⟨fun K a => a ∈ K.foreign ∨ a ∈ K.held⟩

instance : EmptyCollection Rest := ⟨⟨∅, ∅⟩⟩

theorem Rest.notMem_empty (a : ℕ) : a ∉ (∅ : Rest) := fun h => h.elim id id

/-- The allocator leaves `K` to the rest of the program: the foreign addresses are in static pages
outside the table, and the held ones in live blocks. -/
structure Clear (S : Shape) (h : Heap) (K : Rest) : Prop where
  foreign : ∀ a ∈ K.foreign, S.entry (a / PAGE) = .static ∧ ¬h.InTable a
  held : ∀ a ∈ K.held, ∃ b, S.Live b ∧ S.InBlock b a
  bound : ∀ a ∈ K, a < h.pages * PAGE

theorem Clear.owned {S : Shape} {h : Heap} {K : Rest} (hK : Clear S h K) (a : ℕ) (ha : a ∈ K) :
    (S.entry (a / PAGE) = .static ∧ ¬h.InTable a) ∨ ∃ b, S.Live b ∧ S.InBlock b a :=
  ha.imp (hK.foreign a) (hK.held a)

/-- The cells of the allocator: those of its table, of the headers of free and small pages, and
the first words of slots that the rest of the program does not own. -/
def Placed (S : Shape) (h : Heap) (K : Rest) : Cell → Prop
  | .head cls | .freed cls | .size cls | .reciprocal cls => IsClass cls
  | .entry page => page < h.capacity
  | .first page | .next page | .prev page | .live page | .bump page =>
    S.entry page = .free ∨ ∃ cls, S.entry page = .small cls
  | .link b => (∃ cls, S.entry (b / PAGE) = .small cls ∧ IsSlot (b / PAGE) cls (slotsOf cls) b) ∧
    ∀ a, b ≤ a → a < b + 4 → a ∉ K

section Placed

variable {S : Shape} {h : Heap} {K : Rest}

/-- The page a cell outside the table is in. -/
def Cell.page : Cell → Option ℕ
  | first p | next p | prev p | live p | bump p => some p
  | link b => some (b / PAGE)
  | _ => none

theorem Placed.table_range (hc : Placed S h K c) (hp : c.page = none) :
    h.table ≤ c.addr h.table ∧ c.addr h.table + c.width ≤ h.table + LISTS + 4 * h.capacity := by
  cases c <;> simp only [Cell.page, reduceCtorEq] at hp <;>
    simp only [Placed, IsClass] at hc <;>
    simp only [Cell.addr, Cell.width, FREED, SIZES, RECIPROCALS, LISTS] <;> omega

variable {p : ℕ}

theorem Placed.page_entry (hc : Placed S h K c) (hp : c.page = some p) :
    S.entry p = .free ∨ ∃ cls, S.entry p = .small cls := by
  cases c <;> simp only [Cell.page, Option.some.injEq, reduceCtorEq] at hp <;>
    subst hp <;> simp only [Placed] at hc <;> first | exact hc | skip
  obtain ⟨⟨cls, he, -⟩, -⟩ := hc
  exact Or.inr ⟨cls, he⟩

section

variable (hL : Layout S h)
include hL

theorem Placed.page_range (hc : Placed S h K c) (hp : c.page = some p) :
    p * PAGE ≤ c.addr h.table ∧ c.addr h.table + c.width ≤ (p + 1) * PAGE := by
  cases c
  case link b =>
    obtain rfl : b / PAGE = p := by simpa [Cell.page] using hp
    obtain ⟨⟨cls, he, hslot⟩, -⟩ := hc
    have hcls := hL.wf.isClass _ _ he
    have hbd := hslot.bounds hcls (le_refl _)
    have hf := hcls.facts
    simp only [Cell.addr, Cell.width]
    omega
  all_goals
    simp only [Cell.page, Option.some.injEq, reduceCtorEq] at hp
  all_goals
    subst hp
    simp only [Cell.addr, Cell.width, PAGE]
    omega

/-- A page that is not static has none of the table's bytes. -/
theorem Layout.page_table (hp : S.entry p ≠ .static) :
    (p + 1) * PAGE ≤ h.table ∨ h.table + LISTS + 4 * h.capacity ≤ p * PAGE := by
  by_contra hin
  have htab := hL.table_page
  have hcap := hL.capacity_page
  have hmem : h.InTable (p * PAGE) := by
    unfold Heap.InTable
    unfold PAGE LISTS at *
    omega
  exact hp (by simpa [PAGE] using hL.table_static _ hmem)

theorem Layout.page_lt (hp : S.entry p ≠ .static) :
    p < h.capacity ∧ p < h.known ∧ p < 65536 := by
  have h₁ := hL.wf.lt_known hp
  have h₂ := hL.known_le
  have h₃ := hL.known_pages
  have h₄ := hL.pages_limit
  have h₅ := hL.limit_le
  omega

theorem Placed.in_pages (hc : Placed S h K c) :
    c.addr h.table + c.width ≤ h.pages * PAGE := by
  cases hp : c.page with
  | none => exact (hc.table_range hp).2.trans hL.table_pages
  | some p =>
    have hr := hc.page_range hL hp
    have hns : S.entry p ≠ .static := by
      rcases hc.page_entry hp with h | ⟨cls, h⟩ <;> rw [h] <;> exact Entry.noConfusion
    have hk := (hL.page_lt hns).2.1
    have := mul_le_mul_right PAGE (le_trans hk hL.known_pages)
    exact hr.2.trans this

/-- **Cells do not overlap.** -/
theorem Placed.disjoint {c' : Cell} (hc : Placed S h K c) (hc' : Placed S h K c') (hne : c ≠ c') :
    c.addr h.table + c.width ≤ c'.addr h.table ∨ c'.addr h.table + c'.width ≤ c.addr h.table := by
  have hstatic : ∀ {p}, (S.entry p = .free ∨ ∃ cls, S.entry p = .small cls) →
      S.entry p ≠ .static := by
    rintro p (h | ⟨cls, h⟩) <;> rw [h] <;> simp
  cases hp : c.page with
  | none =>
    have hr := hc.table_range hp
    cases hp' : c'.page with
    | none =>
      -- two cells of the table
      cases c <;> simp only [Cell.page, reduceCtorEq] at hp <;>
        cases c' <;> simp only [Cell.page, reduceCtorEq] at hp' <;>
        simp only [Placed, IsClass] at hc hc' <;>
        simp only [ne_eq, reduceCtorEq, not_false_iff, Cell.head.injEq, Cell.freed.injEq,
          Cell.size.injEq, Cell.reciprocal.injEq, Cell.entry.injEq] at hne <;>
        simp only [Cell.addr, Cell.width, FREED, SIZES, RECIPROCALS, LISTS] <;> omega
    | some p' =>
      have hr' := hc'.page_range hL hp'
      have := hL.page_table (hstatic (hc'.page_entry hp'))
      omega
  | some p =>
    have hr := hc.page_range hL hp
    cases hp' : c'.page with
    | none =>
      have hr' := hc'.table_range hp'
      have := hL.page_table (hstatic (hc.page_entry hp))
      omega
    | some p' =>
      have hr' := hc'.page_range hL hp'
      by_cases hpp : p = p'
      · subst hpp
        -- two cells of one page: header words apart, slots apart, or a slot past the header
        have hlink : ∀ b, Placed S h K (.link b) → b / PAGE = p → p * PAGE + 16 ≤ b := by
          rintro b ⟨⟨cls, he, hslot⟩, -⟩ hb
          exact hb ▸ (hslot.bounds (hL.wf.isClass _ _ he) (le_refl _)).1
        cases c <;> simp only [Cell.page, Option.some.injEq, reduceCtorEq] at hp <;>
          cases c' <;> simp only [Cell.page, Option.some.injEq, reduceCtorEq] at hp'
        case link.link b b' =>
          have hbb : b ≠ b' := by simpa using hne
          obtain ⟨⟨cls, he, hslot⟩, -⟩ := hc
          obtain ⟨⟨cls', he', hslot'⟩, -⟩ := hc'
          rw [hp] at he hslot
          rw [hp', he] at he'
          obtain rfl : cls = cls' := by injection he'
          rw [hp'] at hslot'
          have hap := hslot.apart hslot' hbb
          have hf := (hL.wf.isClass _ _ he).facts
          simp only [Cell.addr, Cell.width]
          omega
        case link.first b _ | link.next b _ | link.prev b _ | link.live b _ | link.bump b _ =>
          have := hlink b hc hp
          subst hp'
          simp only [Cell.addr, Cell.width]
          omega
        case first.link _ b | next.link _ b | prev.link _ b | live.link _ b | bump.link _ b =>
          have := hlink b hc' hp'
          subst hp
          simp only [Cell.addr, Cell.width]
          omega
        all_goals
          subst hp
          subst hp'
          first
          | exact absurd rfl hne
          | simp only [Cell.addr, Cell.width]; omega
      · rcases lt_or_gt_of_ne hpp with hlt | hlt
        · have : (p + 1) * PAGE ≤ p' * PAGE := mul_le_mul_right _ hlt
          omega
        · have : (p' + 1) * PAGE ≤ p * PAGE := mul_le_mul_right _ hlt
          omega

/-- **The allocator's cells are its own.** -/
theorem Placed.clear (hK : Clear S h K) (hc : Placed S h K c) {a : ℕ} (ha : c.addr h.table ≤ a)
    (ha' : a < c.addr h.table + c.width) : a ∉ K := by
  intro hmem
  have hholds := fun b (hb : S.Live b) hin => hL.wf.live_page (a := a) hb hin
  cases hp : c.page with
  | none =>
    have hr := hc.table_range hp
    have hin : h.InTable a := ⟨by omega, by omega⟩
    rcases hK.owned a hmem with ⟨-, hnot⟩ | ⟨b, hb, hba⟩
    · exact hnot hin
    · exact (hholds b hb hba).1 (hL.table_static a hin)
  | some p =>
    have hr := hc.page_range hL hp
    have hdiv : a / PAGE = p := by
      rw [succ_mul] at hr
      unfold PAGE at *
      omega
    have hentry := hc.page_entry hp
    rcases hK.owned a hmem with ⟨hst, -⟩ | ⟨b, hb, hba⟩
    · rw [hdiv] at hst
      rcases hentry with h | ⟨cls, h⟩ <;> rw [hst] at h <;> cases h
    · obtain ⟨-, h₂, h₃⟩ := hholds b hb hba
      rw [hdiv] at h₂ h₃
      rcases hentry with h | ⟨cls, h⟩
      · exact h₂ h
      · have hoff := h₃ cls h
        cases c <;> simp only [Cell.page, Option.some.injEq, reduceCtorEq] at hp
        case link x =>
          simp only [Cell.addr, Cell.width] at ha ha'
          exact hc.2 a ha ha' hmem
        all_goals
          subst hp
          simp only [Cell.addr, Cell.width] at ha'
          omega

end

end Placed

end Alloc

end HdLang
