import HdLang.Alloc.Cells

/-!
# Following a run by its cells

`Tracks S K h₀ h f` says that the heap `h`, reached from `h₀` by loads and stores of cells placed
in `S`, has the values `f` in those cells, the same bindings as `h₀`, and the bytes of `K` as they
were. Its rules follow one statement of the allocator's code each. `Rep` reads a shape off the
values, and `Tracks.rep` ends a run with the representation of the new shape.
-/

namespace HdLang

open ByteMem Function Ensures Mem

namespace Alloc

open PointerList

/-! ### The intrinsics -/

section Intrinsics

variable {E : Stop → Prop} {h : Heap} {a v : ℕ}

theorem ensures_load16 {Q : ℕ → Heap → Prop} (hb : a + 2 ≤ h.pages * PAGE)
    (hQ : Q (h.mem.load16 a) h) : Ensures E (load16 a) Q h := by
  unfold load16
  rw [bind_iff, get_iff, if_pos hb]
  exact pure_iff.mpr hQ

theorem ensures_load32 {Q : ℕ → Heap → Prop} (hb : a + 4 ≤ h.pages * PAGE)
    (hQ : Q (h.mem.load32 a) h) : Ensures E (load32 a) Q h := by
  unfold load32
  rw [bind_iff, get_iff, if_pos hb]
  exact pure_iff.mpr hQ

variable {Q : Unit → Heap → Prop}

theorem ensures_store16 (hb : a + 2 ≤ h.pages * PAGE)
    (hQ : Q () { h with mem := h.mem.store16 a v }) : Ensures E (store16 a v) Q h := by
  unfold store16
  rw [bind_iff, get_iff, if_pos hb]
  exact set_iff.mpr hQ

theorem ensures_store32 (hb : a + 4 ≤ h.pages * PAGE)
    (hQ : Q () { h with mem := h.mem.store32 a v }) : Ensures E (store32 a v) Q h := by
  unfold store32
  rw [bind_iff, get_iff, if_pos hb]
  exact set_iff.mpr hQ

theorem ensures_fill {n : ℕ} (hb : a + n ≤ h.pages * PAGE)
    (hQ : Q () { h with mem := h.mem.fill a v n }) : Ensures E (fill a v n) Q h := by
  unfold fill
  rw [bind_iff, get_iff, if_pos hb]
  exact set_iff.mpr hQ

theorem ensures_copy {src n : ℕ} (hb : a + n ≤ h.pages * PAGE) (hb' : src + n ≤ h.pages * PAGE)
    (hQ : Q () { h with mem := h.mem.copy a src n }) :
    Ensures E (copy a src n) Q h := by
  unfold copy
  rw [bind_iff, get_iff, if_pos ⟨hb, hb'⟩]
  exact set_iff.mpr hQ

end Intrinsics

/-! ### Tracking -/

/-- The bindings that say where the allocator's memory is have not changed. -/
structure SameVars (h₀ h : Heap) : Prop where
  pages : h.pages = h₀.pages
  limit : h.limit = h₀.limit
  table : h.table = h₀.table
  capacity : h.capacity = h₀.capacity
  known : h.known = h₀.known

theorem SameVars.refl (h : Heap) : SameVars h h := ⟨rfl, rfl, rfl, rfl, rfl⟩

theorem SameVars.trans {h₀ h₁ h₂ : Heap} (h : SameVars h₀ h₁) (h' : SameVars h₁ h₂) :
    SameVars h₀ h₂ :=
  ⟨h'.pages.trans h.pages, h'.limit.trans h.limit, h'.table.trans h.table,
    h'.capacity.trans h.capacity, h'.known.trans h.known⟩

/-- The heap `h`, reached from `h₀` through the cells placed in `S`, has the values `f` in them
and has not changed the bytes of `K`. -/
structure Tracks (S : Shape) (K : Rest) (h₀ h : Heap) (f : Cell → ℕ) : Prop where
  vars : SameVars h₀ h
  view : ∀ c, Placed S h₀ K c → h.view c = f c
  kept : ∀ a ∈ K, h.mem a = h₀.mem a

theorem Tracks.refl (S : Shape) (K : Rest) (h : Heap) : Tracks S K h h h.view :=
  ⟨SameVars.refl h, fun _ _ => rfl, fun _ _ => rfl⟩

section Tracks

variable {E : Stop → Prop} {S : Shape} {K : Rest} {h₀ h : Heap} {f : Cell → ℕ}

/-- The bindings may change apart from those that say where the memory is. -/
theorem Tracks.of_mem_eq (ht : Tracks S K h₀ h f) {h' : Heap} (hv : SameVars h h')
    (hm : h'.mem = h.mem) : Tracks S K h₀ h' f where
  vars := ht.vars.trans hv
  view c hc := by
    rw [← ht.view c hc]
    simp only [Heap.view, hm, hv.table]
  kept a ha := by rw [hm]; exact ht.kept a ha

theorem Tracks.congr (ht : Tracks S K h₀ h f) {g : Cell → ℕ} (hfg : f = g) :
    Tracks S K h₀ h g := hfg ▸ ht

variable (hL : Layout S h₀) (hK : Clear S h₀ K) (ht : Tracks S K h₀ h f)

include hL hK ht

theorem Tracks.write32 (c : Cell) {v : ℕ} (hc : Placed S h₀ K c) (hw : c.width = 4)
    (hv : v < USIZE) :
    Tracks S K h₀ { h with mem := h.mem.store32 (c.addr h₀.table) v }
      (Function.update f c v) where
  vars := ht.vars.trans ⟨rfl, rfl, rfl, rfl, rfl⟩
  view c' hc' := by
    have htab := ht.vars.table
    by_cases hcc : c' = c
    · subst hcc
      rw [update_self, Heap.view_word hw]
      dsimp only
      rw [htab]
      exact load32_store32 hv
    · rw [update_of_ne hcc, ← ht.view c' hc']
      have hd := hc'.disjoint hL hc hcc
      rcases c'.width_cases with h2 | h4
      · rw [Heap.view_half h2, Heap.view_half h2]
        dsimp only
        rw [htab]
        exact load16_congr fun i hi => store32_of_notMem (by omega)
      · rw [Heap.view_word h4, Heap.view_word h4]
        dsimp only
        rw [htab]
        exact load32_congr fun i hi => store32_of_notMem (by omega)
  kept a ha := by
    rw [← ht.kept a ha]
    refine store32_of_notMem ?_
    by_contra hin
    exact hc.clear hL hK (by omega) (by omega) ha

theorem Tracks.write16 (c : Cell) {v : ℕ} (hc : Placed S h₀ K c) (hw : c.width = 2)
    (hv : v < 65536) :
    Tracks S K h₀ { h with mem := h.mem.store16 (c.addr h₀.table) v }
      (Function.update f c v) where
  vars := ht.vars.trans ⟨rfl, rfl, rfl, rfl, rfl⟩
  view c' hc' := by
    have htab := ht.vars.table
    by_cases hcc : c' = c
    · subst hcc
      rw [update_self, Heap.view_half hw]
      dsimp only
      rw [htab]
      exact load16_store16 hv
    · rw [update_of_ne hcc, ← ht.view c' hc']
      have hd := hc'.disjoint hL hc hcc
      rcases c'.width_cases with h2 | h4
      · rw [Heap.view_half h2, Heap.view_half h2]
        dsimp only
        rw [htab]
        exact load16_congr fun i hi => store16_of_notMem (by omega)
      · rw [Heap.view_word h4, Heap.view_word h4]
        dsimp only
        rw [htab]
        exact load32_congr fun i hi => store16_of_notMem (by omega)
  kept a ha := by
    rw [← ht.kept a ha]
    refine store16_of_notMem ?_
    by_contra hin
    exact hc.clear hL hK (by omega) (by omega) ha

/-! #### Statements -/

omit hK in
theorem Tracks.bound (c : Cell) (hc : Placed S h₀ K c) :
    c.addr h₀.table + c.width ≤ h.pages * PAGE := by
  rw [ht.vars.pages]
  exact hc.in_pages hL

omit hK in
theorem Tracks.load32 (c : Cell) {a : ℕ} (hc : Placed S h₀ K c) (hw : c.width = 4)
    (ha : a = c.addr h₀.table) {Q : ℕ → Heap → Prop} (hQ : Q (f c) h) :
    Ensures E (load32 a) Q h := by
  have hb := ht.bound hL c hc
  refine ensures_load32 (by omega) ?_
  have hview := ht.view c hc
  rw [Heap.view_word hw, ht.vars.table] at hview
  rw [ha, hview]
  exact hQ

section

variable (c : Cell) (hc : Placed S h₀ K c)
include c hc

omit hK in
theorem Tracks.load16 {a : ℕ} (hw : c.width = 2) (ha : a = c.addr h₀.table) {Q : ℕ → Heap → Prop}
    (hQ : Q (f c) h) :
    Ensures E (load16 a) Q h := by
  have hb := ht.bound hL c hc
  refine ensures_load16 (by omega) ?_
  have hview := ht.view c hc
  rw [Heap.view_half hw, ht.vars.table] at hview
  rw [ha, hview]
  exact hQ

theorem Tracks.store32 {a v : ℕ} (hw : c.width = 4) (ha : a = c.addr h₀.table) (hv : v < USIZE)
    {Q : Unit → Heap → Prop} (hQ : ∀ h', Tracks S K h₀ h' (Function.update f c v) → Q () h') :
    Ensures E (store32 a v) Q h := by
  have hb := ht.bound hL c hc
  exact ensures_store32 (by omega) (ha ▸ hQ _ (ht.write32 hL hK c hc hw hv))

theorem Tracks.store16 {a v : ℕ} (hw : c.width = 2) (ha : a = c.addr h₀.table) (hv : v < 65536)
    {Q : Unit → Heap → Prop} (hQ : ∀ h', Tracks S K h₀ h' (Function.update f c v) → Q () h') :
    Ensures E (store16 a v) Q h := by
  have hb := ht.bound hL c hc
  exact ensures_store16 (by omega) (ha ▸ hQ _ (ht.write16 hL hK c hc hw hv))

end

omit hK in
theorem Tracks.head {cls : ℕ} (hc : IsClass cls) {Q : ℕ → Heap → Prop} (hQ : Q (f (.head cls)) h)
    : Ensures E (head cls) Q h := by
  unfold Alloc.head
  rw [bind_iff, get_iff]
  exact ht.load32 hL (.head cls) hc rfl (by rw [ht.vars.table]; rfl) hQ

theorem Tracks.setHead {cls v : ℕ} (hc : IsClass cls) (hv : v < USIZE) {Q : Unit → Heap → Prop}
    (hQ : ∀ h', Tracks S K h₀ h' (Function.update f (.head cls) v) → Q () h') :
    Ensures E (setHead cls v) Q h := by
  unfold Alloc.setHead
  rw [bind_iff, get_iff]
  exact ht.store32 hL hK (.head cls) hc rfl (by rw [ht.vars.table]; rfl) hv hQ

omit hK in
theorem Tracks.entryAt {p : ℕ} (hp : p < h₀.capacity) {Q : ℕ → Heap → Prop}
    (hQ : Q (f (.entry p)) h) : Ensures E (entryAt p) Q h := by
  unfold Alloc.entryAt
  rw [bind_iff, get_iff]
  exact ht.load32 hL (.entry p) hp rfl (by rw [ht.vars.table]; rfl) hQ

theorem Tracks.setEntry {p v : ℕ} (hp : p < h₀.capacity) (hv : v < USIZE) {Q : Unit → Heap → Prop}
    (hQ : ∀ h', Tracks S K h₀ h' (Function.update f (.entry p) v) → Q () h') :
    Ensures E (setEntry p v) Q h := by
  unfold Alloc.setEntry
  rw [bind_iff, get_iff]
  exact ht.store32 hL hK (.entry p) hp rfl (by rw [ht.vars.table]; rfl) hv hQ

omit hK in
theorem Tracks.classBytes {cls : ℕ} (hc : IsClass cls) {Q : ℕ → Heap → Prop}
    (hQ : Q (f (.size cls)) h) : Ensures E (classBytes cls) Q h := by
  unfold Alloc.classBytes
  rw [bind_iff, get_iff]
  exact ht.load32 hL (.size cls) hc rfl (by rw [ht.vars.table]; rfl) hQ

omit hK in
theorem Tracks.full {p cls : ℕ} (hc : IsClass cls)
    (hp : S.entry p = .free ∨ ∃ cls, S.entry p = .small cls) {Q : Bool → Heap → Prop}
    (hQ : Q (decide (f (.first p) = 0 ∧ f (.bump p) * 16 + f (.size cls) > PAGE)) h) :
    Ensures E (full (p * PAGE) cls) Q h := by
  unfold Alloc.full
  rw [bind_iff]
  refine ht.load32 hL (.first p) hp rfl rfl ?_
  rw [ite_iff]
  constructor
  · intro h0
    rw [bind_iff]
    refine ht.load16 hL (.bump p) hp rfl rfl ?_
    rw [bind_iff]
    refine ht.classBytes hL hc ?_
    rw [pure_iff]
    simpa [h0] using hQ
  · intro h0
    rw [pure_iff]
    simpa [h0] using hQ

omit hL hK in
theorem Tracks.lowerHint {p : ℕ} {Q : Unit → Heap → Prop} (hQ : ∀ h', Tracks S K h₀ h' f → Q () h')
    : Ensures E (lowerHint p) Q h := by
  unfold Alloc.lowerHint
  rw [modify_iff]
  split
  · exact hQ _ (ht.of_mem_eq ⟨rfl, rfl, rfl, rfl, rfl⟩ rfl)
  · exact hQ _ ht

omit ht in
/-- The entries of the pages from `p` on after `setEntries`. -/
theorem Tracks.setEntries {e : ℕ} (he : e < USIZE) {Q : Unit → Heap → Prop} :
    ∀ {n p : ℕ} {h : Heap} {f : Cell → ℕ}, Tracks S K h₀ h f → p + n ≤ h₀.capacity →
      (∀ h', Tracks S K h₀ h' (fun c => match c with
        | .entry q => if p ≤ q ∧ q < p + n then e else f (.entry q)
        | c => f c) → Q () h') →
      Ensures E (setEntries e p n) Q h := by
  intro n
  induction n with
  | zero =>
    intro p h f ht _ hQ
    unfold Alloc.setEntries
    rw [pure_iff]
    refine hQ h (ht.congr (funext fun c => ?_))
    cases c <;> simp only
    rw [if_neg (by omega)]
  | succ n ih =>
    intro p h f ht hcap hQ
    unfold Alloc.setEntries
    rw [bind_iff]
    refine ht.setEntry hL hK (by omega) he fun h₁ ht₁ => ?_
    refine ih ht₁ (by omega) fun h₂ ht₂ => hQ h₂ (ht₂.congr (funext fun c => ?_))
    cases c <;> simp only [Function.update, reduceCtorEq, dite_eq_ite, if_false, eq_rec_constant,
      Cell.entry.injEq]
    next q => split_ifs <;> first | rfl | omega

theorem Tracks.zeroEntries {n p : ℕ} (hcap : p + n ≤ h₀.capacity) :
    Tracks S K h₀ { h with mem := h.mem.fill (h₀.table + LISTS + 4 * p) 0 (4 * n) }
      (fun c => match c with
        | .entry q => if p ≤ q ∧ q < p + n then 0 else f (.entry q)
        | c => f c) := by
  induction n with
  | zero =>
    rw [Nat.mul_zero, fill_none]
    refine ht.congr (funext fun c => ?_)
    cases c <;> simp only
    rw [if_neg (by omega)]
  | succ n ih =>
    have haddr : h₀.table + LISTS + 4 * p + 4 * n = (Cell.entry (p + n)).addr h₀.table := by
      simp only [Cell.addr]
      omega
    rw [Nat.mul_succ, fill_zero_add_four, haddr]
    have hlt : p + n < h₀.capacity := by omega
    refine ((ih (by omega)).write32 hL hK (.entry (p + n)) hlt rfl (by decide)).congr
      (funext fun c => ?_)
    cases c <;> simp only [Function.update, reduceCtorEq, dite_eq_ite, if_false, eq_rec_constant,
      Cell.entry.injEq]
    next q => split_ifs <;> first | rfl | omega

/-- The header words of a page after `fill(page, 0, 14)`: all but the bump offset are 0. -/
theorem Tracks.zeroHeader {p : ℕ} (hp : S.entry p = .free ∨ ∃ cls, S.entry p = .small cls) :
    Tracks S K h₀ { h with mem := h.mem.fill (p * PAGE) 0 14 }
      (Function.update (Function.update (Function.update (Function.update f (.first p) 0)
        (.next p) 0) (.prev p) 0) (.live p) 0) := by
  have h₁ := ht.write32 hL hK (.first p) (v := 0) hp rfl (by decide)
  have h₂ := h₁.write32 hL hK (.next p) (v := 0) hp rfl (by decide)
  have h₃ := h₂.write32 hL hK (.prev p) (v := 0) hp rfl (by decide)
  have h₄ := h₃.write16 hL hK (.live p) (v := 0) hp rfl (by decide)
  have hm : h.mem.fill (p * PAGE) 0 14 = (((h.mem.store32 (p * PAGE) 0).store32 (p * PAGE + 4)
      0).store32 (p * PAGE + 8) 0).store16 (p * PAGE + 12) 0 := by
    rw [show (14 : ℕ) = 0 + 4 + 4 + 4 + 2 from rfl, fill_zero_add_two, fill_zero_add_four,
      fill_zero_add_four, fill_zero_add_four, fill_none,
      Nat.add_zero]
  rw [hm]
  simpa only [Cell.addr] using h₄

end Tracks

end Alloc

end HdLang
