import HdLang.Alloc.Tracking

/-!
# The invariant of the heap

`Rep f S known` says that the values `f` of the allocator's cells stand for the shape `S`: the
list heads, the page-table entries, each small page's header and the links of every list. `Inv`
joins it to the layout. `Tracks.inv` ends a run: the tracked values stand for the new shape.
-/

namespace HdLang

open ByteMem

namespace Alloc

open PointerList

/-- The values `f` of the cells link the pages of each class into its list. -/
structure Linked (f : Cell → ℕ) (list : ℕ → List ℕ) : Prop where
  head : ∀ c, IsClass c → f (.head c) = PAGE * (list c).headD 0
  next : ∀ c, IsClass c → ∀ p ∈ list c, f (.next p) = PAGE * after (list c) p
  prev : ∀ c, IsClass c → ∀ p ∈ list c, f (.prev p) = PAGE * before 0 (list c) p

/-- The values `f` of the cells stand for the shape `S`. -/
structure Rep (f : Cell → ℕ) (S : Shape) (known : ℕ) : Prop extends Linked f S.list where
  freed : ∀ c, IsClass c → f (.freed c) = (S.freed c).headD 0
  size : ∀ c, IsClass c → f (.size c) = bytesOf c
  reciprocal : ∀ c, IsClass c → f (.reciprocal c) = reciprocals.getD (c - 1) 0
  entry : ∀ p < known, f (.entry p) = (S.entry p).code
  first : ∀ p c, S.entry p = .small c → f (.first p) = (S.free p).headD 0
  live : ∀ p c, S.entry p = .small c → f (.live p) = S.carved p - (S.free p).length
  bump : ∀ p c, S.entry p = .small c → f (.bump p) * 16 = 16 + S.carved p * bytesOf c
  linkFree : ∀ p c, S.entry p = .small c → ∀ b ∈ S.free p, f (.link b) = after (S.free p) b
  linkFreed : ∀ c, IsClass c → ∀ b ∈ S.freed c, f (.link b) = after (S.freed c) b

/-- **The invariant** of the heap between the allocator's operations. -/
structure Inv (S : Shape) (h : Heap) : Prop extends Layout S h where
  rep : Rep h.view S h.known

/-- From `h` to `h'` the bindings that say where the memory is and the bytes of `K` have not
changed. -/
structure Frame (K : Rest) (h h' : Heap) : Prop where
  vars : SameVars h h'
  kept : ∀ a ∈ K, h'.mem a = h.mem a

theorem Frame.refl (K : Rest) (h : Heap) : Frame K h h := ⟨SameVars.refl h, fun _ _ => rfl⟩

theorem Frame.trans {K : Rest} {h₀ h₁ h₂ : Heap} (h : Frame K h₀ h₁) (h' : Frame K h₁ h₂) :
    Frame K h₀ h₂ :=
  ⟨h.vars.trans h'.vars, fun a ha => (h'.kept a ha).trans (h.kept a ha)⟩

theorem Tracks.frame {S : Shape} {K : Rest} {h₀ h : Heap} {f : Cell → ℕ} (ht : Tracks S K h₀ h f)
    : Frame K h₀ h := ⟨ht.vars, ht.kept⟩

variable {known p c : ℕ}

section Transport

variable {S : Shape} {h h' : Heap} {K : Rest}

theorem SameVars.inTable (hv : SameVars h h') (a : ℕ) : h'.InTable a ↔ h.InTable a := by
  unfold Heap.InTable
  rw [hv.table, hv.capacity]

theorem Layout.of_sameVars (hL : Layout S h) (hv : SameVars h h') : Layout S h' := by
  obtain ⟨h₁, h₂, h₃, h₄, h₅⟩ := hv
  constructor
  · exact h₅ ▸ hL.wf
  · exact h₃ ▸ hL.table_pos
  · exact h₃ ▸ hL.table_page
  · exact h₄ ▸ hL.capacity_page
  · exact h₅ ▸ h₄ ▸ hL.known_le
  · exact h₅ ▸ h₁ ▸ hL.known_pages
  · exact h₁ ▸ h₂ ▸ hL.pages_limit
  · exact h₂ ▸ hL.limit_le
  · rw [h₃, h₄, h₁]
    exact hL.table_pages
  · intro a ha
    refine hL.table_static a ?_
    unfold Heap.InTable at *
    rwa [h₃, h₄] at ha

theorem Clear.of_sameVars (hK : Clear S h K) (hv : SameVars h h') : Clear S h' K where
  foreign a ha := by
    rw [hv.inTable]
    exact hK.foreign a ha
  held := hK.held
  bound a ha := by
    rw [hv.pages]
    exact hK.bound a ha

theorem Clear.mono (hK : Clear S h K) {K' : Rest} (hf : K'.foreign ⊆ K.foreign)
    (hh : K'.held ⊆ K.held) : Clear S h K' :=
  ⟨fun a ha => hK.foreign a (hf ha), fun a ha => hK.held a (hh ha), fun a ha =>
    hK.bound a (ha.imp (fun h => hf h) fun h => hh h)⟩

variable {b : ℕ}

/-- A slot on a list has no byte the rest of the program owns. -/
theorem Clear.notMem_slot (hS : S.WF known) (hK : Clear S h K) (he : S.entry p = .small c)
    (hslot : IsSlot p c (S.carved p) b) (hdead : ¬S.Live b) {a : ℕ} (ha : b ≤ a)
    (ha' : a < b + bytesOf c) : a ∉ K := by
  intro hmem
  have hbd := hslot.bounds (hS.isClass _ _ he) (hS.carved_le _ _ he)
  have hdiv : a / PAGE = p := by
    rw [Nat.succ_mul] at hbd
    unfold PAGE at *
    omega
  rcases hK.owned a hmem with ⟨hst, -⟩ | ⟨b', hb', hin⟩
  · rw [hdiv, he] at hst
    cases hst
  · have hhome := hS.home_eq hb' hin
    rw [hdiv, Shape.home, he] at hhome
    simp only at hhome
    have hne : b ≠ b' := by
      rintro rfl
      exact hdead hb'
    have hsz : S.size b' = bytesOf c := by
      unfold Shape.size
      rw [← hhome, he]
    rcases hb' with ⟨c', he', hslot', -⟩ | ⟨n, he', -⟩
    · rw [← hhome] at he' hslot'
      obtain rfl : c = c' := by rw [he] at he'; injection he'
      have hap := hslot.apart hslot' hne
      obtain ⟨h₁, h₂⟩ := hin
      rw [hsz] at h₂
      omega
    · rw [← hhome, he] at he'
      cases he'

theorem Shape.WF.free_not_live (hS : S.WF known) (he : S.entry p = .small c) (hb : b ∈ S.free p)
    : ¬S.Live b := by
  have hdiv := (hS.free_slot p c he b hb).div (hS.isClass _ _ he) (hS.carved_le _ _ he)
  rintro (⟨c', -, -, h, -⟩ | ⟨n, h, -⟩)
  · rw [hdiv] at h
    exact h hb
  · rw [hdiv, he] at h
    cases h

theorem Shape.WF.freed_not_live (hS : S.WF known) (hc : IsClass c) (hb : b ∈ S.freed c)
    : ¬S.Live b := by
  obtain ⟨he, -⟩ := hS.freed_slot c hc b hb
  rintro (⟨c', h₁, -, -, h₂⟩ | ⟨n, h, -⟩)
  · obtain rfl : c = c' := by rw [he] at h₁; injection h₁
    exact h₂ hb
  · rw [he] at h
    cases h

end Transport

section Finish

variable {S S' : Shape} {K : Rest} {h₀ h : Heap} {f : Cell → ℕ}

/-- The values `g` stand for a shape when they are those of `f` in the placed cells. Its small pages
were small pages before, or were free and have no slot carved. -/
theorem Rep.congr {g : Cell → ℕ} (hwf : S'.WF known) (hknown : known ≤ h₀.capacity)
    (hK' : Clear S' h₀ K) (hsmall : ∀ p c, S'.entry p = .small c →
      S.entry p = .small c ∨ S.entry p = .free ∧ S'.carved p = 0) (hR : Rep f S' known)
    (hg : ∀ c, Placed S h₀ K c → (∀ p, c = .entry p → p < known) → g c = f c) :
    Rep g S' known := by
  have hheader : ∀ p c, S'.entry p = .small c →
      S.entry p = .free ∨ ∃ cls, S.entry p = .small cls := by
    intro p c hp
    rcases hsmall p c hp with h | ⟨h, -⟩
    · exact Or.inr ⟨c, h⟩
    · exact Or.inl h
  have hlink : ∀ p c b, S'.entry p = .small c → IsSlot p c (S'.carved p) b → ¬S'.Live b →
      Placed S h₀ K (.link b) := by
    intro p c b hp hslot hdead
    have hcls := hwf.isClass _ _ hp
    have hle := hwf.carved_le _ _ hp
    have hdiv := hslot.div hcls hle
    have hf := hcls.facts
    refine ⟨⟨c, ?_, ?_⟩, fun a ha ha' => hK'.notMem_slot hwf hp hslot hdead ha (by omega)⟩
    · rw [hdiv]
      rcases hsmall p c hp with h | ⟨-, h⟩
      · exact h
      · obtain ⟨k, hk, -⟩ := hslot
        omega
    · rw [hdiv]
      exact hslot.mono hle
  constructor
  case toLinked =>
    constructor
    case head => exact fun c hc => (hg (.head c) hc (by simp)).trans (hR.head c hc)
    case next =>
      intro c hc p hp
      have he := ((hwf.mem_list c hc p).mp hp).1
      exact (hg (.next p) (hheader p c he) (by simp)).trans (hR.next c hc p hp)
    case prev =>
      intro c hc p hp
      have he := ((hwf.mem_list c hc p).mp hp).1
      exact (hg (.prev p) (hheader p c he) (by simp)).trans (hR.prev c hc p hp)
  case freed => exact fun c hc => (hg (.freed c) hc (by simp)).trans (hR.freed c hc)
  case size => exact fun c hc => (hg (.size c) hc (by simp)).trans (hR.size c hc)
  case reciprocal =>
    exact fun c hc => (hg (.reciprocal c) hc (by simp)).trans (hR.reciprocal c hc)
  case entry =>
    intro p hp
    exact (hg (.entry p) (Nat.lt_of_lt_of_le hp hknown) (by simpa using hp)).trans (hR.entry p hp)
  case first =>
    exact fun p c hp => (hg (.first p) (hheader p c hp) (by simp)).trans (hR.first p c hp)
  case live =>
    exact fun p c hp => (hg (.live p) (hheader p c hp) (by simp)).trans (hR.live p c hp)
  case bump =>
    intro p c hp
    rw [hg (.bump p) (hheader p c hp) (by simp)]
    exact hR.bump p c hp
  case linkFree =>
    intro p c hp b hb
    have hslot := hwf.free_slot p c hp b hb
    exact (hg (.link b) (hlink p c b hp hslot (hwf.free_not_live hp hb)) (by simp)).trans
      (hR.linkFree p c hp b hb)
  case linkFreed =>
    intro c hc b hb
    obtain ⟨he, hslot, -⟩ := hwf.freed_slot c hc b hb
    exact (hg (.link b) (hlink _ c b he hslot (hwf.freed_not_live hc hb)) (by simp)).trans
      (hR.linkFreed c hc b hb)

theorem Tracks.rep (ht : Tracks S K h₀ h f) (hwf : S'.WF known) (hknown : known ≤ h₀.capacity)
    (hK' : Clear S' h₀ K) (hsmall : ∀ p c, S'.entry p = .small c →
      S.entry p = .small c ∨ S.entry p = .free ∧ S'.carved p = 0) (hR : Rep f S' known)
    : Rep h.view S' known :=
  hR.congr hwf hknown hK' hsmall fun c hc _ => ht.view c hc

/-- **The end of a run.** -/
theorem Tracks.inv (ht : Tracks S K h₀ h f) (hL' : Layout S' h₀) (hK' : Clear S' h₀ K)
    (hsmall : ∀ p c, S'.entry p = .small c →
      S.entry p = .small c ∨ S.entry p = .free ∧ S'.carved p = 0) (hR : Rep f S' h₀.known)
    : Inv S' h := by
  refine ⟨hL'.of_sameVars ht.vars, ?_⟩
  rw [ht.vars.known]
  exact ht.rep hL'.wf hL'.known_le hK' hsmall hR

/-- The invariant is about the bytes and the bindings that say where the memory is. -/
theorem Inv.of_mem_eq (hI : Inv S h) {h' : Heap} (hv : SameVars h h') (hm : h'.mem = h.mem) :
    Inv S h' := by
  refine ⟨hI.toLayout.of_sameVars hv, ?_⟩
  have hview : h'.view = h.view := by
    funext c
    simp only [Heap.view, hm, hv.table]
  rw [hview, hv.known]
  exact hI.rep

end Finish

/-! ### Reading the table -/

theorem and_LOW (n : ℕ) : n &&& LOW = n % SMALL := by
  have := Nat.and_two_pow_sub_one_eq_mod n 30
  simpa [LOW, SMALL] using this

theorem Entry.code_small (hc : IsClass c) : (Entry.small c).code / SMALL = 1 ∧
    (Entry.small c).code ≠ SMALL ∧ (Entry.small c).code &&& LOW = c := by
  obtain ⟨h₁, h₂⟩ := hc
  rw [and_LOW]
  simp only [Entry.code, SMALL]
  omega

theorem Entry.code_run {n : ℕ} (hn : n < SMALL) : (Entry.run n).code / SMALL = 2 ∧
    (Entry.run n).code &&& LOW = n := by
  rw [and_LOW]
  simp only [Entry.code, RUN, SMALL] at *
  omega

theorem Entry.code_rest (hp : p < SMALL) : (Entry.rest p).code / SMALL = 3 ∧
    (Entry.rest p).code &&& LOW = p := by
  rw [and_LOW]
  simp only [Entry.code, REST, SMALL] at *
  omega

/-- The code's test for a full page, from what the page's header holds. -/
theorem full_iff {first bump carved : ℕ} {free : List ℕ} (hc : IsClass c) (h0 : 0 ∉ free)
    (hle : carved ≤ slotsOf c) (hfirst : first = free.headD 0)
    (hbump : bump * 16 = 16 + carved * bytesOf c) :
    (first = 0 ∧ bump * 16 + bytesOf c > PAGE) ↔ free = [] ∧ carved = slotsOf c := by
  have hf := hc.facts
  rw [hfirst, hbump, headD_eq_zero_iff h0]
  refine and_congr_right fun _ => ?_
  constructor
  · intro hgt
    by_contra hne
    have hmul : (carved + 1) * bytesOf c ≤ slotsOf c * bytesOf c :=
      Nat.mul_le_mul_right _ (by omega)
    rw [Nat.succ_mul] at hmul
    omega
  · intro heq
    have := hf.2.2.2.2.2
    rw [Nat.succ_mul] at this
    rw [heq]
    omega

theorem Shape.WF.zero_notMem_free {S : Shape} (hS : S.WF known) (he : S.entry p = .small c)
    : 0 ∉ S.free p := by
  intro h
  have := ((hS.free_slot p c he 0 h).bounds (hS.isClass p c he) (hS.carved_le p c he)).1
  omega

theorem Shape.WF.zero_notMem_freed {S : Shape} (hS : S.WF known) (hc : IsClass c) :
    0 ∉ S.freed c := by
  intro h
  obtain ⟨he, hslot, -⟩ := hS.freed_slot c hc 0 h
  have := (hslot.bounds (hS.isClass _ _ he) (hS.carved_le _ _ he)).1
  omega

/-- The code's test for a full page is the shape's. -/
theorem Rep.full {f : Cell → ℕ} {S : Shape} (hR : Rep f S known) (hS : S.WF known)
    (he : S.entry p = .small c) :
    (f (.first p) = 0 ∧ f (.bump p) * 16 + f (.size c) > PAGE) ↔ S.Full p c := by
  have hcls := hS.isClass p c he
  rw [hR.size c hcls]
  exact full_iff hcls (hS.zero_notMem_free he) (hS.carved_le p c he) (hR.first p c he)
    (hR.bump p c he)

end Alloc

end HdLang
