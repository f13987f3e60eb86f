import HdLang.Cycle.Mark

/-!
# The scan phase

A gray object with a count left is held by something that the mark did not reach: `scan` paints it and
all it references black and gives their counts back. The other gray objects turn white, and a white
one that a black object reaches turns black after all. `Scanning` is the walk's invariant: `V` are the
objects that the mark reached, `pending` those whose references are still taken off, and `scans` and
`restores` the references that the running trace has still to visit.
-/

namespace HdLang

open Ensures List Nat

namespace Cycle

open RefGraph

/-- The objects whose references' counts are not given back: those that are not black, and those that
are to be restored. -/
def pending (V : Finset ℕ) (s : State) : Finset ℕ :=
  V.filter fun x => s.colorOf x ≠ .black ∨ x + RESTORE ∈ s.stack.items

/-- `x` is held by something that the mark did not reach. -/
def Pinned (blockOf outside : ℕ → ℕ) (G : Graph) (V : Finset ℕ) (x : ℕ) : Prop :=
  ∃ y ∈ G.parts, (0 < G.outer blockOf outside y ∨ y ∉ V) ∧ Reach (G.succ blockOf) y x

/-- What the mark phase reached: closed under references, with exact counts. -/
structure Reached (blockOf outside : ℕ → ℕ) (G : Graph) (count : ℕ → ℕ) (V : Finset ℕ) : Prop
    extends Walkable blockOf G count where
  parts : V ⊆ G.parts
  succ : ∀ y ∈ V, ∀ x ∈ G.succ blockOf y, x ∈ V
  aligned : ∀ x ∈ V, x % 16 = 0
  exact : ∀ x ∈ G.parts,
    count x = held (G.succ blockOf) G.parts x + G.outer blockOf outside x
  word : ∀ x ∈ G.parts, count x < USIZE

/-- **The scan walk's invariant.** `D` are the candidates scanned so far. -/
structure Scanning (blockOf outside : ℕ → ℕ) (G : Graph) (count : ℕ → ℕ) (V : Finset ℕ)
    (D : ℕ → Prop) (scans restores : List ℕ) (s : State) : Prop where
  graph : s.graph = G
  counts : ∀ x ∈ G.parts,
    s.count x + held (G.succ blockOf) (pending V s) x + restores.count x = count x
  entries : ∀ e ∈ s.stack.items,
    ∃ x ∈ V, e = x + SCAN ∨ (e = x + RESTORE ∧ s.colorOf x = .black)
  once : ∀ x ∈ V, s.stack.items.count (x + RESTORE) ≤ 1
  scans_mem : ∀ z ∈ scans, z ∈ V
  restores_mem : ∀ z ∈ restores, z ∈ V ∧ Pinned blockOf outside G V z
  white : ∀ x ∈ V, s.colorOf x = .white → s.count x = 0
  unseen : ∀ x ∈ G.parts, x ∉ V → s.colorOf x = .black
  scanned : ∀ x ∈ V, s.colorOf x = .white → ∀ y ∈ G.succ blockOf x,
    s.colorOf y ≠ .gray ∨ y + SCAN ∈ s.stack.items ∨ y ∈ scans
  restored : ∀ x ∈ V, x ∉ pending V s → ∀ y ∈ G.succ blockOf x,
    s.colorOf y = .black ∨ y ∈ restores
  pinned : ∀ x ∈ V, s.colorOf x = .black → Pinned blockOf outside G V x
  seen : ∀ r ∈ V, D r → s.colorOf r ≠ .gray ∨ r + SCAN ∈ s.stack.items

/-- What an object of a color can still put on the work list, and itself. -/
def weight (blockOf : ℕ → ℕ) (G : Graph) (x : ℕ) : Color → ℕ
  | .gray => (G.succ blockOf x).length + 1
  | .white => 1
  | .black => 0

/-- The turns a scan can still take. -/
def scanTurns (blockOf : ℕ → ℕ) (G : Graph) (V : Finset ℕ) (s : State) : ℕ :=
  s.stack.items.length + ∑ x ∈ V, weight blockOf G x (s.colorOf x)

section Scan

variable {E : Stop → Prop} {blockOf outside : ℕ → ℕ} {build : Build} {release : ℕ → Run Unit}
  {G : Graph} {count : ℕ → ℕ} {V : Finset ℕ} {D : ℕ → Prop} {scans restores : List ℕ} {s : State}
  {t b e : ℕ}

theorem scan_ne_restore {x y : ℕ} (hx : x % 16 = 0) (hy : y % 16 = 0) : x + SCAN ≠ y + RESTORE := by
  unfold SCAN RESTORE
  omega

variable {x : ℕ}

theorem mem_pending : x ∈ pending V s ↔
    x ∈ V ∧ (s.colorOf x ≠ .black ∨ x + RESTORE ∈ s.stack.items) := Finset.mem_filter

theorem mem_pending_of_color {x : ℕ} (hx : x ∈ V) (hc : s.colorOf x ≠ .black) : x ∈ pending V s :=
  mem_pending.mpr ⟨hx, Or.inl hc⟩

/-- A reference from a pinned object pins its target. -/
theorem Pinned.step {y : ℕ} (h : Pinned blockOf outside G V y) (hx : x ∈ G.succ blockOf y) :
    Pinned blockOf outside G V x := by
  obtain ⟨z, hz, hz', hr⟩ := h
  exact ⟨z, hz, hz', hr.tail hx⟩

variable {s' : State}

namespace Scanning

theorem of_eq (hS : Scanning blockOf outside G count V D scans restores s)
    (hgraph : s'.graph = s.graph) (hcount : s'.count = s.count) (hcolor : s'.colorOf = s.colorOf)
    (hstack : s'.stack.items = s.stack.items) :
    Scanning blockOf outside G count V D scans restores s' := by
  have hpending : pending V s' = pending V s := by simp only [pending, hcolor, hstack]
  obtain ⟨h₁, h₂, h₃, h₄, h₅, h₆, h₇, h₈, h₉, h₁₀, h₁₁, h₁₂⟩ := hS
  constructor
  · exact hgraph.trans h₁
  · rwa [hcount, hpending]
  · rwa [hstack, hcolor]
  · rwa [hstack]
  · exact h₅
  · exact h₆
  · rwa [hcolor, hcount]
  · rwa [hcolor]
  · rwa [hcolor, hstack]
  · rwa [hpending, hcolor]
  · rwa [hcolor]
  · rwa [hcolor, hstack]

section

variable (hR : Reached blockOf outside G count V)
include hR

theorem black_of_mem (hS : Scanning blockOf outside G count V D scans restores s) (ht : t ∈ V)
    (h : t + RESTORE ∈ s.stack.items) : s.colorOf t = .black := by
  obtain ⟨x, hx, hxe | ⟨hxe, hb⟩⟩ := hS.entries _ h
  · have h₁ := hR.aligned t ht
    have h₂ := hR.aligned x hx
    unfold SCAN RESTORE at hxe
    omega
  · rw [add_right_cancel hxe]
    exact hb

theorem pinned_of_pos (hS : Scanning blockOf outside G count V D scans [] s) (hb : b ∈ V)
    (hpos : 0 < s.count b) :
    Pinned blockOf outside G V b := by
  have hp := hR.parts hb
  have hcount := hS.counts b hp
  have hexact := hR.exact b hp
  have hsub : pending V s ⊆ G.parts := (Finset.filter_subset _ _).trans hR.parts
  rw [count_nil] at hcount
  rcases Nat.eq_zero_or_pos (G.outer blockOf outside b) with h0 | h0
  · obtain ⟨y, hy, hyP, hby⟩ := exists_of_held_lt hsub
      (show held (G.succ blockOf) (pending V s) b < held (G.succ blockOf) G.parts b by omega)
    by_cases hyV : y ∈ V
    · have hblack : s.colorOf y = .black := by
        by_contra hc
        exact hyP (mem_pending_of_color hyV hc)
      exact (hS.pinned y hyV hblack).step hby
    · exact ⟨y, hy, Or.inr hyV, .single hby⟩
  · exact ⟨b, hp, Or.inl h0, .refl⟩

theorem listed (hS : Scanning blockOf outside G count V D (t :: scans) restores s) :
    Scanning blockOf outside G count V D scans restores (s.pushed (t + SCAN)) := by
  have ht := hS.scans_mem t mem_cons_self
  have hne : ∀ x ∈ V, x + RESTORE ≠ t + SCAN := fun x hx =>
    (scan_ne_restore (hR.aligned t ht) (hR.aligned x hx)).symm
  have hpending : pending V (s.pushed (t + SCAN)) = pending V s :=
    Finset.filter_congr fun x hx => by simp [hne x hx]
  have hmem : ∀ {e}, e ∈ s.stack.items → e ∈ (s.pushed (t + SCAN)).stack.items := fun he =>
    mem_append_left _ he
  have hlast : t + SCAN ∈ (s.pushed (t + SCAN)).stack.items := by simp
  constructor
  · exact hS.graph
  · rw [hpending]
    exact hS.counts
  · intro e he
    rcases mem_append.mp he with he | he
    · exact hS.entries e he
    · exact ⟨t, ht, Or.inl (mem_singleton.mp he)⟩
  · intro x hx
    rw [State.stack_pushed, count_append, count_singleton, if_neg (by simpa using (hne x hx).symm)]
    exact hS.once x hx
  · exact fun z hz => hS.scans_mem z (mem_cons_of_mem _ hz)
  · exact hS.restores_mem
  · exact hS.white
  · exact hS.unseen
  · intro x hx hw y hy
    rcases hS.scanned x hx hw y hy with h | h | h
    · exact Or.inl h
    · exact Or.inr (Or.inl (hmem h))
    · rcases mem_cons.mp h with rfl | h
      · exact Or.inr (Or.inl hlast)
      · exact Or.inr (Or.inr h)
  · rw [hpending]
    exact hS.restored
  · exact hS.pinned
  · exact fun r hrV hr => (hS.seen r hrV hr).imp_right hmem

theorem restored_visit (hS : Scanning blockOf outside G count V D scans (t :: restores) s) :
    Scanning blockOf outside G count V D scans restores (s.restored t) := by
  obtain ⟨ht, htp⟩ := hS.restores_mem t mem_cons_self
  have hcounts : ∀ x ∈ G.parts, (if x = t then s.count t + 1 else s.count x) +
      held (G.succ blockOf) (pending V s) x + restores.count x = count x := by
    intro x hx
    have h := hS.counts x hx
    split
    · next hxt =>
      subst hxt
      rw [count_cons_self] at h
      omega
    · next hxt => rwa [count_cons_of_ne (Ne.symm hxt)] at h
  unfold State.restored
  split
  · next hblack =>
    have hpending : pending V (s.counted t (s.count t + 1)) = pending V s := by
      simp [pending]
    constructor
    · simp [hS.graph]
    · intro x hx
      simpa [hpending] using hcounts x hx
    · simpa using hS.entries
    · simpa using hS.once
    · exact hS.scans_mem
    · exact fun z hz => hS.restores_mem z (mem_cons_of_mem _ hz)
    · intro x hx hw
      rw [State.color_counted] at hw
      have hxt : x ≠ t := by
        rintro rfl
        rw [hblack] at hw
        cases hw
      rw [State.count_counted, if_neg hxt]
      exact hS.white x hx hw
    · simpa using hS.unseen
    · simpa using hS.scanned
    · intro x hx hxp y hy
      rw [State.color_counted]
      rcases hS.restored x hx (hpending ▸ hxp) y hy with h | h
      · exact Or.inl h
      · rcases mem_cons.mp h with rfl | h
        · exact Or.inl hblack
        · exact Or.inr h
    · simpa using hS.pinned
    · simpa using hS.seen
  · next hpale =>
    have hnew : t + RESTORE ∉ s.stack.items := fun h => hpale (hS.black_of_mem hR ht h)
    have hcolor : ∀ x, (((s.counted t (s.count t + 1)).painted t .black).pushed (t + RESTORE)).colorOf x =
        if x = t then .black else s.colorOf x := by
      intro x
      simp
    have hstack : (((s.counted t (s.count t + 1)).painted t .black).pushed (t + RESTORE)).stack.items =
        s.stack.items ++ [t + RESTORE] := rfl
    have hcount : ∀ x, (((s.counted t (s.count t + 1)).painted t .black).pushed (t + RESTORE)).count x =
        if x = t then s.count t + 1 else s.count x := by
      intro x
      simp
    have hgraph : (((s.counted t (s.count t + 1)).painted t .black).pushed (t + RESTORE)).graph = G := by
      simp [hS.graph]
    generalize ((s.counted t (s.count t + 1)).painted t .black).pushed (t + RESTORE) = s' at *
    have hkeep : ∀ {x}, s.colorOf x = .black → s'.colorOf x = .black := by
      intro x hx
      rw [hcolor]
      split
      · rfl
      · exact hx
    have hpending : pending V s' = pending V s := by
      refine Finset.filter_congr fun x hx => ?_
      rw [hcolor, hstack]
      by_cases hxt : x = t
      · subst hxt
        simp [hpale]
      · simp [hxt]
    constructor
    · exact hgraph
    · intro x hx
      rw [hcount, hpending]
      exact hcounts x hx
    · intro e he
      rw [hstack] at he
      rcases mem_append.mp he with he | he
      · obtain ⟨x, hx, hxe | ⟨hxe, hb⟩⟩ := hS.entries e he
        · exact ⟨x, hx, Or.inl hxe⟩
        · exact ⟨x, hx, Or.inr ⟨hxe, hkeep hb⟩⟩
      · exact ⟨t, ht, Or.inr ⟨mem_singleton.mp he, by rw [hcolor, if_pos rfl]⟩⟩
    · intro x hx
      rw [hstack, count_append, count_singleton]
      by_cases hxt : x = t
      · subst hxt
        rw [count_eq_zero.mpr hnew]
        split <;> omega
      · rw [if_neg (by simpa using Ne.symm hxt)]
        exact hS.once x hx
    · exact hS.scans_mem
    · exact fun z hz => hS.restores_mem z (mem_cons_of_mem _ hz)
    · intro x hx hw
      rw [hcolor] at hw
      split at hw
      · cases hw
      · next hxt =>
        rw [hcount, if_neg hxt]
        exact hS.white x hx hw
    · exact fun x hx hxV => hkeep (hS.unseen x hx hxV)
    · intro x hx hw y hy
      rw [hcolor] at hw
      split at hw
      · cases hw
      · rw [hcolor, hstack]
        rcases hS.scanned x hx hw y hy with h | h | h
        · refine Or.inl ?_
          split
          · simp
          · exact h
        · exact Or.inr (Or.inl (mem_append_left _ h))
        · exact Or.inr (Or.inr h)
    · intro x hx hxp y hy
      rcases hS.restored x hx (hpending ▸ hxp) y hy with h | h
      · exact Or.inl (hkeep h)
      · rcases mem_cons.mp h with rfl | h
        · exact Or.inl (by rw [hcolor, if_pos rfl])
        · exact Or.inr h
    · intro x hx hb
      rw [hcolor] at hb
      split at hb
      · next hxt => exact hxt ▸ htp
      · exact hS.pinned x hx hb
    · intro r hrV hr
      rw [hcolor, hstack]
      refine (hS.seen r hrV hr).imp (fun h => ?_) fun h => mem_append_left _ h
      split
      · simp
      · exact h

end

variable {xs : List ℕ}

/-- Taking an entry off the work list that is no restore leaves the same objects pending. -/
theorem pending_popped (hstack : s.stack.items = xs ++ [e]) (hV : ∀ x ∈ V, x % 16 = 0) (ht : t ∈ V)
    (he : e = t + SCAN) (hcolor : s'.colorOf = s.colorOf) (hxs : s'.stack.items = xs)
    : pending V s' = pending V s := by
  refine Finset.filter_congr fun x hx => ?_
  have hne : x + RESTORE ≠ e := fun h => scan_ne_restore (hV t ht) (hV x hx) (he ▸ h.symm)
  rw [hcolor, hxs, hstack]
  simp [hne]

section

variable (hR : Reached blockOf outside G count V) (hS : Scanning blockOf outside G count V D [] [] s) (hstack : s.stack.items = xs ++ [e]) (ht : t ∈ V)
include hR hS hstack ht

theorem skipped (he : e = t + SCAN) (hpale : s.colorOf t ≠ .gray) (hgraph : s'.graph = s.graph)
    (hcount : s'.count = s.count) (hcolor : s'.colorOf = s.colorOf) (hxs : s'.stack.items = xs) :
    Scanning blockOf outside G count V D [] [] s' := by
  have hpending : pending V s' = pending V s := pending_popped hstack hR.aligned ht he hcolor hxs
  have hsub : ∀ {e'}, e' ∈ xs → e' ∈ s.stack.items := fun h => hstack ▸ mem_append_left _ h
  have hleft : ∀ {y}, s.colorOf y ≠ .gray ∨ y + SCAN ∈ s.stack.items →
      s'.colorOf y ≠ .gray ∨ y + SCAN ∈ s'.stack.items := by
    intro y h
    rw [hcolor, hxs]
    rcases h with h | h
    · exact Or.inl h
    · rw [hstack, mem_append, mem_singleton] at h
      rcases h with h | h
      · exact Or.inr h
      · rw [he] at h
        rw [add_right_cancel h]
        exact Or.inl hpale
  constructor
  · exact hgraph.trans hS.graph
  · rw [hpending, hcount]
    exact hS.counts
  · intro e' he'
    rw [hcolor]
    exact hS.entries e' (hsub (hxs ▸ he'))
  · intro x hx
    have hle := hS.once x hx
    rw [hstack, count_append] at hle
    rw [hxs]
    omega
  · exact fun z hz => absurd hz not_mem_nil
  · exact fun z hz => absurd hz not_mem_nil
  · rw [hcolor, hcount]
    exact hS.white
  · rw [hcolor]
    exact hS.unseen
  · intro x hx hw y hy
    rw [hcolor] at hw
    rcases hS.scanned x hx hw y hy with h | h | h
    · exact (hleft (Or.inl h)).imp_right Or.inl
    · exact (hleft (Or.inr h)).imp_right Or.inl
    · cases h
  · rw [hpending, hcolor]
    exact hS.restored
  · rw [hcolor]
    exact hS.pinned
  · exact fun r hrV hr => hleft (hS.seen r hrV hr)

/-- A gray object with a count left is to be restored. -/
theorem revived (he : e = t + SCAN) (hgray : s.colorOf t = .gray) (hpos : 0 < s.count t)
    (hgraph : s'.graph = s.graph) (hcount : s'.count = s.count)
    (hcolor : ∀ x, s'.colorOf x = if x = t then .black else s.colorOf x)
    (hxs : s'.stack.items = xs ++ [t + RESTORE]) :
    Scanning blockOf outside G count V D [] [] s' := by
  have hfresh : t + RESTORE ∉ s.stack.items := fun h => by
    rw [hS.black_of_mem hR ht h] at hgray
    cases hgray
  have hfreshxs : t + RESTORE ∉ xs := fun h => hfresh (hstack ▸ mem_append_left _ h)
  have hne : ∀ x ∈ V, x + RESTORE ≠ e := fun x hx h =>
    scan_ne_restore (hR.aligned t ht) (hR.aligned x hx) (he ▸ h.symm)
  have hpending : pending V s' = pending V s := by
    refine Finset.filter_congr fun x hx => ?_
    rw [hcolor, hxs, hstack]
    by_cases hxt : x = t
    · subst hxt
      simp [hgray]
    · simp [hxt, hne x hx]
  have hkeep : ∀ {x}, s.colorOf x = .black → s'.colorOf x = .black := by
    intro x hx
    rw [hcolor]
    split
    · rfl
    · exact hx
  have hleft : ∀ {y}, s.colorOf y ≠ .gray ∨ y + SCAN ∈ s.stack.items →
      s'.colorOf y ≠ .gray ∨ y + SCAN ∈ s'.stack.items := by
    intro y h
    rw [hcolor, hxs]
    by_cases hyt : y = t
    · exact Or.inl (by simp [hyt])
    · rw [if_neg hyt]
      refine h.imp_right fun h => ?_
      rw [hstack, mem_append, mem_singleton] at h
      refine mem_append_left _ (h.resolve_right fun h => hyt ?_)
      exact add_right_cancel (h.trans he)
  constructor
  · exact hgraph.trans hS.graph
  · rw [hpending, hcount]
    exact hS.counts
  · intro e' he'
    rw [hxs] at he'
    rcases mem_append.mp he' with h | h
    · obtain ⟨x, hx, hxe | ⟨hxe, hb⟩⟩ := hS.entries e' (hstack ▸ mem_append_left _ h)
      · exact ⟨x, hx, Or.inl hxe⟩
      · exact ⟨x, hx, Or.inr ⟨hxe, hkeep hb⟩⟩
    · exact ⟨t, ht, Or.inr ⟨mem_singleton.mp h, by rw [hcolor, if_pos rfl]⟩⟩
  · intro x hx
    have hle := hS.once x hx
    rw [hstack, count_append] at hle
    rw [hxs, count_append, count_singleton]
    by_cases hxt : x = t
    · rw [hxt, count_eq_zero.mpr hfreshxs]
      split <;> omega
    · rw [if_neg (by simpa using Ne.symm hxt)]
      omega
  · exact fun z hz => absurd hz not_mem_nil
  · exact fun z hz => absurd hz not_mem_nil
  · intro x hx hw
    rw [hcolor] at hw
    split at hw
    · cases hw
    · rw [hcount]
      exact hS.white x hx hw
  · exact fun x hx hxV => hkeep (hS.unseen x hx hxV)
  · intro x hx hw y hy
    rw [hcolor] at hw
    split at hw
    · cases hw
    · rcases hS.scanned x hx hw y hy with h | h | h
      · exact (hleft (Or.inl h)).imp_right Or.inl
      · exact (hleft (Or.inr h)).imp_right Or.inl
      · cases h
  · intro x hx hxp y hy
    rcases hS.restored x hx (hpending ▸ hxp) y hy with h | h
    · exact Or.inl (hkeep h)
    · cases h
  · intro x hx hb
    rw [hcolor] at hb
    split at hb
    · next hxt => exact hxt ▸ hS.pinned_of_pos hR ht hpos
    · exact hS.pinned x hx hb
  · exact fun r hrV hr => hleft (hS.seen r hrV hr)

/-- A gray object with no count left turns white, and what it references is to be scanned. -/
theorem whitened (he : e = t + SCAN) (hgray : s.colorOf t = .gray) (hzero : s.count t = 0)
    (hgraph : s'.graph = s.graph) (hcount : s'.count = s.count)
    (hcolor : ∀ x, s'.colorOf x = if x = t then .white else s.colorOf x) (hxs : s'.stack.items = xs)
    :
    Scanning blockOf outside G count V D (G.succ blockOf t) [] s' := by
  have hne : ∀ x ∈ V, x + RESTORE ≠ e := fun x hx h =>
    scan_ne_restore (hR.aligned t ht) (hR.aligned x hx) (he ▸ h.symm)
  have hpending : pending V s' = pending V s := by
    refine Finset.filter_congr fun x hx => ?_
    rw [hcolor, hxs, hstack]
    by_cases hxt : x = t
    · subst hxt
      simp [hgray]
    · simp [hxt, hne x hx]
  have hback : ∀ {x}, s'.colorOf x = .black ↔ s.colorOf x = .black := by
    intro x
    rw [hcolor]
    split
    · next hxt => simp [hxt, hgray]
    · rfl
  have hleft : ∀ {y}, s.colorOf y ≠ .gray ∨ y + SCAN ∈ s.stack.items →
      s'.colorOf y ≠ .gray ∨ y + SCAN ∈ s'.stack.items := by
    intro y h
    rw [hcolor, hxs]
    by_cases hyt : y = t
    · exact Or.inl (by simp [hyt])
    · rw [if_neg hyt]
      refine h.imp_right fun h => ?_
      rw [hstack, mem_append, mem_singleton] at h
      exact h.resolve_right fun h => hyt (add_right_cancel (h.trans he))
  constructor
  · exact hgraph.trans hS.graph
  · rw [hpending, hcount]
    exact hS.counts
  · intro e' he'
    obtain ⟨x, hx, hxe | ⟨hxe, hb⟩⟩ := hS.entries e' (hstack ▸ mem_append_left _ (hxs ▸ he'))
    · exact ⟨x, hx, Or.inl hxe⟩
    · exact ⟨x, hx, Or.inr ⟨hxe, hback.mpr hb⟩⟩
  · intro x hx
    have hle := hS.once x hx
    rw [hstack, count_append] at hle
    rw [hxs]
    omega
  · exact fun z hz => hR.succ t ht z hz
  · exact fun z hz => absurd hz not_mem_nil
  · intro x hx hw
    rw [hcount]
    rw [hcolor] at hw
    split at hw
    · next hxt => exact hxt ▸ hzero
    · exact hS.white x hx hw
  · exact fun x hx hxV => hback.mpr (hS.unseen x hx hxV)
  · intro x hx hw y hy
    by_cases hxt : x = t
    · exact Or.inr (Or.inr (hxt ▸ hy))
    · rw [hcolor, if_neg hxt] at hw
      rcases hS.scanned x hx hw y hy with h | h | h
      · exact (hleft (Or.inl h)).imp_right Or.inl
      · exact (hleft (Or.inr h)).imp_right Or.inl
      · cases h
  · intro x hx hxp y hy
    exact (hS.restored x hx (hpending ▸ hxp) y hy).imp_left hback.mpr
  · exact fun x hx hb => hS.pinned x hx (hback.mp hb)
  · exact fun r hrV hr => hleft (hS.seen r hrV hr)

/-- The references of a black object get their counts back. -/
theorem returning (he : e = t + RESTORE) (hblack : s.colorOf t = .black)
    (hgraph : s'.graph = s.graph) (hcount : s'.count = s.count) (hcolor : s'.colorOf = s.colorOf)
    (hxs : s'.stack.items = xs) :
    Scanning blockOf outside G count V D [] (G.succ blockOf t) s' := by
  have hmem : t + RESTORE ∈ s.stack.items := by
    rw [hstack, he]
    simp
  have hgone : t + RESTORE ∉ xs := by
    intro h
    have hle := hS.once t ht
    rw [hstack, he, count_append, count_singleton, if_pos (by simp)] at hle
    have := count_pos_iff.mpr h
    omega
  have hpending : pending V s' = (pending V s).erase t := by
    ext x
    rw [Finset.mem_erase, mem_pending, mem_pending, hcolor, hxs, hstack, he]
    by_cases hxt : x = t
    · subst hxt
      simp [hblack, hgone]
    · simp [hxt]
  have htp : t ∈ pending V s := mem_pending.mpr ⟨ht, Or.inr hmem⟩
  have hleft : ∀ {y}, y ∈ V → s.colorOf y ≠ .gray ∨ y + SCAN ∈ s.stack.items →
      s'.colorOf y ≠ .gray ∨ y + SCAN ∈ s'.stack.items := by
    intro y hy h
    rw [hcolor, hxs]
    refine h.imp_right fun h => ?_
    rw [hstack, mem_append, mem_singleton] at h
    exact h.resolve_right fun h => scan_ne_restore (hR.aligned y hy) (hR.aligned t ht) (h.trans he)
  constructor
  · exact hgraph.trans hS.graph
  · intro x hx
    have h := hS.counts x hx
    have hadd : (G.succ blockOf t).count x + held (G.succ blockOf) ((pending V s).erase t) x =
        held (G.succ blockOf) (pending V s) x := held_erase htp
    rw [hpending, hcount]
    rw [count_nil] at h
    omega
  · intro e' he'
    rw [hcolor]
    exact hS.entries e' (hstack ▸ mem_append_left _ (hxs ▸ he'))
  · intro x hx
    have hle := hS.once x hx
    rw [hstack, count_append] at hle
    rw [hxs]
    omega
  · exact fun z hz => absurd hz not_mem_nil
  · exact fun z hz => ⟨hR.succ t ht z hz, (hS.pinned t ht hblack).step hz⟩
  · rw [hcolor, hcount]
    exact hS.white
  · rw [hcolor]
    exact hS.unseen
  · intro x hx hw y hy
    rw [hcolor] at hw
    rcases hS.scanned x hx hw y hy with h | h | h
    · exact (hleft (hR.succ x hx y hy) (Or.inl h)).imp_right Or.inl
    · exact (hleft (hR.succ x hx y hy) (Or.inr h)).imp_right Or.inl
    · cases h
  · intro x hx hxp y hy
    rw [hcolor]
    by_cases hxt : x = t
    · exact Or.inr (hxt ▸ hy)
    · rw [hpending, Finset.mem_erase, not_and] at hxp
      exact (hS.restored x hx (hxp hxt) y hy).imp_right fun h => absurd h not_mem_nil
  · rw [hcolor]
    exact hS.pinned
  · exact fun r hrV hr => hleft hrV (hS.seen r hrV hr)

end

end Scanning

/-! ### Turns -/

theorem sum_weight (blockOf : ℕ → ℕ) (G : Graph) (ht : t ∈ V) {c : Color}
    (hcolor : ∀ x, s'.colorOf x = if x = t then c else s.colorOf x) :
    (∑ x ∈ V, weight blockOf G x (s'.colorOf x)) + weight blockOf G t (s.colorOf t) =
      (∑ x ∈ V, weight blockOf G x (s.colorOf x)) + weight blockOf G t c := by
  have hrest : ∑ x ∈ V.erase t, weight blockOf G x (s'.colorOf x) =
      ∑ x ∈ V.erase t, weight blockOf G x (s.colorOf x) := by
    refine Finset.sum_congr rfl fun x hx => ?_
    rw [hcolor, if_neg (Finset.ne_of_mem_erase hx)]
  rw [← Finset.add_sum_erase V _ ht, ← Finset.add_sum_erase V (fun x => weight blockOf G x (s.colorOf x)) ht,
    hrest, hcolor, if_pos rfl]
  omega

/-- The turns left once one object has changed its color. -/
theorem scanTurns_colored (blockOf : ℕ → ℕ) (G : Graph) (ht : t ∈ V) {c : Color}
    (hcolor : ∀ x, s'.colorOf x = if x = t then c else s.colorOf x) :
    scanTurns blockOf G V s' + s.stack.items.length + weight blockOf G t (s.colorOf t) =
      scanTurns blockOf G V s + s'.stack.items.length + weight blockOf G t c := by
  have := sum_weight blockOf G ht hcolor
  unfold scanTurns
  omega

theorem Still.restored (hp : s.graph.part t) : Still s (s.restored t) := by
  unfold State.restored
  split
  · exact Still.counted hp
  · refine ((Still.counted hp).trans (Still.painted ?_)).trans Still.pushed
    rwa [State.graph_counted]

@[simp] theorem State.mode_restored : (s.restored t).mode = s.mode := by
  unfold State.restored
  split <;> rfl

theorem scanTurns_restored (ht : t ∈ V) :
    scanTurns blockOf G V (s.restored t) ≤ scanTurns blockOf G V s := by
  unfold State.restored
  split
  · simp [scanTurns]
  · next hpale =>
    have hcolor : ∀ x, (((s.counted t (s.count t + 1)).painted t .black).pushed
        (t + RESTORE)).colorOf x = if x = t then .black else s.colorOf x := fun x => by simp
    have hturns := scanTurns_colored blockOf G ht hcolor
    have hpos : 0 < weight blockOf G t (s.colorOf t) := by
      cases hc : s.colorOf t with
      | black => exact absurd hc hpale
      | gray => exact succ_pos _
      | white => exact one_pos
    rw [State.stack_pushed, State.stack_painted, State.stack_counted, length_append,
      length_singleton] at hturns
    simp only [weight] at hturns hpos
    omega

variable {s₀ : State}

section

variable (hR : Reached blockOf outside G count V)
include hR

theorem restoreTrace_spec {n : ℕ}
    (hS : Scanning blockOf outside G count V D [] (G.succ blockOf t) s) (hm : s.mode = .restore)
    (hstill : Still s₀ s) (hturns : scanTurns blockOf G V s ≤ n) :
    Ensures E (cycleTrace blockOf build release t) (fun _ s' =>
      Scanning blockOf outside G count V D [] [] s' ∧ Still s₀ s' ∧ scanTurns blockOf G V s' ≤ n) s := by
  refine cycleTrace_spec (I := fun holds s' => s'.mode = .restore ∧ Still s₀ s' ∧
    scanTurns blockOf G V s' ≤ n ∧
      Scanning blockOf outside G count V D [] (G.blocks blockOf holds) s') ?_ ?_
    ⟨hm, hstill, hturns, ?_⟩
  · rintro hold holds s' ⟨hm, hst, hle, hS⟩
    cases hb : G.block blockOf hold with
    | none =>
      rw [Graph.blocks_cons_none hb] at hS
      exact traceHold_none (by simp [hm]) (by simp [hm]) hS.graph hb ⟨hm, hst, hle, hS⟩
    | some t =>
      rw [Graph.blocks_cons_some hb] at hS
      have ht := (hS.restores_mem t mem_cons_self).1
      have hp : s'.graph.part t := hS.graph ▸ (G.mem_parts.mp (hR.parts ht)).2
      have hlt : s'.count t + 1 < USIZE := by
        have hcount := hS.counts t (hR.parts ht)
        have hword := hR.word t (hR.parts ht)
        rw [count_cons_self] at hcount
        omega
      refine traceHold_restore hm hS.graph hb hlt ⟨by simp [hm], hst.trans (Still.restored hp), ?_,
        hS.restored_visit hR⟩
      exact (scanTurns_restored ht).trans hle
  · rintro s' ⟨-, hst, hle, hS⟩
    exact ⟨hS, hst, hle⟩
  · rw [hS.graph]
    exact hS

theorem scanTrace_spec {n : ℕ} (hS : Scanning blockOf outside G count V D (G.succ blockOf t) [] s)
    (hm : s.mode = .scan) (hstill : Still s₀ s)
    (hturns : scanTurns blockOf G V s + (G.succ blockOf t).length ≤ n) :
    Ensures E (cycleTrace blockOf build release t) (fun _ s' =>
      Scanning blockOf outside G count V D [] [] s' ∧ Still s₀ s' ∧ scanTurns blockOf G V s' ≤ n) s := by
  refine cycleTrace_spec (I := fun holds s' => s'.mode = .scan ∧ Still s₀ s' ∧
    scanTurns blockOf G V s' + (G.blocks blockOf holds).length ≤ n ∧
      Scanning blockOf outside G count V D (G.blocks blockOf holds) [] s') ?_ ?_
    ⟨hm, hstill, ?_, ?_⟩
  · rintro hold holds s' ⟨hm, hst, hle, hS⟩
    cases hb : G.block blockOf hold with
    | none =>
      rw [Graph.blocks_cons_none hb] at hS hle
      exact traceHold_none (by simp [hm]) (by simp [hm]) hS.graph hb ⟨hm, hst, hle, hS⟩
    | some t =>
      rw [Graph.blocks_cons_some hb] at hS hle
      refine traceHold_scan hm hS.graph hb ⟨hm, hst.trans Still.pushed, ?_, hS.listed hR⟩
      simp only [scanTurns, State.stack_pushed, State.color_pushed, length_append, length_cons,
        length_nil] at hle ⊢
      omega
  · rintro s' ⟨-, hst, hle, hS⟩
    exact ⟨hS, hst, hle⟩
  · rw [hS.graph]
    exact hturns
  · rw [hS.graph]
    exact hS

/-- **`scan`'s walk** settles all that the work list lists. -/
theorem scanFrom_spec :
    ∀ (fuel : ℕ) {s : State}, Scanning blockOf outside G count V D [] [] s → s.mode = .idle →
      Still s₀ s → scanTurns blockOf G V s < fuel →
      Ensures E (scanFrom (cycleTrace blockOf build release) fuel)
        (fun _ s' => Scanning blockOf outside G count V D [] [] s' ∧ s'.stack.items = [] ∧
          s'.mode = .idle ∧ Still s₀ s') s := by
  intro fuel
  induction fuel with
  | zero => exact fun _ _ _ h => absurd h (Nat.not_lt_zero _)
  | succ fuel ih =>
    intro s hS hidle hstill hturns
    rw [scanFrom, bind_iff, get_iff, ite_iff]
    refine ⟨fun hlen => ?_, fun hlen => ?_⟩
    · have hne : s.stack.items ≠ [] := ne_nil_of_length_pos hlen
      obtain ⟨xs, e, hxs⟩ := s.stack.items.eq_nil_or_concat.resolve_left hne
      rw [concat_eq_append] at hxs
      have htop : s.stack.top = e := by rw [Items.top, hxs]; simp
      have hpop : s.stack.pop.items = xs := by rw [Items.pop, hxs]; simp
      simp only [popStack, bind_iff, get_iff, set_iff, pure_iff]
      rw [htop]
      obtain ⟨n, hn⟩ : ∃ n, scanTurns blockOf G V s = n + 1 := by
        refine Nat.exists_eq_succ_of_ne_zero ?_
        rw [Items.length] at hlen
        unfold scanTurns
        omega
      have hlenxs : s.stack.items.length = xs.length + 1 := by rw [hxs]; simp
      -- what the rest of the walk needs of the state it starts from
      have hloop : ∀ {s' : State}, s'.mode = .idle → Scanning blockOf outside G count V D [] [] s' →
          Still s₀ s' → scanTurns blockOf G V s' ≤ n →
            Ensures E (scanFrom (cycleTrace blockOf build release) fuel) (fun _ s' =>
              Scanning blockOf outside G count V D [] [] s' ∧ s'.stack.items = [] ∧
                s'.mode = .idle ∧ Still s₀ s') s' := fun hm' hS' hst' hle' =>
        ih hS' hm' hst' (by omega)
      have hrest : ∀ {s' : State}, Scanning blockOf outside G count V D [] [] s' ∧ Still s₀ s' ∧
          scanTurns blockOf G V s' ≤ n → Ensures E (do
            setMode .idle
            scanFrom (cycleTrace blockOf build release) fuel) (fun _ s' =>
              Scanning blockOf outside G count V D [] [] s' ∧ s'.stack.items = [] ∧
                s'.mode = .idle ∧ Still s₀ s') s' := by
        rintro s' ⟨hS', hst', hle'⟩
        rw [bind_iff, ensures_setMode]
        exact hloop rfl (hS'.of_eq rfl rfl rfl rfl) (hst'.trans .walk) hle'
      -- the state without the entry
      replace hpop : (State.stack { s with stack := s.stack.pop }).items = xs := hpop
      have hgraph : State.graph { s with stack := s.stack.pop } = s.graph := rfl
      have hcount : State.count { s with stack := s.stack.pop } = s.count := rfl
      have hcolor : State.colorOf { s with stack := s.stack.pop } = s.colorOf := rfl
      have hidle' : State.mode { s with stack := s.stack.pop } = .idle := hidle
      have hstill' : Still s₀ { s with stack := s.stack.pop } := hstill.trans .walk
      have hturn : ∀ {s' : State}, s'.colorOf = s.colorOf → s'.stack.items = xs →
          scanTurns blockOf G V s' ≤ n := by
        intro s' hc hst
        have hsame : scanTurns blockOf G V s' + 1 = scanTurns blockOf G V s := by
          rw [scanTurns, scanTurns, hc, hst, hlenxs, Nat.add_right_comm]
        omega
      generalize { s with stack := s.stack.pop } = p at *
      obtain ⟨x, hx, he | ⟨he, hblack⟩⟩ := hS.entries e (by rw [hxs]; simp)
      · -- an object to scan
        have hx16 := hR.aligned x hx
        have hp : p.graph.part x := by
          rw [hgraph, hS.graph]
          exact (G.mem_parts.mp (hR.parts hx)).2
        have hb : e - e % 16 = x := by unfold SCAN at he; omega
        have hmod : e % 16 ≠ RESTORE := by unfold SCAN at he; unfold RESTORE; omega
        rw [if_neg hmod, hb, bind_iff, ensures_color, ite_iff, hcolor]
        refine ⟨fun hgray => ?_, fun hpale => ?_⟩
        · rw [bind_iff, ensures_load, ite_iff, hcount]
          refine ⟨fun hpos => ?_, fun hzero => ?_⟩
          · simp only [bind_iff, ensures_paint, ensures_pushStack]
            have hcolor' : ∀ y, ((p.painted x .black).pushed (x + RESTORE)).colorOf y =
                if y = x then .black else s.colorOf y := fun y => by
              rw [State.color_pushed, State.color_painted, hcolor]
            have hstack' : ((p.painted x .black).pushed (x + RESTORE)).stack.items =
                xs ++ [x + RESTORE] := by
              rw [State.stack_pushed, State.stack_painted, hpop]
            refine hloop hidle' (hS.revived hR hxs hx he hgray hpos ?_ ?_ hcolor' hstack')
              (hstill'.trans ((Still.painted hp).trans Still.pushed)) ?_
            · rw [State.graph_pushed, State.graph_painted, hgraph]
            · funext y
              rw [State.count_pushed, State.count_painted, hcount]
            · have hturns' := scanTurns_colored blockOf G hx hcolor'
              rw [hstack', length_append, length_singleton, hgray] at hturns'
              simp only [weight] at hturns'
              omega
          · simp only [bind_iff, ensures_paint, ensures_setMode]
            have hgraph' : (p.painted x .white).graph = s.graph := State.graph_painted.trans hgraph
            have hcount' : (p.painted x .white).count = s.count := by
              funext y
              rw [State.count_painted, hcount]
            have hcolor' : ∀ y, (p.painted x .white).colorOf y =
                if y = x then .white else s.colorOf y := fun y => by
              rw [State.color_painted, hcolor]
            have hstack' : (p.painted x .white).stack.items = xs := hpop
            have hturns' := scanTurns_colored blockOf G hx hcolor'
            have hstill'' : Still s₀ (p.painted x .white) := hstill'.trans (.painted hp)
            have hS' := hS.whitened hR hxs hx he hgray (Nat.eq_zero_of_not_pos hzero) hgraph' hcount'
              hcolor' hstack'
            generalize p.painted x .white = q at *
            have hS'' : Scanning blockOf outside G count V D (G.succ blockOf x) []
                { q with mode := .scan } := hS'.of_eq rfl rfl rfl rfl
            refine (scanTrace_spec (n := n) hR hS'' rfl (hstill''.trans .walk) ?_).mono fun _ s' h => ?_
            · rw [hstack', hgray] at hturns'
              simp only [weight] at hturns'
              show scanTurns blockOf G V q + _ ≤ n
              omega
            · have := hrest h
              rwa [bind_iff, ensures_setMode] at this
        · exact hloop hidle' (hS.skipped hR hxs hx he hpale hgraph hcount hcolor hpop) hstill'
            (hturn hcolor hpop)
      · -- an object to restore
        have hx16 := hR.aligned x hx
        have hb : e - e % 16 = x := by unfold RESTORE at he; omega
        have hmod : e % 16 = RESTORE := by unfold RESTORE at *; omega
        have hS' := hS.returning hR hxs hx he hblack hgraph hcount hcolor hpop
        rw [if_pos hmod, hb]
        simp only [bind_iff, ensures_setMode]
        have hS'' : Scanning blockOf outside G count V D [] (G.succ blockOf x)
            { p with mode := .restore } := hS'.of_eq rfl rfl rfl rfl
        refine (restoreTrace_spec hR hS'' rfl (hstill'.trans .walk)
          (hturn hcolor hpop)).mono fun _ s' h => ?_
        have := hrest h
        rwa [bind_iff, ensures_setMode] at this
    · rw [pure_iff]
      refine ⟨hS, ?_, hidle, hstill⟩
      rwa [Items.length, Nat.not_lt, Nat.le_zero, length_eq_zero_iff] at hlen

/-! ### The candidates -/

theorem Scanning.rooted (hS : Scanning blockOf outside G count V D [] [] s) (ht : t ∈ V) :
    Scanning blockOf outside G count V (fun r => D r ∨ r = t) [] [] (s.pushed (t + SCAN)) := by
  have hlist : Scanning blockOf outside G count V D [t] [] s :=
    { hS with
      scans_mem := fun z hz => mem_singleton.mp hz ▸ ht
      scanned := fun x hx hw y hy => (hS.scanned x hx hw y hy).imp_right
        (Or.imp_right fun h => absurd h not_mem_nil) }
  have hpushed := hlist.listed hR
  refine { hpushed with seen := ?_ }
  rintro r hrV (hr | rfl)
  · exact hpushed.seen r hrV hr
  · exact Or.inr (by simp)

end

/-- The turns that any walk of a collection can take. -/
def Graph.size (G : Graph) : ℕ := ∑ x ∈ G.live, ((G.glue x).length + 1)

theorem Graph.length_succ_le {x : ℕ} : (G.succ blockOf x).length ≤ (G.glue x).length :=
  length_filterMap_le _ _

theorem Graph.card_parts_le : G.parts.card ≤ G.size := by
  calc G.parts.card ≤ G.live.card := Finset.card_filter_le _ _
    _ = ∑ _x ∈ G.live, 1 := (Finset.card_eq_sum_ones _)
    _ ≤ G.size := Finset.sum_le_sum fun x _ => succ_le_succ (zero_le _)

theorem sum_weight_le (blockOf : ℕ → ℕ) (hV : V ⊆ G.parts) (s : State) :
    ∑ x ∈ V, weight blockOf G x (s.colorOf x) ≤ G.size := by
  have hle : ∀ x, weight blockOf G x (s.colorOf x) ≤ (G.glue x).length + 1 := by
    intro x
    have : (G.succ blockOf x).length ≤ (G.glue x).length := Graph.length_succ_le
    cases s.colorOf x <;> simp only [weight] <;> omega
  calc ∑ x ∈ V, weight blockOf G x (s.colorOf x)
      ≤ ∑ x ∈ V, ((G.glue x).length + 1) := Finset.sum_le_sum fun x _ => hle x
    _ ≤ G.size := Finset.sum_le_sum_of_subset (hV.trans (Finset.filter_subset _ _))

/-- **`scan`** of a candidate. -/
theorem scan_spec (hR : Reached blockOf outside G count V) {fuel : ℕ}
    (hS : Scanning blockOf outside G count V D [] [] s) (hs : s.stack.items = [])
    (hidle : s.mode = .idle) (ht : t ∈ V) (hfuel : G.size + 1 < fuel) :
    Ensures E (scan (cycleTrace blockOf build release) fuel t)
      (fun _ s' => Scanning blockOf outside G count V (fun r => D r ∨ r = t) [] [] s' ∧
        s'.stack.items = [] ∧ s'.mode = .idle ∧ Still s s') s := by
  rw [scan, bind_iff, ensures_pushStack]
  refine scanFrom_spec hR fuel (hS.rooted hR ht) hidle Still.pushed ?_
  have hle := sum_weight_le blockOf hR.parts (s.pushed (t + SCAN))
  simp only [scanTurns, State.stack_pushed, hs, nil_append, length_singleton]
  omega

/-- The scan phase at entry `i` of the buffer, which it leaves as it was in `s₀`. -/
structure ScanLoop (blockOf outside : ℕ → ℕ) (G : Graph) (count : ℕ → ℕ) (V : Finset ℕ) (s₀ : State)
    (i : ℕ) (s : State) : Prop where
  still : Still s₀ s
  stack : s.stack.items = []
  mode : s.mode = .idle
  scanning : Scanning blockOf outside G count V (Seen G s₀.roots.items i) [] [] s

theorem Scanning.mono (hS : Scanning blockOf outside G count V D scans restores s) {D' : ℕ → Prop}
    (hD : ∀ r, D' r → D r) : Scanning blockOf outside G count V D' scans restores s :=
  { hS with seen := fun r hrV hr => hS.seen r hrV (hD r hr) }

/-- **The scan phase**: every candidate is scanned. -/
theorem scanRoots_spec (hR : Reached blockOf outside G count V) {fuel : ℕ}
    (hroots : ∀ r ∈ s₀.roots.items, r ≠ 0 → G.part r → r ∈ V) (hfuel : G.size + 1 < fuel)
    (h : ScanLoop blockOf outside G count V s₀ 0 s) :
    Ensures E (eachRoot (fun _ r => scan (cycleTrace blockOf build release) fuel r)
        s₀.roots.items.length 0)
      (fun _ s' => ScanLoop blockOf outside G count V s₀ s₀.roots.items.length s') s := by
  refine eachRoot_spec (I := ScanLoop blockOf outside G count V s₀) ?_ ?_ s₀.roots.items.length
    (zero_add _) h
  · rintro i s hi ⟨hst, hs, hm, hS⟩ hskip
    refine ⟨hst, hs, hm, hS.mono fun r hr => ?_⟩
    refine ⟨((mem_take_succ hi).mp hr.1).resolve_right ?_, hr.2⟩
    rintro rfl
    refine hskip ?_
    rw [Items.item, hst.roots, hS.graph]
    exact hr.2
  · rintro i s hi ⟨hst, hs, hm, hS⟩ hne hp
    have hitem : s.roots.item i = s₀.roots.items.getD i 0 := by rw [Items.item, hst.roots]
    have hmem : s.roots.item i ∈ s₀.roots.items := by
      rw [hitem, getD_of_lt hi]
      exact getElem_mem hi
    refine (scan_spec hR hS hs hm (hroots _ hmem hne (hS.graph ▸ hp)) hfuel).mono ?_
    rintro _ s' ⟨hS', hs', hm', hst'⟩
    refine ⟨hst.trans hst', hs', hm', hS'.mono ?_⟩
    rintro r ⟨hr, hr'⟩
    rcases (mem_take_succ hi).mp hr with h | h
    · exact Or.inl ⟨h, hr'⟩
    · exact Or.inr (h.trans hitem.symm)

/-! ### What is left -/

/-- What the scan phase leaves: `W` are the objects that are white, held by nothing but each other. -/
structure Settled (blockOf outside : ℕ → ℕ) (G : Graph) (count : ℕ → ℕ) (W : Finset ℕ) (s : State) :
    Prop where
  graph : s.graph = G
  parts : W ⊆ G.parts
  counts : ∀ x ∈ G.parts, s.count x + held (G.succ blockOf) W x = count x
  outer : ∀ x ∈ W, G.outer blockOf outside x = 0
  back : ∀ x ∈ W, ∀ y ∈ G.parts, x ∈ G.succ blockOf y → y ∈ W
  color : ∀ x ∈ G.parts, s.colorOf x = if x ∈ W then .white else .black

/-- When the work list is empty and every object reached is reached from a candidate that was
scanned, no gray object is left. -/
theorem Scanning.not_gray (hR : Reached blockOf outside G count V)
    (hS : Scanning blockOf outside G count V D [] [] s) (hs : s.stack.items = []) {r : ℕ} (hr : D r)
    (hrV : r ∈ V) (hrx : Reach (G.succ blockOf) r x) : x ∈ V ∧ s.colorOf x ≠ .gray := by
  have hempty : ∀ e, e ∉ s.stack.items := fun e => by rw [hs]; exact not_mem_nil
  refine hrx.closed (S := fun x => x ∈ V ∧ s.colorOf x ≠ .gray) ?_
    ⟨hrV, (hS.seen r hrV hr).resolve_right (hempty _)⟩
  rintro a b ⟨haV, ha⟩ hb
  refine ⟨hR.succ a haV b hb, ?_⟩
  cases hc : s.colorOf a with
  | gray => exact absurd hc ha
  | white =>
    refine (hS.scanned a haV hc b hb).resolve_right ?_
    rintro (h | h)
    · exact hempty _ h
    · cases h
  | black =>
    have hap : a ∉ pending V s := fun h => by
      rcases (mem_pending.mp h).2 with h | h
      · exact h hc
      · exact hempty _ h
    rw [(hS.restored a haV hap b hb).resolve_right not_mem_nil]
    simp

/-- **What the scan phase leaves**, when every object of `V` is reached from a scanned candidate. -/
theorem Scanning.settled (hR : Reached blockOf outside G count V)
    (hS : Scanning blockOf outside G count V D [] [] s) (hs : s.stack.items = [])
    (hreach : ∀ x ∈ V, ∃ r ∈ V, D r ∧ Reach (G.succ blockOf) r x) :
    Settled blockOf outside G count (V.filter fun x => s.colorOf x = .white) s := by
  have hgray : ∀ x ∈ V, s.colorOf x ≠ .gray := by
    intro x hx
    obtain ⟨r, hrV, hr, hrx⟩ := hreach x hx
    exact (hS.not_gray hR hs hr hrV hrx).2
  have hpending : pending V s = V.filter fun x => s.colorOf x = .white := by
    refine Finset.filter_congr fun x hx => ?_
    have := hgray x hx
    rw [hs]
    cases hc : s.colorOf x <;> simp_all
  have hcounts : ∀ x ∈ G.parts, s.count x + held (G.succ blockOf) (V.filter fun x =>
      s.colorOf x = .white) x = count x := by
    intro x hx
    have h := hS.counts x hx
    rwa [hpending, count_nil, add_zero] at h
  have hsub : (V.filter fun x => s.colorOf x = .white) ⊆ G.parts :=
    (Finset.filter_subset _ _).trans hR.parts
  -- a white object has no count left, so the white objects hold all of its count
  have hall : ∀ x ∈ V.filter fun x => s.colorOf x = .white,
      held (G.succ blockOf) (V.filter fun x => s.colorOf x = .white) x =
        held (G.succ blockOf) G.parts x ∧ G.outer blockOf outside x = 0 := by
    intro x hx
    obtain ⟨hxV, hxw⟩ := Finset.mem_filter.mp hx
    have hcount := hcounts x (hR.parts hxV)
    have hexact := hR.exact x (hR.parts hxV)
    have hzero := hS.white x hxV hxw
    have hle : held (G.succ blockOf) (V.filter fun x => s.colorOf x = .white) x ≤
        held (G.succ blockOf) G.parts x := held_mono hsub
    omega
  constructor
  · exact hS.graph
  · exact hsub
  · exact hcounts
  · exact fun x hx => (hall x hx).2
  · exact fun x hx y hy hxy => mem_of_held_eq hsub (hall x hx).1 hy hxy
  · intro x hx
    by_cases hxV : x ∈ V
    · have := hgray x hxV
      cases hc : s.colorOf x <;> simp_all
    · rw [if_neg fun h => hxV (Finset.mem_filter.mp h).1]
      exact hS.unseen x hx hxV

end Scan

end Cycle

end HdLang
