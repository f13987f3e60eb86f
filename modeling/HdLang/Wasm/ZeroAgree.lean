import HdLang.Wasm.ZeroFacts

/-!
# The sweep and the fixed point agree

The blocks of a body are a flow graph (`zeroFlow`). Where it branches only forward, the sweep decides
each block on its final facts, and the worklist ends in these facts: they are the weakest solution,
every state of the worklist is above them, and an empty worklist is a solution. Both then make the
same decisions in the same order, and panic on the same bodies.
-/

namespace HdLang.Wasm

open Structured List Option DataFlow Nat Fixpoint

variable {words : ℕ}

/-! ### Blocks -/

/-- There is a mark for each place, and the first place begins a block. -/
def Marked (len : ℕ) (marks : List Bool) : Prop :=
  marks.length = len ∧ (0 < len → marks[0]? = some true)

theorem Marked.set {len : ℕ} {marks : List Bool} (h : Marked len marks) (place : ℕ) :
    Marked len (marks.set place true) := by
  refine ⟨by rw [length_set, h.1], fun hlen => ?_⟩
  rw [getElem?_set]
  split
  · next hplace => rw [if_pos (by rw [h.1, hplace]; exact hlen)]
  · exact h.2 hlen

theorem Marked.edge {len : ℕ} {marks : List Bool} (h : Marked len marks) (edge : ZeroEdges)
    (at_ : ℕ) : Marked len (markEdge marks edge at_) := by
  unfold markEdge
  split
  · exact h
  · exact foldlRecOn _ _ (h.set (at_ + 1)) fun _ h place _ => h.set place

theorem blockMarks_marked (edges : List ZeroEdges) (len : ℕ) :
    Marked len (blockMarks edges len) := by
  refine foldlRecOn _ _ ⟨?_, fun hlen => ?_⟩ fun _ h row _ => h.edge row.1 row.2
  · rw [length_set, length_replicate]
  · rw [getElem?_set_self (by rwa [length_replicate])]

/-- What numbering keeps: the starts ascend below the places seen, and every place has a block. -/
theorem numberBlocks_spec (marks : List Bool) (at_ : ℕ) {starts : List ℕ}
    (hsorted : starts.Pairwise (· < ·)) (hbelow : ∀ s ∈ starts, s < at_)
    (hfirst : starts = [] → marks = [] ∨ marks[0]? = some true) :
    (numberBlocks marks at_ starts).2.Pairwise (· < ·) ∧
      (∀ s ∈ (numberBlocks marks at_ starts).2, s < at_ + marks.length) ∧
      starts.length ≤ (numberBlocks marks at_ starts).2.length ∧
      ∀ q ∈ (numberBlocks marks at_ starts).1, q < (numberBlocks marks at_ starts).2.length := by
  induction marks generalizing at_ starts with
  | nil => exact ⟨hsorted, hbelow, le_rfl, fun q hq => absurd hq (not_mem_nil)⟩
  | cons mark marks ih =>
    have hmore : ∀ starts' : List ℕ, starts' = (if mark then starts ++ [at_] else starts) →
        starts'.Pairwise (· < ·) ∧ (∀ s ∈ starts', s < at_ + 1) ∧ starts' ≠ [] ∧
          starts.length ≤ starts'.length := by
      rintro starts' rfl
      cases mark with
      | true =>
        refine ⟨?_, ?_, by simp, by simp⟩
        · exact pairwise_append.mpr ⟨hsorted, pairwise_singleton _ _, fun a ha b hb => by
            rw [mem_singleton.mp hb]
            exact hbelow a ha⟩
        · intro s hs
          rcases mem_append.mp hs with hs | hs
          · exact lt_succ_of_lt (hbelow s hs)
          · exact mem_singleton.mp hs ▸ lt_succ_self at_
      | false =>
        refine ⟨hsorted, fun s hs => lt_succ_of_lt (hbelow s hs), fun h => ?_, le_rfl⟩
        rcases hfirst h with h | h
        · cases h
        · simp at h
    obtain ⟨hsorted', hbelow', hne, hlen⟩ := hmore _ rfl
    obtain ⟨h1, h2, h3, h4⟩ := ih (at_ + 1) hsorted' hbelow' fun h => absurd h hne
    refine ⟨h1, ?_, hlen.trans h3, ?_⟩
    · intro s hs
      rw [length_cons]
      exact (h2 s hs).trans_le (by omega)
    · intro q hq
      rcases mem_cons.mp hq with rfl | hq
      · have := length_pos_iff.mpr hne
        exact lt_of_lt_of_le (sub_lt this one_pos) h3
      · exact h4 q hq

/-- The blocks of a body: each is not empty and lies in it, and every place has one. -/
structure Blocks (edges : List ZeroEdges) (pointAt starts : List ℕ) : Prop where
  start : ∀ p < starts.length, ∃ start, starts[p]? = some start
  stop : ∀ p < starts.length, 0 < blockStop starts edges.length p ∧
    blockStop starts edges.length p ≤ edges.length
  point : ∀ q ∈ pointAt, q < starts.length

theorem basicBlocks_blocks (edges : List ZeroEdges) :
    Blocks edges (basicBlocks edges edges.length).1 (basicBlocks edges edges.length).2 := by
  obtain ⟨hlen, hfirst⟩ := blockMarks_marked edges edges.length
  obtain ⟨hsorted, hbelow, -, hpoint⟩ :=
    numberBlocks_spec (blockMarks edges edges.length) 0 List.Pairwise.nil
      (fun s hs => absurd hs not_mem_nil) fun _ => by
        rcases Nat.eq_zero_or_pos edges.length with h | h
        · exact .inl (length_eq_zero_iff.mp (hlen.trans h))
        · exact .inr (hfirst h)
  rw [hlen, Nat.zero_add] at hbelow
  change (basicBlocks edges edges.length).2.Pairwise (· < ·) at hsorted
  refine ⟨fun p hp => ⟨_, getElem?_eq_getElem hp⟩, fun p hp => ?_, hpoint⟩
  unfold blockStop
  by_cases hnext : p + 1 < (basicBlocks edges edges.length).2.length
  · rw [getElem?_eq_getElem hnext, getD_some]
    have hlt := pairwise_iff_getElem.mp hsorted p (p + 1) hp hnext (Nat.lt_succ_self p)
    exact ⟨Nat.zero_lt_of_lt hlt, (hbelow _ (getElem_mem hnext)).le⟩
  · rw [getElem?_eq_none (by omega), getD_none]
    exact ⟨Nat.zero_lt_of_lt (hbelow _ (getElem_mem hp)), le_rfl⟩

/-! ### The flow graph -/

section Agree

variable (f : Func) (edges : List ZeroEdges) (pointAt starts : List ℕ) (entry : Row words)

/-- What block `p` makes of the facts at its entry. -/
def blockTransfer (p : ℕ) (k : Row words) : Option (Row words) :=
  (starts[p]?).bind fun start => transfer f.body start (blockStop starts f.body.length p) k

/-- The blocks that block `p` branches to. -/
def blockNext (len p : ℕ) : List ℕ :=
  match edges[blockStop starts len p - 1]? with
  | some edge => entered pointAt (blockStop starts len p) edge
  | none => []

/-- The flow graph of a body; where a transfer panics it does not matter what it gives. -/
def zeroFlow : DataFlow (Row words) where
  entry
  next := blockNext edges pointAt starts f.body.length
  out p k := (blockTransfer f starts p k).getD k

variable {f edges pointAt starts entry}

variable {k : Row words}

variable (f starts) in
theorem blockTransfer_rel {p : Prop} {k' : Row words} (hle : p → k ≤ k') (point : ℕ) :
    Option.Rel (fun a b => p → a ≤ b) (blockTransfer f starts point k)
      (blockTransfer f starts point k') := by
  unfold blockTransfer
  cases starts[point]? with
  | none => exact .none
  | some start => exact transfer_rel hle f.body start _

theorem zeroFlow_mono : (zeroFlow f edges pointAt starts entry).Mono := by
  intro p k k' hle
  have h := blockTransfer_rel f starts (p := True) (fun _ => hle) p
  change (blockTransfer f starts p k).getD k ≤ (blockTransfer f starts p k').getD k'
  generalize blockTransfer f starts p k = x at h ⊢
  generalize blockTransfer f starts p k' = y at h ⊢
  cases h with
  | some h => exact h trivial
  | none => exact hle

variable {p : ℕ} {known : Row words}

theorem zeroFlow_out (h : blockTransfer f starts p k = some known) :
    (zeroFlow f edges pointAt starts entry).out p k = known := by
  change (blockTransfer f starts p k).getD k = known
  rw [h, getD_some]

/-- Whether a block panics does not depend on the facts. -/
theorem blockTransfer_none (h : blockTransfer f starts p k = none) (k' : Row words)
    : blockTransfer f starts p k' = none := by
  have hrel := blockTransfer_rel f starts (p := False) (fun h : False => (h.elim : k ≤ k')) p
  rw [h] at hrel
  generalize blockTransfer f starts p k' = y at hrel ⊢
  cases hrel
  rfl

section Shape

variable (hblocks : Blocks edges pointAt starts) (hlen : edges.length = f.body.length)
include hblocks

theorem next_lt {q : ℕ} (hq : q ∈ blockNext edges pointAt starts f.body.length p) :
    q < starts.length := by
  unfold blockNext at hq
  split at hq
  · obtain ⟨place, -, hpoint⟩ := mem_filterMap.mp hq
    exact hblocks.point q (mem_of_getElem? hpoint)
  · exact absurd hq not_mem_nil

include hlen

theorem edge_eq (hp : p < starts.length) :
    ∃ edge, edges[blockStop starts f.body.length p - 1]? = some edge ∧
      entered pointAt (blockStop starts f.body.length p) edge =
        blockNext edges pointAt starts f.body.length p := by
  obtain ⟨hpos, hle⟩ := hblocks.stop p hp
  rw [hlen] at hpos hle
  have hin : blockStop starts f.body.length p - 1 < edges.length := by omega
  refine ⟨_, getElem?_eq_getElem hin, ?_⟩
  rw [blockNext, getElem?_eq_getElem hin]

theorem forwardOnly_forward (hforward : forwardOnly edges pointAt starts f.body.length = some true) :
    (zeroFlow f edges pointAt starts entry).Forward starts.length := by
  have key : ∀ n ≤ starts.length, ∀ forward, (List.range n).foldlM
      (fun forward point => do
        let stop := blockStop starts f.body.length point
        let edge ← edges[stop - 1]?
        pure (forward && (entered pointAt stop edge).all fun next => !decide (next ≤ point)))
      true = some forward → forward = true →
      ∀ p < n, ∀ q ∈ blockNext edges pointAt starts f.body.length p, p < q := by
    intro n
    induction n with
    | zero => exact fun _ _ _ _ p hp => absurd hp (Nat.not_lt_zero p)
    | succ n ih =>
      intro hn forward hrun htrue
      obtain ⟨edge, hedge, hnext⟩ := edge_eq hblocks hlen (p := n) hn
      rw [range_succ, foldlM_append] at hrun
      obtain ⟨before, hbefore, hrun⟩ := bind_eq_some_iff.mp hrun
      simp only [foldlM_cons, foldlM_nil, hedge, bind_eq_bind, bind_some, Option.pure_def,
        Option.some.injEq] at hrun
      rw [htrue, Bool.and_eq_true, hnext, List.all_eq_true] at hrun
      intro p hp q hq
      rcases Nat.lt_succ_iff_lt_or_eq.mp hp with hp | rfl
      · exact ih (Nat.le_of_succ_le hn) before hbefore hrun.1 p hp q hq
      · simpa using hrun.2 q hq
  exact key starts.length le_rfl true hforward rfl

end Shape

/-! ### Decisions on the facts -/

/-- The row that facts are, none of a block that no path reaches. -/
def rowOf (t : WithTop (Row words)) : Option (Row words) :=
  WithTop.recTopCoe (C := fun _ => Option (Row words)) none some t

@[simp] theorem rowOf_coe (k : Row words) : rowOf (k : WithTop (Row words)) = some k := rfl

variable (f starts) in
/-- The marks after the decisions of block `p` on the facts. -/
def decideOn (releaseWidth : Ins → Option ℕ) (facts : ℕ → WithTop (Row words)) (gone : List Bool)
    (p : ℕ) : Option (List Bool) :=
  match rowOf (facts p) with
  | none => some gone
  | some k => (starts[p]?).bind fun start =>
    (decideBlock f start (blockStop starts f.body.length p) k gone releaseWidth).map Prod.snd

variable {facts : ℕ → WithTop (Row words)}

theorem decideOn_none {releaseWidth : Ins → Option ℕ} (hk : facts p = k)
    (h : blockTransfer f starts p k = none) (gone : List Bool) :
    decideOn f starts releaseWidth facts gone p = none := by
  unfold decideOn
  rw [hk, rowOf_coe]
  unfold blockTransfer at h
  cases hstart : starts[p]? with
  | none => rfl
  | some start =>
    rw [hstart] at h
    change Option.map Prod.snd (decideBlock f start (blockStop starts f.body.length p) k gone
      releaseWidth) = none
    rw [map_eq_none_iff]
    cases hdecide : decideBlock f start (blockStop starts f.body.length p) k gone releaseWidth with
    | none => rfl
    | some r =>
      rw [bind_some, decideBlock_transfer hdecide] at h
      cases h

/-! ### The sweep -/

/-- What waits at a block once `known` came too. -/
def joined (known : Row words) : Option (Row words) → Row words
  | some before => before ⊓ known
  | none => known

theorem rowOf_inf (t : WithTop (Row words)) (known : Row words) :
    rowOf (t ⊓ known) = some (joined known (rowOf t)) := by
  induction t using WithTop.recTopCoe with
  | top => rw [top_inf_eq]; rfl
  | coe k => rfl

theorem joined_joined (known : Row words) (o : Option (Row words)) :
    joined known (some (joined known o)) = joined known o := by
  cases o with
  | none => exact inf_idem known
  | some k => exact inf_right_idem k known

variable {waiting : List (Option (Row words))} {next : ℕ}

theorem bring_eq (known : Row words) {o : Option (Row words)} (h : waiting[next]? = some o) :
    bring known waiting next = some (waiting.set next (some (joined known o))) := by
  unfold bring
  rw [h]
  cases o <;> rfl

variable {nexts : List ℕ}

/-- What the blocks in `nexts` wait with once `known` came to each. -/
theorem bring_all (known : Row words) (waiting : List (Option (Row words)))
    (hnexts : ∀ q ∈ nexts, q < waiting.length) :
    ∃ waiting', nexts.foldlM (bring known) waiting = some waiting' ∧
      waiting'.length = waiting.length ∧
      ∀ q, waiting'[q]? =
        if q ∈ nexts then (waiting[q]?).map fun o => some (joined known o) else waiting[q]? := by
  induction nexts generalizing waiting with
  | nil => exact ⟨waiting, rfl, rfl, fun q => by rw [if_neg not_mem_nil]⟩
  | cons next nexts ih =>
    have hin := hnexts next mem_cons_self
    have hbring := bring_eq known (getElem?_eq_getElem hin)
    obtain ⟨waiting', hrun, hlen, hall⟩ :=
      ih (waiting.set next (some (joined known waiting[next]))) fun q hq => by
        rw [length_set]
        exact hnexts q (mem_cons_of_mem next hq)
    refine ⟨waiting', ?_, by rw [hlen, length_set], fun q => ?_⟩
    · rw [foldlM_cons, hbring]
      exact hrun
    · rw [hall q]
      rcases eq_or_ne q next with rfl | hne
      · rw [getElem?_set_self hin, if_pos mem_cons_self, getElem?_eq_getElem hin]
        split
        · rw [map_some, joined_joined, map_some]
        · rw [map_some]
      · rw [getElem?_set_ne hne.symm]
        simp only [mem_cons, hne, false_or]

section Sweep

variable (G : DataFlow (Row words)) (size : ℕ)

/-- What waits once the blocks before `p` are decided. -/
def Waits (p : ℕ) (waiting : List (Option (Row words))) : Prop :=
  waiting.length = size ∧ ∀ q, p ≤ q → q < size → waiting[q]? = some (rowOf (G.table p q))

end Sweep

section

variable (hblocks : Blocks edges pointAt starts) (hlen : edges.length = f.body.length)
include hblocks hlen

theorem sweepBlock_spec (hp : p < starts.length)
    (hwaits : Waits (zeroFlow f edges pointAt starts entry) starts.length p waiting)
    (releaseWidth : Ins → Option ℕ) :
    ∃ waiting', Waits (zeroFlow f edges pointAt starts entry) starts.length (p + 1) waiting' ∧
      ∀ gone, sweepBlock f edges pointAt starts releaseWidth (waiting, gone) p =
        (decideOn f starts releaseWidth (zeroFlow f edges pointAt starts entry).fact gone p).map
          fun gone => (waiting', gone) := by
  obtain ⟨hlength, hat⟩ := hwaits
  have hhere : waiting[p]? = some (rowOf ((zeroFlow f edges pointAt starts entry).fact p)) :=
    hat p le_rfl hp
  unfold sweepBlock decideOn
  simp only [hhere, bind_eq_bind, bind_some]
  induction hfact : (zeroFlow f edges pointAt starts entry).fact p using WithTop.recTopCoe with
  | top =>
    refine ⟨waiting, ⟨hlength, fun q hpq hq => ?_⟩, fun _ => rfl⟩
    have hsame : (zeroFlow f edges pointAt starts entry).table (p + 1) q =
        (zeroFlow f edges pointAt starts entry).table p q := by
      rw [table]
      split
      · change _ ⊓ brings _ p (fact _ p) = _
        rw [hfact]
        exact inf_top_eq _
      · rfl
    rw [hsame]
    exact hat q (le_of_succ_le hpq) hq
  | coe k =>
    obtain ⟨start, hstart⟩ := hblocks.start p hp
    obtain ⟨edge, hedge, hnext⟩ := edge_eq hblocks hlen hp
    have hout : (waiting.set p none).length = waiting.length := length_set
    obtain ⟨waiting', hrun, hlength', hall⟩ :=
      bring_all ((zeroFlow f edges pointAt starts entry).out p k) (waiting.set p none)
        fun q (hq : q ∈ blockNext edges pointAt starts f.body.length p) => by
          rw [hout, hlength]
          exact next_lt hblocks hq
    refine ⟨waiting', ⟨by rw [hlength', hout, hlength], fun q hpq hq => ?_⟩, fun gone => ?_⟩
    · rw [hall q, getElem?_set_ne (by omega), hat q (le_of_succ_le hpq) hq, table]
      by_cases hmem : q ∈ blockNext edges pointAt starts f.body.length p
      · rw [if_pos hmem, if_pos (show q ∈ DataFlow.next _ p from hmem)]
        change _ = some (rowOf (_ ⊓ brings _ p (fact _ p)))
        rw [hfact]
        exact congrArg some (rowOf_inf _ _).symm
      · rw [if_neg hmem, if_neg (show q ∉ DataFlow.next _ p from hmem)]
    · simp only [rowOf_coe, hstart, hedge, bind_some, hnext]
      cases hdecide : decideBlock f start (blockStop starts f.body.length p) k gone releaseWidth with
      | none => rfl
      | some r =>
        have htransfer : blockTransfer f starts p k = some r.1 := by
          rw [blockTransfer, hstart, bind_some]
          exact decideBlock_transfer hdecide
        rw [zeroFlow_out htransfer] at hrun
        simp only [bind_some, hrun, map_some, Option.pure_def]

/-- The blocks before `n` in order, each decided on its final facts. -/
theorem sweepBlock_upto (releaseWidth : Ins → Option ℕ)
    (hwaits : Waits (zeroFlow f edges pointAt starts entry) starts.length 0 waiting)
    (gone : List Bool) {n : ℕ} (hn : n ≤ starts.length) :
    ∃ waiting', Waits (zeroFlow f edges pointAt starts entry) starts.length n waiting' ∧
      (List.range n).foldlM (sweepBlock f edges pointAt starts releaseWidth) (waiting, gone) =
        ((List.range n).foldlM
          (decideOn f starts releaseWidth (zeroFlow f edges pointAt starts entry).fact) gone).map
            fun gone => (waiting', gone) := by
  induction n with
  | zero => exact ⟨waiting, hwaits, rfl⟩
  | succ n ih =>
    obtain ⟨before, hbefore, hrun⟩ := ih (le_of_succ_le hn)
    obtain ⟨after, hafter, hstep⟩ := sweepBlock_spec hblocks hlen (p := n) hn hbefore releaseWidth
    refine ⟨after, hafter, ?_⟩
    rw [range_succ, foldlM_append, foldlM_append, hrun]
    cases (range n).foldlM
      (decideOn f starts releaseWidth (zeroFlow f edges pointAt starts entry).fact) gone with
    | none => rfl
    | some gone' =>
      simp only [map_some, bind_eq_bind, bind_some, foldlM_cons, foldlM_nil, hstep gone',
        Option.pure_def, bind_fun_some]

/-- **The sweep** decides each block on its final facts. -/
theorem zeroSweep_eq (hne : starts ≠ []) (releaseWidth : Ins → Option ℕ) :
    zeroSweep f edges pointAt starts entry releaseWidth =
      (List.range starts.length).foldlM
        (decideOn f starts releaseWidth (zeroFlow f edges pointAt starts entry).fact)
        (List.replicate f.body.length false) := by
  have hwaits : Waits (zeroFlow f edges pointAt starts entry) starts.length 0
      ((replicate starts.length none).set 0 (some entry)) := by
    refine ⟨by rw [length_set, length_replicate], fun q _ hq => ?_⟩
    rw [getElem?_set, table]
    rcases Nat.eq_zero_or_pos q with rfl | hpos
    · rw [if_pos rfl, if_pos (by rwa [length_replicate]), if_pos rfl]
      rfl
    · rw [if_neg hpos.ne, if_neg hpos.ne', getElem?_replicate, if_pos hq]
      rfl
  obtain ⟨waiting, -, hrun⟩ := sweepBlock_upto hblocks hlen releaseWidth hwaits
    (replicate f.body.length false) le_rfl
  unfold zeroSweep
  simp only [if_neg hne, bind_eq_bind, bind_some, hrun]
  cases (range starts.length).foldlM
    (decideOn f starts releaseWidth (zeroFlow f edges pointAt starts entry).fact)
    (replicate f.body.length false) <;> rfl

end

/-! ### The worklist -/

/-- How much the facts of a block can still lose. -/
def cost (t : WithTop (Row words)) : ℕ :=
  match rowOf t with
  | none => words * 2 ^ 64 + 1
  | some k => k.weight

theorem Row.weight_le (k : Row words) : k.weight ≤ words * 2 ^ 64 := by
  calc k.weight ≤ ∑ _i : Fin words, 2 ^ 64 := Finset.sum_le_sum fun i _ => (k.words[i]).isLt.le
    _ = words * 2 ^ 64 := by
        rw [Finset.sum_const_nat (m := 2 ^ 64) fun _ _ => rfl, Finset.card_univ, Fintype.card_fin]

theorem cost_inf_lt {t : WithTop (Row words)} (h : t ⊓ known ≠ t) :
    cost (t ⊓ known) < cost t := by
  induction t using WithTop.recTopCoe with
  | top =>
    rw [top_inf_eq]
    exact lt_succ_of_le known.weight_le
  | coe k =>
    refine Row.weight_inf_lt (b := known) fun heq => h ?_
    rw [← WithTop.coe_inf, heq]

variable {s : Fixpoint words}

variable {fuel : ℕ}

namespace Fixpoint

/-- The facts that the worklist has of a block. -/
def factAt (s : Fixpoint words) (q : ℕ) : WithTop (Row words) :=
  match s.reachable[q]?, s.facts[q]? with
  | some true, some k => k
  | _, _ => ⊤

/-- The columns have an entry for each block, and what is queued is pending. -/
structure Sized (s : Fixpoint words) (size : ℕ) : Prop where
  facts : s.facts.length = size
  reachable : s.reachable.length = size
  queued : s.queued.length = size
  pending : ∀ q ∈ s.pending, q < size
  queued_pending : ∀ q, s.queued[q]? = some true → q ∈ s.pending

/-- What ends the loop. -/
def work (s : Fixpoint words) (size : ℕ) : ℕ :=
  2 * ∑ q ∈ Finset.range size, cost (s.factAt q) + s.pending.length

/-- `s'` is `s` once `known` came to block `next`. -/
structure Visited (s s' : Fixpoint words) (size : ℕ) (known : Row words) (nexts : List ℕ) :
    Prop where
  sized : s'.Sized size
  fact : ∀ q, s'.factAt q = if q ∈ nexts then s.factAt q ⊓ known else s.factAt q
  pending : ∀ q ∈ s.pending, q ∈ s'.pending
  pushed : ∀ q ∈ s'.pending, q ∈ s.pending ∨ q ∈ nexts
  changed : ∀ q, s'.factAt q ≠ s.factAt q → q ∈ s'.pending
  work : s'.work size ≤ s.work size

theorem Visited.refl {size : ℕ} (hsized : s.Sized size) (known : Row words) :
    Visited s s size known [] where
  sized := hsized
  fact q := by rw [if_neg not_mem_nil]
  pending q hq := hq
  pushed q hq := .inl hq
  changed q hq := absurd rfl hq
  work := le_rfl

theorem Visited.trans {s t u : Fixpoint words} {size : ℕ} {known : Row words} {q : ℕ}
    {nexts : List ℕ} (h : Visited s t size known [q]) (h' : Visited t u size known nexts) :
    Visited s u size known (q :: nexts) where
  sized := h'.sized
  fact r := by
    rw [h'.fact, h.fact]
    by_cases hr : r = q
    · subst hr
      rw [if_pos (mem_singleton_self r), if_pos mem_cons_self, inf_right_idem, ite_self]
    · simp [hr]
  pending r hr := h'.pending r (h.pending r hr)
  pushed r hr := by
    rcases h'.pushed r hr with hr | hr
    · refine (h.pushed r hr).imp_right fun hr => ?_
      exact mem_cons.mpr (.inl (mem_singleton.mp hr))
    · exact .inr (mem_cons_of_mem q hr)
  changed r hr := by
    by_cases hrt : t.factAt r = s.factAt r
    · exact h'.changed r (hrt ▸ hr)
    · exact h'.pending r (h.changed r hrt)
  work := h'.work.trans h.work

/-- The sum of the costs after the facts of one block changed. -/
theorem sum_cost_lt {s' : Fixpoint words} {size : ℕ} (hnext : next < size)
    (hfact : ∀ q, s'.factAt q = if q = next then s.factAt q ⊓ known else s.factAt q)
    (hne : s.factAt next ⊓ known ≠ s.factAt next) :
    ∑ q ∈ Finset.range size, cost (s'.factAt q) < ∑ q ∈ Finset.range size, cost (s.factAt q) := by
  refine Finset.sum_lt_sum (fun q _ => ?_) ⟨next, Finset.mem_range.mpr hnext, ?_⟩
  · rw [hfact q]
    split
    · next h =>
      subst h
      exact (cost_inf_lt hne).le
    · exact le_rfl
  · rw [hfact next, if_pos rfl]
    exact cost_inf_lt hne

variable {t : Fixpoint words}

theorem factAt_put (hfacts : t.facts = s.facts.set next k) (hnext : next < s.facts.length)
    (hreachable : t.reachable[next]? = some true)
    (hother : ∀ q, q ≠ next → t.reachable[q]? = s.reachable[q]?) (q : ℕ) :
    t.factAt q = if q = next then (k : WithTop (Row words)) else s.factAt q := by
  unfold factAt
  by_cases hq : q = next
  · subst hq
    rw [hfacts, getElem?_set_self hnext, hreachable, if_pos rfl]
  · rw [if_neg hq, hfacts, getElem?_set_ne (Ne.symm hq), hother q hq]

/-- A block whose facts changed is queued, unless it is. -/
theorem Visited.queue {size : ℕ} (changed : Bool) {waits : Bool} (hsized : s.Sized size)
    (hnext : next < size) (hfacts : t.facts.length = size) (hreachable : t.reachable.length = size)
    (hqueued : t.queued = s.queued) (hpending : t.pending = s.pending)
    (hfact : ∀ q, t.factAt q = if q = next then s.factAt q ⊓ known else s.factAt q)
    (hchanged : changed = true ↔ s.factAt next ⊓ known ≠ s.factAt next)
    (hwaits : s.queued[next]? = some waits) :
    Visited s (if (changed && !waits) = true then
      { t with pending := t.pending ++ [next], queued := t.queued.set next true } else t)
      size known [next] := by
  have hmem : ∀ q, t.factAt q ≠ s.factAt q → q = next ∧ changed = true := by
    intro q hq
    rw [hfact q] at hq
    split at hq
    · next h => exact ⟨h, hchanged.mpr (h ▸ hq)⟩
    · exact absurd rfl hq
  split
  · next hboth =>
    obtain ⟨hchange, -⟩ := Bool.and_eq_true_iff.mp hboth
    refine ⟨⟨hfacts, hreachable, ?_, ?_, ?_⟩, ?_, ?_, ?_, ?_, ?_⟩
    · rw [length_set, hqueued, hsized.queued]
    · intro q hq
      rcases mem_append.mp hq with hq | hq
      · exact hsized.pending q (hpending ▸ hq)
      · exact mem_singleton.mp hq ▸ hnext
    · intro q hq
      by_cases hqn : q = next
      · exact mem_append_right _ (mem_singleton.mpr hqn)
      · rw [getElem?_set_ne (Ne.symm hqn), hqueued] at hq
        exact mem_append_left _ (hpending ▸ hsized.queued_pending q hq)
    · intro q
      simp only [mem_singleton]
      exact hfact q
    · exact fun q hq => mem_append_left _ (hpending ▸ hq)
    · exact fun q hq => (mem_append.mp hq).imp_left fun hq => hpending ▸ hq
    · exact fun q hq => mem_append_right _ (mem_singleton.mpr (hmem q hq).1)
    · have hlt := sum_cost_lt hnext hfact (hchanged.mp hchange)
      unfold Fixpoint.work
      rw [length_append, length_singleton, hpending]
      change 2 * ∑ q ∈ Finset.range size, cost (t.factAt q) + _ ≤ _
      omega
  · next hboth =>
    refine ⟨⟨hfacts, hreachable, hqueued ▸ hsized.queued, hpending ▸ hsized.pending, ?_⟩,
      ?_, ?_, ?_, ?_, ?_⟩
    · exact fun q hq => hpending ▸ hsized.queued_pending q (hqueued ▸ hq)
    · intro q
      simp only [mem_singleton]
      exact hfact q
    · exact fun q hq => hpending ▸ hq
    · exact fun q hq => .inl (hpending ▸ hq)
    · intro q hq
      obtain ⟨rfl, hchange⟩ := hmem q hq
      rw [hchange, Bool.true_and, Bool.not_eq_true', Bool.not_eq_false] at hboth
      exact hpending ▸ hsized.queued_pending q (hboth ▸ hwaits)
    · unfold Fixpoint.work
      rw [hpending]
      have hle : ∑ q ∈ Finset.range size, cost (t.factAt q) ≤
          ∑ q ∈ Finset.range size, cost (s.factAt q) := by
        by_cases h : s.factAt next ⊓ known = s.factAt next
        · refine Finset.sum_le_sum fun q _ => ?_
          rw [hfact q]
          split
          · next hq => rw [hq, h]
          · exact le_rfl
        · exact (sum_cost_lt hnext hfact h).le
      omega

theorem visit_spec {size : ℕ} (hsized : s.Sized size) (hnext : next < size) (known : Row words) :
    ∃ s', visit known s next = some s' ∧ Visited s s' size known [next] := by
  obtain ⟨before, hbefore⟩ : ∃ k, s.facts[next]? = some k :=
    ⟨_, getElem?_eq_getElem (by rw [hsized.facts]; exact hnext)⟩
  obtain ⟨was, hwas⟩ : ∃ b, s.reachable[next]? = some b :=
    ⟨_, getElem?_eq_getElem (by rw [hsized.reachable]; exact hnext)⟩
  obtain ⟨waits, hwaits⟩ : ∃ b, s.queued[next]? = some b :=
    ⟨_, getElem?_eq_getElem (by rw [hsized.queued]; exact hnext)⟩
  have hin : next < s.facts.length := by rw [hsized.facts]; exact hnext
  unfold visit
  simp only [hbefore, hwas, bind_eq_bind, bind_some]
  cases was with
  | true =>
    have hhere : s.factAt next = before := by rw [factAt, hwas, hbefore]
    refine ⟨_, ?_, Visited.queue (t := { s with facts := s.facts.set next (before.meet known) })
      (Decidable.decide (before.meet known ≠ before)) hsized hnext
      ((length_set).trans hsized.facts) hsized.reachable rfl rfl ?_ ?_ hwaits⟩
    · simp only [reduceIte, hwaits, bind_some]
      split <;> rfl
    · intro q
      refine (factAt_put (s := s) (t := { s with facts := s.facts.set next (before.meet known) })
        rfl hin hwas (fun q _ => rfl) q).trans ?_
      split
      · next h => rw [h, hhere, Row.meet_eq, WithTop.coe_inf]
      · rfl
    · rw [decide_eq_true_iff, hhere, Row.meet_eq, ← WithTop.coe_inf, ne_eq, ne_eq, WithTop.coe_inj]
  | false =>
    have hhere : s.factAt next = ⊤ := by rw [factAt, hwas]
    have hreach : (s.reachable.set next true)[next]? = some true :=
      getElem?_set_self (by rw [hsized.reachable]; exact hnext)
    refine ⟨_, ?_, Visited.queue
      (t := { s with
        reachable := s.reachable.set next true, facts := s.facts.set next known })
      true hsized hnext ((length_set).trans hsized.facts)
      ((length_set).trans hsized.reachable) rfl rfl ?_ ?_ hwaits⟩
    · simp only [Bool.false_eq_true, reduceIte, hwaits, bind_some]
      split <;> rfl
    · intro q
      refine (factAt_put (s := s) (t := { s with
        reachable := s.reachable.set next true, facts := s.facts.set next known })
        rfl hin hreach (fun q hq => getElem?_set_ne (Ne.symm hq)) q).trans ?_
      split
      · next h => rw [h, hhere, top_inf_eq]
      · rfl
    · rw [hhere, top_inf_eq]
      simp

theorem visit_all (known : Row words) {size : ℕ} (hsized : s.Sized size)
    (hnexts : ∀ q ∈ nexts, q < size) :
    ∃ s', nexts.foldlM (visit known) s = some s' ∧ Visited s s' size known nexts := by
  induction nexts generalizing s with
  | nil => exact ⟨s, rfl, .refl hsized known⟩
  | cons next nexts ih =>
    obtain ⟨t, hvisit, ht⟩ := visit_spec hsized (hnexts next mem_cons_self) known
    obtain ⟨u, hrun, hu⟩ := ih ht.sized fun q hq => hnexts q (mem_cons_of_mem next hq)
    exact ⟨u, by rw [foldlM_cons, hvisit]; exact hrun, ht.trans hu⟩

/-- What the turns of the loop keep in a graph whose edges lead to later blocks: the facts are above
the final ones, and what they bring along an edge is met, unless the edge's block is pending. -/
structure Inv (G : DataFlow (Row words)) (size : ℕ) (s : Fixpoint words) : Prop where
  sized : s.Sized size
  low : ∀ q < size, G.fact q ≤ s.factAt q
  entry : s.factAt 0 ≤ G.entry
  closed : ∀ p < size, p ∉ s.pending → ∀ q ∈ G.next p, s.factAt q ≤ G.brings p (s.factAt p)
  reached : ∀ p ∈ s.pending, s.factAt p ≠ ⊤

theorem exists_row (h : s.factAt p ≠ ⊤) :
    ∃ k, s.facts[p]? = some k ∧ s.factAt p = k := by
  unfold factAt at h ⊢
  split at h
  · next k _ hk => exact ⟨k, hk, rfl⟩
  · exact absurd rfl h

theorem start_inv (hne : starts ≠ []) :
    Inv (zeroFlow f edges pointAt starts entry) starts.length (start starts.length entry) := by
  have hpos : 0 < starts.length := length_pos_iff.mpr hne
  have hfact : ∀ q, (start starts.length entry).factAt q =
      if q = 0 then (entry : WithTop (Row words)) else ⊤ := by
    intro q
    unfold factAt start
    by_cases hq : q = 0
    · subst hq
      dsimp only
      rw [getElem?_set_self (by rwa [length_replicate]),
        getElem?_set_self (by rwa [length_replicate]), if_pos rfl]
    · dsimp only
      rw [if_neg hq, getElem?_set_ne (Ne.symm hq), getElem?_replicate]
      by_cases hlt : q < starts.length
      · rw [if_pos hlt]
      · rw [if_neg hlt]
  have hqueued : ∀ q, (start starts.length entry).queued[q]? = some true → q = 0 := by
    intro q h
    by_contra hq
    change ((replicate starts.length false).set 0 true)[q]? = some true at h
    rw [getElem?_set_ne (Ne.symm hq), getElem?_replicate] at h
    split at h <;> simp at h
  refine ⟨⟨by simp [start], by simp [start], by simp [start], ?_, ?_⟩, ?_, ?_, ?_, ?_⟩
  · exact fun q hq => mem_singleton.mp hq ▸ hpos
  · exact fun q hq => mem_singleton.mpr (hqueued q hq)
  · intro q _
    rw [hfact q]
    split
    · next h => exact h ▸ fact_zero_le
    · exact le_top
  · rw [hfact 0, if_pos rfl]
    exact le_rfl
  · intro p _ hp q _
    have hp0 : p ≠ 0 := fun h => hp (h ▸ mem_singleton_self 0)
    rw [hfact p, if_neg hp0]
    exact le_top
  · intro p hp
    obtain rfl := mem_singleton.mp hp
    rw [hfact 0, if_pos rfl]
    exact WithTop.coe_ne_top

variable {point : ℕ} {rest : List ℕ}

theorem Sized.pop {size : ℕ} (h : s.Sized size) (hpending : s.pending = point :: rest) :
    Sized { s with pending := rest, queued := s.queued.set point false } size where
  __ := h
  queued := (length_set).trans h.queued
  pending q hq := h.pending q (hpending ▸ mem_cons_of_mem point hq)
  queued_pending q hq := by
    by_cases hqp : q = point
    · subst hqp
      rw [getElem?_set] at hq
      simp at hq
    · rw [getElem?_set_ne (Ne.symm hqp)] at hq
      have hmem := h.queued_pending q hq
      rw [hpending] at hmem
      exact (mem_cons.mp hmem).resolve_left hqp

section Turn

variable (hblocks : Blocks edges pointAt starts) (hlen : edges.length = f.body.length)
  (hforward : (zeroFlow f edges pointAt starts entry).Forward starts.length)
include hblocks hlen hforward

/-- **A turn of the loop** keeps the invariant with less work left, or panics on a block that the
final facts reach. -/
theorem flow_spec (hinv : Inv (zeroFlow f edges pointAt starts entry) starts.length s)
    (hpending : s.pending = point :: rest) :
    (∃ s', flow f edges pointAt starts
        { s with pending := rest, queued := s.queued.set point false } point = some s' ∧
      Inv (zeroFlow f edges pointAt starts entry) starts.length s' ∧
      s'.work starts.length < s.work starts.length) ∨
    (flow f edges pointAt starts
        { s with pending := rest, queued := s.queued.set point false } point = none ∧
      ∃ k : Row words, (zeroFlow f edges pointAt starts entry).fact point = k ∧
        blockTransfer f starts point k = none) := by
  have hmem : point ∈ s.pending := hpending ▸ mem_cons_self
  have hpoint : point < starts.length := hinv.sized.pending point hmem
  obtain ⟨k, hk, hfact⟩ := exists_row (hinv.reached point hmem)
  obtain ⟨start, hstart⟩ := hblocks.start point hpoint
  obtain ⟨edge, hedge, hnext⟩ := edge_eq hblocks hlen hpoint
  have htransfer : blockTransfer f starts point k =
      transfer f.body start (blockStop starts f.body.length point) k := by
    rw [blockTransfer, hstart, bind_some]
  unfold flow
  simp only [hk, hstart, hedge, hnext, bind_eq_bind, bind_some, ← htransfer]
  cases hrun : blockTransfer f starts point k with
  | none =>
    refine .inr ⟨rfl, ?_⟩
    have hlow := hinv.low point hpoint
    rw [hfact] at hlow
    obtain ⟨k', hk', -⟩ := WithTop.le_coe_iff.mp hlow
    exact ⟨k', hk', blockTransfer_none hrun k'⟩
  | some known =>
    have hbrings : (zeroFlow f edges pointAt starts entry).brings point (s.factAt point) = known := by
      rw [hfact, brings, WithTop.map_coe, zeroFlow_out hrun]
    obtain ⟨s', hvisit, hs'⟩ := visit_all known (hinv.sized.pop hpending)
      fun q (hq : q ∈ blockNext edges pointAt starts f.body.length point) => next_lt hblocks hq
    have hsame : ∀ q, factAt { s with pending := rest, queued := s.queued.set point false } q =
        s.factAt q := fun _ => rfl
    have hle : ∀ q, s'.factAt q ≤ s.factAt q := by
      intro q
      rw [hs'.fact q, hsame q]
      split
      · exact inf_le_left
      · exact le_rfl
    refine .inl ⟨s', hvisit, ⟨hs'.sized, ?_, (hle 0).trans hinv.entry, ?_, ?_⟩, ?_⟩
    · intro q hq
      rw [hs'.fact q, hsame q]
      split
      · next hqn =>
        refine le_inf (hinv.low q hq) ?_
        calc (zeroFlow f edges pointAt starts entry).fact q
            ≤ (zeroFlow f edges pointAt starts entry).brings point
                ((zeroFlow f edges pointAt starts entry).fact point) :=
              fact_le_brings hforward hpoint hqn
          _ ≤ (zeroFlow f edges pointAt starts entry).brings point (s.factAt point) :=
              zeroFlow_mono.brings point (hinv.low point hpoint)
          _ = known := hbrings
      · exact hinv.low q hq
    · -- a block that is not pending kept its facts
      intro p hp hnot q hq
      have hkept : s'.factAt p = s.factAt p := by
        by_contra hne
        exact hnot (hs'.changed p hne)
      rw [hkept]
      by_cases hpp : p = point
      · subst hpp
        rw [hbrings, hs'.fact q, if_pos (show q ∈ blockNext edges pointAt starts f.body.length p
          from hq)]
        exact inf_le_right
      · refine (hle q).trans (hinv.closed p hp (fun h => ?_) q hq)
        rw [hpending] at h
        exact hnot (hs'.pending p ((mem_cons.mp h).resolve_left hpp))
    · intro p hp htop
      rcases hs'.pushed p hp with hp | hp
      · have hold : p ∈ s.pending := hpending ▸ mem_cons_of_mem point hp
        exact hinv.reached p hold (top_le_iff.mp (htop ▸ hle p))
      · rw [hs'.fact p, if_pos hp, inf_eq_top_iff] at htop
        exact WithTop.coe_ne_top htop.2
    · calc s'.work starts.length
          ≤ work { s with pending := rest, queued := s.queued.set point false } starts.length :=
            hs'.work
        _ < s.work starts.length := by
            unfold work
            rw [hpending]
            exact lt_succ_self _

/-- **The loop ends**: with the final facts, or in a panic on a block that they reach. -/
theorem loop_spec (hinv : Inv (zeroFlow f edges pointAt starts entry) starts.length s)
    (hfuel : s.work starts.length ≤ fuel) :
    (∃ s', loop f edges pointAt starts fuel s = .ok s' ∧
      Inv (zeroFlow f edges pointAt starts entry) starts.length s' ∧ s'.pending = []) ∨
    (loop f edges pointAt starts fuel s = .error .panic ∧
      ∃ p < starts.length, ∃ k : Row words,
        (zeroFlow f edges pointAt starts entry).fact p = k ∧ blockTransfer f starts p k = none) := by
  induction fuel generalizing s with
  | zero =>
    have hempty : s.pending = [] := by
      refine length_eq_zero_iff.mp ?_
      unfold work at hfuel
      omega
    refine .inl ⟨s, ?_, hinv, hempty⟩
    unfold loop
    rw [hempty]
    rfl
  | succ fuel ih =>
    unfold loop
    cases hpending : s.pending with
    | nil => exact .inl ⟨s, rfl, hinv, hpending⟩
    | cons point rest =>
      have hpoint : point < starts.length := hinv.sized.pending point (hpending ▸ mem_cons_self)
      rcases flow_spec hblocks hlen hforward hinv hpending with
        ⟨s', hflow, hinv', hless⟩ | ⟨hflow, hpanic⟩
      · simp only [hflow]
        exact ih hinv' (by omega)
      · simp only [hflow]
        exact .inr ⟨rfl, point, hpoint, hpanic⟩

end Turn

end Fixpoint

/-! ### Agreement -/

variable {α β : Type} {step : β → α → Option β} {l : List α}

theorem foldlM_none {a : α} (ha : a ∈ l) (hnone : ∀ b, step b a = none) (b : β)
    : l.foldlM step b = none := by
  induction l generalizing b with
  | nil => exact absurd ha not_mem_nil
  | cons c l ih =>
    rw [foldlM_cons]
    rcases mem_cons.mp ha with rfl | ha
    · rw [hnone b]
      rfl
    · cases step b c with
      | none => rfl
      | some b' => exact ih ha b'

theorem foldlM_congr {step' : β → α → Option β} (h : ∀ a ∈ l, ∀ b, step b a = step' b a) (b : β)
    : l.foldlM step b = l.foldlM step' b := by
  induction l generalizing b with
  | nil => rfl
  | cons a l ih =>
    rw [foldlM_cons, foldlM_cons, h a mem_cons_self b]
    exact bind_congr fun b' => ih (fun a ha => h a (mem_cons_of_mem _ ha)) b'

theorem Fixpoint.Inv.fact_eq (hinv : s.Inv (zeroFlow f edges pointAt starts entry) starts.length)
    (hdone : s.pending = []) :
    ∀ q < starts.length, s.factAt q = (zeroFlow f edges pointAt starts entry).fact q := by
  refine eq_fact hinv.entry (fun p hp q hq => hinv.closed p hp ?_ q hq) hinv.low
  rw [hdone]
  exact not_mem_nil

theorem Fixpoint.decide_eq {size : ℕ} (hsized : s.Sized size) (releaseWidth : Ins → Option ℕ)
    (hp : p < size) (hfact : s.factAt p = facts p) (gone : List Bool) :
    s.decide f starts releaseWidth gone p = decideOn f starts releaseWidth facts gone p := by
  obtain ⟨k, hk⟩ : ∃ k, s.facts[p]? = some k :=
    ⟨_, getElem?_eq_getElem (by rw [hsized.facts]; exact hp)⟩
  obtain ⟨was, hwas⟩ : ∃ b, s.reachable[p]? = some b :=
    ⟨_, getElem?_eq_getElem (by rw [hsized.reachable]; exact hp)⟩
  unfold decide decideOn
  rw [← hfact]
  unfold factAt
  rw [hk, hwas]
  cases was with
  | false => rfl
  | true =>
    simp only [bind_eq_bind, bind_some, reduceIte, rowOf_coe]
    cases starts[p]? with
    | none => rfl
    | some start =>
      simp only [bind_some]
      cases decideBlock f start (blockStop starts f.body.length p) k gone releaseWidth <;> rfl

variable {body : List Ins} {labelLists : List (List ℕ)}

theorem edgesFrom_length {s : Openings} {at_ : ℕ} {labels : List ℕ} {rest : List Ins}
    {edges : List ZeroEdges} (h : edgesFrom body labelLists s at_ labels rest = some (some edges)) :
    edges.length = rest.length := by
  induction rest generalizing at_ labels edges with
  | nil =>
    cases h
    rfl
  | cons ins rest ih =>
    unfold edgesFrom at h
    obtain ⟨found, -, h⟩ := bind_eq_some_iff.mp h
    cases found with
    | none => cases h
    | some p =>
      obtain ⟨more, hmore, h⟩ := bind_eq_some_iff.mp h
      cases more with
      | none => cases h
      | some more =>
        cases h
        rw [length_cons, length_cons, ih hmore]

theorem zeroEdges_length {edges : List ZeroEdges}
    (h : zeroEdges body labelLists = some (some edges)) : edges.length = body.length := by
  unfold zeroEdges at h
  dsimp only at h
  split at h
  · cases h
  · split at h
    · exact edgesFrom_length h
    · cases h

theorem zeroFixpoint_eq (hblocks : Blocks edges pointAt starts)
    (hlen : edges.length = f.body.length)
    (hforward : forwardOnly edges pointAt starts f.body.length = some true)
    (releaseWidth : Ins → Option ℕ)
    (hfuel : (Fixpoint.start starts.length entry).work starts.length ≤ fuel) :
    zeroFixpoint fuel f edges pointAt starts entry releaseWidth =
      orPanic (zeroSweep f edges pointAt starts entry releaseWidth) := by
  by_cases hne : starts = []
  · rw [zeroFixpoint, zeroSweep, if_pos hne, if_pos hne]
    rfl
  · have hforward : (zeroFlow f edges pointAt starts entry).Forward starts.length :=
      forwardOnly_forward hblocks hlen hforward
    unfold zeroFixpoint
    rw [if_neg hne, zeroSweep_eq hblocks hlen hne]
    rcases loop_spec hblocks hlen hforward (start_inv hne) hfuel with
      ⟨s, hloop, hinv, hdone⟩ | ⟨hloop, p, hp, k, hk, hnone⟩
    · rw [hloop]
      refine congrArg orPanic (foldlM_congr (fun p hp gone => ?_) _)
      have hp := mem_range.mp hp
      exact s.decide_eq hinv.sized releaseWidth hp (hinv.fact_eq hdone p hp) gone
    · rw [hloop, foldlM_none (mem_range.mpr hp) fun gone => decideOn_none hk hnone gone]
      rfl

/-- **The one-pass analysis decides as the fixed point does**: of a body whose blocks branch only
forward, the sweep and the worklist, given turns enough, mark the same instructions. -/
theorem zeroSweep_zeroFixpoint (f : Func) (edges : List ZeroEdges)
    (hedges : zeroEdges f.body f.labels = some (some edges))
    (hforward : forwardOnly edges (basicBlocks edges f.body.length).1
      (basicBlocks edges f.body.length).2 f.body.length = some true) (words : ℕ) (entry : Row words)
    (releaseWidth : Ins → Option ℕ) :
    ∃ enough, ∀ fuel ≥ enough,
      zeroFixpoint fuel f edges (basicBlocks edges f.body.length).1
          (basicBlocks edges f.body.length).2 entry releaseWidth =
        orPanic (zeroSweep f edges (basicBlocks edges f.body.length).1
          (basicBlocks edges f.body.length).2 entry releaseWidth) := by
  have hlen := zeroEdges_length hedges
  refine ⟨_, fun fuel hfuel => zeroFixpoint_eq ?_ hlen hforward releaseWidth hfuel⟩
  rw [← hlen]
  exact basicBlocks_blocks edges

/-- A release of a zero local after a branch that goes forward. -/
def branchThenRelease : Func where
  params := [.i32]
  results := []
  locals := [.i32]
  labels := []
  body := [.block .empty, .op (.localGet 0), .op (.brIf 0), .end_, .op (.localGet 1),
    .op (.external (.call 3))]

theorem zeroSweep_zeroFixpoint_branch :
    ∃ enough, ∀ fuel ≥ enough,
      zeroFixpoint fuel branchThenRelease [.next, .next, .either 3 4, .next, .next, .next]
          [0, 0, 0, 1, 2, 2] [0, 3, 4] (⟨#v[2]⟩ : Row 1)
          (fun ins => if ins = .op (.external (.call 3)) then some 1 else none) =
        .ok [false, false, false, false, true, true] := by
  obtain ⟨enough, h⟩ := zeroSweep_zeroFixpoint branchThenRelease
    [.next, .next, .either 3 4, .next, .next, .next] (by decide) (by decide) 1
    ⟨#v[2]⟩ (fun ins => if ins = .op (.external (.call 3)) then some 1 else none)
  have hsweep : zeroSweep branchThenRelease [.next, .next, .either 3 4, .next, .next, .next]
      [0, 0, 0, 1, 2, 2] [0, 3, 4] (⟨#v[2]⟩ : Row 1)
      (fun ins => if ins = .op (.external (.call 3)) then some 1 else none) =
        some [false, false, false, false, true, true] := by decide +kernel
  refine ⟨enough, fun fuel hfuel => (h fuel hfuel).trans ?_⟩
  exact congrArg orPanic hsweep

end Agree

end HdLang.Wasm
