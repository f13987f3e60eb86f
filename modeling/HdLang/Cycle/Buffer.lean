import HdLang.Cycle.Sweep
import HdLang.Cycle.System

/-!
# The candidate buffer

`Listed` is what holds of the buffer at every time: it lists the buffered objects, each once, and
`candidates` is how many they are. `Buffer` adds the count of those that are `dead`. The lemmas say
what `suspect`, `free`, `drop_root`, `sweep` and `compact` do to them.
-/

namespace HdLang

open Ensures List

namespace Cycle

/-! ### The invariant -/

/-- The buffer lists the buffered objects. -/
structure Listed (s : State) : Prop where
  nonzero : 0 ∉ s.live
  live : ∀ b ∈ s.roots.items, b ≠ 0 → b ∈ s.live
  nodup : (s.roots.items.filter (· ≠ 0)).Nodup
  buffered : ∀ b ∈ s.live, s.buffered b = true ↔ b ∈ s.roots.items
  candidates : s.candidates = (s.roots.items.filter (· ≠ 0)).length

/-- The candidates whose count is 0. The blocks of `dying` have no count: while a last release is
under way, the count word is a link of its work list. -/
def State.uncounted (s : State) (dying : Finset ℕ) : Finset ℕ :=
  s.live.filter fun b => s.buffered b = true ∧ b ∉ dying ∧ s.count b = 0

/-- The buffer lists the buffered objects, and `dead` counts those with no count left. -/
structure Buffer (s : State) (dying : Finset ℕ) : Prop extends Listed s where
  dead : s.dead = (s.uncounted dying).card

section Facts

variable {s s' : State} {b : ℕ} {dying dying' : Finset ℕ}

theorem State.mem_uncounted : b ∈ s.uncounted dying ↔
    b ∈ s.live ∧ s.buffered b = true ∧ b ∉ dying ∧ s.count b = 0 := Finset.mem_filter

theorem Listed.of_eq (h : Listed s) (hlive : s'.live = s.live)
    (hbuffered : s'.buffered = s.buffered) (hroots : s'.roots = s.roots)
    (hcandidates : s'.candidates = s.candidates) : Listed s' := by
  obtain ⟨h₁, h₂, h₃, h₄, h₅⟩ := h
  constructor
  · rwa [hlive]
  · rwa [hroots, hlive]
  · rwa [hroots]
  · rwa [hroots, hlive, hbuffered]
  · rwa [hroots, hcandidates]

theorem Listed.count_eq_one (h : Listed s) (hb : b ∈ s.roots.items) (hne : b ≠ 0) :
    s.roots.items.count b = 1 := by
  have hmem : b ∈ s.roots.items.filter (· ≠ 0) := mem_filter.mpr ⟨hb, by simpa using hne⟩
  have hone := count_eq_one_of_mem h.nodup hmem
  rwa [count_filter (by simpa using hne)] at hone

section

variable (h : Buffer s dying)
include h

theorem Buffer.of_eq (hlive : s'.live = s.live) (hbuffered : s'.buffered = s.buffered)
    (hcount : s'.count = s.count) (hroots : s'.roots = s.roots)
    (hcandidates : s'.candidates = s.candidates) (hdead : s'.dead = s.dead)
    : Buffer s' dying where
  toListed := h.toListed.of_eq hlive hbuffered hroots hcandidates
  dead := by
    rw [hdead, h.dead, State.uncounted, State.uncounted, hlive, hbuffered, hcount]

theorem Buffer.dead_le : s.dead ≤ s.candidates := by
  have hsub : s.uncounted dying ⊆ (s.roots.items.filter (· ≠ 0)).toFinset := by
    intro b hb
    obtain ⟨hlive, hbuf, -, -⟩ := State.mem_uncounted.mp hb
    have hne : b ≠ 0 := fun h₀ => h.nonzero (h₀ ▸ hlive)
    exact mem_toFinset.mpr (mem_filter.mpr ⟨(h.buffered b hlive).mp hbuf, by simpa using hne⟩)
  calc s.dead = (s.uncounted dying).card := h.dead
    _ ≤ (s.roots.items.filter (· ≠ 0)).toFinset.card := Finset.card_le_card hsub
    _ = s.candidates := by rw [toFinset_card_of_nodup h.nodup, h.candidates]

/-- The difference that `collection_due` takes does not underflow. -/
theorem Buffer.collectionDue {build : Build} :
    Ensures (fun _ => False) (collectionDue build)
      (fun _ s' => ∃ b, s' = { s with sweepOnly := b }) s := by
  simp only [Cycle.collectionDue, bind_iff, get_iff, ite_iff, pure_iff, minus_eq h.dead_le,
    modify_iff]
  exact ⟨fun _ => ⟨s.sweepOnly, rfl⟩, fun _ => ⟨fun _ => ⟨false, rfl⟩, fun _ => ⟨_, rfl⟩⟩⟩

theorem Buffer.due {build : Build} :
    Ensures (fun _ => False) (due build) (fun _ s' => ∃ b, s' = { s with sweepOnly := b }) s := by
  rw [Cycle.due, bind_iff, get_iff, ite_iff, pure_iff]
  exact ⟨fun _ => h.collectionDue, fun _ => ⟨s.sweepOnly, rfl⟩⟩

end

theorem Listed.erase (h : Listed s) (hb : s.buffered b = false) {collected : List ℕ} :
    Listed { s with live := s.live.erase b, collected := collected } where
  __ := h
  nonzero hmem := h.nonzero (Finset.mem_of_mem_erase hmem)
  live := by
    intro x hx hne
    have hlive := h.live x hx hne
    refine Finset.mem_erase.mpr ⟨?_, hlive⟩
    rintro rfl
    rw [(h.buffered x hlive).mpr hx] at hb
    cases hb
  buffered x hx := h.buffered x (Finset.mem_of_mem_erase hx)

theorem Buffer.erase (h : Buffer s dying) (hb : s.buffered b = false) {collected : List ℕ} :
    Buffer { s with live := s.live.erase b, collected := collected } dying where
  toListed := h.toListed.erase hb
  dead := by
    rw [show s.dead = _ from h.dead]
    congr 1
    ext x
    simp only [State.mem_uncounted, Finset.mem_erase]
    constructor
    · rintro ⟨hlive, hbuf, hrest⟩
      refine ⟨⟨?_, hlive⟩, hbuf, hrest⟩
      rintro rfl
      rw [hb] at hbuf
      cases hbuf
    · exact fun ⟨⟨_, hlive⟩, hrest⟩ => ⟨hlive, hrest⟩

end Facts

/-! ### Closing gaps -/

section Gaps

variable {E : Stop → Prop} {s : State} {dying : Finset ℕ}

/-- `gather` keeps at most the entries it has passed. -/
theorem gather_le {keeps : ℕ → Run Bool} {I : State → Prop}
    (hroots : ∀ s r, I s → I { s with roots := r })
    (hkeeps : ∀ b s, I s → Ensures E (keeps b) (fun _ s' => I s' ∧ s'.roots = s.roots) s) :
    ∀ (left : ℕ) {i j : ℕ} {s : State}, j ≤ i → i + left ≤ s.roots.items.length → I s →
      Ensures E (gather keeps left i j) (fun j' s' => j' ≤ s'.roots.items.length ∧ I s') s
  | 0, i, j, s, hj, hi, hI => by
    rw [gather, pure_iff]
    exact ⟨by omega, hI⟩
  | left + 1, i, j, s, hj, hi, hI => by
    simp only [gather, rootAt, bind_iff, get_iff, pure_iff]
    rw [ite_iff]
    refine ⟨fun _ => ?_, fun _ => gather_le hroots hkeeps left (by omega) (by omega) hI⟩
    rw [bind_iff]
    refine (hkeeps _ s hI).mono fun b s' hkept => ?_
    obtain ⟨hI', hr⟩ := hkept
    have hlen : s'.roots.items.length = s.roots.items.length := by rw [hr]
    rw [ite_iff]
    refine ⟨fun _ => ?_, fun _ => gather_le hroots hkeeps left (by omega) (by omega) hI'⟩
    rw [bind_iff, setRoot, modify_iff]
    refine gather_le hroots hkeeps left (by omega) ?_ (hroots _ _ hI')
    rw [show (s'.roots.setItem j (s.roots.item i)).items.length = s'.roots.items.length from
      length_set]
    omega

theorem compact_candidates :
    Ensures E compact (fun _ s' => s'.candidates = s'.roots.items.length) s := by
  rw [compact, bind_iff, get_iff, bind_iff]
  refine (gather_le (I := fun _ => True) (fun _ _ _ => trivial) (fun _ _ _ => ?_) _ (le_refl 0)
    (Nat.zero_add _).le trivial).mono fun j s' hj => ?_
  · exact pure_iff.mpr ⟨trivial, rfl⟩
  · rw [cutRoots, modify_iff]
    exact (length_take_of_le hj.1).symm

theorem Buffer.compact (h : Buffer s dying) : Ensures E compact (fun _ s' =>
    Buffer s' dying ∧
    ∃ roots candidates, s' = { s with roots := roots, candidates := candidates }) s := by
  refine (compact_spec.and compact_candidates).mono ?_
  rintro _ s' ⟨⟨candidates, capacity, rfl⟩, hlen⟩
  have hmem : ∀ b ∈ s.live, b ∈ s.roots.items.filter (· ≠ 0) ↔ b ∈ s.roots.items := by
    intro b hb
    have hne : b ≠ 0 := fun h₀ => h.nonzero (h₀ ▸ hb)
    rw [mem_filter]
    exact and_iff_left (by simpa using hne)
  have hlive : ∀ b ∈ s.roots.items.filter (· ≠ 0), b ≠ 0 → b ∈ s.live := fun b hb =>
    h.live b (mem_of_mem_filter hb)
  refine ⟨⟨⟨h.nonzero, hlive, ?_, ?_, ?_⟩, h.dead⟩, _, _, rfl⟩
  · rw [filter_filter]
    simpa using h.nodup
  · exact fun b hb => (h.buffered b hb).trans (hmem b hb).symm
  · rw [filter_filter]
    simpa using hlen

end Gaps

/-! ### Candidates come and go -/

section Moves

variable {E : Stop → Prop} {s s' : State} {b : ℕ} {dying dying' : Finset ℕ}

/-- The state with `b` a candidate. -/
def State.listed (s : State) (b : ℕ) : State :=
  State.update { s with roots := s.roots.push b, candidates := s.candidates + 1 } b
    fun o => { o with buffered := true }

theorem State.buffered_listed {x : ℕ} :
    (s.listed b).buffered x = if x = b then true else s.buffered x := by
  simp only [buffered, listed, object_update]
  split <;> rfl

theorem State.count_listed {x : ℕ} : (s.listed b).count x = s.count x := by
  simp only [count, listed, object_update]
  split <;> simp_all

theorem Buffer.listed (h : Buffer s dying) (hlive : b ∈ s.live) (hb : s.buffered b = false)
    (hcount : s.count b ≠ 0) : Buffer (s.listed b) dying := by
  have hne : b ≠ 0 := fun h₀ => h.nonzero (h₀ ▸ hlive)
  have hroots : (s.listed b).roots.items = s.roots.items ++ [b] := rfl
  have hnot : b ∉ s.roots.items := by
    intro hmem
    rw [(h.buffered b hlive).mpr hmem] at hb
    cases hb
  have hfilter : (s.listed b).roots.items.filter (· ≠ 0) = s.roots.items.filter (· ≠ 0) ++ [b] := by
    rw [hroots, filter_append]
    congr 1
    simpa using hne
  refine ⟨⟨h.nonzero, ?_, ?_, ?_, ?_⟩, ?_⟩
  · intro x hx hx₀
    rw [hroots, mem_append, mem_singleton] at hx
    rcases hx with hx | rfl
    · exact h.live x hx hx₀
    · exact hlive
  · rw [hfilter]
    refine List.Nodup.append h.nodup (nodup_singleton b) ?_
    exact disjoint_singleton.mpr fun hmem => hnot (mem_of_mem_filter hmem)
  · intro x hx
    rw [State.buffered_listed, hroots, mem_append, mem_singleton]
    by_cases hxb : x = b
    · simp [hxb]
    · rw [if_neg hxb]
      exact (h.buffered x hx).trans (or_iff_left hxb).symm
  · rw [hfilter, length_append, ← h.candidates]
    rfl
  · rw [show (s.listed b).dead = _ from h.dead]
    congr 1
    ext x
    rw [State.mem_uncounted, State.mem_uncounted, State.buffered_listed, State.count_listed]
    by_cases hxb : x = b
    · simp [hxb, hb, hcount]
    · rw [if_neg hxb]
      rfl

/-- From `s` to `s'` no collection has gone on. -/
structure Aside (s s' : State) : Prop where
  stack : s'.stack = s.stack
  garbage : s'.garbage = s.garbage
  later : s'.later = s.later
  rooms : s'.rooms = s.rooms
  mode : s'.mode = s.mode
  collecting : s'.collecting = s.collecting

theorem Buffer.suspect (h : Buffer s dying) (hlive : b ∈ s.live) (hcount : s.count b ≠ 0) :
    Ensures E (suspect b) (fun _ s' => Buffer s' dying ∧ s'.live = s.live ∧ Aside s s') s := by
  simp only [Cycle.suspect, bind_iff, get_iff, ite_iff, pure_iff]
  refine ⟨fun _ => ⟨h, trivial, rfl, rfl, rfl, rfl, rfl, rfl⟩, fun hb => ?_⟩
  have hb : s.buffered b = false := by simpa [State.buffered] using hb
  have hlisted : ∀ {t : State}, Buffer t dying → t.live = s.live → t.object = s.object →
      Buffer (t.listed b) dying := by
    intro t ht hl ho
    have hbuf : t.buffered = s.buffered := by
      unfold State.buffered
      rw [ho]
    refine ht.listed (hl ▸ hlive) ((congrFun hbuf b).trans hb) ?_
    unfold State.count
    rw [ho]
    exact hcount
  simp only [change, modify_iff]
  refine ⟨fun _ => h.compact.mono ?_, fun _ => ?_⟩
  · rintro _ t ⟨ht, roots, candidates, rfl⟩
    exact ⟨hlisted ht rfl rfl, rfl, rfl, rfl, rfl, rfl, rfl, rfl⟩
  · exact ⟨hlisted h rfl rfl, rfl, rfl, rfl, rfl, rfl, rfl, rfl⟩

/-- The state with `b` kept for the next sweep. -/
def State.kept (s : State) (b : ℕ) : State := { s.counted b 0 with dead := s.dead + 1 }

theorem State.buffered_kept {x : ℕ} : (s.kept b).buffered x = s.buffered x := buffered_counted

theorem State.count_kept {x : ℕ} : (s.kept b).count x = if x = b then 0 else s.count x :=
  count_counted

/-- A dead candidate stays in the buffer with a count of 0. -/
theorem Buffer.kept (h : Buffer s dying) (hlive : b ∈ s.live) (hbuf : s.buffered b = true)
    (hb : b ∈ dying ∨ s.count b ≠ 0) : Buffer (s.kept b) (dying.erase b) where
  toListed := h.toListed.of_eq rfl (funext fun _ => State.buffered_kept) rfl rfl
  dead := by
    have hnot : b ∉ s.uncounted dying := by
      intro hmem
      obtain ⟨-, -, hdying, hcount⟩ := State.mem_uncounted.mp hmem
      exact hb.elim hdying fun hne => hne hcount
    show s.dead + 1 = _
    rw [h.dead, ← Finset.card_insert_of_notMem hnot]
    congr 1
    ext x
    rw [Finset.mem_insert, State.mem_uncounted, State.mem_uncounted, State.buffered_kept,
      State.count_kept, Finset.mem_erase]
    by_cases hx : x = b
    · simp only [hx, hbuf, if_true]
      exact ⟨fun _ => ⟨hlive, trivial, fun hmem => hmem.1 rfl, trivial⟩, fun _ => Or.inl trivial⟩
    · simp only [hx, if_false, false_or, ne_eq, not_false_eq_true, true_and]
      rfl

/-- `free` keeps the buffer: a candidate waits for the next sweep. -/
theorem Buffer.free (h : Buffer s dying) (hlive : b ∈ s.live) (hb : b ∈ dying ∨ s.count b ≠ 0) :
    Ensures E (free b) (fun _ s' => Buffer s' (dying.erase b) ∧ Aside s s' ∧ s'.live ⊆ s.live ∧
      ∀ x ∈ s.live, s.buffered x = true → x ∈ s'.live) s := by
  simp only [Cycle.free, keep, freeBlock, bind_iff, get_iff, ite_iff, ensures_store, modify_iff,
    pure_iff]
  refine ⟨fun hbuf => ⟨fun _ => ?_, fun hfalse => absurd trivial hfalse⟩,
    fun hbuf => ⟨fun hfalse => ?_, fun _ => ?_⟩⟩
  · exact ⟨h.kept hlive hbuf hb, ⟨rfl, rfl, rfl, rfl, rfl, rfl⟩, Finset.Subset.refl _,
      fun _ hx _ => hx⟩
  · cases hfalse
  · have hbuf : s.buffered b = false := by simpa [State.buffered] using hbuf
    have hB : Buffer { s with live := s.live.erase b } dying := h.erase hbuf
    refine ⟨⟨hB.toListed, ?_⟩, ⟨rfl, rfl, rfl, rfl, rfl, rfl⟩, Finset.erase_subset _ _, ?_⟩
    · rw [hB.dead]
      congr 1
      ext x
      rw [State.mem_uncounted, State.mem_uncounted, Finset.mem_erase (a := x) (b := b) (s := dying)]
      refine and_congr_right fun hx => and_congr_right fun _ => and_congr_left fun _ => ?_
      have hne : x ≠ b := (Finset.mem_erase.mp hx).1
      simp [hne]
    · intro x hx hx'
      refine Finset.mem_erase.mpr ⟨?_, hx⟩
      rintro rfl
      rw [hbuf] at hx'
      cases hx'

theorem Buffer.mutates (h : Buffer s dying) (hm : Mutates s dying s' dying') :
    Buffer s' dying' := by
  have hroots : s'.roots = s.roots := by rw [hm.kept]
  have hcandidates : s'.candidates = s.candidates := by rw [hm.kept]
  have hdead : s'.dead = s.dead := by rw [hm.kept]
  have hold : ∀ x ∈ s'.live, s'.buffered x = true → x ∈ s.live := by
    intro x hx hbuf
    by_contra hnot
    rw [(hm.fresh x hx hnot).1] at hbuf
    cases hbuf
  refine ⟨⟨hm.nonzero, ?_, ?_, ?_, ?_⟩, ?_⟩
  · intro x hx hne
    exact hm.live (h.live x (hroots ▸ hx) hne)
  · rw [hroots]
    exact h.nodup
  · intro x hx
    rw [hroots]
    by_cases hlive : x ∈ s.live
    · rw [hm.buffered x hlive]
      exact h.buffered x hlive
    · have hne : x ≠ 0 := fun h₀ => hm.nonzero (h₀ ▸ hx)
      exact ⟨fun hbuf => absurd (hold x hx hbuf) hlive,
        fun hmem => absurd (h.live x hmem hne) hlive⟩
  · rw [hcandidates, hroots]
    exact h.candidates
  · rw [hdead, h.dead]
    congr 1
    ext x
    rw [State.mem_uncounted, State.mem_uncounted]
    constructor
    · rintro ⟨hlive, hbuf, hx, hcount⟩
      have hx' : x ∉ dying' := fun hmem => hm.last x hmem hx hcount
      exact ⟨hm.live hlive, (hm.buffered x hlive).trans hbuf, hx',
        (hm.counted x hlive hx').mpr hcount⟩
    · rintro ⟨hlive, hbuf, hx, hcount⟩
      have hlive' := hold x hlive hbuf
      exact ⟨hlive', (hm.buffered x hlive').symm.trans hbuf, fun hmem => hx (hm.releases hmem),
        (hm.counted x hlive' hx).mp hcount⟩

/-- From `s` to `s'` no candidate is freed, and no block of `rooms` is given out. -/
structure Careful (s s' : State) : Prop extends Aside s s' where
  kept : ∀ b ∈ s.live, s.buffered b = true → b ∈ s'.live
  given : ∀ b ∈ s'.live, b ∈ s.live ∨ b ∉ s.rooms.items

/-- **The program keeps the buffer**, whatever it does. -/
theorem Buffer.call (h : Buffer s dying) (hcall : Call s dying s' dying') :
    Buffer s' dying' ∧ Careful s s' := by
  cases hcall with
  | mutate hm =>
    have haside : Aside s s' := by
      constructor <;> rw [hm.kept]
    refine ⟨h.mutates hm, haside, fun b hb _ => hm.live hb, fun b hb => ?_⟩
    by_cases hlive : b ∈ s.live
    · exact Or.inl hlive
    · exact Or.inr (hm.fresh b hb hlive).2
  | suspect hlive hcount _ hrun =>
    obtain ⟨hB, hl, haside⟩ := (h.suspect (E := fun _ => True) hlive hcount).of_run hrun
    exact ⟨hB, haside, fun b hb _ => hl ▸ hb, fun b hb => Or.inl (hl ▸ hb)⟩
  | free hlive hb hrun =>
    obtain ⟨hB, haside, hsub, hkept⟩ := (h.free (E := fun _ => True) hlive hb).of_run hrun
    exact ⟨hB, haside, hkept, fun b hb => Or.inl (hsub hb)⟩
  | due hrun =>
    obtain ⟨b, rfl⟩ := h.due.of_run hrun
    exact ⟨h.of_eq rfl rfl rfl rfl rfl rfl, ⟨rfl, rfl, rfl, rfl, rfl, rfl⟩, fun _ hx _ => hx,
      fun _ hx => Or.inl hx⟩
  | collect _ =>
    exact ⟨h, ⟨rfl, rfl, rfl, rfl, rfl, rfl⟩, fun _ hx _ => hx, fun _ hx => Or.inl hx⟩

end Moves

/-! ### Collections -/

section Collections

variable {E : Stop → Prop} {s s' : State} {b : ℕ} {dying : Finset ℕ}

theorem length_filter_set_zero {l : List ℕ} : ∀ {i : ℕ}, l.getD i 0 ≠ 0 →
    ((l.set i 0).filter (· ≠ 0)).length + 1 = (l.filter (· ≠ 0)).length := by
  induction l with
  | nil => exact fun h => absurd rfl h
  | cons a l ih =>
    intro i h
    cases i with
    | zero =>
      have ha : a ≠ 0 := h
      simp [ha]
    | succ i =>
      have hi := ih (i := i) h
      rw [set_cons_succ, filter_cons, filter_cons]
      split
      · exact congrArg Nat.succ hi
      · exact hi

theorem mem_set_zero_iff {l : List ℕ} (h : (l.filter (· ≠ 0)).Nodup) {i : ℕ} (hi : l.getD i 0 ≠ 0)
    (hb : b ≠ 0) : b ∈ l.set i 0 ↔ b ∈ l ∧ b ≠ l.getD i 0 := by
  have hlt : i < l.length := by
    by_contra hle
    rw [getD_eq_getElem?_getD, List.getElem?_eq_none (Nat.le_of_not_lt hle)] at hi
    exact hi rfl
  rw [getD_of_lt hlt] at hi ⊢
  constructor
  · intro hmem
    refine ⟨mem_of_mem_set_zero hmem hb, ?_⟩
    rintro rfl
    exact not_mem_set_zero h hlt hi hmem
  · rintro ⟨hmem, hne⟩
    obtain ⟨j, hj, rfl⟩ := mem_iff_getElem.mp hmem
    have hij : i ≠ j := by
      rintro rfl
      exact hne rfl
    rw [← getElem_set_ne hij (by simpa using hj)]
    exact getElem_mem _

theorem Listed.dropped (h : Listed s) {i : ℕ} (hi : s.roots.item i ≠ 0) :
    Listed (s.dropped i (s.roots.item i)) where
  nonzero := h.nonzero
  live b hb hne := h.live b (mem_of_mem_set_zero hb hne) hne
  nodup := nodup_set_zero h.nodup i
  buffered := by
    intro b hb
    have hne : b ≠ 0 := fun h₀ => h.nonzero (h₀ ▸ hb)
    have hbuf : (s.dropped i (s.roots.item i)).buffered b =
      if b = s.roots.item i then false else s.buffered b := State.buffered_unbuffered
    have hmem : b ∈ (s.dropped i (s.roots.item i)).roots.items ↔
      b ∈ s.roots.items ∧ b ≠ s.roots.item i := mem_set_zero_iff h.nodup hi hne
    rw [hbuf, hmem]
    by_cases hbi : b = s.roots.item i
    · simp [hbi]
    · rw [if_neg hbi]
      exact (h.buffered b hb).trans (and_iff_left hbi).symm
  candidates := by
    have hlen := length_filter_set_zero hi
    have hcand := h.candidates
    show s.candidates - 1 = ((s.roots.items.set i 0).filter (· ≠ 0)).length
    omega

/-- When every candidate has counts, none is dead. -/
theorem Listed.toBuffer (h : Listed s) (hdead : s.dead = 0)
    (hcount : ∀ b ∈ s.roots.items, b ≠ 0 → s.count b ≠ 0) : Buffer s dying where
  toListed := h
  dead := by
    rw [hdead, eq_comm, Finset.card_eq_zero, Finset.eq_empty_iff_forall_notMem]
    intro b hb
    obtain ⟨hlive, hbuf, -, hz⟩ := State.mem_uncounted.mp hb
    have hne : b ≠ 0 := fun h₀ => h.nonzero (h₀ ▸ hlive)
    exact hcount b ((h.buffered b hlive).mp hbuf) hne hz

theorem sweep_candidates : Ensures E (sweep cycleFree) (fun _ s' =>
    s'.candidates = s'.roots.items.length ∧ s'.dead = 0 ∧ s'.collecting = s.collecting) s := by
  rw [sweep, bind_iff, get_iff, bind_iff]
  refine (gather_le (I := fun s' => s'.collecting = s.collecting) (fun _ _ h => h) ?_ _ (le_refl 0)
    (Nat.zero_add _).le rfl).mono fun j s' hend => ?_
  · intro b t ht
    rw [bind_iff, ensures_load, ite_iff]
    refine ⟨fun _ => ?_, fun _ => pure_iff.mpr ⟨ht, rfl⟩⟩
    simp only [bind_iff, change, modify_iff, pure_iff]
    exact ensures_cycleFree (s := t.unbuffered b) (by simp) ⟨ht, rfl⟩
  · simp only [cutRoots, bind_iff, modify_iff]
    exact ⟨(length_take_of_le hend.1).symm, trivial, hend.2⟩

/-- `sweep` keeps the buffer: the candidates left have counts. -/
theorem Listed.sweep (h : Listed s) : Ensures E (sweep cycleFree) (fun _ s' =>
    Swept s (s.roots.items.filter s.lost) s' ∧ Listed s' ∧ s'.dead = 0 ∧
    s'.collecting = s.collecting ∧ ∀ b ∈ s'.roots.items, b ≠ 0 → s'.count b ≠ 0) s := by
  refine ((sweep_spec h.nodup).and sweep_candidates).mono ?_
  rintro _ s' ⟨⟨hS, hroots⟩, hcandidates, hdead, hcollecting⟩
  have hlive : ∀ {x}, x ∈ s'.live ↔ x ∈ s.live ∧ x ∉ s.roots.items.filter s.lost := by
    intro x
    rw [hS.live, Finset.mem_sdiff, mem_toFinset]
  have hmem : ∀ {x}, x ∈ s'.roots.items ↔ x ∈ s.roots.items ∧ x ≠ 0 ∧ s.count x ≠ 0 := by
    intro x
    rw [hroots, mem_filter]
    refine and_congr_right fun _ => ?_
    by_cases hx : x = 0 <;> simp [State.lost, hx]
  have hgone : ∀ {x}, x ∈ s.roots.items.filter s.lost ↔
      x ∈ s.roots.items ∧ x ≠ 0 ∧ s.count x = 0 := by
    intro x
    rw [mem_filter]
    simp [State.lost]
  have hall : s'.roots.items.filter (· ≠ 0) = s'.roots.items :=
    List.filter_eq_self.mpr fun x hx => by simpa using (hmem.mp hx).2.1
  refine ⟨hS, ⟨fun h₀ => h.nonzero (hlive.mp h₀).1, ?_, ?_, ?_, ?_⟩, hdead, hcollecting, ?_⟩
  · intro x hx hne
    obtain ⟨hroot, -, hcount⟩ := hmem.mp hx
    exact hlive.mpr ⟨h.live x hroot hne, fun hlost => hcount (hgone.mp hlost).2.2⟩
  · rw [hall, hroots]
    refine h.nodup.sublist (monotone_filter_right _ fun x hx => ?_)
    simp only [decide_eq_true_eq] at hx ⊢
    exact hx.1
  · intro x hx
    obtain ⟨hx, hkept⟩ := hlive.mp hx
    have hne : x ≠ 0 := fun h₀ => h.nonzero (h₀ ▸ hx)
    rw [hS.buffered, if_neg hkept, h.buffered x hx, hmem]
    exact ⟨fun hroot => ⟨hroot, hne, fun hz => hkept (hgone.mpr ⟨hroot, hne, hz⟩)⟩,
      fun hroot => hroot.1⟩
  · rw [hall]
    exact hcandidates
  · intro x hx _
    rw [hS.count]
    exact (hmem.mp hx).2.2

end Collections

end Cycle

end HdLang
