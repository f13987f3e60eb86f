import HdLang.Pool.Model

/-!
# Dependency maps

A function type's dependency map says which inputs each result depends on: those whose lifetime it
has. `fn_deps` gives an input that no result depends on a lifetime of its own, numbers the lifetimes
by first occurrence, and interns the numbers. Two lists of lifetimes are one map just when they say
the same, as long as no result happens to have the lifetime that an input was given for its own; and
a stored map is its own numbering, unless two inputs have the lifetime 0 that stands for none.
-/

namespace HdLang.Pool

open Numbering List Option Nat

/-- The lifetimes of a function type's input and result slots. A slot's own lifetime is its place
below 2^31. -/
structure Slots where
  ins : List ℕ
  outs : List ℕ
  few : ins.length < 2 ^ 31

namespace Slots

/-- Input `i` and result `j` share a lifetime. -/
def Shares (s : Slots) (i j : ℕ) : Prop := ∃ l ≠ 0, s.ins[i]? = some l ∧ s.outs[j]? = some l

/-- Every input has a lifetime of 31 bits. -/
def Named (s : Slots) : Prop := ∀ l ∈ s.ins, l ≠ 0 ∧ l < 2 ^ 31

/-- No result has the lifetime that an input is given for its own. -/
def Apart (s : Slots) : Prop := ∀ k l, s.ins[k]? = some l → l ∉ s.outs → 2 ^ 31 ||| k ∉ s.outs

/-- What an input slot is numbered by. -/
def label (outs : List ℕ) (k l : ℕ) : ℕ := if l ∈ outs then l else 2 ^ 31 ||| k

/-- The labels of the inputs. -/
def labels (s : Slots) : List ℕ := s.ins.mapIdx (label s.outs)

/-- The stored numbers of the inputs. -/
def inWords (s : Slots) : List ℕ := (number s.labels).map (· + 1)

/-- The stored numbers of the results. -/
def outWords (s : Slots) : List ℕ := s.outs.map (outSlot (names [] s.labels))

/-- The record of the map. -/
def words (s : Slots) : List ℕ :=
  s.ins.length :: s.outs.length :: (s.inWords ++ s.outWords)

/-- The stored map. -/
def stored (s : Slots) : Slots where
  ins := s.inWords
  outs := s.outWords
  few := by
    unfold inWords labels
    rw [List.length_map, length_number, List.length_mapIdx]
    exact s.few

variable {s t : Slots} {i j k l : ℕ}

@[simp] theorem length_labels : s.labels.length = s.ins.length := length_mapIdx

@[simp] theorem length_inWords : s.inWords.length = s.ins.length := by
  rw [inWords, length_map, length_number, length_labels]

@[simp] theorem length_outWords : s.outWords.length = s.outs.length := length_map ..

theorem labels_getElem? : s.labels[k]? = s.ins[k]?.map (label s.outs k) := getElem?_mapIdx

theorem own_eq (hk : k < 2 ^ 31) : 2 ^ 31 ||| k = 2 ^ 31 + k := by
  have h := two_pow_add_eq_or_of_lt hk 1
  rw [mul_one] at h
  exact h.symm

theorem own_ne_zero : 2 ^ 31 ||| k ≠ 0 := by
  intro h
  have := (or_eq_zero_iff.mp h).1
  omega

/-! ### `fn_deps` -/

theorem inSlots_step (outs seen ins : List ℕ) (k l : ℕ) :
    inSlots outs k seen (l :: ins) =
      match seen.idxOf? (label outs k l) with
      | some i => ((inSlots outs (k + 1) seen ins).1, (i + 1) :: (inSlots outs (k + 1) seen ins).2)
      | none => ((inSlots outs (k + 1) (seen ++ [label outs k l]) ins).1,
          (seen.length + 1) :: (inSlots outs (k + 1) (seen ++ [label outs k l]) ins).2) := rfl

theorem inSlots_cons (outs seen ins : List ℕ) (k l : ℕ) :
    inSlots outs k seen (l :: ins) =
      let a := label outs k l
      let r := inSlots outs (k + 1) (if a ∈ seen then seen else seen ++ [a]) ins
      (r.1, ((if a ∈ seen then seen.idxOf a else seen.length) + 1) :: r.2) := by
  rw [inSlots_step]
  by_cases hmem : label outs k l ∈ seen
  · have hidx : seen.idxOf? (label outs k l) = some (seen.idxOf (label outs k l)) :=
      idxOf?_of_mem hmem
    simp only [hidx, if_pos hmem]
  · have hidx : seen.idxOf? (label outs k l) = none := idxOf?_eq_none_iff.mpr hmem
    simp only [hidx, if_neg hmem]

/-- The loop over the inputs numbers their labels by first occurrence. -/
theorem inSlots_eq (outs seen ins : List ℕ) (k : ℕ) :
    inSlots outs k seen ins =
      (names seen (ins.mapIdx fun i l => label outs (k + i) l),
        (ins.mapIdx fun i l => label outs (k + i) l).map fun l =>
          (names seen (ins.mapIdx fun i l => label outs (k + i) l)).idxOf l + 1) := by
  induction ins generalizing k seen with
  | nil => rfl
  | cons l ins ih =>
    have hshift : (fun i l => label outs (k + (i + 1)) l) =
        fun i l => label outs (k + 1 + i) l := by
      funext i l
      rw [add_right_comm, add_assoc]
    rw [inSlots_cons, mapIdx_cons, hshift, add_zero]
    simp only [ih]
    generalize (ins.mapIdx fun i l => label outs (k + 1 + i) l) = as
    generalize label outs k l = a
    -- the head is found among what was seen, or is the next name
    by_cases ha : a ∈ seen
    · obtain ⟨rest, hrest⟩ : seen <+: names seen as := isPrefix_names
      have hnames : names seen (a :: as) = names seen as := by rw [names, if_pos ha]
      rw [if_pos ha, if_pos ha, hnames, map_cons, ← hrest, idxOf_append_of_mem ha]
    · obtain ⟨rest, hrest⟩ : seen ++ [a] <+: names (seen ++ [a]) as := isPrefix_names
      have hnames : names seen (a :: as) = names (seen ++ [a]) as := by rw [names, if_neg ha]
      have hidx : (seen ++ [a] ++ rest).idxOf a = seen.length := by
        rw [append_assoc, idxOf_append_of_notMem ha]
        simp
      rw [if_neg ha, if_neg ha, hnames, map_cons, ← hrest, hidx]

theorem inSlots_words (s : Slots) :
    inSlots s.outs 0 [] s.ins = (names [] s.labels, s.inWords) := by
  have hzero : (fun i l => label s.outs (0 + i) l) = label s.outs := by
    funext i l
    rw [zero_add]
  rw [inSlots_eq, hzero]
  unfold inWords number labels
  rw [List.map_map]
  rfl

/-- What `fn_deps` interns. -/
def content (s : Slots) : Content := ⟨.deps, 0, s.words, []⟩

theorem fnDeps_run (s : Slots) (hs : s.outs ≠ []) (p : InternPool) :
    (fnDeps s.ins s.outs).run p =
      .ok ((Interned.intern p.items s.content.matches_ ⟨s.content, 0⟩).1,
        { p with items := (Interned.intern p.items s.content.matches_ ⟨s.content, 0⟩).2 }) := by
  have hempty : s.outs.isEmpty = false := by simpa using hs
  unfold fnDeps
  rw [hempty, inSlots_words]
  rfl

theorem fnDeps_none (s : Slots) (hs : s.outs = []) (p : InternPool) :
    (fnDeps s.ins s.outs).run p = .ok (FnDeps.none, p) := by
  unfold fnDeps
  rw [hs]
  rfl

theorem matches_content (s : Slots) {it : Item} :
    s.content.matches_ it = true ↔ it.tag = .deps ∧ it.head = s.words := by
  simp [Content.matches_, content, PoolTag.hasRecord]

variable {p p' q : InternPool} {d : FnDeps}

theorem getElem?_of_fnDeps (s : Slots) (hs : s.outs ≠ [])
    (hrun : (fnDeps s.ins s.outs).run p = .ok (d, p')) (hq : p'.items <+: q.items) :
    ∃ it, q.items[d]? = some it ∧ it.head = s.words := by
  rw [fnDeps_run s hs, Except.ok.injEq, Prod.mk.injEq] at hrun
  obtain ⟨rfl, rfl⟩ := hrun
  obtain ⟨it, hit, hsame⟩ := Interned.getElem? (l := p.items) (a := ⟨s.content, 0⟩)
    ((matches_content s).mpr ⟨rfl, rfl⟩)
  exact ⟨it, Indexed.getElem?_of_initial hq hit, ((matches_content s).mp hsame).2⟩

/-- Two maps have one index just when their records are the same. -/
theorem index_eq_iff {s t : Slots} (hs : s.outs ≠ []) (ht : t.outs ≠ []) {q' : InternPool}
    {e : FnDeps} (hrun : (fnDeps s.ins s.outs).run p = .ok (d, p')) (hq : p'.items <+: q.items)
    (hrun' : (fnDeps t.ins t.outs).run q = .ok (e, q')) :
    d = e ↔ s.words = t.words := by
  constructor
  · rintro rfl
    have hq' : q.items <+: q'.items := by
      rw [fnDeps_run t ht, Except.ok.injEq, Prod.mk.injEq] at hrun'
      rw [← hrun'.2]
      exact Interned.isPrefix
    obtain ⟨it, hit, hhead⟩ := getElem?_of_fnDeps s hs hrun (hq.trans hq')
    obtain ⟨it', hit', hhead'⟩ := getElem?_of_fnDeps t ht hrun' (prefix_refl _)
    rw [hit, Option.some.injEq] at hit'
    rw [← hhead, ← hhead', hit']
  · intro hwords
    have hcontent : t.content = s.content := by rw [content, content, hwords]
    rw [fnDeps_run s hs, Except.ok.injEq, Prod.mk.injEq] at hrun
    obtain ⟨rfl, rfl⟩ := hrun
    rw [fnDeps_run t ht, hcontent, Interned.intern_of_isPrefix
      ((matches_content s).mpr ⟨rfl, rfl⟩) hq, Except.ok.injEq, Prod.mk.injEq] at hrun'
    exact hrun'.1

theorem depsOf_eq (s : Slots) (hs : s.outs ≠ []) (hrun : (fnDeps s.ins s.outs).run p = .ok (d, p'))
    (hq : p'.items <+: q.items) (hd : d ≠ FnDeps.none)
    : q.depsOf d = .ok (some (s.inWords, s.outWords)) := by
  obtain ⟨it, hit, hhead⟩ := getElem?_of_fnDeps s hs hrun hq
  have hat : q.at_ d = .ok it := by
    unfold InternPool.at_
    rw [hit]
    rfl
  have hlen : ¬(s.inWords ++ s.outWords).length < s.ins.length := by
    rw [length_append, length_inWords]
    omega
  have htake : (s.inWords ++ s.outWords).take s.ins.length = s.inWords := take_left' length_inWords
  have hdrop : (s.inWords ++ s.outWords).drop s.ins.length = s.outWords := drop_left' length_inWords
  unfold InternPool.depsOf
  rw [if_neg hd, hat]
  dsimp only [bind, Except.bind]
  rw [hhead]
  show (if (s.inWords ++ s.outWords).length < s.ins.length then _ else _) = _
  rw [if_neg hlen, htake, hdrop]
  rfl

/-! ### What the numbers say -/

/-- Input `i` and result `j` have the same number in the stored map. -/
def Tied (s : Slots) (i j : ℕ) : Prop := ∃ w, s.inWords[i]? = some w ∧ s.outWords[j]? = some w

/-- Two inputs have the lifetime 0, and so does a result. -/
def Twice (s : Slots) : Prop :=
  0 ∈ s.outs ∧ ∃ i j : ℕ, i ≠ j ∧ s.ins[i]? = some 0 ∧ s.ins[j]? = some 0

theorem inWords_getElem? :
    s.inWords[i]? = s.labels[i]?.map fun l => (names [] s.labels).idxOf l + 1 := by
  unfold inWords number
  rw [List.map_map, List.getElem?_map]
  rfl

theorem outSlot_eq_succ {seen : List ℕ} {l n : ℕ} :
    outSlot seen l = n + 1 ↔ l ≠ 0 ∧ l ∈ seen ∧ seen.idxOf l = n := by
  unfold outSlot
  by_cases hl : l = 0
  · simp [hl]
  · rw [if_neg hl]
    by_cases hmem : l ∈ seen
    · rw [idxOf?_of_mem hmem]
      simp [hl, hmem]
    · rw [idxOf?_eq_none_iff.mpr hmem]
      simp [hmem]

theorem tied_iff : s.Tied i j ↔ ∃ l ≠ 0, s.labels[i]? = some l ∧ s.outs[j]? = some l := by
  unfold Tied
  rw [inWords_getElem?, outWords, getElem?_map]
  constructor
  · rintro ⟨w, hin, hout⟩
    obtain ⟨l, hl, rfl⟩ := map_eq_some_iff.mp hin
    obtain ⟨o, ho, hslot⟩ := map_eq_some_iff.mp hout
    obtain ⟨hne, -, hidx⟩ := outSlot_eq_succ.mp hslot
    have hsame : l = o := (idxOf_names_inj (mem_of_getElem? hl)).mp hidx.symm
    exact ⟨o, hne, hsame ▸ hl, ho⟩
  · rintro ⟨l, hne, hl, ho⟩
    refine ⟨_, by rw [hl]; rfl, ?_⟩
    rw [ho, map_some, Option.some.injEq, outSlot_eq_succ]
    exact ⟨hne, mem_names.mpr (Or.inr (mem_of_getElem? hl)), rfl⟩

/-- A result whose number is not 0 depends on an input. -/
theorem exists_tied {w : ℕ} (hout : s.outWords[j]? = some (w + 1)) : ∃ i, s.Tied i j := by
  unfold outWords at hout
  rw [getElem?_map] at hout
  obtain ⟨o, ho, hslot⟩ := map_eq_some_iff.mp hout
  obtain ⟨hne, hmem, -⟩ := outSlot_eq_succ.mp hslot
  obtain ⟨i, hi⟩ := mem_iff_getElem?.mp ((mem_names.mp hmem).resolve_left not_mem_nil)
  exact ⟨i, tied_iff.mpr ⟨o, hne, hi, ho⟩⟩

theorem label_of_mem {outs : List ℕ} (h : l ∈ outs) : label outs k l = l := if_pos h

theorem label_of_notMem {outs : List ℕ} (h : l ∉ outs) : label outs k l = 2 ^ 31 ||| k := if_neg h

theorem own_inj (hi : i < 2 ^ 31) (hj : j < 2 ^ 31) (h : 2 ^ 31 ||| i = 2 ^ 31 ||| j) : i = j := by
  rw [own_eq hi, own_eq hj] at h
  exact add_left_cancel h

/-- **Which labels are equal** follows from what is tied. -/
theorem labels_eq_iff (h : ¬s.Twice) (hi : i < s.ins.length) (hj : j < s.ins.length) :
    s.labels[i]? = s.labels[j]? ↔ i = j ∨ ∃ k, s.Tied i k ∧ s.Tied j k := by
  have hti : s.ins[i]? = some s.ins[i] := getElem?_eq_getElem hi
  have htj : s.ins[j]? = some s.ins[j] := getElem?_eq_getElem hj
  have hli : s.labels[i]? = some (label s.outs i s.ins[i]) := by
    rw [labels_getElem?, hti, map_some]
  have hlj : s.labels[j]? = some (label s.outs j s.ins[j]) := by
    rw [labels_getElem?, htj, map_some]
  constructor
  · intro heq
    by_cases htied : ∃ k, s.Tied i k
    · obtain ⟨k, hk⟩ := htied
      obtain ⟨l, hne, hl, ho⟩ := tied_iff.mp hk
      exact Or.inr ⟨k, hk, tied_iff.mpr ⟨l, hne, heq ▸ hl, ho⟩⟩
    · refine Or.inl ?_
      -- the label is no result's, so it is each slot's own, or 0
      have hout : ∀ a, label s.outs i s.ins[i] = a → a ≠ 0 → a ∉ s.outs := by
        rintro a rfl hne hmem
        obtain ⟨k, hk⟩ := mem_iff_getElem?.mp hmem
        exact htied ⟨k, tied_iff.mpr ⟨_, hne, hli, hk⟩⟩
      rw [hli, hlj, Option.some.injEq] at heq
      have hi31 : i < 2 ^ 31 := hi.trans s.few
      have hj31 : j < 2 ^ 31 := hj.trans s.few
      by_cases hmi : s.ins[i] ∈ s.outs
      · have hzero : s.ins[i] = 0 := by
          by_contra hne
          exact hout _ (label_of_mem hmi) hne hmi
        rw [label_of_mem hmi, hzero] at heq
        by_cases hmj : s.ins[j] ∈ s.outs
        · rw [label_of_mem hmj] at heq
          by_contra hij
          exact h ⟨hzero ▸ hmi, i, j, hij, hti.trans (congrArg some hzero),
            htj.trans (congrArg some heq.symm)⟩
        · rw [label_of_notMem hmj] at heq
          exact absurd heq.symm own_ne_zero
      · rw [label_of_notMem hmi] at heq
        by_cases hmj : s.ins[j] ∈ s.outs
        · rw [label_of_mem hmj] at heq
          exact absurd (heq ▸ hmj) (hout _ (label_of_notMem hmi) own_ne_zero)
        · rw [label_of_notMem hmj] at heq
          exact own_inj hi31 hj31 heq
  · rintro (rfl | ⟨k, hik, hjk⟩)
    · rfl
    · obtain ⟨l, -, hl, ho⟩ := tied_iff.mp hik
      obtain ⟨l', -, hl', ho'⟩ := tied_iff.mp hjk
      rw [ho, Option.some.injEq] at ho'
      rw [hl, hl', ho']

/-- **A record says what is tied**, and nothing else. -/
theorem words_eq_iff (hs : ¬s.Twice) (ht : ¬t.Twice) (hins : s.ins.length = t.ins.length)
    (houts : s.outs.length = t.outs.length) :
    s.words = t.words ↔ ∀ i j, s.Tied i j ↔ t.Tied i j := by
  have hparts : s.words = t.words ↔ s.inWords = t.inWords ∧ s.outWords = t.outWords := by
    unfold words
    rw [cons.injEq, cons.injEq, and_iff_right hins, and_iff_right houts]
    constructor
    · intro h
      exact append_inj h (by rw [length_inWords, length_inWords, hins])
    · rintro ⟨hin, hout⟩
      rw [hin, hout]
  rw [hparts]
  constructor
  · rintro ⟨hin, hout⟩ i j
    unfold Tied
    rw [hin, hout]
  · intro h
    have hin : s.inWords = t.inWords := by
      unfold inWords
      refine congrArg _ (number_congr (by rw [length_labels, length_labels, hins]) ?_)
      intro i j hi hj
      rw [length_labels] at hi hj
      rw [labels_eq_iff hs hi hj, labels_eq_iff ht (hins ▸ hi) (hins ▸ hj)]
      simp only [h]
    refine ⟨hin, ext_getElem? fun j => ?_⟩
    by_cases htied : ∃ i, s.Tied i j
    · obtain ⟨i, hi⟩ := htied
      obtain ⟨w, hw, hout⟩ := hi
      obtain ⟨w', hw', hout'⟩ := (h i j).mp ⟨w, hw, hout⟩
      rw [← hin, hw, Option.some.injEq] at hw'
      rw [hout, hout', hw']
    · have htied' : ¬∃ i, t.Tied i j := fun ⟨i, hi⟩ => htied ⟨i, (h i j).mpr hi⟩
      -- a result that is tied to nothing has the number 0
      have hzero : ∀ {u : Slots}, (¬∃ i, u.Tied i j) → j < u.outs.length →
          u.outWords[j]? = some 0 := by
        intro u hu hj
        have hj' : j < u.outWords.length := by rwa [length_outWords]
        have hget : u.outWords[j]? = some u.outWords[j] := getElem?_eq_getElem hj'
        cases hw : u.outWords[j] with
        | zero => rw [hget, hw]
        | succ w => exact absurd (exists_tied (hget.trans (congrArg some hw))) hu
      by_cases hj : j < s.outs.length
      · rw [hzero htied hj, hzero htied' (houts ▸ hj)]
      · rw [getElem?_eq_none (by rw [length_outWords]; omega),
          getElem?_eq_none (by rw [length_outWords]; omega)]

theorem tied_iff_shares (h : s.Apart) : s.Tied i j ↔ s.Shares i j := by
  rw [tied_iff]
  constructor
  · rintro ⟨l, hne, hl, ho⟩
    rw [labels_getElem?] at hl
    obtain ⟨a, ha, hlabel⟩ := map_eq_some_iff.mp hl
    by_cases hmem : a ∈ s.outs
    · rw [label_of_mem hmem] at hlabel
      exact ⟨l, hne, hlabel ▸ ha, ho⟩
    · rw [label_of_notMem hmem] at hlabel
      exact absurd (hlabel ▸ mem_of_getElem? ho) (h i a ha hmem)
  · rintro ⟨l, hne, hl, ho⟩
    refine ⟨l, hne, ?_, ho⟩
    rw [labels_getElem?, hl, map_some, label_of_mem (mem_of_getElem? ho)]

/-! ### The stored map -/

theorem not_twice_of_named (h : s.Named) : ¬s.Twice := by
  rintro ⟨-, i, -, -, hi, -⟩
  exact (h 0 (mem_of_getElem? hi)).1 rfl

theorem named_stored (s : Slots) : s.stored.Named := by
  intro w hw
  obtain ⟨i, hi⟩ := mem_iff_getElem?.mp hw
  have hi' : s.inWords[i]? = some w := hi
  rw [inWords_getElem?] at hi'
  obtain ⟨l, hl, rfl⟩ := map_eq_some_iff.mp hi'
  have hmem : l ∈ names [] s.labels := mem_names.mpr (Or.inr (mem_of_getElem? hl))
  have hlt : (names [] s.labels).idxOf l < (names [] s.labels).length := idxOf_lt_length_of_mem hmem
  have hlen : (names [] s.labels).length ≤ s.ins.length := by
    have h : (names [] s.labels).length ≤ ([] : List ℕ).length + s.labels.length := length_names_le
    rwa [length_nil, zero_add, length_labels] at h
  have hfew := s.few
  exact ⟨succ_ne_zero _, by omega⟩

theorem stored_outs_ne (hs : s.outs ≠ []) : s.stored.outs ≠ [] := by
  intro hnil
  refine hs (length_eq_zero_iff.mp ?_)
  rw [← length_outWords]
  exact congrArg length hnil

theorem outWords_lt {w : ℕ} (h : w ∈ s.outWords) : w < 2 ^ 31 := by
  obtain ⟨j, hj⟩ := mem_iff_getElem?.mp h
  cases w with
  | zero => exact Nat.two_pow_pos 31
  | succ w =>
    obtain ⟨i, w', hin, hout⟩ := exists_tied hj
    rw [hj, Option.some.injEq] at hout
    exact hout ▸ (named_stored s w' (mem_of_getElem? hin)).2

theorem apart_stored (s : Slots) : s.stored.Apart := by
  intro k l hk _ hmem
  have hlt := outWords_lt (s := s) hmem
  have hle : 2 ^ 31 ≤ 2 ^ 31 ||| k := left_le_or
  omega

theorem shares_stored : s.stored.Shares i j ↔ s.Tied i j := by
  constructor
  · rintro ⟨w, -, hin, hout⟩
    exact ⟨w, hin, hout⟩
  · rintro ⟨w, hin, hout⟩
    exact ⟨w, (named_stored s w (mem_of_getElem? hin)).1, hin, hout⟩

/-- **The record of a stored map** is the map's, unless two inputs and a result have lifetime 0. -/
theorem words_stored_iff : s.stored.words = s.words ↔ ¬s.Twice := by
  have hnot : ¬s.stored.Twice := not_twice_of_named (named_stored s)
  have htied : ∀ i j, s.stored.Tied i j ↔ s.Tied i j := fun i j =>
    (tied_iff_shares (apart_stored s)).trans shares_stored
  constructor
  · rintro hwords ⟨hzero, i, j, hij, hi, hj⟩
    have hli : s.labels[i]? = some 0 := by
      rw [labels_getElem?, hi, map_some, label_of_mem hzero]
    have hlj : s.labels[j]? = some 0 := by
      rw [labels_getElem?, hj, map_some, label_of_mem hzero]
    have hilt : i < s.ins.length := (List.getElem?_eq_some_iff.mp hi).1
    have hjlt : j < s.ins.length := (List.getElem?_eq_some_iff.mp hj).1
    have hin : s.stored.inWords = s.inWords := by
      unfold words at hwords
      rw [List.cons.injEq, List.cons.injEq] at hwords
      exact (append_inj hwords.2.2 (by simp [stored])).1
    have hnumber : number s.stored.labels = number s.labels :=
      map_injective_iff.mpr (succ_injective) hin
    -- the two inputs have one number, so they are tied to one result, but their label is 0
    have hsame : s.stored.labels[i]? = s.stored.labels[j]? := by
      have hi' : i < s.stored.labels.length := by rw [length_labels]; simpa [stored] using hilt
      have hj' : j < s.stored.labels.length := by rw [length_labels]; simpa [stored] using hjlt
      rw [← number_inj hi' hj', hnumber, number_inj (by rwa [length_labels])
        (by rwa [length_labels]), hli, hlj]
    obtain hij' | ⟨k, hk, -⟩ := (labels_eq_iff hnot (by simpa [stored] using hilt)
      (by simpa [stored] using hjlt)).mp hsame
    · exact hij hij'
    · obtain ⟨l, hne, hl, -⟩ := tied_iff.mp ((htied i k).mp hk)
      rw [hli, Option.some.injEq] at hl
      exact hne hl.symm
  · intro h
    exact (words_eq_iff hnot h (by simp [stored]) (by simp [stored])).mpr htied

/-! ### Main results -/

/-- Two lists of lifetimes are one map just when each input and result share a lifetime in both or
in neither. -/
def Tells (s t : Slots) : Prop :=
  ∀ (p p' q q' : InternPool) (d e : FnDeps), (fnDeps s.ins s.outs).run p = .ok (d, p') →
    p'.items <+: q.items → (fnDeps t.ins t.outs).run q = .ok (e, q') →
    (d = e ↔ ∀ i j, s.Shares i j ↔ t.Shares i j)

/-- A stored map, read back and interned again, is the same map. -/
def Restores (s : Slots) : Prop :=
  ∀ (p p' q : InternPool) (d : FnDeps) (ins outs : List ℕ),
    (fnDeps s.ins s.outs).run p = .ok (d, p') → p'.items <+: q.items →
    q.depsOf d = .ok (some (ins, outs)) → ∃ q', (fnDeps ins outs).run q = .ok (d, q')

theorem not_shares_of_nil (hs : s.outs = []) : ¬s.Shares i j := by
  rintro ⟨l, -, -, hl⟩
  rw [hs] at hl
  exact absurd hl nofun

/-- What `fn_deps` ties together is what shares a lifetime, until a result has an input's own. -/
theorem tells (hs : s.Named) (ht : t.Named) (hsa : s.Apart) (hta : t.Apart)
    (hins : t.ins.length = s.ins.length) (houts : t.outs.length = s.outs.length) : s.Tells t := by
  intro p p' q q' d e hrun hq hrun'
  by_cases hnil : s.outs = []
  · -- neither type has a map, and nothing is shared
    have hnil' : t.outs = [] := length_eq_zero_iff.mp (by rw [houts, hnil, length_nil])
    rw [fnDeps_none s hnil, Except.ok.injEq, Prod.mk.injEq] at hrun
    rw [fnDeps_none t hnil', Except.ok.injEq, Prod.mk.injEq] at hrun'
    refine iff_of_true (hrun.1.symm.trans hrun'.1) fun i j => ?_
    exact iff_of_false (not_shares_of_nil hnil) (not_shares_of_nil hnil')
  · have hnil' : t.outs ≠ [] := by
      intro h
      rw [h, length_nil] at houts
      exact hnil (length_eq_zero_iff.mp houts.symm)
    calc
      d = e ↔ s.words = t.words := index_eq_iff hnil hnil' hrun hq hrun'
      _ ↔ ∀ i j, s.Tied i j ↔ t.Tied i j :=
        words_eq_iff (not_twice_of_named hs) (not_twice_of_named ht) hins.symm houts.symm
      _ ↔ ∀ i j, s.Shares i j ↔ t.Shares i j := by
        simp only [tied_iff_shares hsa, tied_iff_shares hta]

/-- The pool that `fn_deps` leaves, from an empty one. -/
theorem exists_run (s : Slots) (hs : s.outs ≠ []) :
    ∃ p', (fnDeps s.ins s.outs).run ⟨[], fun _ => 0⟩ = .ok (0, p') :=
  ⟨_, fnDeps_run s hs _⟩

/-- A result that has an input's own lifetime is taken for one that shares its lifetime. -/
theorem apart_of_tells (hs : s.Named)
    (h : ∀ t : Slots, t.Named → t.Apart → t.ins.length = s.ins.length →
      t.outs.length = s.outs.length → s.Tells t) : s.Apart := by
  intro k l hk hl hown
  have hnil : s.outs ≠ [] := ne_nil_of_mem hown
  have hnil' := stored_outs_ne hnil
  obtain ⟨p', hrun⟩ := exists_run s hnil
  have hrun' := fnDeps_run s.stored hnil' p'
  have htells := h s.stored (named_stored s) (apart_stored s) length_inWords length_outWords
    _ _ _ _ _ _ hrun (prefix_refl _) hrun'
  -- the stored map has the same record, and shares what is tied
  have hsame := (index_eq_iff hnil hnil' hrun (prefix_refl _) hrun').mpr
    (words_stored_iff.mpr (not_twice_of_named hs)).symm
  obtain ⟨j, hj⟩ := mem_iff_getElem?.mp hown
  have htied : s.Tied k j := by
    refine tied_iff.mpr ⟨_, own_ne_zero, ?_, hj⟩
    rw [labels_getElem?, hk, map_some, label_of_notMem hl]
  obtain ⟨m, -, hm, hm'⟩ := (htells.mp hsame k j).mpr (shares_stored.mpr htied)
  rw [hk, Option.some.injEq] at hm
  exact hl (hm ▸ mem_of_getElem? hm')

theorem restores (h : ¬s.Twice) : s.Restores := by
  intro p p' q d ins outs hrun hq hdeps
  by_cases hd : d = FnDeps.none
  · unfold InternPool.depsOf at hdeps
    rw [if_pos hd] at hdeps
    exact absurd hdeps nofun
  · have hnil : s.outs ≠ [] := by
      intro hnil
      rw [fnDeps_none s hnil, Except.ok.injEq, Prod.mk.injEq] at hrun
      exact hd hrun.1.symm
    rw [depsOf_eq s hnil hrun hq hd, Except.ok.injEq, Option.some.injEq, Prod.mk.injEq] at hdeps
    obtain ⟨rfl, rfl⟩ := hdeps
    have hnil' := stored_outs_ne hnil
    have hrun' := fnDeps_run s.stored hnil' q
    have hsame := (index_eq_iff hnil hnil' hrun hq hrun').mpr (words_stored_iff.mpr h).symm
    rw [← hsame] at hrun'
    exact ⟨_, hrun'⟩

theorem not_restores (h : s.Twice) : ¬s.Restores := by
  intro hrestores
  have hnil : s.outs ≠ [] := ne_nil_of_mem h.1
  have hnil' := stored_outs_ne hnil
  obtain ⟨p', hrun⟩ := exists_run s hnil
  have hdeps := depsOf_eq s hnil hrun (prefix_refl _) (by decide)
  obtain ⟨q', hrun'⟩ := hrestores _ _ _ _ _ _ hrun (prefix_refl _) hdeps
  exact words_stored_iff.mp
    ((index_eq_iff (t := s.stored) hnil hnil' hrun (prefix_refl _) hrun').mp rfl).symm h

/-- **Dependency maps.** `fn_deps` tells a list of lifetimes from every other just when no result
has the lifetime that it gives an input for its own, and restores a map just when two inputs and a
result do not all have the lifetime 0. -/
theorem deps_canonical (s : Slots) :
    (s.Named → (s.Apart ↔ ∀ t : Slots, t.Named → t.Apart → t.ins.length = s.ins.length →
      t.outs.length = s.outs.length → s.Tells t)) ∧ (s.Restores ↔ ¬s.Twice) := by
  refine ⟨fun hs => ⟨fun hsa t ht hta hins houts => ?_, apart_of_tells hs⟩, ?_⟩
  · exact tells hs ht hsa hta hins houts
  · exact ⟨fun h htwice => not_restores htwice h, restores⟩

/-- A result with the lifetime 2^31 is taken to depend on the first input; and of two inputs and a
result without a lifetime, the inputs are numbered apart when their map is read back. -/
theorem not_canonical :
    ¬Tells ⟨[5], [2 ^ 31], by decide⟩ ⟨[1], [1], by decide⟩ ∧
      ¬Restores ⟨[0, 0], [0], by decide⟩ := by
  constructor
  · intro h
    have hd := (h ⟨[], fun _ => 0⟩ _ _ _ 0 0 rfl (List.prefix_refl _) rfl).mp rfl 0 0
    obtain ⟨l, -, hin, hout⟩ := hd.mpr ⟨1, by decide, rfl, rfl⟩
    rw [← hin] at hout
    exact absurd hout (by decide)
  · exact not_restores ⟨by decide, 0, 1, by decide, rfl, rfl⟩

end Slots

end HdLang.Pool
