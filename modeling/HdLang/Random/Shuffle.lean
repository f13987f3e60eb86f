import HdLang.Random.Rng

/-!
# Shuffling a list

`Rng.shuffle` goes from the last place of a list down, and exchanges the item of each place with one
at an offset that `below` draws. The offsets do not depend on the items, and every order of distinct
items comes from one list of offsets (`shuffle_fair`), so it has the chance that the offsets have.
-/

namespace HdLang.Random

open List HdLang.Num

variable {T : Type}

/-- Why a shuffle stops. -/
inductive Halt
  | arithmetic (stop : Stop)
  /-- An index past the end of the list. -/
  | index
  /-- As many draws as there may be are all drawn again. -/
  | unfinished
  deriving DecidableEq, Repr

/-- `usize(self.below(count))` -/
def offset (fuel count : ℕ) (state : SeededRandom) : Except Halt (ℕ × SeededRandom) :=
  match below fuel count state with
  | .error stop => .error (.arithmetic stop)
  | .ok none => .error .unfinished
  | .ok (some (x, state)) => .ok (x.toNat, state)

/-- `items` with what is at `i` and at `j` exchanged. -/
def exchange (items : List T) (i j : ℕ) : Except Halt (List T) :=
  match items[i]?, items[j]? with
  | some held, some other => .ok ((items.set i other).set j held)
  | _, _ => .error .index

/-- The loop of `shuffle`, with `n` places left. -/
def shuffleFrom (fuel : ℕ) :
    (n : ℕ) → List T → SeededRandom → Except Halt (List T × SeededRandom)
  | n + 2, items, state => do
    let (j, state) ← offset fuel (n + 2) state
    shuffleFrom fuel (n + 1) (← exchange items (n + 1) j) state
  | _, items, state => .ok (items, state)

def shuffle (fuel : ℕ) (items : List T) (state : SeededRandom) :
    Except Halt (List T × SeededRandom) :=
  shuffleFrom fuel items.length items state

/-! ### Offsets -/

/-- The offsets that a shuffle of `n` items draws. -/
def offsets (fuel : ℕ) : (n : ℕ) → SeededRandom → Except Halt (List ℕ × SeededRandom)
  | n + 2, state => do
    let (j, state) ← offset fuel (n + 2) state
    let (js, state) ← offsets fuel (n + 1) state
    return (j :: js, state)
  | _, state => .ok ([], state)

/-- The first `n` of `items`, arranged by the offsets `js`, are those of `out`. -/
inductive Arranges : ℕ → List ℕ → List T → List T → Prop
  | done {n : ℕ} {items : List T} (hn : n < 2) : Arranges n [] items items
  | next {n j : ℕ} {js : List ℕ} {items next out : List T} (hj : j < n + 2)
    (hnext : exchange items (n + 1) j = .ok next) (rest : Arranges (n + 1) js next out) :
    Arranges (n + 2) (j :: js) items out

theorem offset_cases {count : ℕ} (hpos : count ≠ 0) (hcount : count < 2 ^ 64) (fuel : ℕ) (w : Words)
    : offset fuel count w.state = .error .unfinished ∨
      ∃ (j : ℕ) (w' : Words), j < count ∧ offset fuel count w.state = .ok (j, w'.state) := by
  have hsize : size count = count := if_neg hpos
  unfold offset
  by_cases h : ∃ k, k < fuel ∧ Accepts count (w.drawAt k)
  · -- the first draw that is taken
    obtain ⟨hk, hat⟩ := Nat.find_spec h
    have hbelow := (below_eq hcount fuel w).1 _ hk
      (fun i hi haccepts => Nat.find_min h hi ⟨hi.trans hk, haccepts⟩) hat
    rw [hbelow, hsize]
    exact .inr ⟨_, _, Nat.mod_lt _ (Nat.pos_of_ne_zero hpos), rfl⟩
  · have hnone := below_redraw hpos hcount (redraw_none (w := w) fun i hi =>
      not_le.mp fun haccepts => h ⟨i, hi, haccepts⟩)
    rw [hnone]
    exact .inl rfl

theorem exchange_spec {items : List T} {i j : ℕ} (hi : i < items.length) (hj : j < i + 1) :
    ∃ next, exchange items i j = .ok next ∧ next.Perm items ∧ next[i]? = items[j]? ∧
      next.drop (i + 1) = items.drop (i + 1) := by
  have hj' : j < items.length := by omega
  refine ⟨(items.set i items[j]).set j items[i], ?_, set_set_perm hi hj', ?_, ?_⟩
  · rw [exchange, getElem?_eq_getElem hi, getElem?_eq_getElem hj']
  · by_cases hij : j = i
    · subst hij
      rw [set_set, set_getElem_self]
    · rw [getElem?_set_ne hij, getElem?_set_self hi, getElem?_eq_getElem hj']
  · rw [drop_set_of_lt hj, drop_set_of_lt (Nat.lt_succ_self i)]

theorem shuffleFrom_spec {n : ℕ} {items : List T} (hn : n ≤ items.length) (hlen : n < 2 ^ 64)
    (fuel : ℕ) (w : Words) : shuffleFrom fuel n items w.state = .error .unfinished ∨
      ∃ (js : List ℕ) (w' : Words) (out : List T), offsets fuel n w.state = .ok (js, w'.state) ∧ Arranges n js items out ∧
        shuffleFrom fuel n items w.state = .ok (out, w'.state) := by
  induction n using Nat.strongRec generalizing items w with
  | ind n ih =>
    match n with
    | 0 => exact .inr ⟨[], w, items, rfl, .done (by decide), rfl⟩
    | 1 => exact .inr ⟨[], w, items, rfl, .done (by decide), rfl⟩
    | n + 2 =>
      rw [shuffleFrom, offsets]
      obtain hfail | ⟨j, w₁, hj, hoffset⟩ := offset_cases (by omega) hlen fuel w
      · rw [hfail]
        exact .inl rfl
      · obtain ⟨next, hnext, hperm, -⟩ := exchange_spec (Nat.lt_of_succ_le hn) hj
        rw [hoffset]
        show (exchange items (n + 1) j >>= _) = _ ∨ _
        obtain hfail | ⟨js, w₂, out, hjs, harranges, hrun⟩ := ih (n + 1) (by omega)
          (hperm.length_eq ▸ Nat.le_of_succ_le hn) (by omega) w₁
        · left
          rw [hnext]
          exact hfail
        · right
          refine ⟨j :: js, w₂, out, ?_, .next hj hnext harranges, ?_⟩
          · show (offsets fuel (n + 1) w₁.state >>= _) = _
            rw [hjs]
            rfl
          · show (exchange items (n + 1) j >>= _) = _
            rw [hnext]
            exact hrun

/-! ### Orders -/

theorem drop_eq_iff {l m : List T} {i : ℕ} :
    l.drop i = m.drop i ↔ l[i]? = m[i]? ∧ l.drop (i + 1) = m.drop (i + 1) := by
  rw [← head?_drop, ← head?_drop, ← tail_drop, ← tail_drop]
  constructor
  · intro h
    rw [h]
    exact ⟨rfl, rfl⟩
  · rintro ⟨hhead, htail⟩
    generalize l.drop i = a at *
    generalize m.drop i = b at *
    cases a <;> cases b <;> simp_all

namespace Arranges

variable {n : ℕ} {js : List ℕ} {items out : List T}

theorem perm (h : Arranges n js items out) (hn : n ≤ items.length) :
    out.Perm items ∧ out.drop n = items.drop n := by
  induction h with
  | done => exact ⟨.refl _, rfl⟩
  | next hj hnext _ ih =>
    obtain ⟨next, heq, hperm, -, hdrop⟩ := exchange_spec (Nat.lt_of_succ_le hn) hj
    obtain rfl := Except.ok.inj (hnext.symm.trans heq)
    obtain ⟨hperm', hdrop'⟩ := ih (hperm.length_eq ▸ Nat.le_of_succ_le hn)
    exact ⟨hperm'.trans hperm, (drop_eq_iff.mp hdrop').2.trans hdrop⟩

/-- The items that are left in place tell the offset of each exchange. -/
theorem unique (hnodup : items.Nodup) (hn : n ≤ items.length) (hperm : out.Perm items)
    (hdrop : out.drop n = items.drop n) : ∃! js, Arranges n js items out := by
  induction n using Nat.strongRec generalizing items with
  | ind n ih =>
    match n with
    | 0 =>
      have hsame : out = items := hdrop
      refine ⟨[], hsame ▸ .done (by decide), fun js h => ?_⟩
      cases h
      rfl
    | 1 =>
      refine ⟨[], ?_, fun js h => by cases h; rfl⟩
      cases items with
      | nil => exact absurd hn (Nat.not_succ_le_zero 0)
      | cons a items =>
        cases out with
        | nil => exact absurd hperm.length_eq (by simp)
        | cons b out =>
          obtain rfl : out = items := hdrop
          have hheads : ([b] ++ out).Perm ([a] ++ out) := hperm
          obtain rfl : b = a := singleton_perm_singleton.mp ((perm_append_right_iff out).mp hheads)
          exact .done (by decide)
    | n + 2 =>
      -- the item behind the places that are left comes from one offset
      have hlt : n + 1 < out.length := hperm.length_eq ▸ Nat.lt_of_succ_le hn
      have hrest : ∀ k, n + 2 ≤ k → out[k]? = items[k]? := by
        intro k hk
        have hat := congrArg (·[k - (n + 2)]?) hdrop
        simpa only [getElem?_drop, Nat.add_sub_cancel' hk] using hat
      have hmem : out[n + 1] ∈ items := hperm.mem_iff.mp (getElem_mem hlt)
      obtain ⟨j, hj, hget⟩ := mem_iff_getElem.mp hmem
      have hat : items[j]? = out[n + 1]? := by
        rw [getElem?_eq_getElem hj, hget, getElem?_eq_getElem hlt]
      have hjn : j < n + 2 := by
        by_contra hge
        have heq := (getElem?_inj hlt (hperm.nodup_iff.mpr hnodup)).mp
          (hat.symm.trans (hrest j (not_lt.mp hge)).symm)
        omega
      obtain ⟨next, hnext, hperm', hplace, hdrop'⟩ := exchange_spec (Nat.lt_of_succ_le hn) hjn
      obtain ⟨js, harranges, honly⟩ := ih (n + 1) (by omega) (hperm'.nodup_iff.mpr hnodup)
        (hperm'.length_eq ▸ Nat.le_of_succ_le hn) (hperm.trans hperm'.symm)
        (drop_eq_iff.mpr ⟨hat.symm.trans hplace.symm, hdrop.trans hdrop'.symm⟩)
      refine ⟨j :: js, .next hjn hnext harranges, fun js' h => ?_⟩
      cases h with
      | done hn' => omega
      | next hj' hnext' rest =>
        obtain ⟨next', heq, hperm₂, hplace', -⟩ := exchange_spec (Nat.lt_of_succ_le hn) hj'
        obtain rfl := Except.ok.inj (hnext'.symm.trans heq)
        have hplace₂ := (drop_eq_iff.mp (rest.perm (hperm₂.length_eq ▸ Nat.le_of_succ_le hn)).2).1
        obtain rfl := (getElem?_inj hj hnodup).mp (hat.trans (hplace₂.trans hplace'))
        obtain rfl := Except.ok.inj (hnext.symm.trans heq)
        rw [honly _ rest]

end Arranges

/-- **A shuffle is fair.** From every state it ends with the items arranged by the offsets that it
draws, unless the draws run out; and of distinct items every order comes from one list of offsets.
-/
theorem shuffle_fair (fuel : ℕ) (items : List T) (hlen : items.length < 2 ^ 64) :
    (∀ w : Words, shuffle fuel items w.state = .error .unfinished ∨
      ∃ (js : List ℕ) (w' : Words) (out : List T),
        offsets fuel items.length w.state = .ok (js, w'.state) ∧
          Arranges items.length js items out ∧ out.Perm items ∧
          shuffle fuel items w.state = .ok (out, w'.state)) ∧
      (items.Nodup → ∀ out : List T, out.Perm items →
        ∃! js, Arranges items.length js items out) := by
  refine ⟨fun w => ?_, fun hnodup out hperm => ?_⟩
  · refine (shuffleFrom_spec (le_refl _) hlen fuel w).imp id fun ⟨js, w', out, hjs, h, hrun⟩ => ?_
    exact ⟨js, w', out, hjs, h, (h.perm (le_refl _)).1, hrun⟩
  · refine Arranges.unique hnodup (le_refl _) hperm ?_
    rw [drop_length, ← hperm.length_eq, drop_length]

theorem shuffle_fair_three : ∃! js, Arranges 3 js [1, 2, 3] [3, 1, 2] :=
  (shuffle_fair 9 [1, 2, 3] (by decide)).2 (by decide) [3, 1, 2] (by decide)

end HdLang.Random
