import HdLang.Drift.Quick

/-!
# The stable sort

The runs of the merge tree and the last run cover the elements that were scanned, once and in order,
whatever lengths the runs have and in which order they are merged (`Covers`); the run at the bottom
is empty, so in the end the last run covers the list. The sort has no fault with any comparison and
keeps every element once, and it is a stable sort if the comparison is consistent
(`driftSort_stable`).
-/

namespace HdLang.Drift

open StableSort Ensures List Keeps List.Pairwise

variable {α σ : Type} {by_ : By α σ} {ord : α → α → Ordering} {C : List (Option ℕ)} {e : σ}
  {a b l r m m' xs : List α}

/-! ### Runs -/

/-- The run is of the elements `m`, which are sorted if it says so. -/
structure RunOf (by_ : By α σ) (ord : α → α → Ordering) (start : ℕ) (m : List α) (d : DriftRun) :
    Prop where
  start : d.start = start
  len : d.len = m.length
  sorted : d.sorted = true → Consistent by_ ord → InOrder ord m

variable (ord) in
theorem ensures_sortRun {d : DriftRun} {Q : PUnit → Rooms α σ → Prop} (hxs : xs = a ++ m ++ b)
    (hC : C.length = xs.length) (hd : RunOf by_ ord a.length m d)
    (hQ : ∀ m' C' e', Sorts by_ ord m m' → C'.length = C.length →
      Q ⟨⟩ (rooms (a ++ m' ++ b) C' e')) :
    Ensures Never (sortRun by_ d) Q (rooms xs C e) := by
  unfold sortRun
  rw [ite_iff]
  refine ⟨fun hsorted => ?_, fun _ => ?_⟩
  · rw [pure_iff, hxs]
    exact hQ m C e ⟨refl m, hd.sorted hsorted⟩ rfl
  · exact ensures_driftSortLazyRun ord hxs hC hd.start.symm (by rw [hd.len]) hQ

variable {Q : DriftRun → Rooms α σ → Prop}

variable (ord) in
/-- `drift_logical_merge` of two neighbouring runs. -/
theorem ensures_driftLogicalMerge {left right : DriftRun} (hxs : xs = a ++ l ++ r ++ b)
    (hC : C.length = xs.length) (hl : RunOf by_ ord a.length l left)
    (hr : RunOf by_ ord (a.length + l.length) r right)
    (hQ : ∀ d m' C' e', Keeps by_ ord (l ++ r) m' → RunOf by_ ord a.length m' d →
      C'.length = C.length → Q d (rooms (a ++ m' ++ b) C' e')) :
    Ensures Never (driftLogicalMerge by_ left right) Q (rooms xs C e) := by
  unfold driftLogicalMerge
  have hlen : left.len + right.len = l.length + r.length := by rw [hl.len, hr.len]
  rw [ite_iff]
  refine ⟨fun _ => ?_, fun _ => ?_⟩
  · have hdone := hQ ⟨left.start, left.len + right.len, false⟩ (l ++ r) C e (refl _)
      ⟨hl.start, by rw [hlen, length_append], fun h => absurd h Bool.false_ne_true⟩ rfl
    rw [← append_assoc, ← hxs] at hdone
    exact pure_iff.mpr hdone
  · rw [bind_iff]
    refine ensures_sortRun ord (a := a) (m := l) (b := r ++ b) ?_ hC hl fun l' C₁ e₁ hl' hC₁ => ?_
    · rw [hxs]
      simp
    have hllen : l'.length = l.length := hl'.length_eq
    rw [bind_iff]
    refine ensures_sortRun ord (a := a ++ l') (m := r) (b := b) ?_ ?_ ?_ fun r' C₂ e₂ hr' hC₂ => ?_
    · simp
    · rw [hC₁, hC, hxs]
      simp [hllen]
    · rw [length_append, hllen]
      exact hr
    have hrlen : r'.length = r.length := hr'.length_eq
    rw [bind_iff]
    refine ensures_driftMerge ord (a := a) (l := l') (r := r') (b := b) rfl ?_ ?_ ?_ ?_ hl'.sorted
      hr'.sorted fun m C₃ e₃ hm hC₃ => ?_
    · rw [hC₂, hC₁, hC, hxs]
      simp [hllen, hrlen]
    · exact hl.start.symm
    · rw [hl.start, hr.start, hllen]
    · rw [hr.len, hrlen]
    rw [pure_iff]
    have hmlen : m.length = l.length + r.length := by
      rw [hm.length_eq, length_append, hllen, hrlen]
    refine hQ _ m C₃ e₃ ((hl'.toKeeps.append hr'.toKeeps).trans hm.toKeeps)
      ⟨hl.start, hlen.trans hmlen.symm, fun _ => hm.sorted⟩ (hC₃.trans (hC₂.trans hC₁))

/-- The runs, the last one first, are of neighbouring parts of the list. -/
inductive Covers (by_ : By α σ) (ord : α → α → Ordering) : List DriftRun → List α → Prop
  | nil : Covers by_ ord [] []
  | cons {d : DriftRun} {ds : List DriftRun} {m p : List α} (rest : Covers by_ ord ds m)
    (run : RunOf by_ ord m.length p d) : Covers by_ ord (d :: ds) (m ++ p)

variable {runs : List DriftRun} {prev : DriftRun}

variable (ord) in
theorem ensures_collapse {depth : ℕ} {depths : List ℕ}
    {Q : (List DriftRun × List ℕ) × DriftRun → Rooms α σ → Prop} (hxs : xs = m ++ b)
    (hC : C.length = xs.length) (hruns : Covers by_ ord (prev :: runs) m)
    (hQ : ∀ runs' depths' prev' m' C' e', Keeps by_ ord m m' → Covers by_ ord (prev' :: runs') m' →
      (prev' :: runs').getLast? = (prev :: runs).getLast? → (depth = 0 → runs'.length ≤ 1) →
        C'.length = C.length → Q ((runs', depths'), prev') (rooms (m' ++ b) C' e')) :
    Ensures Never (collapse by_ depth runs depths prev) Q (rooms xs C e) := by
  induction runs generalizing depths prev m xs C e with
  | nil =>
    rw [collapse, pure_iff, hxs]
    exact hQ [] depths prev m C e (refl m) hruns rfl (fun _ => Nat.zero_le 1) rfl
  | cons left runs ih =>
    rw [collapse, ite_iff]
    refine ⟨fun hmore => ?_, fun hstop => ?_⟩
    · cases hruns with
      | @cons _ _ m r rest hprev =>
        cases rest with
        | @cons _ _ m l rest hleft =>
          rw [length_append] at hprev
          rw [bind_iff]
          refine ensures_driftLogicalMerge ord (a := m) (l := l) (r := r) (b := b) hxs hC hleft
            hprev
            fun d m' C' e' hm' hd hC' => ?_
          refine ih (m := m ++ m') rfl ?_ (.cons rest hd) ?_
          · rw [hC', hC, hxs]
            simp [hm'.length_eq]
            omega
          · intro runs' depths' prev' m'' C'' e'' hm'' hcovers hlast hzero hC''
            refine hQ runs' depths' prev' m'' C'' e'' ?_ hcovers (hlast.trans ?_) hzero
              (hC''.trans hC')
            · have hkeeps := ((refl m).append hm').trans hm''
              rwa [← append_assoc] at hkeeps
            · obtain ⟨d', ds, rfl⟩ := exists_cons_of_ne_nil hmore.1
              rfl
    · rw [pure_iff, hxs]
      refine hQ (left :: runs) depths prev m C e (refl m) hruns rfl (fun hzero => ?_) rfl
      have hnil : runs = [] := by
        by_contra hne
        exact hstop ⟨hne, hzero.le.trans (Nat.zero_le _)⟩
      rw [hnil]
      exact le_refl 1

variable {size : ℕ}

theorem runOf_lazy (minimum : ℕ) {start : ℕ} (hsize : start + m.length = size) :
    RunOf by_ ord start (m.take (lazyRun start minimum size).len) (lazyRun start minimum size) := by
  refine ⟨rfl, ?_, fun h => absurd h Bool.false_ne_true⟩
  rw [length_take]
  unfold lazyRun
  dsimp only
  split <;> omega

variable (ord) in
/-- `drift_create_run` makes a run of the next elements. -/
theorem ensures_driftCreateRun {start minimum : ℕ} (hxs : xs = a ++ m) (hstart : a.length = start)
    (hsize : start + m.length = size) (hmin : 0 < minimum) (hm : m ≠ [])
    (hQ : ∀ d p q e', Keeps by_ ord m (p ++ q) → p ≠ [] → RunOf by_ ord a.length p d →
      Q d (rooms (a ++ p ++ q) C e')) :
    Ensures Never (driftCreateRun by_ start minimum size) Q (rooms xs C e) := by
  have hpos : 0 < m.length := length_pos_iff.mpr hm
  have hlazy : ∀ e', Q (lazyRun start minimum size) (rooms xs C e') := by
    intro e'
    have hrun : RunOf by_ ord start _ _ := runOf_lazy minimum hsize
    have hdone := hQ (lazyRun start minimum size) (m.take (lazyRun start minimum size).len)
      (m.drop (lazyRun start minimum size).len) e'
    rw [append_assoc, take_append_drop, ← hxs] at hdone
    refine hdone (refl m) ?_ (hstart.symm ▸ hrun)
    refine ne_nil_of_length_pos ?_
    rw [← hrun.len]
    unfold lazyRun
    dsimp only
    split <;> omega
  unfold driftCreateRun
  rw [ite_iff]
  refine ⟨fun _ => ?_, fun _ => pure_iff.mpr (hlazy e)⟩
  rw [bind_iff]
  unfold rooms at hlazy ⊢
  refine ensures_driftNaturalRun ord (a := a) (m := m) (by rw [hxs]) hstart hsize hm
    fun u v descending e' huv hu hchain => ?_
  have hsorts := sorts_run hchain
  rw [ite_iff]
  refine ⟨fun _ => ?_, fun _ => pure_iff.mpr (hlazy e')⟩
  have hkeeps : ∀ {u'}, Keeps by_ ord u u' → Keeps by_ ord m (u' ++ v) := fun h =>
    huv ▸ h.append (refl v)
  rw [ite_iff]
  refine ⟨fun hdesc => ?_, fun hasc => ?_⟩
  · subst hdesc
    rw [bind_iff]
    refine ensures_driftReverse (a := a) (m := u) (T := v.map some) ?_ hstart rfl ?_
    · rw [hxs, ← huv]
      simp
    rw [pure_iff]
    have hdone := hQ ⟨start, u.length, true⟩ u.reverse v e' (hkeeps hsorts.toKeeps)
      (by simpa using hu) ⟨hstart.symm, u.length_reverse.symm, fun _ => hsorts.sorted⟩
    have hlen : (a ++ u.reverse ++ v).length = xs.length := by
      rw [hxs, ← huv]
      simp
    unfold rooms at hdone
    rwa [hlen, map_append] at hdone
  · rw [Bool.not_eq_true] at hasc
    subst hasc
    rw [pure_iff]
    have hdone := hQ ⟨start, u.length, true⟩ u v e' (hkeeps (refl u)) hu
      ⟨hstart.symm, rfl, fun _ => hsorts.sorted⟩
    rw [append_assoc, huv, ← hxs] at hdone
    exact hdone

/-! ### The merge tree -/

/-- The run at the bottom of the stack. -/
abbrev base : DriftRun := ⟨0, 0, true⟩

/-- When one run is left above the one at the bottom, it covers the list. -/
theorem runOf_of_covers (h : Covers by_ ord (prev :: runs) m)
    (hlast : (prev :: runs).getLast? = some base) (hone : runs.length ≤ 1) :
    prev.sorted = true → Consistent by_ ord → InOrder ord m := by
  have hempty : ∀ {m}, Covers by_ ord [base] m → m = [] := by
    intro m hm
    cases hm with
    | @cons _ _ m p rest hrun =>
      cases rest
      exact length_eq_zero_iff.mp hrun.len.symm
  match runs with
  | [] =>
    rw [List.getLast?_singleton, Option.some.injEq] at hlast
    have hm : m = [] := hempty (hlast ▸ h)
    rw [hm]
    exact fun _ _ => nil
  | [d] =>
    cases h with
    | @cons _ _ m p rest hrun =>
      have hd : d = base := Option.some.inj hlast
      have hm : m = [] := hempty (hd ▸ rest)
      rw [hm, nil_append]
      exact hrun.sorted
  | _ :: _ :: _ =>
    rw [length_cons, length_cons] at hone
    omega

variable (ord) in
theorem ensures_buildRuns {minimum scale turns scan : ℕ} {depths : List ℕ} (hmin : 0 < minimum)
    (hxs : xs = m ++ b) (hC : C.length = xs.length) (hscan : m.length = scan)
    (hsize : scan + b.length = size) (hturns : b.length < turns)
    (hruns : Covers by_ ord (prev :: runs) m) (hlast : (prev :: runs).getLast? = some base)
    (hQ : ∀ d xs' C' e', Keeps by_ ord xs xs' →
      (d.sorted = true → Consistent by_ ord → InOrder ord xs') → C'.length = C.length →
        Q d (rooms xs' C' e')) :
    Ensures Never (buildRuns by_ size minimum scale turns scan prev runs depths) Q (rooms xs C e) :=
      by
  induction turns generalizing scan prev runs depths xs m b C e with
  | zero => exact absurd hturns (Nat.not_lt_zero _)
  | succ turns ih =>
    rw [buildRuns, ite_iff]
    refine ⟨fun hlt => ?_, fun hdone => ?_⟩
    · have hb : b ≠ [] := by
        rintro rfl
        rw [length_nil] at hsize
        omega
      rw [bind_iff]
      refine ensures_driftCreateRun ord hxs hscan hsize hmin hb fun d p q e₁ hpq hp hd => ?_
      have hpos : 0 < p.length := length_pos_iff.mpr hp
      have hlen : p.length + q.length = b.length := by
        rw [← length_append, hpq.length_eq]
      have hxslen : xs.length = m.length + b.length := by rw [hxs, length_append]
      rw [bind_iff]
      refine ensures_collapse ord (m := m) (b := p ++ q) (append_assoc ..) ?_ hruns
        fun runs' depths' prev' m' C₂ e₂ hm' hcovers hlast' _ hC₂ => ?_
      · rw [hC, hxslen, ← hlen]
        simp
      have hmlen : m'.length = m.length := hm'.length_eq
      refine ih (m := m' ++ p) (b := q) ?_ ?_ ?_ ?_ ?_ (.cons hcovers (hmlen ▸ hd)) ?_ ?_
      · simp
      · rw [hC₂, hC, hxslen, ← hlen]
        simp [hmlen]
      · rw [length_append, hmlen, hscan, hd.len]
      · rw [hd.len]
        omega
      · omega
      · rw [List.getLast?_cons_cons, hlast', hlast]
      · intro d' xs' C₃ e₃ hkeeps hsorted hC₃
        refine hQ d' xs' C₃ e₃ (trans ?_ hkeeps) hsorted (hC₃.trans hC₂)
        rw [hxs]
        exact hm'.append hpq
    · -- all is scanned
      have hnil : b = [] := length_eq_zero_iff.mp (by omega)
      subst hnil
      rw [bind_iff]
      refine ensures_collapse ord (m := m) (b := []) hxs hC hruns
        fun runs' depths' prev' m' C₂ e₂ hm' hcovers hlast' hone hC₂ => ?_
      rw [pure_iff]
      refine hQ prev' (m' ++ []) C₂ e₂ ?_ ?_ hC₂
      · rw [hxs]
        exact hm'.append (refl [])
      · rw [append_nil]
        exact runOf_of_covers hcovers (hlast'.trans hlast) (hone rfl)

theorem driftLog2_pos {v : ℕ} (h : 1 < v) : 0 < driftLog2 v := by
  rw [driftLog2, if_pos h]
  exact Nat.succ_pos _

theorem minimumRun_pos {size : ℕ} (h : 1 < size) : 0 < minimumRun size := by
  unfold minimumRun
  split
  · dsimp only
    split <;> omega
  · have hor : 1 < size ||| 1 := lt_of_lt_of_le h Nat.left_le_or
    have hlog := driftLog2_pos hor
    have hshift : 1 ≤ (1 + driftLog2 (size ||| 1)) / 2 := by omega
    have hpow : 2 ^ 1 ≤ 2 ^ ((1 + driftLog2 (size ||| 1)) / 2) :=
      Nat.pow_le_pow_right Nat.two_pos hshift
    exact Nat.div_pos (hpow.trans (Nat.le_add_right _ _)) Nat.two_pos

/-! ### Main results -/

/-- A sort of `xs` ends with the elements sorted in the list's room and none in the scratch room. -/
def Sorted (by_ : By α σ) (ord : α → α → Ordering) (xs : List α) (s : Rooms α σ) : Prop :=
  ∃ ys, s.items = ys.map some ∧ Sorts by_ ord xs ys ∧ ∀ o ∈ s.scratch, o = none

theorem sorted_rooms {ys : List α} (h : Sorts by_ ord xs ys) : Sorted by_ ord xs (rooms ys C e) :=
  ⟨ys, rfl, h, fun _ ho => eq_of_mem_replicate ho⟩

theorem ensures_driftSort (by_ : By α σ) (ord : α → α → Ordering) (xs : List α) (e : σ) :
    Ensures Never (driftSort by_ xs.length) (fun _ s => Sorted by_ ord xs s)
      ⟨xs.map some, [], [], e⟩ := by
  unfold driftSort
  rw [ite_iff]
  refine ⟨fun hsmall => ?_, fun hlarge => ?_⟩
  · rw [pure_iff]
    refine ⟨xs, rfl, ⟨refl xs, fun _ => ?_⟩, fun _ ho => nomatch ho⟩
    match xs with
    | [] => exact nil
    | [x] => exact pairwise_singleton ..
    | _ :: _ :: _ =>
      rw [length_cons, length_cons] at hsmall
      omega
  rw [ite_iff]
  refine ⟨fun _ => ?_, fun _ => ?_⟩
  · refine ensures_driftInsertionSort ord (a := []) (m := xs) (b := []) ?_ rfl (Nat.zero_add _)
      fun ys e' hys => ?_
    · simp
    · exact ⟨ys, by simp, hys, fun _ ho => nomatch ho⟩
  have hxs : xs ≠ [] := by
    rintro rfl
    exact hlarge Nat.two_pos
  rw [bind_iff]
  refine ensures_driftNaturalRun ord (a := []) (m := xs) rfl rfl (Nat.zero_add _) hxs
    fun u v descending e' huv _ hchain => ?_
  rw [ite_iff]
  refine ⟨fun hwhole => ?_, fun _ => ?_⟩
  · -- the list is one run
    have hv : v = [] := by
      rw [← huv, length_append] at hwhole
      exact length_eq_zero_iff.mp (by omega)
    subst hv
    rw [append_nil] at huv
    subst huv
    have hsorts := sorts_run hchain
    rw [ite_iff]
    refine ⟨fun hdesc => ?_, fun hasc => ?_⟩
    · rw [if_pos hdesc] at hsorts
      refine ensures_driftReverse (a := []) (m := u) (T := []) ?_ rfl (Nat.zero_add _) ?_
      · simp
      · exact ⟨u.reverse, by simp, hsorts, fun _ ho => nomatch ho⟩
    · rw [if_neg hasc] at hsorts
      rw [pure_iff]
      exact ⟨u, rfl, hsorts, fun _ ho => nomatch ho⟩
  · rw [bind_iff]
    unfold newRooms
    rw [modify_iff, bind_iff]
    refine ensures_buildRuns ord (m := []) (b := xs) (minimumRun_pos (by omega)) rfl ?_ rfl
      (Nat.zero_add _) (Nat.lt_succ_self _) (.cons .nil ⟨rfl, rfl, fun _ _ => nil⟩)
      rfl
      fun d ys C' e' hys hsorted hC' => ?_
    · rw [length_replicate]
    rw [ite_iff]
    refine ⟨fun hd => ?_, fun _ => ?_⟩
    · rw [pure_iff]
      exact sorted_rooms ⟨hys, hsorted hd⟩
    · refine ensures_driftSortLazyRun ord (a := []) (m := ys) (b := []) ?_ ?_ rfl ?_
        fun zs C'' e'' hzs _ => ?_
      · simp
      · rw [hC', length_replicate, hys.length_eq]
      · rw [hys.length_eq, Nat.zero_add]
      · rw [nil_append, append_nil]
        exact sorted_rooms (Sorts.of_keeps hys hzs)

/-- **The sort is safe and stable.** With any comparison it ends without a fault and leaves the
elements of the list in the list's room, each as often as before; and if the comparison is a strict
weak order they are sorted, with those that compare equal in the order they had. -/
theorem driftSort_stable (by_ : By α σ) (xs : List α) (e : σ) :
    ∃ ys s, (driftSort by_ xs.length).run ⟨xs.map some, [], [], e⟩ = .ok (⟨⟩, s) ∧
      s.items = ys.map some ∧ (∀ o ∈ s.scratch, o = none) ∧ ys.Perm xs ∧
        ∀ ord, Consistent by_ ord → InOrder ord ys ∧ SameTies ord xs ys := by
  obtain ⟨_, s, hrun, ys, hitems, hys, hscratch⟩ :=
    (ensures_driftSort by_ (fun _ _ => .eq) xs e).exists_run
  refine ⟨ys, s, hrun, hitems, hscratch, hys.perm, fun ord hc => ?_⟩
  obtain ⟨zs, hitems', hzs, -⟩ := (ensures_driftSort by_ ord xs e).of_run hrun
  have hsame : zs = ys := by
    rw [hitems] at hitems'
    exact (List.map_injective_iff.mpr (fun _ _ => Option.some.inj) hitems').symm
  subst hsame
  exact ⟨hzs.sorted hc, hzs.ties hc⟩

end HdLang.Drift
