import HdLang.Drift.Moves

/-!
# Merging runs

A merge first asks the comparison which run each element of the result comes from, and writes the
answers down; then it moves the elements to the scratch room as they say, and back. So the elements
are the same whatever the answers are, and a merge of two sorted runs is sorted if the comparison is
consistent. The merge sort sorts blocks of elements and merges pairs of blocks of twice the width
each time.
-/

namespace HdLang.Drift

open StableSort Ensures List

variable {α σ : Type} {by_ : By α σ} {ord : α → α → Ordering} {I S : List (Option α)}
  {C : List (Option ℕ)} {e : σ} {a b l r m m' : List α}

/-! ### `drift_merge` -/

/-- An element of the left run is taken before this one of the right. -/
def LeftFirst (by_ : By α σ) (ord : α → α → Ordering) (x y : α) : Prop :=
  Consistent by_ ord → ord y x ≠ .lt

/-- An element of the right run is taken before this one of the left. -/
def RightFirst (by_ : By α σ) (ord : α → α → Ordering) (x y : α) : Prop :=
  Consistent by_ ord → ord y x = .lt

/-- The class of an element of a merge. -/
def mark (right : Bool) : Option ℕ := some (if right then 1 else 0)

variable {middle end_ left right : ℕ}

variable (ord) in
theorem ensures_takeRight {Q : Bool → Rooms α σ → Prop}
    (hl : ∀ x ∈ l.head?, I[left]? = some (some x)) (hr : ∀ y ∈ r.head?, I[right]? = some (some y))
    (hmiddle : left + l.length = middle) (hend : right + r.length = end_)
    (hne : 0 < l.length + r.length)
    (hleft : ∀ x l' e', l = x :: l' → (∀ y ∈ r.head?, LeftFirst by_ ord x y) →
      Q false ⟨I, S, C, e'⟩)
    (hright : ∀ y r' e', r = y :: r' → (∀ x ∈ l.head?, RightFirst by_ ord x y) →
      Q true ⟨I, S, C, e'⟩) :
    Ensures Never (takeRight by_ middle end_ left right) Q ⟨I, S, C, e⟩ := by
  unfold takeRight
  cases l with
  | nil =>
    rw [if_pos (by simpa using hmiddle), pure_iff]
    cases r with
    | nil => exact absurd hne (Nat.lt_irrefl 0)
    | cons y r => exact hright y r e rfl fun x hx => nomatch hx
  | cons x l =>
    rw [length_cons] at hmiddle
    rw [if_neg (by omega)]
    cases r with
    | nil =>
      rw [if_neg (by simp at hend; omega), pure_iff]
      exact hleft x l e rfl fun y hy => nomatch hy
    | cons y r =>
      rw [length_cons] at hend
      rw [if_pos (by omega)]
      refine ensures_driftLess ord (hr y rfl) (hl x rfl) fun less e' hless => ?_
      cases less with
      | true =>
        refine hright y r e' rfl fun z hz hc => ?_
        rw [← Option.mem_some_iff.mp hz]
        exact (hless hc).mp rfl
      | false =>
        refine hleft x l e' rfl fun z hz hc hlt => ?_
        rw [← Option.mem_some_iff.mp hz] at hlt
        exact Bool.false_ne_true ((hless hc).mpr hlt)

variable {Q : PUnit → Rooms α σ → Prop}

variable (ord) in
theorem ensures_mergeClasses {p q : List α} {c u d : List (Option ℕ)} {out : ℕ}
    (hI : I = (p ++ l ++ q ++ r ++ b).map some) (hC : C = c ++ u ++ d) (hc : c.length = out)
    (hleft : p.length = left) (hmiddle : left + l.length = middle)
    (hright : (p ++ l ++ q).length = right) (hend : right + r.length = end_)
    (hu : u.length = l.length + r.length) (hout : out + u.length = end_)
    (hQ : ∀ cs m e', Interleaves (LeftFirst by_ ord) (RightFirst by_ ord) l r cs m →
      Q ⟨⟩ ⟨I, S, c ++ cs.map mark ++ d, e'⟩) :
    Ensures Never (mergeClasses by_ middle end_ out left right) Q ⟨I, S, C, e⟩ := by
  induction u generalizing p l q r c C out left right e with
  | nil =>
    rw [length_nil] at hu hout
    obtain rfl : l = [] := length_eq_zero_iff.mp (by omega)
    obtain rfl : r = [] := length_eq_zero_iff.mp (by omega)
    rw [mergeClasses, if_neg (by omega), pure_iff, hC]
    exact hQ [] [] e .nil
  | cons o u ih =>
    rw [length_cons] at hu hout
    rw [mergeClasses, if_pos (by omega), bind_iff]
    refine ensures_takeRight ord (l := l) (r := r) ?_ ?_ hmiddle hend (by omega)
      (fun x l' e' hl hfirst => ?_) fun y r' e' hr hfirst => ?_
    · intro x hx
      obtain ⟨l', rfl⟩ := head?_eq_some_iff.mp hx
      rw [hI, ← hleft]
      simp
    · intro y hy
      obtain ⟨r', rfl⟩ := head?_eq_some_iff.mp hy
      have hsplit : (p ++ l ++ q ++ y :: r' ++ b).map some =
          (p ++ l ++ q).map some ++ some y :: (r' ++ b).map some := by simp
      rw [hI, hsplit]
      exact getElem?_split (by rw [length_map, hright])
    · subst hl
      rw [bind_iff]
      refine ensures_putClass (P := c) (T := u ++ d) (o := o) ?_ hc ?_
      · rw [hC]
        simp
      rw [if_neg Bool.false_ne_true]
      refine ih (p := p ++ [x]) (l := l') (q := q) (r := r) (c := c ++ [mark false]) ?_ ?_ ?_ ?_ ?_
        ?_
        hend ?_ ?_ fun cs m e'' h => ?_
      · rw [hI]
        simp
      · simp [mark]
      · rw [length_append, hc, length_singleton]
      · rw [length_append, hleft, length_singleton]
      · rw [← hmiddle, length_cons]
        omega
      · rw [← hright]
        simp
      · rw [length_cons] at hu
        omega
      · omega
      · have hdone := hQ (false :: cs) (x :: m) e'' (.left hfirst h)
        rwa [map_cons, append_cons] at hdone
    · subst hr
      rw [bind_iff]
      refine ensures_putClass (P := c) (T := u ++ d) (o := o) ?_ hc ?_
      · rw [hC]
        simp
      rw [if_pos rfl]
      refine ih (p := p) (l := l) (q := q ++ [y]) (r := r') (c := c ++ [mark true]) ?_ ?_ ?_ hleft
        hmiddle
        ?_ ?_ ?_ ?_ fun cs m e'' h => ?_
      · rw [hI]
        simp
      · simp [mark]
      · rw [length_append, hc, length_singleton]
      · rw [← hright]
        simp
        omega
      · rw [← hend, length_cons]
        omega
      · rw [length_cons] at hu
        omega
      · omega
      · have hdone := hQ (true :: cs) (y :: m) e'' (.right hfirst h)
        rwa [map_cons, append_cons] at hdone

theorem ensures_mergeMoves {L R : α → α → Prop} {cs : List Bool} {P M B U V : List (Option α)}
    {c d : List (Option ℕ)} {out : ℕ} (h : Interleaves L R l r cs m)
    (hI : I = P ++ l.map some ++ M ++ r.map some ++ B)
    (hS : S = U ++ List.replicate cs.length none ++ V) (hC : C = c ++ cs.map mark ++ d)
    (hleft : P.length = left) (hright : (P ++ l.map some ++ M).length = right)
    (hSp : U.length = out) (hc : c.length = out) (hend : out + cs.length = end_)
    (hQ : Q ⟨⟩ ⟨P ++ List.replicate l.length none ++ M ++ List.replicate r.length none ++ B,
      U ++ m.map some ++ V, C, e⟩) :
    Ensures Never (mergeMoves end_ out left right) Q ⟨I, S, C, e⟩ := by
  induction h generalizing P M U c I S C out left right with
  | nil =>
    rw [mergeMoves, if_neg (by simp at hend; omega), pure_iff, hI, hS]
    simpa using hQ
  | @left x l r cs m hfirst h ih =>
    rw [length_cons] at hend
    rw [mergeMoves, if_pos (by omega), bind_iff]
    refine ensures_classAt (c := 0) ?_ ?_
    · rw [hC, ← hc]
      simp [mark]
    rw [if_neg (by decide), bind_iff]
    refine ensures_take (P := P) (x := x) (T := l.map some ++ M ++ r.map some ++ B) ?_ hleft ?_
    · rw [hI]
      simp
    rw [bind_iff]
    refine ensures_putScratch (P := U) (T := replicate cs.length none ++ V) ?_ hSp ?_
    · rw [hS, length_cons, replicate_succ]
      simp
    refine ih (P := P ++ [none]) (M := M) (U := U ++ [some x]) (c := c ++ [mark false]) ?_ ?_ ?_ ?_
      ?_ ?_
      ?_ (by omega) ?_
    · simp
    · simp
    · rw [hC]
      simp
    · rw [length_append, hleft, length_singleton]
    · rw [← hright]
      simp
    · rw [length_append, hSp, length_singleton]
    · rw [length_append, hc, length_singleton]
    · simpa [replicate_succ] using hQ
  | @right y l r cs m hfirst h ih =>
    rw [length_cons] at hend
    rw [mergeMoves, if_pos (by omega), bind_iff]
    refine ensures_classAt (c := 1) ?_ ?_
    · rw [hC, ← hc]
      simp [mark]
    rw [if_pos rfl, bind_iff]
    refine ensures_take (P := P ++ l.map some ++ M) (x := y) (T := r.map some ++ B) ?_ hright ?_
    · rw [hI]
      simp
    rw [bind_iff]
    refine ensures_putScratch (P := U) (T := replicate cs.length none ++ V) ?_ hSp ?_
    · rw [hS, length_cons, replicate_succ]
      simp
    refine ih (P := P) (M := M ++ [none]) (U := U ++ [some y]) (c := c ++ [mark true]) ?_ ?_ ?_
      hleft ?_
      ?_ ?_ (by omega) ?_
    · simp
    · simp
    · rw [hC]
      simp
    · rw [← hright]
      simp
      omega
    · rw [length_append, hSp, length_singleton]
    · rw [length_append, hc, length_singleton]
    · simpa [replicate_succ] using hQ

theorem ensures_copyBack {P B U V : List (Option α)} {index : ℕ}
    (hI : I = P ++ List.replicate m.length none ++ B) (hS : S = U ++ m.map some ++ V)
    (hP : P.length = index) (hSp : U.length = index) (hend : index + m.length = end_)
    (hQ : Q ⟨⟩ ⟨P ++ m.map some ++ B, U ++ List.replicate m.length none ++ V, C, e⟩) :
    Ensures Never (copyBack end_ index) Q ⟨I, S, C, e⟩ := by
  induction m generalizing P U I S index with
  | nil =>
    rw [copyBack, if_neg (by simp at hend; omega), pure_iff, hI, hS]
    simpa using hQ
  | cons x m ih =>
    rw [length_cons] at hend
    rw [copyBack, if_pos (by omega), bind_iff]
    refine ensures_takeScratch (P := U) (x := x) (T := m.map some ++ V) ?_ hSp ?_
    · rw [hS]
      simp
    rw [bind_iff]
    refine ensures_put (P := P) (T := replicate m.length none ++ B) ?_ hP ?_
    · rw [hI, length_cons, replicate_succ]
      simp
    refine ih (P := P ++ [some x]) (U := U ++ [none]) ?_ ?_ ?_ ?_ (by omega) ?_
    · simp
    · simp
    · rw [length_append, hP, length_singleton]
    · rw [length_append, hSp, length_singleton]
    · simpa [replicate_succ] using hQ

theorem exists_split {β : Type} {C : List β} {i j k : ℕ} (h : C.length = i + j + k) :
    ∃ c u d, C = c ++ u ++ d ∧ c.length = i ∧ u.length = j ∧ d.length = k := by
  refine ⟨C.take i, (C.drop i).take j, (C.drop i).drop j, ?_, ?_, ?_, ?_⟩
  · rw [append_assoc, take_append_drop, take_append_drop]
  · rw [length_take]
    omega
  · rw [length_take, length_drop]
    omega
  · rw [length_drop, length_drop]
    omega

/-- The rooms of a sort of `xs`: every place of the list's room holds an element, none of the
scratch room does, and there is a class for each. -/
def rooms (xs : List α) (C : List (Option ℕ)) (e : σ) : Rooms α σ :=
  ⟨xs.map some, List.replicate xs.length none, C, e⟩

variable {xs : List α} {start : ℕ}

variable (ord) in
theorem ensures_driftMerge (hxs : xs = a ++ l ++ r ++ b) (hC : C.length = xs.length)
    (hstart : a.length = start) (hmiddle : start + l.length = middle)
    (hend : middle + r.length = end_) (hl : Consistent by_ ord → InOrder ord l)
    (hr : Consistent by_ ord → InOrder ord r)
    (hQ : ∀ m C' e', Sorts by_ ord (l ++ r) m → C'.length = C.length →
      Q ⟨⟩ (rooms (a ++ m ++ b) C' e')) :
    Ensures Never (driftMerge by_ start middle end_) Q (rooms xs C e) := by
  have hlen : xs.length = a.length + (l.length + r.length) + b.length := by
    rw [hxs]
    simp
    omega
  obtain ⟨c, u, d, rfl, hc, hu, hd⟩ := exists_split (hC.trans hlen)
  unfold driftMerge rooms
  rw [bind_iff]
  refine ensures_mergeClasses ord (p := a) (l := l) (q := []) (r := r) (b := b) (c := c) (u := u)
    (d := d) ?_ rfl (hc.trans hstart) hstart hmiddle ?_ hend hu (by omega) fun cs m e' h => ?_
  · rw [hxs, append_nil]
  · rw [append_nil, length_append, hstart, hmiddle]
  have hcs : cs.length = l.length + r.length := h.length_eq
  have hm : m.length = l.length + r.length := by rw [h.perm.length_eq, length_append]
  rw [bind_iff]
  refine ensures_mergeMoves (P := a.map some) (M := []) (B := b.map some)
    (U := replicate a.length none) (V := replicate b.length none) (c := c) (d := d) h ?_ ?_ rfl
    ?_ ?_ ?_ (hc.trans hstart) (by omega) ?_
  · rw [hxs]
    simp
  · rw [hlen, replicate_add, replicate_add, hcs]
  · rw [length_map, hstart]
  · simp
    omega
  · rw [length_replicate, hstart]
  refine ensures_copyBack (m := m) (P := a.map some) (B := b.map some)
    (U := replicate a.length none) (V := replicate b.length none) ?_ rfl ?_ ?_ (by omega) ?_
  · rw [hm, replicate_add]
    simp
  · rw [length_map, hstart]
  · rw [length_replicate, hstart]
  have hsorts : Sorts by_ ord (l ++ r) m := by
    refine ⟨⟨h.perm, fun hcon => ?_⟩, fun hcon => ?_⟩
    · have := hcon.trans
      exact h.sameTies (fun x y hxy => hxy hcon) (hl hcon)
    · have := hcon.trans
      exact h.inOrder (fun x y hxy => hxy hcon) (fun x y hxy => hxy hcon) (hl hcon) (hr hcon)
  have hdone := hQ m (c ++ cs.map mark ++ d) e' hsorts (by simp [hcs, hu])
  unfold rooms at hdone
  have hrep : replicate (a ++ m ++ b).length (none : Option α) =
      replicate a.length none ++ replicate m.length none ++
        replicate b.length none := by
    rw [length_append, length_append, replicate_add, replicate_add]
  rw [hrep, map_append, map_append] at hdone
  exact hdone

/-! ### `drift_merge_sort` -/

variable (ord) in
theorem ensures_insertionSort (hxs : xs = a ++ m ++ b) (hstart : a.length = start)
    (hend : start + m.length = end_)
    (hQ : ∀ m' e', Sorts by_ ord m m' → Q ⟨⟩ (rooms (a ++ m' ++ b) C e')) :
    Ensures Never (driftInsertionSort by_ start end_) Q (rooms xs C e) := by
  unfold rooms
  refine ensures_driftInsertionSort ord (m := m) (by rw [hxs]) hstart hend fun m' e' hm' => ?_
  have hdone := hQ m' e' hm'
  have hlen : (a ++ m' ++ b).length = xs.length := by
    rw [hxs, length_append, length_append, length_append, length_append, hm'.length_eq]
  unfold rooms at hdone
  rwa [hlen] at hdone

/-- Sorted blocks of `w` elements each, but for the last. -/
inductive Blocks (by_ : By α σ) (ord : α → α → Ordering) (w : ℕ) : List α → Prop
  | last {m : List α} (hle : m.length ≤ w) (hm : Consistent by_ ord → InOrder ord m) :
    Blocks by_ ord w m
  | cons {p m : List α} (hlen : p.length = w) (hp : Consistent by_ ord → InOrder ord p)
    (rest : Blocks by_ ord w m) : Blocks by_ ord w (p ++ m)

namespace Blocks

variable {w : ℕ} {p : List α}

theorem nil : Blocks by_ ord w [] := .last (Nat.zero_le w) fun _ => List.Pairwise.nil

theorem join (hle : p.length ≤ w) (hp : Consistent by_ ord → InOrder ord p)
    (hm : Blocks by_ ord w m) (hlast : p.length < w → m = [])
    : Blocks by_ ord w (p ++ m) := by
  obtain hlt | heq := Nat.lt_or_eq_of_le hle
  · rw [hlast hlt, append_nil]
    exact .last hle hp
  · exact .cons heq hp hm

theorem split (h : Blocks by_ ord w m) : ∃ p q, m = p ++ q ∧ p.length = min w m.length ∧
    (Consistent by_ ord → InOrder ord p) ∧ Blocks by_ ord w q := by
  cases h with
  | last hle hm => exact ⟨_, [], (append_nil _).symm, (Nat.min_eq_right hle).symm, hm, .nil⟩
  | cons hlen hp rest =>
    refine ⟨_, _, rfl, ?_, hp, rest⟩
    rw [hlen, length_append, hlen]
    omega

theorem inOrder (h : Blocks by_ ord w m) (hle : m.length ≤ w) (hc : Consistent by_ ord) :
    InOrder ord m := by
  cases h with
  | last _ hm => exact hm hc
  | @cons p m hlen hp rest =>
    have hnil : m = [] := by
      rw [length_append, hlen] at hle
      exact length_eq_zero_iff.mp (by omega)
    rw [hnil, append_nil]
    exact hp hc

end Blocks

variable (ord) in
theorem ensures_sortBlocks {run at_ : ℕ} {hrun : 0 < run} (hxs : xs = a ++ m ++ b)
    (hat : a.length = at_) (hend : at_ + m.length = end_)
    (hQ : ∀ m' e', Keeps by_ ord m m' → Blocks by_ ord run m' → Q ⟨⟩ (rooms (a ++ m' ++ b) C e')) :
    Ensures Never (sortBlocks by_ run hrun end_ at_) Q (rooms xs C e) := by
  induction hn : m.length using Nat.strongRecOn generalizing m a xs at_ e with
  | _ n ih =>
    rw [sortBlocks]
    by_cases hlt : at_ < end_
    · rw [if_pos hlt]
      have htake : (m.take run).length = if run < end_ - at_ then run else end_ - at_ := by
        rw [length_take]
        split <;> omega
      rw [← htake, bind_iff]
      have hparts : m.take run ++ m.drop run = m := take_append_drop run m
      refine ensures_insertionSort ord (a := a) (m := m.take run) (b := m.drop run ++ b) ?_ hat rfl
        fun p' e' hp' => ?_
      · rw [hxs, append_assoc a, append_assoc a, ← append_assoc (m.take run), hparts]
      have hlen : p'.length = (m.take run).length := hp'.length_eq
      have hdrop : (m.drop run).length = m.length - run := length_drop
      refine @ih _ ?_ _ (a ++ p') (m.drop run) _ _ ?_ ?_ ?_ (fun q' e'' hq' hblocks => ?_) rfl
      · omega
      · simp
      · rw [length_append, hat, hlen]
      · rw [htake]
        split <;> omega
      · have hdone := hQ (p' ++ q') e'' ?_ (.join ?_ hp'.sorted hblocks ?_)
        · rwa [← append_assoc a] at hdone
        · have hkeeps := hp'.toKeeps.append hq'
          rwa [hparts] at hkeeps
        · rw [hlen, length_take]
          exact Nat.min_le_left ..
        · intro hshort
          rw [hlen, length_take] at hshort
          refine length_eq_zero_iff.mp ?_
          rw [hq'.length_eq]
          omega
    · rw [if_neg hlt, pure_iff]
      have hnil : m = [] := length_eq_zero_iff.mp (by omega)
      subst hnil
      rw [hxs]
      exact hQ [] e (Keeps.refl []) .nil

variable (ord) in
theorem ensures_mergeBlocks {w at_ : ℕ} {hw : 0 < w} (hxs : xs = a ++ m ++ b)
    (hC : C.length = xs.length) (hat : a.length = at_) (hend : at_ + m.length = end_)
    (hm : Blocks by_ ord w m)
    (hQ : ∀ m' C' e', Keeps by_ ord m m' → Blocks by_ ord (w * 2) m' → C'.length = C.length →
      Q ⟨⟩ (rooms (a ++ m' ++ b) C' e')) :
    Ensures Never (mergeBlocks by_ w hw end_ at_) Q (rooms xs C e) := by
  induction hn : m.length using Nat.strongRecOn generalizing m a xs at_ C e with
  | _ n ih =>
    rw [mergeBlocks]
    by_cases hlt : at_ < end_
    · rw [if_pos hlt]
      obtain ⟨p, q, rfl, hp, hpo, hq⟩ := hm.split
      have hlen : (p ++ q).length = p.length + q.length := length_append
      have hmiddle : (if w < end_ - at_ then w else end_ - at_) = p.length := by
        rw [hp]
        split <;> omega
      dsimp only
      rw [hmiddle]
      obtain ⟨p₂, q₂, rfl, hp₂, hpo₂, hq₂⟩ := hq.split
      have hlen₂ : (p₂ ++ q₂).length = p₂.length + q₂.length := length_append
      have hstop :
          (if w < end_ - (at_ + p.length) then w else end_ - (at_ + p.length)) = p₂.length := by
        rw [hp₂]
        split <;> omega
      rw [hstop, ite_iff]
      refine ⟨fun _ => ?_, fun hno => ?_⟩
      · rw [bind_iff]
        refine ensures_driftMerge ord (a := a) (l := p) (r := p₂) (b := q₂ ++ b) ?_ hC hat rfl rfl
          hpo
          hpo₂ fun pm C' e' hpm hC' => ?_
        · rw [hxs]
          simp
        have hpmlen : pm.length = p.length + p₂.length := by
          rw [hpm.length_eq, length_append]
        refine @ih _ ?_ _ _ (a ++ pm) q₂ _ _ ?_ ?_ ?_ ?_ hq₂
          (fun q' C'' e'' hq' hblocks hC'' => ?_) rfl
        · omega
        · simp
        · rw [hC', hC, hxs]
          simp [hpmlen]
          omega
        · rw [length_append, hat, hpmlen, Nat.add_assoc]
        · omega
        · have hdone := hQ (pm ++ q') C'' e'' ?_ (.join ?_ hpm.sorted hblocks ?_) (hC''.trans hC')
          · rwa [← append_assoc a] at hdone
          · have hkeeps := hpm.toKeeps.append hq'
            rwa [append_assoc] at hkeeps
          · omega
          · intro hshort
            refine length_eq_zero_iff.mp ?_
            rw [hq'.length_eq]
            omega
      · -- the last block is alone
        have hnil : q₂ = [] := length_eq_zero_iff.mp (by omega)
        have hnil' : p₂ = [] := length_eq_zero_iff.mp (by omega)
        subst hnil hnil'
        refine @ih _ ?_ _ _ (a ++ p) [] _ _ ?_ hC ?_ ?_ .nil (fun q' C' e' hq' _ hC' => ?_) rfl
        · simp at hn ⊢
          omega
        · rw [hxs]
          simp
        · rw [length_append, hat]
          rfl
        · simp at hend ⊢
          omega
        · have hq : q' = [] := length_eq_zero_iff.mp hq'.length_eq
          subst hq
          have hdone := hQ (p ++ []) C' e' (Keeps.refl _) (.join (by omega) hpo .nil fun _ => rfl)
            hC'
          rwa [← append_assoc a] at hdone
    · rw [if_neg hlt, pure_iff]
      have hnil : m = [] := length_eq_zero_iff.mp (by omega)
      subst hnil
      rw [hxs]
      exact hQ [] C e (Keeps.refl []) .nil rfl

variable (ord) in
theorem ensures_mergeRounds {w : ℕ} {hw : 0 < w} (hxs : xs = a ++ m ++ b)
    (hC : C.length = xs.length) (hstart : a.length = start) (hend : start + m.length = end_)
    (hm : Blocks by_ ord w m) (hQ : ∀ m' C' e', Sorts by_ ord m m' → C'.length = C.length →
      Q ⟨⟩ (rooms (a ++ m' ++ b) C' e')) :
    Ensures Never (mergeRounds by_ start end_ w hw) Q (rooms xs C e) := by
  induction hn : m.length - w using Nat.strongRecOn generalizing w m xs C e with
  | _ n ih =>
    have hsize : end_ - start = m.length := by omega
    rw [mergeRounds, hsize]
    by_cases hlt : w < m.length
    · rw [if_pos hlt, bind_iff]
      refine ensures_mergeBlocks ord (a := a) (m := m) (b := b) hxs hC hstart hend hm
        fun m' C' e' hm' hblocks hC' => ?_
      have hlen : m'.length = m.length := hm'.length_eq
      rw [ite_iff]
      refine ⟨fun hlast => ?_, fun hmore => ?_⟩
      · rw [pure_iff]
        exact hQ m' C' e' ⟨hm', hblocks.inOrder (by omega)⟩ hC'
      · refine @ih _ ?_ _ _ m' _ _ _ rfl ?_ (by omega) hblocks
          (fun m'' C'' e'' hm'' hC'' => hQ m'' C'' e'' (Sorts.of_keeps hm' hm'') (hC''.trans hC'))
          rfl
        · omega
        · rw [hC', hC, hxs]
          simp [hlen]
    · rw [if_neg hlt, pure_iff, hxs]
      exact hQ m C e ⟨Keeps.refl m, hm.inOrder (by omega)⟩ rfl

variable (ord) in
theorem ensures_driftMergeSort (hxs : xs = a ++ m ++ b) (hC : C.length = xs.length)
    (hstart : a.length = start) (hend : start + m.length = end_)
    (hQ : ∀ m' C' e', Sorts by_ ord m m' → C'.length = C.length →
      Q ⟨⟩ (rooms (a ++ m' ++ b) C' e')) :
    Ensures Never (driftMergeSort by_ start end_) Q (rooms xs C e) := by
  unfold driftMergeSort
  rw [bind_iff]
  refine ensures_sortBlocks ord hxs hstart hend fun m' e' hm' hblocks => ?_
  have hlen : m'.length = m.length := hm'.length_eq
  refine ensures_mergeRounds ord rfl ?_ hstart (by omega) hblocks fun m'' C' e'' hm'' hC' => ?_
  · rw [hC, hxs]
    simp [hlen]
  · exact hQ m'' C' e'' (Sorts.of_keeps hm' hm'') hC'

end HdLang.Drift
