import HdLang.Deps.Walk

/-!
# The selected graph

What `select` returns when it reports no problem (`select_spec`): its packages are the local ones
that the members reach and the largest version reached of each compatibility line, each one once,
and the index of a requirement is the place of the package that meets it.
-/

namespace HdLang.Deps

open Closure Indexed Largest List Option

/-! ### Tree lines -/

variable {i : ℕ}

section TreeLines

variable (sum : Sum) (mode : Mode) (nodes : List Node) (reached : String → Option ℕ)

/-- The tree hash of a selected version's node. -/
def treeHash (x : Selected) : Option String :=
  (reached (treeKey x.host.path x.version)).bind fun i =>
    (nodes[i]?.bind Node.fetched).map fun p => p.2.2

/-- The problem of a selected version's tree line. -/
def treeProblem (x : Selected) : Option Problem :=
  let key := treeKey x.host.path x.version
  (treeHash nodes reached x).bind fun hash =>
    match sum.entries key with
    | none => if mode = .verify then some ⟨some .missingSumEntry, x.place, missingTree key⟩ else none
    | some entry =>
      if entry ≠ hash then some ⟨some .sumMismatch, x.place, mismatch key "tree" hash entry⟩ else none

variable {sum mode nodes reached} {st : Chosen} {x : Selected} {xs : List Selected}

theorem treeLine_problems : (treeLine sum mode nodes reached st x).problems =
    st.problems ++ (treeProblem sum mode nodes reached x).toList := by
  rw [treeLine, treeProblem, treeHash]
  cases reached (treeKey x.host.path x.version) with
  | none => simp
  | some i =>
    simp only [bind_some]
    cases nodes[i]?.bind Node.fetched with
    | none => simp
    | some p =>
      simp only [map_some, bind_some]
      cases sum.entries (treeKey x.host.path x.version) with
      | none => by_cases hmode : mode = .verify <;> simp [hmode]
      | some entry => by_cases hsame : entry = p.2.2 <;> simp [hsame]

theorem treeLine_nodes (hi : reached (treeKey x.host.path x.version) = some i) :
    (treeLine sum mode nodes reached st x).nodes = Function.update st.nodes x.line (some i) := by
  rw [treeLine, hi]
  cases hfetched : nodes[i]?.bind Node.fetched with
  | none => simp [hfetched]
  | some p =>
    cases hentry : sum.entries (treeKey x.host.path x.version) with
    | none => by_cases hmode : mode = .verify <;> simp [hfetched, hmode]
    | some entry => by_cases hsame : entry = p.2.2 <;> simp [hfetched, hsame]

theorem treeLine_sums {hash : String} (hhash : treeHash nodes reached x = some hash)
    (hok : treeProblem sum mode nodes reached x = none) :
    (treeLine sum mode nodes reached st x).sums =
      Function.update st.sums (treeKey x.host.path x.version) (some hash) := by
  rw [treeProblem, hhash, bind_some] at hok
  rw [treeHash, bind_eq_some_iff] at hhash
  obtain ⟨i, hi, hp⟩ := hhash
  obtain ⟨p, hfetched, rfl⟩ := map_eq_some_iff.mp hp
  rw [treeLine, hi]
  cases hentry : sum.entries (treeKey x.host.path x.version) with
  | none =>
    rw [hentry] at hok
    by_cases hmode : mode = .verify
    · simp [hmode] at hok
    · simp [hfetched, hmode]
  | some entry =>
    rw [hentry] at hok
    by_cases hsame : entry = p.2.2
    · simp [hfetched, hsame]
    · simp [hsame] at hok

theorem foldl_treeLine_problems :
    (xs.foldl (treeLine sum mode nodes reached) st).problems =
      st.problems ++ xs.filterMap (treeProblem sum mode nodes reached) := by
  induction xs generalizing st with
  | nil => simp
  | cons x xs ih =>
    rw [foldl_cons, ih, treeLine_problems, append_assoc]
    cases hx : treeProblem sum mode nodes reached x with
    | none => simp [hx]
    | some p => simp [hx]

/-- The nodes chosen, when every selected version was read. -/
theorem foldl_treeLine_nodes {place : Selected → Option ℕ}
    (hplace : ∀ x ∈ xs, reached (treeKey x.host.path x.version) = place x ∧ (place x).isSome) :
    (xs.foldl (treeLine sum mode nodes reached) st).nodes =
      xs.foldl (fun m x => Function.update m x.line (place x)) st.nodes := by
  induction xs generalizing st with
  | nil => rfl
  | cons x xs ih =>
    rw [forall_mem_cons] at hplace
    obtain ⟨i, hi⟩ := isSome_iff_exists.mp hplace.1.2
    rw [foldl_cons, foldl_cons, ih hplace.2, hi, treeLine_nodes (hplace.1.1.trans hi)]

theorem foldl_treeLine_sums (hhash : ∀ x ∈ xs, (treeHash nodes reached x).isSome)
    (hok : ∀ x ∈ xs, treeProblem sum mode nodes reached x = none) :
    (xs.foldl (treeLine sum mode nodes reached) st).sums =
      xs.foldl (fun m x => Function.update m (treeKey x.host.path x.version)
        (treeHash nodes reached x)) st.sums := by
  induction xs generalizing st with
  | nil => rfl
  | cons x xs ih =>
    rw [forall_mem_cons] at hhash hok
    obtain ⟨hash, hx⟩ := isSome_iff_exists.mp hhash.1
    rw [foldl_cons, foldl_cons, ih hhash.2 hok.2, hx, treeLine_sums hx hok.1]

end TreeLines

/-! ### A selection without problems -/

section Clean

variable {W : World} {sum : Sum} {mode : Mode} {members : List String} {toolchain : String}

theorem chosenOf_problems_of_ne {st : Walk} (h : st.problems ≠ []) :
    (chosenOf sum mode st).problems = st.problems := by
  rw [chosenOf]
  simp only [if_neg h]

/-- Without a problem at the end there is none after the walk. -/
theorem walk_clean {st : Walk} (h : (chosenOf sum mode st).problems = []) : st.problems = [] := by
  by_contra hne
  exact hne (chosenOf_problems_of_ne hne ▸ h)

/-- A walk that took its whole queue without a problem. -/
structure CleanWalk (W : World) (sum : Sum) (mode : Mode) (toolchain : String) (L : List Node)
    (start : List Item) (st : Walk) : Prop where
  inv : ∃ early, WalkInv W sum mode toolchain L start early st
  clean : st.problems = []
  done : st.atQueue = st.queue.length
  unfetched : ∀ n ∈ L, n.fetched = none

/-- The walk of a selection without problems, and the lines chosen from it. -/
theorem select_clean (hclean : (select W sum mode members toolchain).problems = []) :
    CleanWalk W sum mode toolchain (localsOf W members none toolchain).nodes
        (startOf W members none toolchain) (walkOf W sum mode members none toolchain) ∧
      (chosenOf sum mode (walkOf W sum mode members none toolchain)).problems = [] := by
  have hchosen := (append_eq_nil_iff.mp hclean).1
  have hwalk := walk_clean hchosen
  obtain ⟨hst, hdone⟩ : WalkInv W sum mode toolchain _ _ _
    (walkOf W sum mode members none toolchain) ∧ _ := walkOf_spec
  refine ⟨⟨⟨_, hst⟩, hwalk, ?_, locals_unfetched⟩, hchosen⟩
  refine hdone (eq_nil_iff_forall_not_mem.mpr fun p hp => ?_)
  have hp' := hst.early p hp
  rw [hwalk] at hp'
  cases hp'

namespace CleanWalk

variable {L : List Node} {start : List Item} {st : Walk}
  (hst : CleanWalk W sum mode toolchain L start st)
include hst

/-- The version of a line is the largest reached of it. -/
theorem selected_spec : (st.selected.map Selected.line).Nodup ∧
    (∀ x ∈ st.selected, x.line = lineKey x.host x.version ∧
      VersionReached W start (x.host, x.version)) ∧
    ∀ p, VersionReached W start p →
      ∃ x ∈ st.selected, x.line = lineKey p.1 p.2 ∧ p.2 ≤ x.version :=
  hst.inv.choose_spec.selected_spec hst.clean hst.done hst.unfetched

theorem reached_isSome_iff {h : HostPath} {v : Version} :
    (st.reached (treeKey h.path v)).isSome ↔ VersionReached W start (h, v) :=
  hst.inv.choose_spec.reached_isSome_iff hst.clean hst.done hst.unfetched

variable {x : Selected}

theorem node_of_selected (hx : x ∈ st.selected) :
    ∃ i n place hash s, st.reached (treeKey x.host.path x.version) = some i ∧ L.length ≤ i ∧
      st.nodes[i]? = some n ∧
      readEntry W sum toolchain x.host x.version place = .package hash n [] ∧
      W.entry x.host x.version = .ok s ∧ n.fetched = some (x.host, x.version, s.hash) := by
  have hreached := hst.reached_isSome_iff.mpr (hst.selected_spec.2.1 x hx).2
  obtain ⟨i, hi⟩ := isSome_iff_exists.mp hreached
  obtain ⟨hle, n, place, hash, hn, -, hread, -⟩ :=
    hst.inv.choose_spec.node_of_reached hst.clean hst.unfetched hi
  obtain ⟨s, hs, hfetched, -⟩ := fetched_of_package hread
  exact ⟨i, n, place, hash, s, hi, hle, hn, hread, hs, hfetched⟩

theorem treeHash_selected (hx : x ∈ st.selected) :
    ∃ s, W.entry x.host x.version = .ok s ∧ treeHash st.nodes st.reached x = some s.hash := by
  obtain ⟨i, n, place, hash, s, hi, -, hn, -, hs, hfetched⟩ := hst.node_of_selected hx
  refine ⟨s, hs, ?_⟩
  rw [treeHash, hi, bind_some, hn, bind_some, hfetched, map_some]

/-- What `chosenOf` makes of a walk without problems. -/
theorem chosenOf_eq : chosenOf sum mode st = st.selected.foldl
    (treeLine sum mode st.nodes st.reached) ⟨fun _ => none, st.sums, []⟩ := by
  rw [chosenOf]
  simp only [hst.clean, if_true]

theorem chosenOf_problems : (chosenOf sum mode st).problems =
    st.selected.filterMap (treeProblem sum mode st.nodes st.reached) := by
  rw [hst.chosenOf_eq, foldl_treeLine_problems, nil_append]

theorem chosenOf_nodes : (chosenOf sum mode st).nodes = st.selected.foldl
    (fun m x => Function.update m x.line (st.reached (treeKey x.host.path x.version)))
    (fun _ => none) := by
  rw [hst.chosenOf_eq]
  refine foldl_treeLine_nodes fun x hx => ⟨rfl, ?_⟩
  exact hst.reached_isSome_iff.mpr (hst.selected_spec.2.1 x hx).2

theorem chosenOf_node (hx : x ∈ st.selected) :
    (chosenOf sum mode st).nodes x.line = st.reached (treeKey x.host.path x.version) := by
  rw [hst.chosenOf_nodes]
  exact foldl_update_of_mem hst.selected_spec.1 hx

/-- The lines recorded, when no tree line is a problem. -/
theorem chosenOf_sums (hchosen : (chosenOf sum mode st).problems = []) :
    (chosenOf sum mode st).sums = st.selected.foldl
      (fun m x => Function.update m (treeKey x.host.path x.version)
        (treeHash st.nodes st.reached x)) st.sums := by
  have hok : ∀ x ∈ st.selected, treeProblem sum mode st.nodes st.reached x = none := by
    rw [hst.chosenOf_problems, filterMap_eq_nil_iff] at hchosen
    exact hchosen
  rw [hst.chosenOf_eq]
  refine foldl_treeLine_sums (fun x hx => ?_) hok
  obtain ⟨s, -, hhash⟩ := hst.treeHash_selected hx
  rw [hhash, isSome_some]

/-! ### The order of the packages -/

/-- The packages past the locals are the nodes of the selected versions. -/
theorem orderOf_eq (hchosen : (chosenOf sum mode st).problems = []) :
    orderOf L.length st (chosenOf sum mode st) = List.range L.length ++
      st.selected.filterMap fun x => st.reached (treeKey x.host.path x.version) := by
  rw [orderOf, if_pos hchosen]
  congr 1
  exact filterMap_congr fun x hx => hst.chosenOf_node hx

theorem selected_inj {y : Selected} (hx : x ∈ st.selected) (hy : y ∈ st.selected)
    (heq : st.reached (treeKey x.host.path x.version) = st.reached (treeKey y.host.path y.version)) :
    x = y := by
  obtain ⟨i, n, _, _, s, hi, -, hn, -, -, hfetched⟩ := hst.node_of_selected hx
  obtain ⟨j, m, _, _, t, hj, -, hm, -, -, hfetched'⟩ := hst.node_of_selected hy
  obtain rfl : i = j := some.inj ((hi.symm.trans heq).trans hj)
  obtain rfl : n = m := some.inj (hn.symm.trans hm)
  rw [hfetched, Option.some.injEq, Prod.mk.injEq, Prod.mk.injEq] at hfetched'
  refine inj_on_of_nodup_map hst.selected_spec.1 hx hy ?_
  rw [(hst.selected_spec.2.1 x hx).1, (hst.selected_spec.2.1 y hy).1, hfetched'.1, hfetched'.2.1]

theorem orderOf_nodup (hchosen : (chosenOf sum mode st).problems = []) :
    (orderOf L.length st (chosenOf sum mode st)).Nodup := by
  rw [hst.orderOf_eq hchosen, nodup_append']
  refine ⟨nodup_range, ?_, ?_⟩
  · refine pairwise_filterMap.mpr ?_
    refine (List.Nodup.of_map _ hst.selected_spec.1).imp_of_mem fun {x y} hx hy hne i hi j hj => ?_
    rintro rfl
    exact hne (hst.selected_inj hx hy (hi.trans hj.symm))
  · intro i hi hi'
    obtain ⟨x, hx, hreached⟩ := mem_filterMap.mp hi'
    obtain ⟨j, _, _, _, _, hj, hle, -⟩ := hst.node_of_selected hx
    obtain rfl : j = i := some.inj (hj.symm.trans hreached)
    have := List.mem_range.mp hi
    omega

end CleanWalk

end Clean

/-! ### Positions -/

/-- The position of a node is its place in the order. -/
theorem positions_eq {order : List ℕ} (horder : order.Nodup) {p : ℕ} (hp : order[p]? = some i) :
    positions order i = some p := by
  have hkeys : (order.zipIdx.map Prod.fst).Nodup := by rwa [zipIdx_map_fst]
  have hmem : (i, p) ∈ order.zipIdx := mem_zipIdx_iff_getElem?.mpr hp
  exact foldl_update_of_mem (f := Prod.fst) (g := fun q => some q.2) hkeys hmem

section Packages

variable (W : World) (sum : Sum) (mode : Mode) (members : List String) (toolchain : String)

/-- The order of a selection's packages. -/
def selectOrder : List ℕ :=
  let st := walkOf W sum mode members none toolchain
  orderOf (localsOf W members none toolchain).nodes.length st (chosenOf sum mode st)

/-- The nodes of a selection's packages. -/
def selectNodes : List Node :=
  (selectOrder W sum mode members toolchain).filterMap fun i =>
    (walkOf W sum mode members none toolchain).nodes[i]?

/-- The place of the package that meets a requirement. -/
def selectTarget : Target → Option ℕ :=
  targetOf (localsOf W members none toolchain).index
    (chosenOf sum mode (walkOf W sum mode members none toolchain)).nodes
    (positions (selectOrder W sum mode members toolchain))

theorem select_packages : (select W sum mode members toolchain).packages =
    (selectNodes W sum mode members toolchain).map
      (packageAt (selectTarget W sum mode members toolchain)) := rfl

variable {W sum mode members toolchain}
  (hclean : (select W sum mode members toolchain).problems = [])
include hclean

theorem selectOrder_nodup : (selectOrder W sum mode members toolchain).Nodup :=
  (select_clean hclean).1.orderOf_nodup (select_clean hclean).2

theorem mem_selectOrder : i ∈ selectOrder W sum mode members toolchain ↔
    i < (localsOf W members none toolchain).nodes.length ∨
      ∃ x ∈ (walkOf W sum mode members none toolchain).selected,
        (walkOf W sum mode members none toolchain).reached (treeKey x.host.path x.version) =
          some i := by
  rw [selectOrder, (select_clean hclean).1.orderOf_eq (select_clean hclean).2, mem_append,
    List.mem_range, mem_filterMap]

theorem locals_stay : (localsOf W members none toolchain).nodes <+:
    (walkOf W sum mode members none toolchain).nodes := by
  obtain ⟨early, hst⟩ := (select_clean hclean).1.inv
  obtain ⟨F, hnodes, -⟩ := hst.nodes
  exact ⟨F, hnodes.symm⟩

theorem isSome_of_mem_selectOrder (hi : i ∈ selectOrder W sum mode members toolchain) :
    ((walkOf W sum mode members none toolchain).nodes[i]?).isSome := by
  obtain hlt | ⟨x, hx, hreached⟩ := (mem_selectOrder hclean).mp hi
  · have hsome := getElem?_of_initial (locals_stay hclean) (List.getElem?_eq_getElem hlt)
    rw [hsome, isSome_some]
  · obtain ⟨j, n, _, _, _, hj, -, hn, -⟩ := (select_clean hclean).1.node_of_selected hx
    obtain rfl : j = i := some.inj (hj.symm.trans hreached)
    rw [hn, isSome_some]

theorem selectNodes_getElem? (p : ℕ) : (selectNodes W sum mode members toolchain)[p]? =
    (selectOrder W sum mode members toolchain)[p]?.bind fun i =>
      (walkOf W sum mode members none toolchain).nodes[i]? :=
  getElem?_filterMap (fun _ hi => isSome_of_mem_selectOrder hclean hi) p

/-- A node in the order has a position, and its package stands there. -/
theorem position_of_mem (hi : i ∈ selectOrder W sum mode members toolchain) :
    ∃ p, positions (selectOrder W sum mode members toolchain) i = some p ∧
      (selectNodes W sum mode members toolchain)[p]? =
        (walkOf W sum mode members none toolchain).nodes[i]? := by
  obtain ⟨p, hp⟩ := mem_iff_getElem?.mp hi
  refine ⟨p, positions_eq (selectOrder_nodup hclean) hp, ?_⟩
  rw [selectNodes_getElem? hclean, hp, bind_some]

/-- The nodes of the packages are the locals and those of the selected versions. -/
theorem mem_selectNodes {n : Node} : n ∈ selectNodes W sum mode members toolchain ↔
    n ∈ (localsOf W members none toolchain).nodes ∨
      ∃ x ∈ (walkOf W sum mode members none toolchain).selected, ∃ i,
        (walkOf W sum mode members none toolchain).reached (treeKey x.host.path x.version) =
          some i ∧ (walkOf W sum mode members none toolchain).nodes[i]? = some n := by
  rw [selectNodes, mem_filterMap]
  constructor
  · rintro ⟨i, hi, hn⟩
    obtain hlt | ⟨x, hx, hreached⟩ := (mem_selectOrder hclean).mp hi
    · have hold := getElem?_of_initial (locals_stay hclean) (List.getElem?_eq_getElem hlt)
      rw [hn] at hold
      exact Or.inl (some.inj hold ▸ getElem_mem hlt)
    · exact Or.inr ⟨x, hx, i, hreached, hn⟩
  · rintro (hn | ⟨x, hx, i, hreached, hn⟩)
    · obtain ⟨i, hi⟩ := mem_iff_getElem?.mp hn
      exact ⟨i, (mem_selectOrder hclean).mpr (Or.inl (List.getElem?_eq_some_iff.mp hi).1),
        getElem?_of_initial (locals_stay hclean) hi⟩
    · exact ⟨i, (mem_selectOrder hclean).mpr (Or.inr ⟨x, hx, hreached⟩), hn⟩

end Packages

end HdLang.Deps
