import HdLang.Deps.Graph

/-!
# Minimal version selection

What a selection without problems is, in terms of the manifests alone: the packages are the local
ones that the members reach and, of each host path and compatibility line, the largest version that
the members reach (`select_minimal`), and each requirement leads to the package of its line
(`arc_iff`). None of it speaks of an order.
-/

namespace HdLang.Deps

open Closure Indexed List Option

/-! ### The statement -/

section Statement

variable (W : World) (members : List String) (toolchain : String)

/-- A local package that the members reach requires version `p`. -/
def Wanted (p : HostPath × Version) : Prop :=
  ∃ d n e, LocalReached W none toolchain members d ∧
    localNode W none toolchain members d = some n ∧ e ∈ n.edges ∧ e.target = .host p.1 p.2

/-- The versions that the members reach: a version superseded later leads on as well. -/
def Reaches : HostPath × Version → Prop := Reached (Wanted W members toolchain) (Requires W)

/-- A reached version that no reached version of its line is above. -/
def IsLargest (h : HostPath) (v : Version) : Prop :=
  Reaches W members toolchain (h, v) ∧ ∀ v', Reaches W members toolchain (h, v') →
    compatibilityLine v' = compatibilityLine v → v' ≤ v

/-- The package at place `t` meets a requirement. -/
def Meets (packages : List Package) (t : ℕ) : Target → Prop
  | .local d => ∃ q, packages[t]? = some q ∧ q.fetched = none ∧ q.dir = d
  | .host h v => ∃ q v', packages[t]? = some q ∧ q.fetched = some (treeKey h.path v') ∧
      compatibilityLine v' = compatibilityLine v ∧ v ≤ v'

/-- A minimal selection of the versions that the members reach. -/
structure MinimalSelection (sel : Selection) : Prop where
  /-- A fetched package is a version reached that is the largest of its line. -/
  largest : ∀ p ∈ sel.packages, ∀ k, p.fetched = some k →
    ∃ h v, k = treeKey h.path v ∧ IsLargest W members toolchain h v
  /-- Every line reached has its package. -/
  line : ∀ h v, Reaches W members toolchain (h, v) →
    ∃ p ∈ sel.packages, ∃ v', p.fetched = some (treeKey h.path v') ∧
      compatibilityLine v' = compatibilityLine v ∧ v ≤ v'
  /-- A line has one package. -/
  once : ∀ {i j : ℕ} {p q : Package} {h : HostPath} {v v' : Version},
    sel.packages[i]? = some p → sel.packages[j]? = some q →
    p.fetched = some (treeKey h.path v) → q.fetched = some (treeKey h.path v') →
    compatibilityLine v = compatibilityLine v' → i = j
  /-- The requirements of a local package, each with the place of the package that meets it. -/
  local_requires : ∀ p ∈ sel.packages, p.fetched = none →
    ∃ n, localNode W none toolchain members p.dir = some n ∧
      List.Forall₂ (fun x e => x.1 = e.name ∧ Meets sel.packages x.2 e.target) p.requires
        (n.edges.filter fun e => e.dev = false) ∧
      List.Forall₂ (fun x e => x.1 = e.name ∧ Meets sel.packages x.2 e.target) p.devRequires
        (n.edges.filter fun e => e.dev = true)
  /-- The requirements of a version, each with the place of the package that meets it. -/
  fetched_requires : ∀ p ∈ sel.packages, ∀ h v, p.fetched = some (treeKey (HostPath.path h) v) →
    ∃ s m, W.entry h v = .ok s ∧ packageOf s.document = some m ∧
      List.Forall₂ (fun x r => x.1 = r.name ∧ ∃ target, versionTarget (h, v) r = some target ∧
        Meets sel.packages x.2 target) p.requires m.dependencies ∧ p.devRequires = []

end Statement

variable {h : HostPath} {v : Version} {p : HostPath × Version}

variable {v' : Version} {hash : String}

section Nodes

variable {W : World} {sum : Sum} {mode : Mode} {members : List String} {toolchain : String}

/-- The versions wanted are the ones that the walk starts with. -/
theorem wanted_iff (p : HostPath × Version) : Wanted W members toolchain p ↔
    ∃ item ∈ startOf W members none toolchain, (item.1, item.2.1) = p := by
  constructor
  · rintro ⟨d, n, e, hd, hn, he, htarget⟩
    have hdir := (localNode_dir hn).1
    refine ⟨(p.1, p.2, e.place), mem_flatMap.mpr ⟨n, ?_, ?_⟩, rfl⟩
    · exact (localsOf_spec.2 n).mpr ⟨hdir ▸ hd, hdir.symm ▸ hn⟩
    · exact mem_filterMap.mpr ⟨e, he, by rw [htarget]⟩
  · rintro ⟨item, hitem, rfl⟩
    obtain ⟨n, hn, hitem⟩ := mem_flatMap.mp hitem
    obtain ⟨e, he, htarget⟩ := mem_hosts hitem
    obtain ⟨hd, hnode⟩ := (localsOf_spec.2 n).mp hn
    exact ⟨n.dir, n, e, hd, hnode, he, htarget⟩

theorem reaches_iff (p : HostPath × Version) : Reaches W members toolchain p ↔
    VersionReached W (startOf W members none toolchain) p :=
  Reached.congr wanted_iff fun _ _ _ _ => Iff.rfl

theorem lineKey_eq_iff :
    lineKey h v = lineKey h v' ↔ compatibilityLine v = compatibilityLine v' := by
  rw [lineKey_inj]
  simp

variable {d : String} {e : Edge}

/-- A path requirement of a local package leads to a package. -/
theorem isSome_of_local_edge {d' : String} {m : Manifest} {member : Bool}
    (he : e ∈ localEdges W d m member toolchain) (htarget : e.target = .local d') :
    (localNode W none toolchain members d').isSome := by
  obtain ⟨⟨dev, r⟩, -, heq⟩ := mem_filterMap.mp he
  dsimp only at heq
  split at heq
  · cases heq
  · obtain ⟨t, ht, rfl⟩ := map_eq_some_iff.mp heq
    dsimp only at htarget
    subst htarget
    rw [localTarget] at ht
    split at ht
    · obtain ⟨d'', hd'', hsame⟩ := map_eq_some_iff.mp ht
      obtain rfl : d'' = d' := by simpa using hsame
      have hpackage := (filter_eq_some_iff.mp hd'').2
      rw [localNode, isSome_map]
      simpa using hpackage
    · rw [hostTarget] at ht
      simp only [bind_eq_bind, bind_eq_some_iff, Option.pure_def, Option.some.injEq] at ht
      obtain ⟨_, _, _, _, hne⟩ := ht
      cases hne

variable {r : Requirement} {t : Target}

theorem fetchedPathTarget_host {shown : String} (ht : fetchedPathTarget h shown r = .ok t)
    : ∃ h v, t = .host h v := by
  rw [fetchedPathTarget] at ht
  split at ht
  · dsimp only at ht
    split at ht
    · cases ht
    · split at ht
      · cases ht
      · split at ht
        · cases ht
        · split at ht
          · cases ht
          · exact ⟨_, _, (Except.ok.inj ht).symm⟩
  · cases ht

theorem versionTarget_host (ht : versionTarget p r = some t) : ∃ h v, t = .host h v := by
  rw [versionTarget] at ht
  split at ht
  · cases hpath : fetchedPathTarget p.1 (treeKey p.1.path p.2) r with
    | error message =>
      rw [hpath] at ht
      cases ht
    | ok t' =>
      rw [hpath] at ht
      obtain rfl := some.inj ht
      exact fetchedPathTarget_host hpath
  · rw [hostTarget] at ht
    simp only [bind_eq_bind, bind_eq_some_iff, Option.pure_def, Option.some.injEq] at ht
    obtain ⟨_, _, _, _, rfl⟩ := ht
    exact ⟨_, _, rfl⟩

/-- A node meets a requirement. -/
def Node.Meets (q : Node) : Target → Prop
  | .local d => q.fetched = none ∧ q.dir = d
  | .host h v => ∃ v' hash, q.fetched = some (h, v', hash) ∧
      compatibilityLine v' = compatibilityLine v ∧ v ≤ v'

variable (hclean : (select W sum mode members toolchain).problems = []) {n : Node}
include hclean

theorem mem_selectNodes_local (hn : n.fetched = none) :
    n ∈ selectNodes W sum mode members toolchain ↔
      LocalReached W none toolchain members n.dir ∧
        localNode W none toolchain members n.dir = some n := by
  rw [mem_selectNodes hclean, ← localsOf_spec.2 n]
  refine or_iff_left ?_
  rintro ⟨x, hx, i, hi, hni⟩
  obtain ⟨j, m, _, _, s, hj, -, hm, -, -, hfetched⟩ := (select_clean hclean).1.node_of_selected hx
  obtain rfl : i = j := some.inj (hi.symm.trans hj)
  obtain rfl : n = m := some.inj (hni.symm.trans hm)
  rw [hn] at hfetched
  cases hfetched

/-- A selected version is the largest of its line. -/
theorem isLargest_of_selected {x : Selected}
    (hx : x ∈ (walkOf W sum mode members none toolchain).selected) :
    IsLargest W members toolchain x.host x.version := by
  obtain ⟨hnodup, hsound, hcomplete⟩ := (select_clean hclean).1.selected_spec
  refine ⟨(reaches_iff _).mpr (hsound x hx).2, fun v' hv' hline => ?_⟩
  obtain ⟨y, hy, hyline, hle⟩ := hcomplete _ ((reaches_iff _).mp hv')
  have hsame : y.line = x.line := by
    rw [hyline, (hsound x hx).1]
    exact lineKey_eq_iff.mpr hline
  rw [inj_on_of_nodup_map hnodup hy hx hsame] at hle
  exact hle

/-- A node of a fetched package: the largest version of its line, read without a problem. -/
theorem selectNodes_fetched (hn : n ∈ selectNodes W sum mode members toolchain)
    (hfetched : n.fetched = some (h, v, hash)) :
    IsLargest W members toolchain h v ∧ ∃ place manifestHash,
      readEntry W sum toolchain h v place = .package manifestHash n [] := by
  obtain hlocal | ⟨x, hx, i, hi, hni⟩ := (mem_selectNodes hclean).mp hn
  · rw [locals_unfetched n hlocal] at hfetched
    cases hfetched
  · obtain ⟨j, m, place, manifestHash, s, hj, -, hm, hread, -, hfetched'⟩ :=
      (select_clean hclean).1.node_of_selected hx
    obtain rfl : i = j := some.inj (hi.symm.trans hj)
    obtain rfl : n = m := some.inj (hni.symm.trans hm)
    rw [hfetched, Option.some.injEq, Prod.mk.injEq, Prod.mk.injEq] at hfetched'
    obtain ⟨rfl, rfl, -⟩ := hfetched'
    exact ⟨isLargest_of_selected hclean hx, place, manifestHash, hread⟩

/-- The requirement of a reached version leads to the package of its line. -/
theorem selectTarget_host (hp : Reaches W members toolchain p) :
    ∃ t q, selectTarget W sum mode members toolchain (.host p.1 p.2) = some t ∧
      (selectNodes W sum mode members toolchain)[t]? = some q ∧ q.Meets (.host p.1 p.2) := by
  have hst := (select_clean hclean).1
  obtain ⟨-, hsound, hcomplete⟩ := hst.selected_spec
  obtain ⟨x, hx, hline, hle⟩ := hcomplete p ((reaches_iff p).mp hp)
  obtain ⟨i, n, _, _, s, hi, -, hn, -, -, hfetched⟩ := hst.node_of_selected hx
  obtain ⟨t, ht, hat⟩ := position_of_mem hclean ((mem_selectOrder hclean).mpr (Or.inr ⟨x, hx, hi⟩))
  refine ⟨t, n, ?_, hat.trans hn, ?_⟩
  · rw [selectTarget, targetOf, ← hline, hst.chosenOf_node hx, hi, bind_some, ht]
  · rw [(hsound x hx).1, lineKey_inj] at hline
    exact ⟨x.version, s.hash, by rw [hfetched, hline.1], hline.2, hle⟩

/-- A path requirement leads to the local package of its directory. -/
theorem selectTarget_local (hd : LocalReached W none toolchain members d)
    (hsome : (localNode W none toolchain members d).isSome) :
    ∃ t q, selectTarget W sum mode members toolchain (.local d) = some t ∧
      (selectNodes W sum mode members toolchain)[t]? = some q ∧ q.Meets (.local d) := by
  obtain ⟨n, hn⟩ := isSome_iff_exists.mp hsome
  obtain ⟨hdir, hfetched⟩ := localNode_dir hn
  obtain ⟨hinv, hmem⟩ : LocalsInv W none toolchain members (localsOf W members none toolchain) ∧ _ :=
    localsOf_spec
  have hn' : n ∈ (localsOf W members none toolchain).nodes :=
    (hmem n).mpr ⟨hdir ▸ hd, hdir.symm ▸ hn⟩
  obtain ⟨i, hi⟩ := mem_iff_getElem?.mp hn'
  have hindex := (hinv.index d i).mpr ⟨n, hi, congrArg some hdir⟩
  have hlt := (List.getElem?_eq_some_iff.mp hi).1
  obtain ⟨t, ht, hat⟩ := position_of_mem hclean ((mem_selectOrder hclean).mpr (Or.inl hlt))
  refine ⟨t, n, ?_, hat.trans (getElem?_of_initial (locals_stay hclean) hi), hfetched, hdir⟩
  rw [selectTarget, targetOf, hindex, bind_some, ht]

/-- **Every requirement of a package** leads to a package that meets it. -/
theorem selectTarget_spec (hn : n ∈ selectNodes W sum mode members toolchain) (he : e ∈ n.edges)
    : ∃ t q, selectTarget W sum mode members toolchain e.target = some t ∧
      (selectNodes W sum mode members toolchain)[t]? = some q ∧ q.Meets e.target := by
  cases hfetched : n.fetched with
  | none =>
    obtain ⟨hd, hnode⟩ := (mem_selectNodes_local hclean hfetched).mp hn
    cases htarget : e.target with
    | «local» d' =>
      obtain ⟨m, -, heq⟩ := localNode_eq.mp hnode
      have hsome : (localNode W none toolchain members d').isSome :=
        isSome_of_local_edge (heq ▸ he) htarget
      have hlocal : d' ∈ n.locals := mem_filterMap.mpr ⟨e, he, by rw [htarget]⟩
      exact selectTarget_local hclean (hd.step ⟨⟨n, hnode, hlocal⟩, hsome⟩) hsome
    | host h v =>
      have hwanted : Wanted W members toolchain (h, v) := ⟨n.dir, n, e, hd, hnode, he, htarget⟩
      exact selectTarget_host hclean (Reached.start hwanted)
  | some fetched =>
    obtain ⟨h, v, hash⟩ := fetched
    obtain ⟨⟨hreach, -⟩, place, manifestHash, hread⟩ := selectNodes_fetched hclean hn hfetched
    obtain ⟨s, m, hs, hm, -, hedges⟩ := clean_edges hread
    have hmem : (e.name, e.dev, some e.target) ∈
        m.dependencies.map fun r => (r.name, false, versionTarget (h, v) r) := by
      rw [← hedges]
      exact mem_map_of_mem he
    obtain ⟨r, hr, heq⟩ := mem_map.mp hmem
    have htarget : versionTarget (h, v) r = some e.target := congrArg (fun x => x.2.2) heq
    obtain ⟨h', v', hhost⟩ := versionTarget_host htarget
    rw [hhost] at htarget ⊢
    have hrequires : Requires W (h, v) (h', v') := ⟨s, m, r, hs, hm, hr, htarget⟩
    exact selectTarget_host hclean (hreach.step hrequires)

end Nodes

/-! ### The packages -/

section Packages

variable {target : Target → Option ℕ} {P : ℕ → Target → Prop} {L : List Edge}

theorem forall₂_targets (dev : Bool) (h : ∀ e ∈ L, ∃ t, target e.target = some t ∧ P t e.target) :
    List.Forall₂ (fun x e => x.1 = e.name ∧ P x.2 e.target)
      (L.filterMap fun e => if e.dev = dev then (target e.target).map fun t => (e.name, t) else none)
      (L.filter fun e => e.dev = dev) := by
  induction L with
  | nil => exact List.Forall₂.nil
  | cons e L ih =>
    rw [forall_mem_cons] at h
    obtain ⟨⟨t, ht, hP⟩, hrest⟩ := h
    by_cases hdev : e.dev = dev
    · rw [filterMap_cons_some (by rw [if_pos hdev, ht, map_some]),
        filter_cons_of_pos (by simpa using hdev)]
      exact List.Forall₂.cons ⟨rfl, hP⟩ (ih hrest)
    · rw [filter_cons_of_neg (by simpa using hdev), filterMap_cons]
      simp only [if_neg hdev]
      exact ih hrest

/-- The requirements of a version read without a problem. -/
theorem forall₂_requirements {R : List Requirement}
    (hedges : L.map (fun e => (e.name, e.dev, some e.target)) =
      R.map fun r => (r.name, false, versionTarget p r))
    (h : ∀ e ∈ L, ∃ t, target e.target = some t ∧ P t e.target) :
    List.Forall₂ (fun x r => x.1 = r.name ∧ ∃ t, versionTarget p r = some t ∧ P x.2 t)
        (L.filterMap fun e => if e.dev = false then (target e.target).map fun t => (e.name, t)
          else none) R ∧
      (L.filterMap fun e => if e.dev = true then (target e.target).map fun t => (e.name, t)
          else none) = [] := by
  induction L generalizing R with
  | nil =>
    rw [map_eq_nil_iff.mp hedges.symm]
    exact ⟨List.Forall₂.nil, rfl⟩
  | cons e L ih =>
    cases R with
    | nil => cases hedges
    | cons r R =>
      obtain ⟨heq, hrest⟩ := cons.inj hedges
      rw [forall_mem_cons] at h
      obtain ⟨⟨t, ht, hP⟩, htail⟩ := h
      simp only [Prod.mk.injEq] at heq
      obtain ⟨hname, hdev, htarget⟩ := heq
      obtain ⟨hrequires, hnone⟩ := ih hrest htail
      have hdev' : ¬e.dev = true := by simp [hdev]
      refine ⟨?_, ?_⟩
      · rw [filterMap_cons_some (by rw [if_pos hdev, ht, map_some])]
        exact List.Forall₂.cons ⟨hname, e.target, htarget.symm, hP⟩ hrequires
      · rw [filterMap_cons]
        simp only [if_neg hdev']
        exact hnone

end Packages

section Select

variable {W : World} {sum : Sum} {mode : Mode} {members : List String} {toolchain : String}
  (hclean : (select W sum mode members toolchain).problems = [])
include hclean

omit hclean in
theorem mem_packages {p : Package} : p ∈ (select W sum mode members toolchain).packages ↔
    ∃ n ∈ selectNodes W sum mode members toolchain,
      packageAt (selectTarget W sum mode members toolchain) n = p := by
  rw [select_packages, List.mem_map]

omit hclean in
theorem getElem?_packages {t : ℕ} {q : Package} :
    (select W sum mode members toolchain).packages[t]? = some q ↔
      ∃ n, (selectNodes W sum mode members toolchain)[t]? = some n ∧
        packageAt (selectTarget W sum mode members toolchain) n = q := by
  rw [select_packages, getElem?_map, map_eq_some_iff]

variable {n : Node}

omit hclean in
theorem packageAt_fetched {target : Target → Option ℕ} :
    (packageAt target n).fetched = some (treeKey h.path v) ↔
      ∃ hash, n.fetched = some (h, v, hash) := by
  rw [packageAt, map_eq_some_iff]
  constructor
  · rintro ⟨⟨h', v', hash⟩, hn, hkey⟩
    obtain ⟨rfl, rfl⟩ := treeKey_inj.mp hkey
    exact ⟨hash, hn⟩
  · rintro ⟨hash, hn⟩
    exact ⟨_, hn, rfl⟩

omit hclean in
theorem meets_of_node {t : ℕ} {q : Node} {target : Target}
    (hq : (selectNodes W sum mode members toolchain)[t]? = some q) (hmeets : q.Meets target) :
    Meets (select W sum mode members toolchain).packages t target := by
  have hat := getElem?_packages.mpr ⟨q, hq, rfl⟩
  cases target with
  | «local» d => exact ⟨_, hat, by rw [packageAt, hmeets.1, map_none], hmeets.2⟩
  | host h v =>
    obtain ⟨v', hash, hfetched, hline, hle⟩ := hmeets
    exact ⟨_, v', hat, packageAt_fetched.mpr ⟨hash, hfetched⟩, hline, hle⟩

/-- The requirements of a node, each at the place of the package that meets it. -/
theorem meets_of_edge (hn : n ∈ selectNodes W sum mode members toolchain) :
    ∀ e ∈ n.edges, ∃ t, selectTarget W sum mode members toolchain e.target = some t ∧
      Meets (select W sum mode members toolchain).packages t e.target := fun e he => by
  obtain ⟨t, q, ht, hq, hmeets⟩ := selectTarget_spec hclean hn he
  exact ⟨t, ht, meets_of_node hq hmeets⟩

theorem exists_node_of_largest (hlargest : IsLargest W members toolchain h v) :
    ∃ n ∈ selectNodes W sum mode members toolchain, ∃ hash, n.fetched = some (h, v, hash) := by
  obtain ⟨t, q, -, hq, v', hash, hfetched, hline, hle⟩ := selectTarget_host hclean hlargest.1
  have hq' := mem_of_getElem? hq
  obtain rfl : v' = v :=
    le_antisymm (hlargest.2 v' (selectNodes_fetched hclean hq' hfetched).1.1 hline) hle
  exact ⟨q, hq', hash, hfetched⟩

theorem selectNodes_inj {i j : ℕ} {m : Node} {hash' : String}
    (hi : (selectNodes W sum mode members toolchain)[i]? = some n)
    (hj : (selectNodes W sum mode members toolchain)[j]? = some m)
    (hn : n.fetched = some (h, v, hash)) (hm : m.fetched = some (h, v', hash'))
    (hline : compatibilityLine v = compatibilityLine v') : i = j := by
  have hv := (selectNodes_fetched hclean (mem_of_getElem? hi) hn).1
  have hv' := (selectNodes_fetched hclean (mem_of_getElem? hj) hm).1
  obtain rfl : v = v' := le_antisymm (hv'.2 v hv.1 hline) (hv.2 v' hv'.1 hline.symm)
  rw [selectNodes_getElem? hclean] at hi hj
  obtain ⟨a, ha, hna⟩ := bind_eq_some_iff.mp hi
  obtain ⟨b, hb, hmb⟩ := bind_eq_some_iff.mp hj
  obtain ⟨_, hst⟩ := (select_clean hclean).1.inv
  -- One node has the version, and the order has each node once.
  obtain rfl : a = b := hst.reached.inj hna hmb (by rw [Node.key, hn]; rfl) (by rw [Node.key, hm]; rfl)
  obtain ⟨hlti, hati⟩ := List.getElem?_eq_some_iff.mp ha
  obtain ⟨hltj, hatj⟩ := List.getElem?_eq_some_iff.mp hb
  exact (selectOrder_nodup hclean).getElem_inj_iff.mp (hati.trans hatj.symm)

/-- **A selection without problems is minimal.** -/
theorem select_minimal :
    MinimalSelection W members toolchain (select W sum mode members toolchain) where
  largest := by
    intro p hp k hk
    obtain ⟨n, hn, rfl⟩ := mem_packages.mp hp
    obtain ⟨⟨h, v, hash⟩, hfetched, rfl⟩ := map_eq_some_iff.mp hk
    exact ⟨h, v, rfl, (selectNodes_fetched hclean hn hfetched).1⟩
  line := by
    intro h v hreach
    obtain ⟨t, q, -, hq, v', hash, hfetched, hline, hle⟩ := selectTarget_host hclean hreach
    exact ⟨_, mem_packages.mpr ⟨q, mem_of_getElem? hq, rfl⟩, v',
      packageAt_fetched.mpr ⟨hash, hfetched⟩, hline, hle⟩
  once := by
    intro i j p q h v v' hi hj hp hq hline
    obtain ⟨n, hn, rfl⟩ := getElem?_packages.mp hi
    obtain ⟨m, hm, rfl⟩ := getElem?_packages.mp hj
    obtain ⟨hash, hp⟩ := packageAt_fetched.mp hp
    obtain ⟨hash', hq⟩ := packageAt_fetched.mp hq
    exact selectNodes_inj hclean hn hm hp hq hline
  local_requires := by
    intro p hp hnone
    obtain ⟨n, hn, rfl⟩ := mem_packages.mp hp
    have hfetched : n.fetched = none := map_eq_none_iff.mp hnone
    exact ⟨n, ((mem_selectNodes_local hclean hfetched).mp hn).2,
      forall₂_targets false (meets_of_edge hclean hn), forall₂_targets true (meets_of_edge hclean hn)⟩
  fetched_requires := by
    intro p hp h v hfetched
    obtain ⟨n, hn, rfl⟩ := mem_packages.mp hp
    obtain ⟨hash, hfetched⟩ := packageAt_fetched.mp hfetched
    obtain ⟨-, place, manifestHash, hread⟩ := selectNodes_fetched hclean hn hfetched
    obtain ⟨s, m, hs, hm, -, hedges⟩ := clean_edges hread
    exact ⟨s, m, hs, hm, forall₂_requirements hedges (meets_of_edge hclean hn)⟩

end Select

end HdLang.Deps
