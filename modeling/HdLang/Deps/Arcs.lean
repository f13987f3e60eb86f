import HdLang.Deps.Minimal

/-!
# The graph of a selection

A selection as a graph: its packages by their labels and its requirements as arcs between them.
Without problems both are given by the manifests alone (`holds_iff`, `arc_iff`).
-/

namespace HdLang.Deps

open Closure Indexed List Option

/-- A package's identity and version. -/
abbrev Label := String × Option String

def Package.label (p : Package) : Label := (p.identity, p.fetched)

/-- The label of a version. -/
def versionLabel (h : HostPath) (v : Version) : Label :=
  (s!"{h.path}@{compatibilityLine v}", some (treeKey h.path v))

namespace Selection

variable (sel : Selection)

/-- The selection has the package. -/
def Holds (l : Label) : Prop := ∃ p ∈ sel.packages, p.label = l

/-- The requirement `name` of package `a` leads to package `b`. -/
def Arc (a : Label) (dev : Bool) (name : String) (b : Label) : Prop :=
  ∃ p ∈ sel.packages, p.label = a ∧ ∃ t q,
    (name, t) ∈ (if dev then p.devRequires else p.requires) ∧ sel.packages[t]? = some q ∧ q.label = b

/-- Two selections with the same packages and the same requirements between them. -/
structure SameGraph (sel sel' : Selection) : Prop where
  holds : ∀ l, sel.Holds l ↔ sel'.Holds l
  arc : ∀ a dev name b, sel.Arc a dev name b ↔ sel'.Arc a dev name b

theorem SameGraph.symm {sel sel' : Selection} (h : SameGraph sel sel') : SameGraph sel' sel :=
  ⟨fun l => (h.holds l).symm, fun a dev name b => (h.arc a dev name b).symm⟩

end Selection

section Characterization

variable (W : World) (members : List String) (toolchain : String)

/-- The package that meets a requirement. -/
def Lands : Target → Label → Prop
  | .local d, b => b = (d, none)
  | .host h v, b => ∃ v', IsLargest W members toolchain h v' ∧
      compatibilityLine v' = compatibilityLine v ∧ b = versionLabel h v'

/-- A requirement of a local package that the members reach. -/
def LocalArc (a : Label) (dev : Bool) (name : String) (b : Label) : Prop :=
  ∃ d n e, LocalReached W none toolchain members d ∧
    localNode W none toolchain members d = some n ∧ e ∈ n.edges ∧ e.dev = dev ∧ e.name = name ∧
    a = (d, none) ∧ Lands W members toolchain e.target b

/-- A requirement of a selected version. -/
def VersionArc (a : Label) (dev : Bool) (name : String) (b : Label) : Prop :=
  dev = false ∧ ∃ h v s m r target, IsLargest W members toolchain h v ∧ a = versionLabel h v ∧
    W.entry h v = .ok s ∧ packageOf s.document = some m ∧ r ∈ m.dependencies ∧ r.name = name ∧
    versionTarget (h, v) r = some target ∧ Lands W members toolchain target b

variable {W members toolchain} {sum : Sum} {mode : Mode}

theorem packageAt_label {target : Target → Option ℕ} {n : Node} :
    (packageAt target n).label = match n.fetched with
      | none => (n.dir, none)
      | some (h, v, _) => versionLabel h v := by
  rw [Package.label, packageAt]
  cases n.fetched with
  | none => rfl
  | some p => rfl

variable {n : Node} {dev : Bool} {name : String}

variable {target : Target → Option ℕ}

theorem mem_targets {t : ℕ} :
    (name, t) ∈ n.targets target dev ↔
      ∃ e ∈ n.edges, e.dev = dev ∧ e.name = name ∧ target e.target = some t := by
  rw [Node.targets, mem_filterMap]
  refine exists_congr fun e => and_congr_right fun _ => ?_
  by_cases hdev : e.dev = dev
  · rw [if_pos hdev, map_eq_some_iff]
    simp only [Prod.mk.injEq]
    constructor
    · rintro ⟨u, hu, hname, rfl⟩
      exact ⟨hdev, hname, hu⟩
    · rintro ⟨-, hname, hu⟩
      exact ⟨t, hu, hname, rfl⟩
  · rw [if_neg hdev]
    simp [hdev]

variable (hclean : (select W sum mode members toolchain).problems = [])
include hclean

variable {d : String}

theorem localNode_mem (hd : LocalReached W none toolchain members d)
    (hn : localNode W none toolchain members d = some n) :
    n ∈ selectNodes W sum mode members toolchain ∧ n.fetched = none ∧ n.dir = d := by
  obtain ⟨rfl, hfetched⟩ := localNode_dir hn
  exact ⟨(mem_selectNodes_local hclean hfetched).mpr ⟨hd, hn⟩, hfetched, rfl⟩

omit hclean in
theorem localNode_isSome (hd : LocalReached W none toolchain members d) :
    (localNode W none toolchain members d).isSome := by
  cases hd with
  | start h => exact h.2
  | step _ h => exact h.2

/-- **The packages** are the local ones reached and the largest versions reached. -/
theorem holds_iff {l : Label} : (select W sum mode members toolchain).Holds l ↔
    (∃ d, LocalReached W none toolchain members d ∧ l = (d, none)) ∨
      ∃ h v, IsLargest W members toolchain h v ∧ l = versionLabel h v := by
  constructor
  · rintro ⟨p, hp, rfl⟩
    obtain ⟨n, hn, rfl⟩ := mem_packages.mp hp
    rw [packageAt_label]
    cases hfetched : n.fetched with
    | none => exact Or.inl ⟨n.dir, ((mem_selectNodes_local hclean hfetched).mp hn).1, rfl⟩
    | some f => exact Or.inr ⟨f.1, f.2.1, (selectNodes_fetched hclean hn hfetched).1, rfl⟩
  · rintro (⟨d, hd, rfl⟩ | ⟨h, v, hlargest, rfl⟩)
    · obtain ⟨n, hnode⟩ := isSome_iff_exists.mp (localNode_isSome hd)
      obtain ⟨hn, hfetched, rfl⟩ := localNode_mem hclean hd hnode
      exact ⟨_, mem_packages.mpr ⟨n, hn, rfl⟩, by rw [packageAt_label, hfetched]⟩
    · obtain ⟨n, hn, hash, hfetched⟩ := exists_node_of_largest hclean hlargest
      exact ⟨_, mem_packages.mpr ⟨n, hn, rfl⟩, by rw [packageAt_label, hfetched]⟩

variable {t : Target}

/-- What a node's package is to a requirement that it meets. -/
theorem lands_of_meets {q : Node} (hq : q ∈ selectNodes W sum mode members toolchain)
    (hmeets : q.Meets t) :
    Lands W members toolchain t (packageAt target q).label := by
  rw [packageAt_label]
  cases t with
  | «local» d =>
    rw [hmeets.1, ← hmeets.2]
    rfl
  | host h v =>
    obtain ⟨v', hash, hfetched, hline, -⟩ := hmeets
    rw [hfetched]
    exact ⟨v', (selectNodes_fetched hclean hq hfetched).1, hline, rfl⟩

variable {b : Label}

variable {a : Label}

omit hclean in
theorem lands_unique (ha : Lands W members toolchain t a) (hb : Lands W members toolchain t b)
    : a = b := by
  cases t with
  | «local» d => exact Eq.trans ha (Eq.symm hb)
  | host h v =>
    obtain ⟨v₁, h₁, hline₁, rfl⟩ := ha
    obtain ⟨v₂, h₂, hline₂, rfl⟩ := hb
    have hline := hline₁.trans hline₂.symm
    rw [le_antisymm (h₂.2 v₁ h₁.1 hline) (h₁.2 v₂ h₂.1 hline.symm)]

theorem arc_of_node (hn : n ∈ selectNodes W sum mode members toolchain) :
    (∃ t q, (name, t) ∈ n.targets (selectTarget W sum mode members toolchain) dev ∧
      (select W sum mode members toolchain).packages[t]? = some q ∧ q.label = b) ↔
    ∃ e ∈ n.edges, e.dev = dev ∧ e.name = name ∧ Lands W members toolchain e.target b := by
  constructor
  · rintro ⟨t, q, hmem, hq, rfl⟩
    obtain ⟨e, he, hdev, hname, ht⟩ := mem_targets.mp hmem
    obtain ⟨t', m, ht', hm, hmeets⟩ := selectTarget_spec hclean hn he
    obtain rfl : t = t' := some.inj (ht.symm.trans ht')
    obtain ⟨m', hm', rfl⟩ := getElem?_packages.mp hq
    obtain rfl : m = m' := some.inj (hm.symm.trans hm')
    exact ⟨e, he, hdev, hname, lands_of_meets hclean (mem_of_getElem? hm) hmeets⟩
  · rintro ⟨e, he, hdev, hname, hlands⟩
    obtain ⟨t, m, ht, hm, hmeets⟩ := selectTarget_spec hclean hn he
    refine ⟨t, _, mem_targets.mpr ⟨e, he, hdev, hname, ht⟩, getElem?_packages.mpr ⟨m, hm, rfl⟩, ?_⟩
    exact lands_unique (lands_of_meets hclean (mem_of_getElem? hm) hmeets) hlands

/-- **The requirements** are those of the local packages and of the selected versions. -/
theorem arc_iff :
    (select W sum mode members toolchain).Arc a dev name b ↔
      LocalArc W members toolchain a dev name b ∨ VersionArc W members toolchain a dev name b := by
  have hside : ∀ n, (if dev then (packageAt (selectTarget W sum mode members toolchain) n).devRequires
      else (packageAt (selectTarget W sum mode members toolchain) n).requires) =
      n.targets (selectTarget W sum mode members toolchain) dev := by
    intro n
    cases dev <;> rfl
  constructor
  · rintro ⟨p, hp, rfl, t, q, hmem, hq, hb⟩
    obtain ⟨n, hn, rfl⟩ := mem_packages.mp hp
    rw [hside] at hmem
    obtain ⟨e, he, hdev, hname, hlands⟩ := (arc_of_node hclean hn).mp ⟨t, q, hmem, hq, hb⟩
    rw [packageAt_label]
    cases hfetched : n.fetched with
    | none =>
      obtain ⟨hd, hnode⟩ := (mem_selectNodes_local hclean hfetched).mp hn
      exact Or.inl ⟨n.dir, n, e, hd, hnode, he, hdev, hname, rfl, hlands⟩
    | some f =>
      obtain ⟨h, v, hash⟩ := f
      obtain ⟨hlargest, place, manifestHash, hread⟩ := selectNodes_fetched hclean hn hfetched
      obtain ⟨s, m, hs, hm, -, hedges⟩ := clean_edges hread
      have hedge : (e.name, e.dev, some e.target) ∈
          m.dependencies.map fun r => (r.name, false, versionTarget (h, v) r) := by
        rw [← hedges]
        exact mem_map_of_mem he
      obtain ⟨r, hr, heq⟩ := mem_map.mp hedge
      simp only [Prod.mk.injEq] at heq
      exact Or.inr ⟨hdev.symm.trans heq.2.1.symm, h, v, s, m, r, e.target, hlargest, rfl, hs, hm, hr,
        heq.1.trans hname, heq.2.2, hlands⟩
  · rintro (⟨d, n, e, hd, hnode, he, hdev, hname, rfl, hlands⟩ |
      ⟨hdev, h, v, s, m, r, target, hlargest, rfl, hs, hm, hr, hname, htarget, hlands⟩)
    · obtain ⟨hn, hfetched, rfl⟩ := localNode_mem hclean hd hnode
      obtain ⟨t, q, hmem, hq, hb⟩ := (arc_of_node hclean hn).mpr ⟨e, he, hdev, hname, hlands⟩
      refine ⟨_, mem_packages.mpr ⟨n, hn, rfl⟩, by rw [packageAt_label, hfetched], t, q, ?_, hq, hb⟩
      rwa [hside]
    · obtain ⟨n, hn, hash, hfetched⟩ := exists_node_of_largest hclean hlargest
      obtain ⟨-, place, manifestHash, hread⟩ := selectNodes_fetched hclean hn hfetched
      obtain ⟨s', m', hs', hm', -, hedges⟩ := clean_edges hread
      obtain rfl : s = s' := Except.ok.inj (hs.symm.trans hs')
      obtain rfl : m = m' := some.inj (hm.symm.trans hm')
      have hedge : (r.name, false, versionTarget (h, v) r) ∈
          n.edges.map fun e => (e.name, e.dev, some e.target) := by
        rw [hedges]
        exact mem_map_of_mem hr
      obtain ⟨e, he, heq⟩ := mem_map.mp hedge
      rw [htarget] at heq
      simp only [Prod.mk.injEq, Option.some.injEq] at heq
      obtain ⟨hename, hedev, hetarget⟩ := heq
      obtain ⟨t, q, hmem, hq, hb⟩ := (arc_of_node hclean hn).mpr
        ⟨e, he, hedev.trans hdev.symm, hename.trans hname, hetarget ▸ hlands⟩
      refine ⟨_, mem_packages.mpr ⟨n, hn, rfl⟩, by rw [packageAt_label, hfetched], t, q, ?_, hq, hb⟩
      rwa [hside]

end Characterization

end HdLang.Deps
