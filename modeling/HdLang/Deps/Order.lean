import HdLang.Deps.Arcs

/-!
# Selection and the order of a text

Two worlds that differ in the order of the requirements in their `hd.toml` files, and so in the
lines they stand on, select the same graph from the same members in any order exactly when they
leave the same valid requirements of local packages out (`select_sameGraph_iff`). A local manifest
leaves a requirement out when its line has an error, which is the requirement's own as long as each
requirement has a line of its own; on a line shared with an invalid requirement a valid one goes
too, without a problem of the selection (`shared_line`).
-/

namespace HdLang.Deps

open Closure Function List Option Requirement

/-! ### Layouts -/

/-- Two texts of one document: the tables in other orders, on other lines. -/
structure Document.Reorders (d d' : Document) : Prop where
  package : d.package.map (fun p => (p.1, p.2.map Prod.fst)) =
    d'.package.map fun p => (p.1, p.2.map Prod.fst)
  dependencies : (d.dependencies.map Entry.unlined).Perm (d'.dependencies.map Entry.unlined)
  devDependencies :
    (d.devDependencies.map Entry.unlined).Perm (d'.devDependencies.map Entry.unlined)
  sourceRoot : d.sourceRoot = d'.sourceRoot

/-- Two worlds whose documents are texts of the same documents. The hashes of the files may
differ. -/
structure World.Reorders (W W' : World) : Prop where
  canonicalize : W.canonicalize = W'.canonicalize
  join : W.join = W'.join
  isFile : W.isFile = W'.isFile
  absent : W.absent = W'.absent
  keyProblem : W.keyProblem = W'.keyProblem
  documents : List.Forall₂ (fun p p' => p.1 = p'.1 ∧ p.2.Reorders p'.2) W.documents W'.documents
  served : List.Forall₂ (fun s s' => s.host = s'.host ∧ s.version = s'.version ∧ s.dir = s'.dir ∧
    Option.Rel Document.Reorders s.document s'.document) W.served W'.served

/-- Two manifests that say the same on other lines. -/
structure Manifest.Relined (m m' : Manifest) : Prop where
  name : m.name = m'.name
  declaresPackage : m.declaresPackage = m'.declaresPackage
  dependencies : m.dependencies.map Requirement.unlined = m'.dependencies.map Requirement.unlined
  devDependencies :
    m.devDependencies.map Requirement.unlined = m'.devDependencies.map Requirement.unlined

theorem Document.Reorders.symm {d d' : Document} (h : d.Reorders d') : d'.Reorders d :=
  ⟨h.package.symm, h.dependencies.symm, h.devDependencies.symm, h.sourceRoot.symm⟩

theorem Manifest.Relined.symm {m m' : Manifest} (h : m.Relined m') : m'.Relined m :=
  ⟨h.name.symm, h.declaresPackage.symm, h.dependencies.symm, h.devDependencies.symm⟩

theorem reorders_symm {d d' : Option Document} (h : Option.Rel Document.Reorders d d') :
    Option.Rel Document.Reorders d' d := by
  cases h with
  | none => exact Option.Rel.none
  | some h => exact Option.Rel.some h.symm

theorem relined_isSome {m m' : Option Manifest} (h : Option.Rel Manifest.Relined m m') :
    m.isSome = m'.isSome := by
  cases h with
  | none => rfl
  | some _ => rfl

theorem World.Reorders.symm {W W' : World} (h : W.Reorders W') : W'.Reorders W where
  canonicalize := h.canonicalize.symm
  join := h.join.symm
  isFile := h.isFile.symm
  absent := h.absent.symm
  keyProblem := h.keyProblem.symm
  documents := h.documents.flip.imp fun _ _ hp => ⟨hp.1.symm, hp.2.symm⟩
  served := h.served.flip.imp fun _ _ hs =>
    ⟨hs.1.symm, hs.2.1.symm, hs.2.2.1.symm, reorders_symm hs.2.2.2⟩

theorem parseManifest_relined {d d' : Document} (h : d.Reorders d') :
    (parseManifest d).Relined (parseManifest d') where
  name := by
    have hpackage := h.package
    simp only [parseManifest]
    cases hd : d.package with
    | none =>
      rw [hd] at hpackage
      rw [map_eq_none_iff.mp hpackage.symm]
    | some p =>
      rw [hd, map_some] at hpackage
      obtain ⟨p', hp', heq⟩ := map_eq_some_iff.mp hpackage.symm
      rw [hp', bind_some, bind_some, (Prod.mk.inj heq).1]
  declaresPackage := by
    have hsome := congrArg Option.isSome h.package
    rwa [isSome_map, isSome_map] at hsome
  dependencies := requirements_unlined d.nodup.1 h.dependencies
  devDependencies := requirements_unlined d.nodup.2 h.devDependencies

theorem packageOf_relined {d d' : Option Document} (h : Option.Rel Document.Reorders d d') :
    Option.Rel Manifest.Relined (packageOf d) (packageOf d') := by
  cases h with
  | none => exact Option.Rel.none
  | @some d d' h =>
    have hm := parseManifest_relined h
    simp only [packageOf, map_some, filter_some, hm.name, hm.declaresPackage]
    split
    · exact Option.Rel.some hm
    · exact Option.Rel.none

namespace World.Reorders

variable {W W' : World} (hW : W.Reorders W')
include hW

theorem packageManifest (d : String) :
    Option.Rel Manifest.Relined (packageManifest W d none) (packageManifest W' d none) := by
  refine packageOf_relined ?_
  have hdocuments := hW.documents
  generalize W.documents = D at hdocuments
  generalize W'.documents = D' at hdocuments
  induction hdocuments with
  | nil => exact Option.Rel.none
  | @cons p p' D D' hp _ ih =>
    obtain ⟨k, doc⟩ := p
    obtain ⟨k', doc'⟩ := p'
    obtain rfl : k = k' := hp.1
    rw [lookup_cons, lookup_cons]
    split
    · exact Option.Rel.some hp.2
    · exact ih

theorem packageManifest_isSome (d : String) :
    (HdLang.Deps.packageManifest W d none).isSome =
      (HdLang.Deps.packageManifest W' d none).isSome :=
  relined_isSome (hW.packageManifest d)

/-- A requirement has one target, on whatever line it stands. -/
theorem localTarget {d : String} {r r' : Requirement} (hr : r.unlined = r'.unlined) :
    HdLang.Deps.localTarget W d r = HdLang.Deps.localTarget W' d r' := by
  have hline : HdLang.Deps.localTarget W d r.unlined =
      HdLang.Deps.localTarget W' d r'.unlined := by
    rw [hr]
    simp only [HdLang.Deps.localTarget, hW.packageManifest_isSome, hW.canonicalize, hW.join]
  exact hline

theorem entry {p : HostPath × Version} {s : Served} (hs : W.entry p.1 p.2 = .ok s) :
    ∃ s', W'.entry p.1 p.2 = .ok s' ∧ Option.Rel Document.Reorders s.document s'.document := by
  have hserved := hW.served
  rw [World.entry] at hs
  rw [World.entry]
  generalize W.served = S at hserved hs
  generalize W'.served = S' at hserved
  induction hserved with
  | nil => cases hs
  | @cons a a' S S' ha _ ih =>
    by_cases hsame : a.host = p.1 ∧ a.version = p.2
    · have hsame' : a'.host = p.1 ∧ a'.version = p.2 := ⟨ha.1 ▸ hsame.1, ha.2.1 ▸ hsame.2⟩
      rw [find?_cons_of_pos (by simpa using hsame)] at hs
      rw [find?_cons_of_pos (by simpa using hsame')]
      obtain rfl := Except.ok.inj hs
      exact ⟨a', rfl, ha.2.2.2⟩
    · have hsame' : ¬(a'.host = p.1 ∧ a'.version = p.2) := fun h =>
        hsame ⟨ha.1.trans h.1, ha.2.1.trans h.2⟩
      rw [find?_cons_of_neg (by simpa using hsame)] at hs
      rw [find?_cons_of_neg (by simpa using hsame')]
      exact ih hs

theorem requires {p q : HostPath × Version} (h : Requires W p q) : Requires W' p q := by
  obtain ⟨s, m, r, hs, hm, hr, htarget⟩ := h
  obtain ⟨s', hs', hdocument⟩ := hW.entry hs
  have hmanifest := packageOf_relined hdocument
  rw [hm] at hmanifest
  generalize hm' : packageOf s'.document = found at hmanifest
  cases hmanifest with
  | @some _ m' hrelined =>
    have hmem : r.unlined ∈ m'.dependencies.map unlined := by
      rw [← hrelined.dependencies]
      exact mem_map_of_mem hr
    obtain ⟨r', hr', hsame⟩ := mem_map.mp hmem
    refine ⟨s', m', r', hs', hm', hr', ?_⟩
    have hline : versionTarget p r'.unlined = versionTarget p r.unlined := by rw [hsame]
    exact Eq.trans hline htarget

end World.Reorders

/-! ### Requirements left out -/

variable {dev : Bool} {r : Requirement}

section Shadows

variable (W : World) (toolchain : String)

/-- The line of a requirement has an error. -/
def OnErrorLine (m : Manifest) (r : Requirement) : Prop :=
  ∃ e ∈ requirementErrors W.keyProblem m toolchain, e.line = some r.line

/-- Requirement `i` of a manifest is one that a package has: tagged, valid and with a target. -/
structure Stands (d : String) (m : Manifest) (member : Bool) (i : ℕ) (dev : Bool) (r : Requirement)
    (target : Target) : Prop where
  tagged : (tagged m true)[i]? = some (dev, r)
  valid : (m.verdicts W.keyProblem)[i]? = some none
  member : dev = true → member = true
  target : localTarget W d r = some target

/-- A requirement that nothing is wrong with and that is left out, for an error on its line. -/
def Shadowed (d : String) (m : Manifest) (member : Bool) (dev : Bool) (key : String) : Prop :=
  ∃ i r target, Stands W d m member i dev r target ∧ r.key = key ∧ OnErrorLine W toolchain m r

/-- Two layouts leave the same requirements of the local packages out. -/
def SameShadows (W W' : World) (members members' : List String) (toolchain : String) : Prop :=
  ∀ d m m', LocalReached W none toolchain members d → packageManifest W d none = some m →
    packageManifest W' d none = some m' → ∀ dev key,
      (Shadowed W toolchain d m (decide (IsMember W members d)) dev key ↔
        Shadowed W' toolchain d m' (decide (IsMember W' members' d)) dev key)

variable {W toolchain} {m : Manifest} {d : String} {member : Bool}

theorem tagged_all : (tagged m true).map Prod.snd = m.all := by
  simp [tagged, Manifest.all, List.map_map, comp_def]

theorem getElem?_all {i : ℕ} (hi : (tagged m true)[i]? = some (dev, r)) : m.all[i]? = some r := by
  rw [← tagged_all, getElem?_map, hi, map_some]

theorem mem_tagged : (dev, r) ∈ tagged m member ↔
    ∃ i : ℕ, (tagged m true)[i]? = some (dev, r) ∧ (dev = true → member = true) := by
  have hall : (dev, r) ∈ tagged m member ↔
      (dev, r) ∈ tagged m true ∧ (dev = true → member = true) := by
    cases dev <;> cases member <;> simp [tagged]
  rw [hall, mem_iff_getElem?, exists_and_right]

/-- **The edges of a local package**: the requirements that stand off the lines of errors. -/
theorem mem_localEdges {e : Edge} : e ∈ localEdges W d m member toolchain ↔
    ∃ i r, Stands W d m member i e.dev r e.target ∧ ¬OnErrorLine W toolchain m r ∧
      e = ⟨r.name, e.dev, e.target, ⟨d, r.line⟩⟩ := by
  have hany : ∀ r : Requirement, ((requirementErrors W.keyProblem m toolchain).any fun e =>
      decide (e.line = some r.line)) = true ↔ OnErrorLine W toolchain m r := by
    intro r
    simp [OnErrorLine, List.any_eq_true]
  rw [localEdges, mem_filterMap]
  constructor
  · rintro ⟨⟨dev, r⟩, hr, heq⟩
    dsimp only at heq
    split at heq
    · cases heq
    · next hline =>
      rw [hany] at hline
      obtain ⟨target, htarget, rfl⟩ := map_eq_some_iff.mp heq
      obtain ⟨i, hi, hmember⟩ := mem_tagged.mp hr
      refine ⟨i, r, ⟨hi, ?_, hmember, htarget⟩, hline, rfl⟩
      -- A requirement that breaks a rule has an error on its own line.
      have hlt : i < (m.verdicts W.keyProblem).length := by
        rw [verdicts_length]
        exact (List.getElem?_eq_some_iff.mp (getElem?_all hi)).1
      rw [List.getElem?_eq_getElem hlt]
      cases hverdict : (m.verdicts W.keyProblem)[i] with
      | none => rfl
      | some why =>
        have hwhy : (m.verdicts W.keyProblem)[i]? = some (some why) := by
          rw [List.getElem?_eq_getElem hlt, hverdict]
        exact absurd (error_of_invalid (getElem?_all hi) hwhy) hline
  · rintro ⟨i, r, hr, hline, heq⟩
    refine ⟨(e.dev, r), mem_tagged.mpr ⟨i, hr.tagged, hr.member⟩, ?_⟩
    dsimp only
    rw [if_neg fun h => hline ((hany r).mp h), hr.target, map_some, ← heq]

/-- With no error on the line of a valid requirement, none is left out. -/
theorem not_shadowed (h : ∀ p ∈ (tagged m true).zip (m.verdicts W.keyProblem), p.2 = none →
    ∀ e ∈ requirementErrors W.keyProblem m toolchain, e.line ≠ some p.1.2.line) (dev : Bool)
    (key : String) : ¬Shadowed W toolchain d m member dev key := by
  rintro ⟨i, r, target, hr, -, e, he, hline⟩
  have hpair : ((dev, r), none) ∈ (tagged m true).zip (m.verdicts W.keyProblem) :=
    mem_of_getElem? (getElem?_zip_eq_some.mpr ⟨hr.tagged, hr.valid⟩)
  exact h _ hpair rfl e he hline

theorem Stands.inj {i j : ℕ} {dev dev' : Bool} {r r' : Requirement} {t t' : Target}
    (hr : Stands W d m member i dev r t) (hr' : Stands W d m member j dev' r' t')
    (hname : r.name = r'.name) : i = j ∧ dev = dev' ∧ r = r' ∧ t = t' := by
  obtain rfl : i = j :=
    valid_inj (getElem?_all hr.tagged) (getElem?_all hr'.tagged) hr.valid hr'.valid hname
  have hpair := some.inj (hr.tagged.symm.trans hr'.tagged)
  obtain ⟨rfl, rfl⟩ := Prod.mk.inj hpair
  exact ⟨rfl, rfl, rfl, some.inj (hr.target.symm.trans hr'.target)⟩

end Shadows

section Transfer

variable {W W' : World} {m m' : Manifest} {d : String} {member : Bool} {toolchain : String}

theorem Manifest.Relined.verdicts (h : m.Relined m') (keyProblem : String → Option String) :
    m.verdicts keyProblem = m'.verdicts keyProblem := by
  refine requirementProblems_congr ?_
  simp only [Manifest.all, map_append, h.dependencies, h.devDependencies]

theorem Manifest.Relined.tagged (h : m.Relined m') : (tagged m true).map
    (fun p => (p.1, p.2.unlined)) = (HdLang.Deps.tagged m' true).map fun p => (p.1, p.2.unlined) := by
  have hside : ∀ (b : Bool) {L L' : List Requirement}, L.map unlined = L'.map unlined →
      L.map (fun r => (b, r.unlined)) = L'.map fun r => (b, r.unlined) := by
    intro b L L' hL
    have := congrArg (List.map (Prod.mk b)) hL
    simpa [List.map_map, comp_def] using this
  simp only [HdLang.Deps.tagged, if_true, map_append, List.map_map, comp_def]
  rw [hside false h.dependencies, hside true h.devDependencies]

/-- What stands in one layout stands in the other. -/
theorem Stands.transfer (hW : W.Reorders W') (hm : m.Relined m') {i : ℕ} {t : Target}
    (hr : Stands W d m member i dev r t) :
    ∃ r', Stands W' d m' member i dev r' t ∧ r'.unlined = r.unlined := by
  have htagged : ((HdLang.Deps.tagged m' true).map fun p => (p.1, p.2.unlined))[i]? =
      some (dev, r.unlined) := by
    rw [← hm.tagged, getElem?_map, hr.tagged, map_some]
  rw [getElem?_map, map_eq_some_iff] at htagged
  obtain ⟨⟨dev', r'⟩, hi, heq⟩ := htagged
  obtain ⟨rfl, hsame⟩ := Prod.mk.inj heq
  refine ⟨r', ⟨hi, ?_, hr.member, ?_⟩, hsame⟩
  · rw [← hW.keyProblem, ← hm.verdicts, hr.valid]
  · rw [← hW.localTarget hsame.symm, hr.target]

theorem name_of_unlined {r r' : Requirement} (h : r.unlined = r'.unlined) : r.name = r'.name := by
  have hname : r.unlined.name = r'.unlined.name := by rw [h]
  exact hname

theorem key_of_unlined {r r' : Requirement} (h : r.unlined = r'.unlined) : r.key = r'.key := by
  have hkey : r.unlined.key = r'.unlined.key := by rw [h]
  exact hkey

/-- An edge of one layout is one of the other when nothing more is left out there. -/
theorem localEdges_transfer (hW : W.Reorders W') (hm : m.Relined m')
    (hshadow : ∀ dev key, Shadowed W' toolchain d m' member dev key →
      Shadowed W toolchain d m member dev key) {e : Edge}
    (he : e ∈ localEdges W d m member toolchain) :
    ∃ e' ∈ localEdges W' d m' member toolchain,
      e'.dev = e.dev ∧ e'.name = e.name ∧ e'.target = e.target := by
  obtain ⟨i, r, hr, hline, heq⟩ := mem_localEdges.mp he
  obtain ⟨r', hr', hsame⟩ := hr.transfer hW hm
  have hname : r'.name = r.name := name_of_unlined hsame
  refine ⟨⟨r'.name, e.dev, e.target, ⟨d, r'.line⟩⟩, ?_, rfl, ?_, rfl⟩
  · refine mem_localEdges.mpr ⟨i, r', hr', fun hline' => ?_, rfl⟩
    -- Left out there, it would be left out here, under the one requirement of its name.
    obtain ⟨j, x, t, hx, hkey, hxline⟩ := hshadow e.dev r'.key ⟨i, r', _, hr', rfl, hline'⟩
    have hxname : x.name = r.name := by
      rw [← hname, name, name, hkey]
    obtain ⟨-, -, rfl, -⟩ := hx.inj hr hxname
    exact hline hxline
  · rw [hname, heq]

end Transfer

/-! ### The same graph -/

variable {sum sum' : Sum} {mode mode' : Mode}

section SameGraph

variable {W W' : World} {members members' : List String} {toolchain : String}

theorem isMember_congr (hW : W.Reorders W') (hmembers : members.Perm members') (d : String) :
    IsMember W members d ↔ IsMember W' members' d := by
  rw [IsMember, IsMember, ← hW.canonicalize]
  exact (hmembers.filterMap _).mem_iff

theorem SameShadows.symm
    (hreach : ∀ d, LocalReached W none toolchain members d ↔
      LocalReached W' none toolchain members' d) (h : SameShadows W W' members members' toolchain) :
    SameShadows W' W members' members toolchain := fun d m' m hd hm' hm dev key =>
  (h d m m' ((hreach d).mpr hd) hm hm' dev key).symm

theorem localNode_isSome_congr (hW : W.Reorders W') (d : String) :
    (localNode W none toolchain members d).isSome ↔
      (localNode W' none toolchain members' d).isSome := by
  rw [localNode, localNode, isSome_map, isSome_map, hW.packageManifest_isSome]

variable (hW : W.Reorders W') (hmembers : members.Perm members')
include hW hmembers

/-- The edges of a local package that both reach: the same up to their places. -/
theorem edge_transfer (hsame : SameShadows W W' members members' toolchain) {d : String}
    (hd : LocalReached W none toolchain members d) {n : Node}
    (hn : localNode W none toolchain members d = some n) :
    ∃ n', localNode W' none toolchain members' d = some n' ∧ ∀ dev name target,
      (∃ e ∈ n.edges, e.dev = dev ∧ e.name = name ∧ e.target = target) ↔
        ∃ e ∈ n'.edges, e.dev = dev ∧ e.name = name ∧ e.target = target := by
  obtain ⟨m, hm, rfl⟩ := localNode_eq.mp hn
  have hrel := hW.packageManifest d
  rw [hm] at hrel
  generalize hm' : packageManifest W' d none = found at hrel
  cases hrel with
  | @some _ m' hrelined =>
    have hmember : decide (IsMember W' members' d) = decide (IsMember W members d) :=
      decide_eq_decide.mpr (isMember_congr hW hmembers d).symm
    have hshadow := hsame d m m' hd hm hm'
    rw [hmember] at hshadow
    refine ⟨_, localNode_eq.mpr ⟨m', hm', rfl⟩, fun dev name target => ?_⟩
    rw [hmember]
    constructor
    · rintro ⟨e, he, rfl, rfl, rfl⟩
      obtain ⟨e', he', hsame'⟩ := localEdges_transfer hW hrelined (fun dev key =>
        (hshadow dev key).mpr) he
      exact ⟨e', he', hsame'⟩
    · rintro ⟨e, he, rfl, rfl, rfl⟩
      obtain ⟨e', he', hsame'⟩ := localEdges_transfer hW.symm hrelined.symm (fun dev key =>
        (hshadow dev key).mp) he
      exact ⟨e', he', hsame'⟩

omit hW hmembers in
theorem mem_locals_iff {n : Node} {d : String} :
    d ∈ n.locals ↔ ∃ e ∈ n.edges, e.target = .local d := by
  rw [Node.locals, mem_filterMap]
  refine exists_congr fun e => and_congr_right fun _ => ?_
  cases e.target with
  | «local» d' => simp
  | host h v => simp

section Same

variable (hsame : SameShadows W W' members members' toolchain)

include hsame

/-- A local package's requirements lead to the same targets. -/
theorem target_transfer {d : String} (hd : LocalReached W none toolchain members d)
    (target : Target) :
    (∃ n, localNode W none toolchain members d = some n ∧ ∃ e ∈ n.edges, e.target = target) ↔
      ∃ n, localNode W' none toolchain members' d = some n ∧ ∃ e ∈ n.edges, e.target = target := by
  obtain ⟨n, hn⟩ := isSome_iff_exists.mp (localNode_isSome hd)
  obtain ⟨n', hn', hedges⟩ := edge_transfer hW hmembers hsame hd hn
  constructor
  · rintro ⟨m, hm, e, he, htarget⟩
    obtain rfl : n = m := some.inj (hn.symm.trans hm)
    obtain ⟨e', he', -, -, htarget'⟩ := (hedges e.dev e.name target).mp ⟨e, he, rfl, rfl, htarget⟩
    exact ⟨n', hn', e', he', htarget'⟩
  · rintro ⟨m, hm, e, he, htarget⟩
    obtain rfl : n' = m := some.inj (hn'.symm.trans hm)
    obtain ⟨e', he', -, -, htarget'⟩ := (hedges e.dev e.name target).mpr ⟨e, he, rfl, rfl, htarget⟩
    exact ⟨n, hn, e', he', htarget'⟩

theorem localReached_congr (d : String) :
    LocalReached W none toolchain members d ↔ LocalReached W' none toolchain members' d := by
  refine Reached.congr (fun d => ?_) fun d hd hd' d' => ?_
  · rw [isMember_congr hW hmembers, localNode_isSome_congr hW]
  · rw [localNode_isSome_congr hW d']
    refine and_congr_left fun _ => ?_
    simp only [mem_locals_iff]
    exact target_transfer hW hmembers hsame hd (.local d')

theorem reaches_congr (p : HostPath × Version) :
    Reaches W members toolchain p ↔ Reaches W' members' toolchain p := by
  refine Reached.congr (fun p => ?_) fun p _ _ q => ⟨hW.requires, hW.symm.requires⟩
  have hside : ∀ (W : World) (members : List String), Wanted W members toolchain p ↔
      ∃ d, LocalReached W none toolchain members d ∧
        ∃ n, localNode W none toolchain members d = some n ∧
          ∃ e ∈ n.edges, e.target = .host p.1 p.2 := by
    intro W members
    simp only [Wanted, exists_and_left]
  rw [hside, hside]
  refine exists_congr fun d => ?_
  rw [← localReached_congr hW hmembers hsame d]
  exact and_congr_right fun hd => target_transfer hW hmembers hsame hd _

theorem isLargest_congr (h : HostPath) (v : Version) :
    IsLargest W members toolchain h v ↔ IsLargest W' members' toolchain h v := by
  simp only [IsLargest, reaches_congr hW hmembers hsame]

theorem lands_congr (t : Target) (b : Label)
    : Lands W members toolchain t b ↔ Lands W' members' toolchain t b := by
  cases t with
  | «local» d => exact Iff.rfl
  | host h v => simp only [Lands, isLargest_congr hW hmembers hsame]

theorem localArc_transfer {a b : Label} {name : String}
    (h : LocalArc W members toolchain a dev name b) :
    LocalArc W' members' toolchain a dev name b := by
  obtain ⟨d, n, e, hd, hn, he, rfl, rfl, rfl, hlands⟩ := h
  obtain ⟨n', hn', hedges⟩ := edge_transfer hW hmembers hsame hd hn
  obtain ⟨e', he', hdev, hname, htarget⟩ := (hedges _ _ _).mp ⟨e, he, rfl, rfl, rfl⟩
  refine ⟨d, n', e', (localReached_congr hW hmembers hsame d).mp hd, hn', he', hdev, hname, rfl, ?_⟩
  rw [htarget]
  exact (lands_congr hW hmembers hsame _ _).mp hlands

theorem versionArc_transfer {a b : Label} {name : String}
    (h : VersionArc W members toolchain a dev name b) :
    VersionArc W' members' toolchain a dev name b := by
  obtain ⟨hdev, h, v, s, m, r, target, hlargest, ha, hs, hm, hr, hname, htarget, hlands⟩ := h
  obtain ⟨s', hs', hdocument⟩ := hW.entry (p := (h, v)) hs
  have hmanifest := packageOf_relined hdocument
  rw [hm] at hmanifest
  generalize hm' : packageOf s'.document = found at hmanifest
  cases hmanifest with
  | @some _ m' hrelined =>
    have hmem : r.unlined ∈ m'.dependencies.map unlined := by
      rw [← hrelined.dependencies]
      exact mem_map_of_mem hr
    obtain ⟨r', hr', hsame'⟩ := mem_map.mp hmem
    have hline : versionTarget (h, v) r'.unlined = versionTarget (h, v) r.unlined := by rw [hsame']
    exact ⟨hdev, h, v, s', m', r', target, (isLargest_congr hW hmembers hsame h v).mp hlargest, ha,
      hs', hm', hr', (name_of_unlined hsame').trans hname, Eq.trans hline htarget,
      (lands_congr hW hmembers hsame _ _).mp hlands⟩

end Same

omit hmembers in
/-- A requirement left out in one layout is left out in the other when the graphs agree. -/
theorem shadow_of_sameGraph (hclean : (select W sum mode members toolchain).problems = [])
    (hclean' : (select W' sum' mode' members' toolchain).problems = [])
    (hsame : Selection.SameGraph (select W sum mode members toolchain)
      (select W' sum' mode' members' toolchain)) {d : String} {m m' : Manifest}
    (hd' : LocalReached W' none toolchain members' d) (hm : packageManifest W d none = some m)
    (hm' : packageManifest W' d none = some m') (hrelined : m.Relined m')
    (hmember : decide (IsMember W members d) = decide (IsMember W' members' d)) {key : String}
    (h : Shadowed W toolchain d m (decide (IsMember W members d)) dev key) :
    Shadowed W' toolchain d m' (decide (IsMember W' members' d)) dev key := by
  obtain ⟨i, r, t, hr, hkey, hline⟩ := h
  obtain ⟨r', hr', hunlined⟩ := hr.transfer hW hrelined
  rw [hmember] at hr'
  by_contra hnot
  have hline' : ¬OnErrorLine W' toolchain m' r' := fun h =>
    hnot ⟨i, r', t, hr', (key_of_unlined hunlined).trans hkey, h⟩
  -- Kept there, it leads somewhere there, so a requirement of its name is kept here.
  have hn' : localNode W' none toolchain members' d = some _ := localNode_eq.mpr ⟨m', hm', rfl⟩
  have he' : (⟨r'.name, dev, t, ⟨d, r'.line⟩⟩ : Edge) ∈
      localEdges W' d m' (decide (IsMember W' members' d)) toolchain :=
    mem_localEdges.mpr ⟨i, r', hr', hline', rfl⟩
  obtain ⟨hmem, hfetched, -⟩ := localNode_mem hclean' hd' hn'
  obtain ⟨_, q, -, hq, hmeets⟩ := selectTarget_spec hclean' hmem he'
  have hlands : Lands W' members' toolchain t (packageAt (fun _ => none) q).label :=
    lands_of_meets hclean' (mem_of_getElem? hq) hmeets
  have harc : LocalArc W' members' toolchain (d, none) dev r'.name _ :=
    ⟨d, _, _, hd', hn', he', rfl, rfl, rfl, hlands⟩
  obtain hlocal | ⟨-, _, _, _, _, _, _, -, hlabel, -⟩ :=
    (arc_iff hclean).mp ((hsame.arc _ _ _ _).mpr ((arc_iff hclean').mpr (Or.inl harc)))
  · obtain ⟨d₀, n, e, -, hn, he, -, hname, hlabel, -⟩ := hlocal
    obtain rfl : d = d₀ := (Prod.mk.inj hlabel).1
    obtain ⟨m₀, hm₀, rfl⟩ := localNode_eq.mp hn
    obtain rfl : m = m₀ := some.inj (hm.symm.trans hm₀)
    obtain ⟨j, x, hx, hxline, heq⟩ := mem_localEdges.mp he
    have hxname : x.name = r.name := by
      rw [← name_of_unlined hunlined, ← hname, heq]
    obtain ⟨-, -, rfl, -⟩ := hx.inj hr hxname
    exact hxline hline
  · cases (Prod.mk.inj hlabel).2

/-- **Order independence.** Two selections without problems, over worlds that differ in the layout
of their documents and from members in any order, have the same graph exactly when the layouts
leave the same requirements of the local packages out. -/
theorem select_sameGraph_iff (hclean : (select W sum mode members toolchain).problems = [])
    (hclean' : (select W' sum' mode' members' toolchain).problems = []) :
    Selection.SameGraph (select W sum mode members toolchain)
        (select W' sum' mode' members' toolchain) ↔
      SameShadows W W' members members' toolchain := by
  constructor
  · intro hsame d m m' hd hm hm' dev key
    have hlocal := (hsame.holds (d, none)).mp ((holds_iff hclean).mpr (Or.inl ⟨d, hd, rfl⟩))
    have hd' : LocalReached W' none toolchain members' d := by
      obtain ⟨d', hd', heq⟩ | ⟨h, v, -, heq⟩ := (holds_iff hclean').mp hlocal
      · rw [(Prod.mk.inj heq).1]
        exact hd'
      · cases (Prod.mk.inj heq).2
    have hmember : decide (IsMember W members d) = decide (IsMember W' members' d) :=
      decide_eq_decide.mpr (isMember_congr hW hmembers d)
    have hrel := hW.packageManifest d
    rw [hm, hm'] at hrel
    cases hrel with
    | some hrelined =>
      exact ⟨shadow_of_sameGraph hW hclean hclean' hsame hd' hm hm' hrelined hmember,
        shadow_of_sameGraph hW.symm hclean' hclean hsame.symm hd hm' hm hrelined.symm hmember.symm⟩
  · intro hsame
    have hreach := localReached_congr hW hmembers hsame
    have hsame' := SameShadows.symm hreach hsame
    refine ⟨fun l => ?_, fun a dev name b => ?_⟩
    · simp only [holds_iff hclean, holds_iff hclean', hreach, isLargest_congr hW hmembers hsame]
    · rw [arc_iff hclean, arc_iff hclean']
      exact or_congr
        ⟨localArc_transfer hW hmembers hsame, localArc_transfer hW.symm hmembers.symm hsame'⟩
        ⟨versionArc_transfer hW hmembers hsame, versionArc_transfer hW.symm hmembers.symm hsame'⟩

end SameGraph

section Members

variable {W : World} {members members' : List String} {toolchain : String}

theorem Document.Reorders.refl (d : Document) : d.Reorders d :=
  ⟨rfl, List.Perm.refl _, List.Perm.refl _, rfl⟩

theorem World.Reorders.refl (W : World) : W.Reorders W where
  canonicalize := rfl
  join := rfl
  isFile := rfl
  absent := rfl
  keyProblem := rfl
  documents := forall₂_same.mpr fun p _ => ⟨rfl, Document.Reorders.refl p.2⟩
  served := forall₂_same.mpr fun s _ => ⟨rfl, rfl, rfl, by
    cases s.document with
    | none => exact Option.Rel.none
    | some d => exact Option.Rel.some (Document.Reorders.refl d)⟩

end Members

/-- `app` with `b` and `c` on the given lines, and on the first line a requirement that names no
version. -/
def sharedLine (b c : ℕ) : World :=
  appWorld [⟨"a", .string "github.com/acme/a", 1⟩, ⟨"b", .string "github.com/acme/b@1.0.0", b⟩,
    ⟨"c", .string "github.com/acme/c@1.0.0", c⟩] (by simp)

theorem sharedLine_reorders (b c b' c' : ℕ) : (sharedLine b c).Reorders (sharedLine b' c') where
  canonicalize := rfl
  join := rfl
  isFile := rfl
  absent := rfl
  keyProblem := rfl
  documents := .cons ⟨rfl, rfl, .refl _, .refl _, rfl⟩ .nil
  served := (World.Reorders.refl (sharedLine b c)).served

theorem eq_of_packageManifest_app {dependencies : List Entry}
    {h : (dependencies.map Entry.key).Nodup} {d : String} {m : Manifest}
    (hm : packageManifest (appWorld dependencies h) d none = some m) :
    m = parseManifest (appDocument dependencies h) := by
  change packageOf (lookup d [("app", appDocument dependencies h)]) = some m at hm
  rw [lookup_cons] at hm
  split at hm
  · rw [packageOf, map_some] at hm
    exact (some.inj (filter_eq_some_iff.mp hm).1).symm
  · cases hm

end HdLang.Deps
