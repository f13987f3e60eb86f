import HdLang.Deps.Graph

/-!
# Recording and verifying

What selection records it verifies: with the lines of a recording selection added to `hd.sum`, the
verifying one is the same selection (`verify_eq_record`), and a line with another hash is a mismatch
in both modes (`mismatch_of_changed`); `record_verify` is the two together. Both rest on a walk
being decided by what the reached versions read as: `readVersions_congr`.
-/

namespace HdLang.Deps

open Closure Indexed List Option

/-- `hd.sum` with the lines that it lacks. -/
def Sum.extend (sum : Sum) (lines : String → Option String) : Sum :=
  ⟨fun k => (sum.entries k).or (lines k)⟩

/-- `hd.sum` with another hash at a key. -/
def Sum.change (sum : Sum) (key hash : String) : Sum :=
  ⟨Function.update sum.entries key (some hash)⟩

@[simp] theorem Sum.change_entries_self (sum : Sum) (key hash : String) :
    (sum.change key hash).entries key = some hash := Function.update_self ..

variable {k : String}

theorem Sum.change_entries_of_ne {sum : Sum} {key hash : String} (h : k ≠ key) :
    (sum.change key hash).entries k = sum.entries k := Function.update_of_ne h ..

/-! ### Readings that agree -/

variable {p : HostPath × Version}

section Agree

variable {W : World} {sum sum' : Sum} {mode mode' : Mode} {toolchain : String}

/-- Two selections read a version as the same. -/
structure Agrees (W : World) (sum sum' : Sum) (mode mode' : Mode) (toolchain : String)
    (p : HostPath × Version) : Prop where
  missing : (sum.entries (manifestKey p.1.path p.2) = none ∧ mode = .verify) ↔
    (sum'.entries (manifestKey p.1.path p.2) = none ∧ mode' = .verify)
  read : ∀ place, readEntry W sum toolchain p.1 p.2 place =
    readEntry W sum' toolchain p.1 p.2 place

theorem visit_congr {st : Walk} {item : Item}
    (h : Agrees W sum sum' mode mode' toolchain (item.1, item.2.1)) :
    visit W sum mode toolchain st item = visit W sum' mode' toolchain st item := by
  have hread : ∀ st : Walk, readVersion W sum mode toolchain st item.1 item.2.1 item.2.2 =
      readVersion W sum' mode' toolchain st item.1 item.2.1 item.2.2 := by
    intro st
    simp only [readVersion, h.read item.2.2]
    by_cases hmissing : sum.entries (manifestKey item.1.path item.2.1) = none ∧ mode = .verify
    · rw [if_pos hmissing, if_pos (h.missing.mp hmissing)]
    · rw [if_neg hmissing, if_neg fun h' => hmissing (h.missing.mpr h')]
  simp only [visit, hread]

/-- **A walk is decided by the readings** of the versions that it reaches. -/
theorem readVersions_congr (turns : ℕ) {L : List Node} {start : List Item} {early : List Problem}
    {st : Walk} (hst : WalkInv W sum mode toolchain L start early st)
    (h : ∀ p, VersionReached W start p → Agrees W sum sum' mode mode' toolchain p) :
    readVersions W sum mode toolchain turns st = readVersions W sum' mode' toolchain turns st := by
  induction turns generalizing st with
  | zero => rfl
  | succ turns ih =>
    rw [readVersions, readVersions]
    cases hitem : st.queue[st.atQueue]? with
    | none => rfl
    | some item =>
      have hvisit : visit W sum mode toolchain st item = visit W sum' mode' toolchain st item :=
        visit_congr (h _ (hst.sound item (mem_of_getElem? hitem)))
      simp only []
      rw [← hvisit]
      exact ih (hst.visit hitem)

/-- A reading does not depend on a line that has the manifest's hash or is missing. -/
theorem readEntry_congr (h : ∀ hash, hashOf W p.1 p.2 = some hash →
      (sum.entries (manifestKey p.1.path p.2)).filter (· ≠ hash) =
        (sum'.entries (manifestKey p.1.path p.2)).filter (· ≠ hash)) (place : Place) :
    readEntry W sum toolchain p.1 p.2 place = readEntry W sum' toolchain p.1 p.2 place := by
  rw [readEntry, readEntry]
  cases hs : W.entry p.1 p.2 with
  | error e => rfl
  | ok s =>
    cases hy : s.manifestHash with
    | error e => simp only [hy]
    | ok hash =>
      simp only [hy]
      rw [h hash (hashOf_eq_some.mpr ⟨s, hs, hy⟩)]

end Agree

/-! ### The lines of a selection -/

variable {x : Selected}

namespace CleanWalk

variable {W : World} {sum : Sum} {mode : Mode} {toolchain : String} {L : List Node}
  {start : List Item} {st : Walk} (hst : CleanWalk W sum mode toolchain L start st)
include hst

/-- The manifest line of a version that was reached. -/
theorem line_of_reached (hp : VersionReached W start p) :
    ∃ hash place node, hashOf W p.1 p.2 = some hash ∧
      st.sums (manifestKey p.1.path p.2) = some hash ∧
      (∀ x, sum.entries (manifestKey p.1.path p.2) = some x → x = hash) ∧
      ¬(sum.entries (manifestKey p.1.path p.2) = none ∧ mode = .verify) ∧
      readEntry W sum toolchain p.1 p.2 place = .package hash node [] := by
  have hreached := hst.reached_isSome_iff.mpr hp
  obtain ⟨early, hinv⟩ := hst.inv
  obtain ⟨i, hi⟩ := isSome_iff_exists.mp hreached
  obtain ⟨-, n, place, hash, -, -, hread, hmissing⟩ :=
    hinv.node_of_reached hst.clean hst.unfetched hi
  obtain ⟨x, hx, hsums⟩ := hinv.recorded _ _ hreached
  have hhash := hashOf_of_package hread
  obtain rfl : x = hash := some.inj (hx.symm.trans hhash)
  obtain ⟨_, _, -, -, hline, -⟩ := readEntry_package.mp hread
  exact ⟨x, place, n, hhash, hsums, hline, hmissing, hread⟩

theorem selected_keys_nodup :
    (st.selected.map fun x => treeKey x.host.path x.version).Nodup := by
  refine (List.Nodup.of_map _ hst.selected_spec.1).map_on fun x hx y hy heq => ?_
  refine hst.selected_inj hx hy ?_
  rw [heq]

variable (hchosen : (chosenOf sum mode st).problems = [])
include hchosen

theorem sums_manifest (p : HostPath × Version) :
    (chosenOf sum mode st).sums (manifestKey p.1.path p.2) =
      st.sums (manifestKey p.1.path p.2) := by
  rw [hst.chosenOf_sums hchosen]
  refine foldl_update_of_notMem fun hmem => ?_
  obtain ⟨x, -, heq⟩ := mem_map.mp hmem
  exact treeKey_ne_manifestKey heq

theorem sums_tree (hx : x ∈ st.selected) :
    (chosenOf sum mode st).sums (treeKey x.host.path x.version) =
      treeHash st.nodes st.reached x := by
  rw [hst.chosenOf_sums hchosen]
  exact foldl_update_of_mem hst.selected_keys_nodup hx

/-- A line of the selection is the manifest line of a version reached or the tree line of a version
selected. -/
theorem sums_cases {x : String} (hk : (chosenOf sum mode st).sums k = some x) :
    (∃ p, VersionReached W start p ∧ k = manifestKey p.1.path p.2 ∧ hashOf W p.1 p.2 = some x) ∨
      ∃ y ∈ st.selected, k = treeKey y.host.path y.version ∧
        treeHash st.nodes st.reached y = some x := by
  by_cases hmem : k ∈ st.selected.map fun x => treeKey x.host.path x.version
  · obtain ⟨y, hy, rfl⟩ := mem_map.mp hmem
    rw [hst.sums_tree hchosen hy] at hk
    exact Or.inr ⟨y, hy, rfl, hk⟩
  · rw [hst.chosenOf_sums hchosen, foldl_update_of_notMem hmem] at hk
    obtain ⟨early, hinv⟩ := hst.inv
    obtain ⟨h, v, rfl, hhash, hhandled⟩ := hinv.sums k x hk
    have hreached := hhandled.resolve_right (hinv.notMem_failed hst.clean)
    exact Or.inl ⟨(h, v), hst.reached_isSome_iff.mp hreached, rfl, hhash⟩

end CleanWalk

/-! ### Selections over other lines -/

section Select

variable {W : World} {sum sum' : Sum} {mode mode' : Mode} {members : List String}
  {toolchain : String}

/-- The problems before any version is read do not depend on the lines when the first versions
have them. -/
theorem earlyProblems_congr (hclean : earlyProblems W sum mode members none toolchain = [])
    (hstart : ∀ item ∈ startOf W members none toolchain,
      ¬(sum'.entries (manifestKey item.1.path item.2.1) = none ∧ mode' = .verify)) :
    earlyProblems W sum' mode' members none toolchain = [] := by
  rw [earlyProblems, append_eq_nil_iff] at hclean ⊢
  refine ⟨hclean.1, ?_⟩
  rw [startProblems]
  split
  · next hmode =>
    refine filterMap_eq_nil_iff.mpr fun item hitem => ?_
    exact if_neg fun hnone => hstart item hitem ⟨hnone, hmode⟩
  · rfl

/-- **The walk over other lines** is the same walk when every version reached reads as the same. -/
theorem walkOf_congr (hclean : (select W sum mode members toolchain).problems = [])
    (h : ∀ p, VersionReached W (startOf W members none toolchain) p →
      Agrees W sum sum' mode mode' toolchain p) :
    walkOf W sum' mode' members none toolchain = walkOf W sum mode members none toolchain := by
  obtain ⟨hst, -⟩ := select_clean hclean
  have hearly : earlyProblems W sum mode members none toolchain = [] := by
    obtain ⟨hinv, -⟩ : WalkInv W sum mode toolchain _ _ _
      (walkOf W sum mode members none toolchain) ∧ _ := walkOf_spec
    refine eq_nil_iff_forall_not_mem.mpr fun p hp => ?_
    have hp' := hinv.early p hp
    rw [hst.clean] at hp'
    cases hp'
  have hearly' : earlyProblems W sum' mode' members none toolchain = [] := by
    refine earlyProblems_congr hearly fun item hitem hmissing => ?_
    have hreached : VersionReached W (startOf W members none toolchain) (item.1, item.2.1) :=
      Reached.start ⟨item, hitem, rfl⟩
    obtain ⟨-, -, -, -, -, -, hpresent, -⟩ := hst.line_of_reached hreached
    exact hpresent ((h _ hreached).missing.mpr hmissing)
  have hfirst : WalkInv W sum mode toolchain (localsOf W members none toolchain).nodes
      (startOf W members none toolchain) []
      ⟨_, [], fun _ => none, [], _, 0, fun _ => none, [], []⟩ := WalkInv.first locals_unfetched
  rw [walkOf, walkOf]
  simp only [hearly, hearly', if_true]
  exact (readVersions_congr _ hfirst h).symm

/-- The selections are the same when the walk and the tree lines are. -/
theorem select_congr
    (hwalk : walkOf W sum' mode' members none toolchain = walkOf W sum mode members none toolchain)
    (hchosen : chosenOf sum' mode' (walkOf W sum mode members none toolchain) =
      chosenOf sum mode (walkOf W sum mode members none toolchain)) :
    select W sum' mode' members toolchain = select W sum mode members toolchain := by
  simp only [select, selectEdited, selectGraph, hwalk, hchosen]

/-- A walk without problems is one over other lines too, when the readings are the same. -/
theorem cleanWalk_congr {L : List Node} {start : List Item} {early : List Problem} {st : Walk}
    (hst : CleanWalk W sum mode toolchain L start st)
    (hinv : WalkInv W sum' mode' toolchain L start early st) :
    CleanWalk W sum' mode' toolchain L start st :=
  ⟨⟨_, hinv⟩, hst.clean, hst.done, hst.unfetched⟩

theorem sums_manifest_of_reached (hclean : (select W sum mode members toolchain).problems = [])
    (hp : VersionReached W (startOf W members none toolchain) p) :
    ∃ hash, hashOf W p.1 p.2 = some hash ∧
      (select W sum mode members toolchain).sums (manifestKey p.1.path p.2) = some hash ∧
      ∀ x, sum.entries (manifestKey p.1.path p.2) = some x → x = hash := by
  obtain ⟨hst, hchosen⟩ := select_clean hclean
  obtain ⟨hash, -, -, hhash, hsums, hline, -, -⟩ := hst.line_of_reached hp
  exact ⟨hash, hhash, (hst.sums_manifest hchosen p).trans hsums, hline⟩

/-- The recorded lines agree with the lines that were there. -/
theorem extend_entries {hash : String} {lines : String → Option String}
    (hlines : lines k = some hash) (hold : ∀ x, sum.entries k = some x → x = hash) :
    (sum.extend lines).entries k = some hash := by
  rw [Sum.extend]
  cases hk : sum.entries k with
  | none => simpa [hk] using hlines
  | some x => simp [hk, hold x hk]

theorem filter_of_eq {entry : Option String} {hash : String} (h : ∀ x, entry = some x → x = hash)
    : entry.filter (· ≠ hash) = none := by
  cases entry with
  | none => rfl
  | some x => simp [h x rfl]

/-- A tree line is no problem when it has the tree's hash, or is missing in a recording. -/
theorem treeProblem_eq_none {nodes : List Node} {reached : String → Option ℕ} {hash : String}
    (hhash : treeHash nodes reached x = some hash) :
    treeProblem sum mode nodes reached x = none ↔
      (sum.entries (treeKey x.host.path x.version) = none → mode ≠ .verify) ∧
        ∀ y, sum.entries (treeKey x.host.path x.version) = some y → y = hash := by
  rw [treeProblem, hhash, bind_some]
  cases sum.entries (treeKey x.host.path x.version) with
  | none => by_cases hmode : mode = .verify <;> simp [hmode]
  | some y => by_cases hsame : y = hash <;> simp [hsame]

/-- **Selecting over what was recorded** is the same selection, in both modes. -/
theorem select_extend (mode : Mode)
    (hclean : (select W sum .record members toolchain).problems = []) :
    select W (sum.extend (select W sum .record members toolchain).sums) mode members toolchain =
      select W sum .record members toolchain := by
  obtain ⟨hst, hchosen⟩ := select_clean hclean
  have hagrees : ∀ p, VersionReached W (startOf W members none toolchain) p →
      Agrees W sum (sum.extend (select W sum .record members toolchain).sums) .record mode
        toolchain p := by
    intro p hp
    obtain ⟨hash, hhash, hlines, hold⟩ := sums_manifest_of_reached hclean hp
    have hentry := extend_entries hlines hold
    refine ⟨by simp [hentry], readEntry_congr fun y hy => ?_⟩
    obtain rfl : hash = y := some.inj (hhash.symm.trans hy)
    rw [filter_of_eq hold, filter_of_eq (by simp [hentry])]
  have hwalk := walkOf_congr hclean hagrees
  refine select_congr hwalk ?_
  obtain ⟨hinv, -⟩ : WalkInv W (sum.extend (select W sum .record members toolchain).sums) mode
    toolchain _ _ _ (walkOf W _ mode members none toolchain) ∧ _ := walkOf_spec
  rw [hwalk] at hinv
  have hst' := cleanWalk_congr hst hinv
  have hok : ∀ x ∈ (walkOf W sum .record members none toolchain).selected,
      treeProblem (sum.extend (select W sum .record members toolchain).sums) mode
        (walkOf W sum .record members none toolchain).nodes
        (walkOf W sum .record members none toolchain).reached x = none := by
    intro x hx
    obtain ⟨s, -, hhash⟩ := hst.treeHash_selected hx
    have hold := hchosen
    rw [hst.chosenOf_problems, filterMap_eq_nil_iff] at hold
    have hold := ((treeProblem_eq_none hhash).mp (hold x hx)).2
    have hlines : (select W sum .record members toolchain).sums
        (treeKey x.host.path x.version) = some s.hash := (hst.sums_tree hchosen hx).trans hhash
    rw [treeProblem_eq_none hhash, extend_entries hlines hold]
    simp
  have hchosen' : (chosenOf (sum.extend (select W sum .record members toolchain).sums) mode
      (walkOf W sum .record members none toolchain)).problems = [] := by
    rw [hst'.chosenOf_problems, filterMap_eq_nil_iff]
    exact hok
  have hnodes := hst'.chosenOf_nodes.trans hst.chosenOf_nodes.symm
  have hsums := (hst'.chosenOf_sums hchosen').trans (hst.chosenOf_sums hchosen).symm
  have hproblems := hchosen'.trans hchosen.symm
  generalize chosenOf (sum.extend _) mode _ = a at hnodes hsums hproblems ⊢
  generalize chosenOf sum .record _ = b at hnodes hsums hproblems ⊢
  cases a
  cases b
  simp only at hnodes hsums hproblems
  rw [hnodes, hsums, hproblems]

/-- **Verifying what was recorded** is the same selection. -/
theorem verify_eq_record (hclean : (select W sum .record members toolchain).problems = []) :
    select W (sum.extend (select W sum .record members toolchain).sums) .verify members toolchain =
      select W sum .record members toolchain := select_extend .verify hclean

/-- **Recording again** selects the same and adds no line. -/
theorem record_again (hclean : (select W sum .record members toolchain).problems = []) {again : Sum}
    (hagain : again = sum.extend (select W sum .record members toolchain).sums) :
    select W again .record members toolchain = select W sum .record members toolchain ∧
      again.extend (select W again .record members toolchain).sums = again := by
  subst hagain
  rw [select_extend .record hclean]
  refine ⟨rfl, ?_⟩
  simp only [Sum.extend, Sum.mk.injEq]
  funext k
  cases sum.entries k <;> simp

/-- In a verifying selection the source is asked for recorded versions only. -/
theorem asked_recorded (hk : k ∈ (select W sum .verify members toolchain).asked) :
    ∃ (h : HostPath) (v : Version), k = treeKey h.path v ∧
      sum.entries (manifestKey h.path v) ≠ none := by
  obtain ⟨hinv, -⟩ : WalkInv W sum .verify toolchain _ _ _
    (walkOf W sum .verify members none toolchain) ∧ _ := walkOf_spec
  obtain ⟨h, v, rfl, hrecorded⟩ := hinv.asked k hk
  exact ⟨h, v, rfl, fun hnone => hrecorded ⟨hnone, rfl⟩⟩

end Select

/-! ### A changed line -/

section Changed

variable {W : World} {sum : Sum} {mode : Mode} {members : List String} {toolchain : String}

theorem fetchedEdge_problem {errors : List RequirementError} {h : HostPath} {key : String}
    {r : Requirement} (place place' : Place) :
    (match fetchedEdge errors h key place r with
      | .ok _ => none
      | .error problem => some problem) =
    match fetchedEdge errors h key place' r with
      | .ok _ => none
      | .error problem => some problem := by
  rw [fetchedEdge, fetchedEdge]
  cases errors.find? fun e => decide (e.line = some r.line) with
  | some e => rfl
  | none =>
    dsimp only
    by_cases hpath : r.path.isSome = true
    · rw [if_pos hpath]
      cases fetchedPathTarget h key r <;> rfl
    · rw [if_neg hpath]
      cases hostTarget r <;> rfl

/-- What is wrong with a version does not depend on what led to it. -/
theorem readEntry_place {h : HostPath} {v : Version} {place : Place} {hash : String} {n : Node}
    {ps : List (Code × String)} (place' : Place)
    (hread : readEntry W sum toolchain h v place = .package hash n ps) :
    ∃ n', readEntry W sum toolchain h v place' = .package hash n' ps := by
  obtain ⟨s, m, hs, hy, hline, hm, hnode⟩ := readEntry_package.mp hread
  rw [fetchedNode, Prod.mk.injEq] at hnode
  refine ⟨_, readEntry_package.mpr ⟨s, m, hs, hy, hline, hm, Prod.ext rfl ?_⟩⟩
  rw [← hnode.2]
  dsimp only [fetchedNode]
  congr 1
  rw [filterMap_map, filterMap_map]
  exact filterMap_congr fun r _ => fetchedEdge_problem place' place

/-- A problem of the walk is one of the selection. -/
theorem mem_problems_of_walk {p : Problem}
    (hp : p ∈ (walkOf W sum mode members none toolchain).problems) :
    p ∈ (select W sum mode members toolchain).problems := by
  have hne : (walkOf W sum mode members none toolchain).problems ≠ [] := ne_nil_of_mem hp
  refine mem_append_left _ ?_
  rw [chosenOf_problems_of_ne hne]
  exact hp

variable (hclean : (select W sum .verify members toolchain).problems = []) {key hash hash' : String}
include hclean

/-- Every version reached has its line, so changing one line leaves no line missing. -/
theorem change_ne_none (hp : VersionReached W (startOf W members none toolchain) p) :
    (sum.change key hash').entries (manifestKey p.1.path p.2) ≠ none := by
  obtain ⟨-, -, -, -, -, -, hpresent, -⟩ := (select_clean hclean).1.line_of_reached hp
  by_cases hsame : manifestKey p.1.path p.2 = key
  · simp [hsame]
  · rw [Sum.change_entries_of_ne hsame]
    exact fun hnone => hpresent ⟨hnone, rfl⟩

/-- A version whose line is not the changed one reads as before. -/
theorem change_agrees (hp : VersionReached W (startOf W members none toolchain) p)
    (hkey : manifestKey p.1.path p.2 ≠ key) :
    Agrees W sum (sum.change key hash') .verify mode toolchain p := by
  obtain ⟨-, -, -, -, -, -, hpresent, -⟩ := (select_clean hclean).1.line_of_reached hp
  have hsame : (sum.change key hash').entries (manifestKey p.1.path p.2) =
      sum.entries (manifestKey p.1.path p.2) := Sum.change_entries_of_ne hkey
  refine ⟨?_, readEntry_congr fun y _ => by rw [hsame]⟩
  rw [hsame]
  exact ⟨fun h => absurd h hpresent, fun h => absurd ⟨h.1, rfl⟩ hpresent⟩

/-- **A changed tree line.** -/
theorem mismatch_of_changed_tree (hx : x ∈ (walkOf W sum .verify members none toolchain).selected)
    (hhash : treeHash (walkOf W sum .verify members none toolchain).nodes
      (walkOf W sum .verify members none toolchain).reached x = some hash)
    (hkey : key = treeKey x.host.path x.version) (hne : hash' ≠ hash) :
    ∃ p ∈ (select W (sum.change key hash') mode members toolchain).problems,
      p.code = some .sumMismatch := by
  obtain ⟨hst, -⟩ := select_clean hclean
  have hwalk : walkOf W (sum.change key hash') mode members none toolchain =
      walkOf W sum .verify members none toolchain := walkOf_congr hclean fun p hp =>
    change_agrees hclean hp fun heq => treeKey_ne_manifestKey (hkey.symm.trans heq.symm)
  obtain ⟨hinv, -⟩ : WalkInv W (sum.change key hash') mode toolchain _ _ _
    (walkOf W (sum.change key hash') mode members none toolchain) ∧ _ := walkOf_spec
  rw [hwalk] at hinv
  have hst' := cleanWalk_congr hst hinv
  refine ⟨⟨some .sumMismatch, x.place, mismatch key "tree" hash hash'⟩, ?_, rfl⟩
  refine mem_append_left _ ?_
  rw [hwalk, hst'.chosenOf_problems]
  refine mem_filterMap.mpr ⟨x, hx, ?_⟩
  have hentry : (sum.change key hash').entries (treeKey x.host.path x.version) = some hash' := by
    rw [← hkey, Sum.change_entries_self]
  rw [treeProblem, hhash, bind_some, hentry]
  simp only [if_pos hne, ← hkey]

/-- **A changed manifest line.** The version is reached along versions whose lines are as before, so
the walk comes to it. -/
theorem mismatch_of_changed_manifest (hp : VersionReached W (startOf W members none toolchain) p)
    (hhash : hashOf W p.1 p.2 = some hash) (hkey : key = manifestKey p.1.path p.2)
    (hne : hash' ≠ hash) :
    ∃ q ∈ (select W (sum.change key hash') mode members toolchain).problems,
      q.code = some .sumMismatch := by
  obtain ⟨hst, -⟩ := select_clean hclean
  have hearly : earlyProblems W sum .verify members none toolchain = [] := by
    obtain ⟨hinv, -⟩ : WalkInv W sum .verify toolchain _ _ _
      (walkOf W sum .verify members none toolchain) ∧ _ := walkOf_spec
    refine eq_nil_iff_forall_not_mem.mpr fun q hq => ?_
    have hq' := hinv.early q hq
    rw [hst.clean] at hq'
    cases hq'
  have hearly' : earlyProblems W (sum.change key hash') mode members none toolchain = [] :=
    earlyProblems_congr hearly fun item hitem hmissing =>
      change_ne_none hclean (p := (item.1, item.2.1)) (Reached.start ⟨item, hitem, rfl⟩) hmissing.1
  obtain ⟨hinv, hdone⟩ : WalkInv W (sum.change key hash') mode toolchain _ _ _
    (walkOf W (sum.change key hash') mode members none toolchain) ∧ _ := walkOf_spec
  have hdone := hdone hearly'
  generalize hwalk : walkOf W (sum.change key hash') mode members none toolchain = st at hinv hdone
  have hhandled : ∀ item ∈ st.queue, st.Handled item.1 item.2.1 := fun item hitem =>
    hinv.handled item (by rwa [hdone, take_length])
  obtain ⟨F, hnodes, hqueue, hread⟩ := hinv.nodes
  -- A version that was read is a node, and its requirements are in the queue.
  have hnode : ∀ q : HostPath × Version, (st.reached (treeKey q.1.path q.2)).isSome →
      ∃ place y n ps, readEntry W (sum.change key hash') toolchain q.1 q.2 place =
        .package y n ps ∧ n.hosts ⊆ st.queue := by
    intro q hq
    obtain ⟨n, hn, hnkey⟩ := hinv.reached.isSome_iff.mp hq
    rw [hnodes, mem_append] at hn
    obtain hn | hn := hn
    · rw [Node.key, locals_unfetched n hn] at hnkey
      cases hnkey
    · obtain ⟨h, v, place, y, ps, hpackage, -⟩ := hread n hn
      obtain ⟨s, -, hfetched, -⟩ := fetched_of_package hpackage
      rw [Node.key, hfetched, map_some, Option.some.injEq] at hnkey
      obtain ⟨rfl, rfl⟩ := treeKey_inj.mp hnkey
      refine ⟨place, y, n, ps, hpackage, fun item hitem => ?_⟩
      rw [hqueue]
      exact mem_append_right _ (mem_flatMap.mpr ⟨n, hn, hitem⟩)
  have hqueued : ∃ item ∈ st.queue, (item.1, item.2.1) = p := by
    have hpath : Reached (fun q => ∃ item ∈ startOf W members none toolchain,
        (item.1, item.2.1) = q) (fun x y => ¬x = p ∧ Requires W x y) p := by
      obtain h | ⟨b, rfl, h⟩ := hp.until_bad fun q => q = p
      · exact h
      · exact h
    refine (hpath.least (S := fun q => VersionReached W (startOf W members none toolchain) q ∧
      ∃ item ∈ st.queue, (item.1, item.2.1) = q) ?_ ?_).2
    · rintro q ⟨item, hitem, rfl⟩
      exact ⟨Reached.start ⟨item, hitem, rfl⟩, item, by
        rw [hqueue]
        exact mem_append_left _ hitem, rfl⟩
    · rintro q q' ⟨hq, item, hitem, rfl⟩ ⟨hother, hrequires⟩
      refine ⟨hq.step hrequires, ?_⟩
      obtain ⟨y, place, n, -, -, -, hpresent, hclean'⟩ := hst.line_of_reached hq
      have hagrees : Agrees W sum (sum.change key hash') .verify mode toolchain
          (item.1, item.2.1) := change_agrees hclean hq fun heq => hother <| by
        obtain ⟨hh, hv⟩ := manifestKey_inj.mp (heq.trans hkey)
        exact Prod.ext hh hv
      obtain hreached | hfailed := hhandled item hitem
      · obtain ⟨place', y', n', ps, hpackage, hsub⟩ := hnode (item.1, item.2.1) hreached
        obtain ⟨n'', hsame⟩ := readEntry_place place' hclean'
        rw [hagrees.read place', hpackage] at hsame
        obtain ⟨-, -, rfl⟩ := Reading.package.inj hsame
        obtain ⟨item', hitem', heq⟩ := mem_hosts_of_requires hpackage hrequires
        exact ⟨item', hsub hitem', heq⟩
      · obtain ⟨place', q, -, hcode⟩ := hinv.failed _ _ hfailed
        obtain ⟨n'', hsame⟩ := readEntry_place place' hclean'
        rw [failCode, if_neg fun h => hpresent (hagrees.missing.mpr h), ← hagrees.read place',
          hsame] at hcode
        cases hcode
  obtain ⟨item, hitem, rfl⟩ := hqueued
  have hentry : (sum.change key hash').entries (manifestKey item.1.path item.2.1) = some hash' := by
    rw [← hkey, Sum.change_entries_self]
  obtain hreached | hfailed := hhandled item hitem
  · obtain ⟨place', y, n, ps, hpackage, -⟩ := hnode (item.1, item.2.1) hreached
    obtain ⟨_, _, -, -, hline, -⟩ := readEntry_package.mp hpackage
    have hy := hashOf_of_package hpackage
    obtain rfl : y = hash := some.inj (hy.symm.trans hhash)
    exact absurd (hline hash' hentry) hne
  · obtain ⟨place', q, hq, hcode⟩ := hinv.failed _ _ hfailed
    refine ⟨q, mem_problems_of_walk (hwalk ▸ hq), ?_⟩
    obtain ⟨s, hs, hy⟩ := hashOf_eq_some.mp hhash
    rw [failCode, if_neg fun h => absurd (hentry.symm.trans h.1) (by simp), readEntry, hs] at hcode
    simp only [hy, hentry, filter_some, decide_eq_true_eq, if_pos hne] at hcode
    exact (some.inj hcode).symm

/-- A changed line of the selection is a mismatch, whichever line it is. -/
theorem mismatch_of_changed (hline : (select W sum .verify members toolchain).sums key = some hash)
    (hne : hash' ≠ hash) (mode : Mode) :
    ∃ p ∈ (select W (sum.change key hash') mode members toolchain).problems,
      p.code = some .sumMismatch := by
  obtain ⟨hst, hchosen⟩ := select_clean hclean
  obtain ⟨p, hp, hkey, hhash⟩ | ⟨x, hx, hkey, hhash⟩ := hst.sums_cases hchosen hline
  · exact mismatch_of_changed_manifest hclean hp hhash hkey hne
  · exact mismatch_of_changed_tree hclean hx hhash hkey hne

end Changed

/-! ### The lock file -/

/-- **Recording, then verifying.** When recording over `sum` has no problem, verifying over `sum`
with the recorded lines has none, asks the source for recorded versions only, and returns the same
packages, edges and lines. When verifying has no problem, any other hash at any of its lines is a
mismatch in both modes. -/
theorem record_verify (W : World) (sum : Sum) (members : List String) (toolchain : String) :
    ((select W sum .record members toolchain).problems = [] →
      ∀ extended, extended = sum.extend (select W sum .record members toolchain).sums →
        (select W extended .verify members toolchain).problems = [] ∧
        (∀ k ∈ (select W extended .verify members toolchain).asked,
          ∃ (h : HostPath) (v : Version), k = treeKey h.path v ∧
            extended.entries (manifestKey h.path v) ≠ none) ∧
        (select W extended .verify members toolchain).packages =
          (select W sum .record members toolchain).packages ∧
        (select W extended .verify members toolchain).sums =
          (select W sum .record members toolchain).sums) ∧
    ((select W sum .verify members toolchain).problems = [] →
      ∀ key hash, (select W sum .verify members toolchain).sums key = some hash →
        ∀ hash' ≠ hash, ∀ mode,
          ∃ p ∈ (select W (sum.change key hash') mode members toolchain).problems,
            p.code = some .sumMismatch) := by
  refine ⟨?_, ?_⟩
  · rintro hclean extended rfl
    have hsame := verify_eq_record hclean
    refine ⟨?_, fun k hk => asked_recorded hk, ?_, ?_⟩
    · rw [hsame, hclean]
    · rw [hsame]
    · rw [hsame]
  · intro hclean key hash hline hash' hne mode
    exact mismatch_of_changed hclean hline hne mode

/-- `app` requires `b`. -/
def appB : World := appWorld [⟨"b", .string "github.com/acme/b@1.0.0", 1⟩] (by decide)

theorem record_again_app :
    let again := Sum.extend ⟨fun _ => none⟩ (select appB ⟨fun _ => none⟩ .record ["app"] "1.0.0").sums
    again.extend (select appB again .record ["app"] "1.0.0").sums = again :=
  (record_again (by decide +kernel) rfl).2

/-- The `hd.sum` with every line of `app`. -/
def fullSum : Sum :=
  ⟨fun k => some (if k = treeKey hostB.path v1 then "h1:tree" else "h1:manifest")⟩

/-- Its empty `hd.sum` is recorded, and the lines of its full one are verified. -/
theorem record_verify_app :
    (select appB (Sum.extend ⟨fun _ => none⟩
      (select appB ⟨fun _ => none⟩ .record ["app"] "1.0.0").sums) .verify ["app"] "1.0.0").problems
        = [] ∧
    ∃ p ∈ (select appB (Sum.change fullSum (treeKey hostB.path v1) "h1:other") .record ["app"]
      "1.0.0").problems, p.code = some .sumMismatch :=
  ⟨((record_verify _ _ _ _).1 (by decide +kernel) _ rfl).1,
    (record_verify _ _ _ _).2 (by decide +kernel) (treeKey hostB.path v1) "h1:tree"
      (by decide +kernel) "h1:other" (by decide) .record⟩

end HdLang.Deps
