import HdLang.Deps.Locals

/-!
# The walk over the versions

What one turn of the loop over the queue does (`visit_cases`) and what every state of the loop
keeps (`WalkInv`): the nodes past the locals are the versions read, the queue is the start and their
requirements, every version taken from the queue is read or failed, and `selected` has the largest
version taken of each line. With the turns that the world can feed the loop ends with the whole
queue taken (`walk_done`).
-/

namespace HdLang.Deps

open Closure Indexed Largest Function List Option

/-! ### Readings -/

section Readings

variable (W : World) (sum : Sum) (mode : Mode) (toolchain : String)

/-- The code of the problem that keeps a version from being read, or `none`. -/
def failCode (host : HostPath) (version : Version) (place : Place) : Option (Option Code) :=
  if sum.entries (manifestKey host.path version) = none ∧ mode = .verify then
    some (some .missingSumEntry)
  else match readEntry W sum toolchain host version place with
    | .unread code _ => some code
    | .noPackage _ code _ => some code
    | .package .. => none

/-- The hash of a version's manifest. -/
def hashOf (host : HostPath) (version : Version) : Option String :=
  match W.entry host version with
  | .error _ => none
  | .ok entry => entry.manifestHash.toOption

/-- The target of a fetched version's requirement. -/
def versionTarget (p : HostPath × Version) (r : Requirement) : Option Target :=
  if r.path.isSome then (fetchedPathTarget p.1 (treeKey p.1.path p.2) r).toOption
  else hostTarget r

/-- The manifest of version `p` requires version `q`. -/
def Requires (p q : HostPath × Version) : Prop :=
  ∃ s m r, W.entry p.1 p.2 = .ok s ∧ packageOf s.document = some m ∧ r ∈ m.dependencies ∧
    versionTarget p r = some (.host q.1 q.2)

/-- The versions reached from `start` along requirements. -/
def VersionReached (start : List Item) : HostPath × Version → Prop :=
  Reached (fun p => ∃ item ∈ start, (item.1, item.2.1) = p) (Requires W)

/-- The version of a node, by its key. -/
def Node.key (n : Node) : Option String := n.fetched.map fun (h, v, _) => treeKey h.path v

/-- The entry of `selected` for a version taken from the queue. -/
def Selected.ofItem (item : Item) : Selected :=
  ⟨lineKey item.1 item.2.1, item.1, item.2.1, item.2.2⟩

end Readings

section Reading

variable {W : World} {sum : Sum} {mode : Mode} {toolchain : String} {h : HostPath} {v : Version}
  {place : Place} {hash : String} {node : Node} {ps : List (Code × String)}

theorem readEntry_package : readEntry W sum toolchain h v place = .package hash node ps ↔
    ∃ s m, W.entry h v = .ok s ∧ s.manifestHash = .ok hash ∧
      (∀ x, sum.entries (manifestKey h.path v) = some x → x = hash) ∧
      packageOf s.document = some m ∧ fetchedNode W toolchain h v place s m = (node, ps) := by
  have hfilter : ∀ y, (sum.entries (manifestKey h.path v)).filter (· ≠ y) = none ↔
      ∀ x, sum.entries (manifestKey h.path v) = some x → x = y := by
    intro y
    cases sum.entries (manifestKey h.path v) <;> simp
  constructor
  · intro hread
    rw [readEntry] at hread
    split at hread
    · cases hread
    · next s hs =>
      split at hread
      · cases hread
      · next y hy =>
        split at hread
        · cases hread
        · next hsum =>
          split at hread
          · cases hread
          · next m hm =>
            cases hread
            exact ⟨s, m, hs, hy, (hfilter _).mp hsum, hm, rfl⟩
  · rintro ⟨s, m, hs, hy, hsum, hm, hnode⟩
    rw [readEntry, hs]
    simp only [hy, (hfilter hash).mpr hsum, hm, hnode]

theorem hashOf_eq_some : hashOf W h v = some hash ↔
    ∃ s, W.entry h v = .ok s ∧ s.manifestHash = .ok hash := by
  rw [hashOf]
  cases W.entry h v with
  | error e => simp
  | ok s => cases hy : s.manifestHash <;> simp [Except.toOption, hy]

theorem hashOf_of_package (hread : readEntry W sum toolchain h v place = .package hash node ps) :
    hashOf W h v = some hash := by
  obtain ⟨s, m, hs, hy, -⟩ := readEntry_package.mp hread
  exact hashOf_eq_some.mpr ⟨s, hs, hy⟩

theorem hashOf_of_noPackage {code : Option Code} {message : String}
    (hread : readEntry W sum toolchain h v place = .noPackage hash code message) :
    hashOf W h v = some hash := by
  rw [readEntry] at hread
  split at hread
  · cases hread
  · next s hs =>
    split at hread
    · cases hread
    · next y hy =>
      split at hread
      · cases hread
      · split at hread
        · cases hread
          exact hashOf_eq_some.mpr ⟨s, hs, hy⟩
        · cases hread

theorem fetched_of_package (hread : readEntry W sum toolchain h v place = .package hash node ps) :
    ∃ s, W.entry h v = .ok s ∧ node.fetched = some (h, v, s.hash) ∧ node.dir = s.dir := by
  obtain ⟨s, m, hs, -, -, -, hnode⟩ := readEntry_package.mp hread
  rw [fetchedNode, Prod.mk.injEq] at hnode
  exact ⟨s, hs, hnode.1 ▸ rfl, hnode.1 ▸ rfl⟩

/-- An edge of a version's node is one of its requirements. -/
theorem fetchedEdge_ok {errors : List RequirementError} {r : Requirement} {e : Edge}
    (h_edge : fetchedEdge errors h (treeKey h.path v) place r = .ok e) :
    e.name = r.name ∧ e.dev = false ∧ versionTarget (h, v) r = some e.target := by
  rw [fetchedEdge] at h_edge
  split at h_edge
  · cases h_edge
  · dsimp only at h_edge
    rw [versionTarget]
    by_cases hpath : r.path.isSome = true
    · rw [if_pos hpath] at h_edge ⊢
      split at h_edge
      · next t ht =>
        cases h_edge
        exact ⟨rfl, rfl, by rw [ht]; rfl⟩
      · cases h_edge
    · rw [if_neg hpath] at h_edge ⊢
      cases htarget : hostTarget r with
      | none =>
        rw [htarget] at h_edge
        cases h_edge
      | some t =>
        rw [htarget] at h_edge
        cases h_edge
        exact ⟨rfl, rfl, rfl⟩

theorem mem_hosts {n : Node} {item : Item} (hitem : item ∈ n.hosts) :
    ∃ e ∈ n.edges, e.target = .host item.1 item.2.1 := by
  obtain ⟨e, he, htarget⟩ := mem_filterMap.mp hitem
  refine ⟨e, he, ?_⟩
  split at htarget
  · next heq =>
    obtain rfl := some.inj htarget
    exact heq
  · cases htarget

theorem requires_of_mem_hosts (hread : readEntry W sum toolchain h v place = .package hash node ps)
    {item : Item} (hitem : item ∈ node.hosts)
    : Requires W (h, v) (item.1, item.2.1) := by
  obtain ⟨s, m, hs, -, -, hm, hnode⟩ := readEntry_package.mp hread
  obtain ⟨e, he, htarget⟩ := mem_hosts hitem
  rw [fetchedNode, Prod.mk.injEq] at hnode
  rw [← hnode.1] at he
  obtain ⟨x, hx, hok⟩ := mem_filterMap.mp he
  obtain ⟨r, hr, rfl⟩ := mem_map.mp hx
  have hedge : fetchedEdge (requirementErrors W.keyProblem m toolchain) h (treeKey h.path v) place r
      = .ok e := by
    cases hcase : fetchedEdge (requirementErrors W.keyProblem m toolchain) h (treeKey h.path v)
      place r with
    | error p =>
      rw [hcase] at hok
      cases hok
    | ok e' =>
      rw [hcase] at hok
      rw [some.inj hok]
  exact ⟨s, m, r, hs, hm, hr, htarget ▸ (fetchedEdge_ok hedge).2.2⟩

end Reading

/-! ### One turn -/

section Turn

variable {W : World} {sum : Sum} {mode : Mode} {toolchain : String} {st : Walk}

/-- The version is taken from the queue. -/
def Walk.take (st : Walk) (item : Item) : Walk :=
  { st with
    atQueue := st.atQueue + 1
    selected := select1 st.selected (Selected.ofItem item) }

/-- What one turn does with a version: nothing more when it is known, a failure with its problem, or
one more node. -/
theorem visit_cases (W : World) (sum : Sum) (mode : Mode) (toolchain : String) (st : Walk)
    (h : HostPath) (v : Version) (place : Place) :
    (((st.reached (treeKey h.path v)).isSome ∨ treeKey h.path v ∈ st.failed) ∧
      visit W sum mode toolchain st (h, v, place) = st.take (h, v, place)) ∨
    (st.reached (treeKey h.path v) = none ∧ treeKey h.path v ∉ st.failed ∧
      ((∃ code message asked sums, failCode W sum mode toolchain h v place = some code ∧
        (asked = st.asked ∨ asked = st.asked ++ [treeKey h.path v] ∧
          ¬(sum.entries (manifestKey h.path v) = none ∧ mode = .verify)) ∧
        (sums = st.sums ∨ ∃ hash, hashOf W h v = some hash ∧
          sums = Function.update st.sums (manifestKey h.path v) (some hash)) ∧
        visit W sum mode toolchain st (h, v, place) =
          { st.take (h, v, place) with
            failed := treeKey h.path v :: st.failed
            problems := st.problems ++ [⟨code, place, message⟩]
            asked := asked
            sums := sums }) ∨
      ∃ hash node ps, readEntry W sum toolchain h v place = .package hash node ps ∧
        ¬(sum.entries (manifestKey h.path v) = none ∧ mode = .verify) ∧
        visit W sum mode toolchain st (h, v, place) =
          { st.take (h, v, place) with
            asked := st.asked ++ [treeKey h.path v]
            sums := Function.update st.sums (manifestKey h.path v) (some hash)
            problems := st.problems ++ ps.map fun p => ⟨some p.1, place, p.2⟩
            queue := st.queue ++ node.hosts
            reached := Function.update st.reached (treeKey h.path v) (some st.nodes.length)
            nodes := st.nodes ++ [node] })) := by
  by_cases hknown : (st.reached (treeKey h.path v)).isSome ∨ treeKey h.path v ∈ st.failed
  · exact Or.inl ⟨hknown, by simp only [visit, if_pos hknown]; rfl⟩
  · obtain ⟨hreached, hfailed⟩ := not_or.mp hknown
    refine Or.inr ⟨by simpa using hreached, hfailed, ?_⟩
    simp only [visit, if_neg hknown, readVersion]
    by_cases hmissing : sum.entries (manifestKey h.path v) = none ∧ mode = .verify
    · rw [if_pos hmissing]
      exact Or.inl ⟨_, _, _, _, by rw [failCode, if_pos hmissing], Or.inl rfl, Or.inl rfl, rfl⟩
    · rw [if_neg hmissing]
      cases hread : readEntry W sum toolchain h v place with
      | unread code message =>
        exact Or.inl ⟨_, _, _, _, by rw [failCode, if_neg hmissing, hread],
          Or.inr ⟨rfl, hmissing⟩, Or.inl rfl, rfl⟩
      | noPackage hash code message =>
        exact Or.inl ⟨_, _, _, _, by rw [failCode, if_neg hmissing, hread],
          Or.inr ⟨rfl, hmissing⟩, Or.inr ⟨hash, hashOf_of_noPackage hread, rfl⟩, rfl⟩
      | package hash node ps => exact Or.inr ⟨hash, node, ps, rfl, hmissing, rfl⟩

end Turn

/-! ### The invariant of the walk -/

/-- A version is read or has failed. -/
def Walk.Handled (st : Walk) (h : HostPath) (v : Version) : Prop :=
  (st.reached (treeKey h.path v)).isSome ∨ treeKey h.path v ∈ st.failed

/-- The entries of `selected` come from the versions taken from the queue. -/
def Walk.Taken (st : Walk) (x : Selected) : Prop :=
  ∃ item ∈ st.queue.take st.atQueue, x = Selected.ofItem item

section Invariant

variable (W : World) (sum : Sum) (mode : Mode) (toolchain : String) (L : List Node)
  (start : List Item) (early : List Problem)

/-- A node is a version that was read, and the problems of its requirements are reported. -/
def ReadNode (problems : List Problem) (n : Node) : Prop :=
  ∃ (h : HostPath) (v : Version) (place : Place) (hash : String) (ps : List (Code × String)),
    readEntry W sum toolchain h v place = .package hash n ps ∧
    ¬(sum.entries (manifestKey h.path v) = none ∧ mode = .verify) ∧
    ∀ p ∈ ps, (⟨some p.1, place, p.2⟩ : Problem) ∈ problems

variable {W sum mode toolchain} in
theorem ReadNode.mono {problems problems' : List Problem} {n : Node}
    (hn : ReadNode W sum mode toolchain problems n) (h : ∀ p ∈ problems, p ∈ problems') :
    ReadNode W sum mode toolchain problems' n := by
  obtain ⟨host, v, place, hash, ps, hread, hmissing, hps⟩ := hn
  exact ⟨host, v, place, hash, ps, hread, hmissing, fun p hp => h _ (hps p hp)⟩

structure WalkInv (st : Walk) : Prop where
  /-- The nodes are the locals and the versions read, and the queue is the start and what the
  versions read require. -/
  nodes : ∃ F, st.nodes = L ++ F ∧ st.queue = start ++ F.flatMap Node.hosts ∧
    ∀ n ∈ F, ReadNode W sum mode toolchain st.problems n
  reached : IndexOf Node.key st.nodes st.reached
  atQueue_le : st.atQueue ≤ st.queue.length
  handled : ∀ item ∈ st.queue.take st.atQueue, st.Handled item.1 item.2.1
  selected : Kept Selected.line Selected.version st.Taken st.selected
  early : ∀ p ∈ early, p ∈ st.problems
  failed : ∀ (h : HostPath) v, treeKey h.path v ∈ st.failed →
    ∃ place, ∃ p ∈ st.problems, failCode W sum mode toolchain h v place = some p.code
  sums : ∀ k x, st.sums k = some x →
    ∃ (h : HostPath) (v : Version), k = manifestKey h.path v ∧ hashOf W h v = some x ∧
      st.Handled h v
  recorded : ∀ (h : HostPath) v, (st.reached (treeKey h.path v)).isSome →
    ∃ x, hashOf W h v = some x ∧ st.sums (manifestKey h.path v) = some x
  sound : ∀ item ∈ st.queue, VersionReached W start (item.1, item.2.1)
  read_sound : ∀ (h : HostPath) v, (st.reached (treeKey h.path v)).isSome →
    VersionReached W start (h, v)
  asked : ∀ k ∈ st.asked, ∃ (h : HostPath) (v : Version), k = treeKey h.path v ∧
    ¬(sum.entries (manifestKey h.path v) = none ∧ mode = .verify)

end Invariant

namespace WalkInv

variable {W : World} {sum : Sum} {mode : Mode} {toolchain : String} {L : List Node}
  {start : List Item} {early : List Problem} {st : Walk} {item : Item}

theorem first (hL : ∀ n ∈ L, n.fetched = none) :
    WalkInv W sum mode toolchain L start early
      ⟨L, [], fun _ => none, [], start, 0, fun _ => none, early, []⟩ where
  nodes := ⟨[], by simp⟩
  reached := IndexOf.of_none fun n hn => by rw [Node.key, hL n hn, map_none]
  atQueue_le := Nat.zero_le _
  handled := by simp
  selected := Kept.nil.congr (by simp [Walk.Taken])
  early := fun _ hp => hp
  failed := by simp
  sums := by simp
  recorded := by simp
  sound := fun item hitem => Reached.start ⟨item, hitem, rfl⟩
  read_sound := by simp
  asked := by simp

theorem take_succ {queue : List Item} (more : List Item) {i : ℕ} (hitem : queue[i]? = some item)
    (x : Item) :
    x ∈ (queue ++ more).take (i + 1) ↔ x = item ∨ x ∈ queue.take i := by
  have hlt := (List.getElem?_eq_some_iff.mp hitem).1
  rw [take_append_of_le_length hlt, take_add_one, hitem, mem_append]
  simp [or_comm]

theorem version_larger (x y : Selected) :
    decide (x.version.cmp y.version = .gt) = true ↔ y.version < x.version := by
  rw [decide_eq_true_iff, Version.cmp_gt_iff]

section

variable (hst : WalkInv W sum mode toolchain L start early st)
include hst

/-- The largest of each line, with one more version taken. -/
theorem selected_take (hitem : st.queue[st.atQueue]? = some item) {st' : Walk} (more : List Item)
    (hqueue : st'.queue = st.queue ++ more) (hat : st'.atQueue = st.atQueue + 1) :
    Kept Selected.line Selected.version st'.Taken
      (select1 st.selected (Selected.ofItem item)) := by
  refine (hst.selected.insert version_larger).congr fun x => ?_
  simp only [Walk.Taken, hqueue, hat, take_succ more hitem]
  constructor
  · rintro (rfl | ⟨y, hy, rfl⟩)
    · exact ⟨item, Or.inl rfl, rfl⟩
    · exact ⟨y, Or.inr hy, rfl⟩
  · rintro ⟨y, rfl | hy, rfl⟩
    · exact Or.inl rfl
    · exact Or.inr ⟨y, hy, rfl⟩

/-- **One turn keeps the invariant.** -/
theorem visit (hitem : st.queue[st.atQueue]? = some item) :
    WalkInv W sum mode toolchain L start early (visit W sum mode toolchain st item) := by
  obtain ⟨h, v, place⟩ := item
  have hlt := (List.getElem?_eq_some_iff.mp hitem).1
  obtain ⟨F, hnodes, hqueue, hread⟩ := hst.nodes
  obtain ⟨hknown, heq⟩ | ⟨hreached, hfailed, ⟨code, message, asked, sums, hcode, hasked, hsums, heq⟩ |
    ⟨hash, node, ps, hpackage, hmissing, heq⟩⟩ := visit_cases W sum mode toolchain st h v place
  · rw [heq]
    exact
    { hst with
      nodes := ⟨F, hnodes, hqueue, hread⟩
      atQueue_le := hlt
      handled := by
        intro x hx
        obtain rfl | hx := (take_succ [] hitem x).mp (by simpa [Walk.take] using hx)
        · exact hknown
        · exact hst.handled x hx
      selected := hst.selected_take hitem [] (by simp [Walk.take]) rfl }
  · have hproblems : ∀ p ∈ st.problems, p ∈ st.problems ++ [⟨code, place, message⟩] := fun p hp =>
      mem_append_left _ hp
    have hhandled : ∀ {h' : HostPath} {v' : Version}, st.Handled h' v' →
        (st.reached (treeKey h'.path v')).isSome ∨
          treeKey h'.path v' ∈ treeKey h.path v :: st.failed :=
      fun hx => hx.imp_right (mem_cons_of_mem _)
    rw [heq]
    exact
    { hst with
      nodes := ⟨F, hnodes, hqueue, fun n hn => (hread n hn).mono hproblems⟩
      atQueue_le := hlt
      handled := by
        intro x hx
        obtain rfl | hx := (take_succ [] hitem x).mp (by simpa [Walk.take] using hx)
        · exact Or.inr (mem_cons_self ..)
        · exact hhandled (hst.handled x hx)
      selected := hst.selected_take hitem [] (by simp [Walk.take]) rfl
      early := fun p hp => hproblems p (hst.early p hp)
      failed := by
        intro h' v' hmem
        obtain hsame | hmem := mem_cons.mp hmem
        · obtain ⟨rfl, rfl⟩ := treeKey_inj.mp hsame
          exact ⟨place, _, mem_append_right _ (mem_singleton_self _), hcode⟩
        · obtain ⟨place', p, hp, hpcode⟩ := hst.failed h' v' hmem
          exact ⟨place', p, hproblems p hp, hpcode⟩
      sums := by
        intro k x hx
        obtain rfl | ⟨hash, hhash, rfl⟩ := hsums
        · obtain ⟨h', v', hk, hy, hdone⟩ := hst.sums k x hx
          exact ⟨h', v', hk, hy, hhandled hdone⟩
        · replace hx : update st.sums (manifestKey h.path v) (some hash) k = some x := hx
          rw [update_apply] at hx
          split at hx
          · next hk =>
            obtain rfl := some.inj hx
            exact ⟨h, v, hk, hhash, Or.inr (mem_cons_self ..)⟩
          · obtain ⟨h', v', hk, hy, hdone⟩ := hst.sums k x hx
            exact ⟨h', v', hk, hy, hhandled hdone⟩
      recorded := by
        intro h' v' hx
        obtain ⟨x, hhash', hx'⟩ := hst.recorded h' v' hx
        refine ⟨x, hhash', ?_⟩
        obtain rfl | ⟨hash, hhash, rfl⟩ := hsums
        · exact hx'
        · show update st.sums (manifestKey h.path v) (some hash) _ = some x
          rw [update_apply]
          split
          · next hk =>
            obtain ⟨rfl, rfl⟩ := manifestKey_inj.mp hk
            exact hhash.symm.trans hhash'
          · exact hx'
      asked := by
        intro k hk
        obtain rfl | ⟨rfl, hmissing⟩ := hasked
        · exact hst.asked k hk
        · obtain hk | hk := mem_append.mp hk
          · exact hst.asked k hk
          · exact ⟨h, v, mem_singleton.mp hk, hmissing⟩ }
  · have hversion : VersionReached W start (h, v) := hst.sound _ (mem_of_getElem? hitem)
    obtain ⟨s, -, hfetched, -⟩ := fetched_of_package hpackage
    have hkey : node.key = some (treeKey h.path v) := by rw [Node.key, hfetched, map_some]
    have hhash := hashOf_of_package hpackage
    have hproblems : ∀ p ∈ st.problems,
        p ∈ st.problems ++ ps.map fun p => (⟨some p.1, place, p.2⟩ : Problem) := fun p hp =>
      mem_append_left _ hp
    have hhandled : ∀ {h' : HostPath} {v' : Version}, st.Handled h' v' →
        (update st.reached (treeKey h.path v) (some st.nodes.length)
          (treeKey h'.path v')).isSome ∨ treeKey h'.path v' ∈ st.failed := by
      rintro h' v' (hx | hx)
      · left
        rw [update_apply]
        split
        · rfl
        · exact hx
      · exact Or.inr hx
    rw [heq]
    exact
    { nodes := by
        refine ⟨F ++ [node], ?_, ?_, ?_⟩
        · rw [hnodes, append_assoc]
        · show st.queue ++ node.hosts = _
          rw [hqueue, flatMap_append, append_assoc]
          simp
        · intro n hn
          obtain hn | rfl := by simpa using hn
          · exact (hread n hn).mono hproblems
          · refine ⟨h, v, place, hash, ps, hpackage, hmissing, fun p hp => ?_⟩
            exact mem_append_right _ (mem_map_of_mem hp)
      reached := hst.reached.push hkey hreached
      atQueue_le := by
        show st.atQueue + 1 ≤ (st.queue ++ node.hosts).length
        rw [length_append]
        omega
      handled := by
        intro x hx
        obtain rfl | hx := (take_succ _ hitem x).mp hx
        · left
          show (update st.reached _ _ _).isSome
          rw [update_self]
          rfl
        · exact hhandled (hst.handled x hx)
      selected := hst.selected_take hitem _ rfl rfl
      early := fun p hp => hproblems p (hst.early p hp)
      failed := by
        intro h' v' hmem
        obtain ⟨place', p, hp, hpcode⟩ := hst.failed h' v' hmem
        exact ⟨place', p, hproblems p hp, hpcode⟩
      sums := by
        intro k x hx
        replace hx : update st.sums (manifestKey h.path v) (some hash) k = some x := hx
        rw [update_apply] at hx
        split at hx
        · next hk =>
          obtain rfl := some.inj hx
          refine ⟨h, v, hk, hhash, Or.inl ?_⟩
          show (update st.reached _ _ _).isSome
          rw [update_self]
          rfl
        · obtain ⟨h', v', hk, hy, hdone⟩ := hst.sums k x hx
          exact ⟨h', v', hk, hy, hhandled hdone⟩
      recorded := by
        intro h' v' hx
        replace hx : (update st.reached (treeKey h.path v) (some st.nodes.length)
          (treeKey h'.path v')).isSome := hx
        show ∃ x, hashOf W h' v' = some x ∧
          update st.sums (manifestKey h.path v) (some hash) (manifestKey h'.path v') = some x
        rw [update_apply] at hx ⊢
        by_cases hsame : h' = h ∧ v' = v
        · obtain ⟨rfl, rfl⟩ := hsame
          exact ⟨hash, hhash, if_pos rfl⟩
        · rw [if_neg fun heq => hsame (treeKey_inj.mp heq)] at hx
          rw [if_neg fun heq => hsame (manifestKey_inj.mp heq)]
          exact hst.recorded h' v' hx
      sound := by
        intro x hx
        obtain hx | hx := mem_append.mp hx
        · exact hst.sound x hx
        · exact hversion.step (requires_of_mem_hosts hpackage hx)
      read_sound := by
        intro h' v' hx
        replace hx : (update st.reached (treeKey h.path v) (some st.nodes.length)
          (treeKey h'.path v')).isSome := hx
        rw [update_apply] at hx
        split at hx
        · next heq =>
          obtain ⟨rfl, rfl⟩ := treeKey_inj.mp heq
          exact hversion
        · exact hst.read_sound h' v' hx
      asked := by
        intro k hk
        obtain hk | hk := mem_append.mp hk
        · exact hst.asked k hk
        · exact ⟨h, v, mem_singleton.mp hk, hmissing⟩ }

/-- A version is read once, so the requirements read are among those of the versions served. -/
theorem queue_length_le :
    st.queue.length ≤ start.length + W.requirements := by
  obtain ⟨F, hnodes, hqueue, hread⟩ := hst.nodes
  have hserved : ∀ n ∈ F, ∃ s ∈ W.served, n.key = some (treeKey s.host.path s.version) ∧
      n.hosts.length ≤ s.document.elim 0 fun d => d.dependencies.length := by
    intro n hn
    obtain ⟨h, v, place, hash, ps, hread, -⟩ := hread n hn
    obtain ⟨s, m, hs, -, -, hm, hnode⟩ := readEntry_package.mp hread
    rw [World.entry] at hs
    split at hs
    · next s' hfind =>
      obtain rfl := Except.ok.inj hs
      have hsame := List.find?_some hfind
      obtain ⟨hhost, hversion⟩ := of_decide_eq_true hsame
      obtain ⟨doc, hdoc, rfl⟩ : ∃ doc, s'.document = some doc ∧ parseManifest doc = m := by
        simp only [packageOf, filter_eq_some_iff, map_eq_some_iff] at hm
        exact hm.1
      rw [fetchedNode, Prod.mk.injEq] at hnode
      refine ⟨s', mem_of_find?_eq_some hfind, ?_, ?_⟩
      · rw [← hnode.1, hhost, hversion]
        rfl
      · rw [hdoc, elim_some, ← hnode.1]
        refine (length_filterMap_le ..).trans ((length_filterMap_le ..).trans ?_)
        simp [parseManifest, requirements, byKey]
    · cases hs
  have hkeys : (F.map fun n => n.key.getD "").Nodup := by
    refine IndexOf.nodup_map (hnodes ▸ hst.reached) fun n hn => ?_
    obtain ⟨s, -, hk, -⟩ := hserved n hn
    rw [hk, getD_some]
  have hsum : (F.map fun n => n.hosts.length).sum ≤
      (W.served.map fun s => s.document.elim 0 fun d => d.dependencies.length).sum := by
    refine sum_le_of_keys (g := fun s => treeKey s.host.path s.version) hkeys fun n hn => ?_
    obtain ⟨s, hs, hk, hle⟩ := hserved n hn
    exact ⟨s, hs, by rw [hk, getD_some], hle⟩
  rw [hqueue, length_append, length_flatMap, World.requirements]
  exact Nat.add_le_add_left hsum _

end

/-- **The whole walk**: with the turns that the world can feed it takes the whole queue. -/
theorem readVersions_spec (turns : ℕ) (hst : WalkInv W sum mode toolchain L start early st)
    (hturns : start.length + W.requirements ≤ st.atQueue + turns) :
    ∃ st', readVersions W sum mode toolchain turns st = st' ∧
      WalkInv W sum mode toolchain L start early st' ∧ st'.atQueue = st'.queue.length := by
  induction turns generalizing st with
  | zero =>
    refine ⟨st, rfl, hst, le_antisymm hst.atQueue_le ?_⟩
    exact hst.queue_length_le.trans (by simpa using hturns)
  | succ turns ih =>
    rw [readVersions]
    split
    · next hend =>
      exact ⟨st, rfl, hst, le_antisymm hst.atQueue_le (List.getElem?_eq_none_iff.mp hend)⟩
    · next item hitem =>
      refine ih (hst.visit hitem) ?_
      have hat : (HdLang.Deps.visit W sum mode toolchain st item).atQueue = st.atQueue + 1 := by
        obtain ⟨-, heq⟩ | ⟨-, -, ⟨_, _, _, _, -, -, -, heq⟩ | ⟨_, _, _, -, -, heq⟩⟩ :=
          visit_cases W sum mode toolchain st item.1 item.2.1 item.2.2
        all_goals
          rw [heq]
          rfl
      omega

end WalkInv

/-! ### The end of the walk -/

section Done

variable {W : World} {sum : Sum} {mode : Mode} {toolchain : String} {members : List String}
  {edited : Option Edited}

/-- The versions that the local packages require. -/
def startOf (W : World) (members : List String) (edited : Option Edited) (toolchain : String) :
    List Item :=
  (localsOf W members edited toolchain).nodes.flatMap Node.hosts

theorem locals_unfetched : ∀ n ∈ (localsOf W members edited toolchain).nodes,
    n.fetched = none := fun _ hn =>
  (localNode_dir ((localsOf_spec.2 _).mp hn).2).2

theorem walkOf_spec :
    WalkInv W sum mode toolchain (localsOf W members edited toolchain).nodes
      (startOf W members edited toolchain) (earlyProblems W sum mode members edited toolchain)
      (walkOf W sum mode members edited toolchain) ∧
    (earlyProblems W sum mode members edited toolchain = [] →
      (walkOf W sum mode members edited toolchain).atQueue =
        (walkOf W sum mode members edited toolchain).queue.length) := by
  have hfirst : WalkInv W sum mode toolchain (localsOf W members edited toolchain).nodes
      (startOf W members edited toolchain) (earlyProblems W sum mode members edited toolchain)
      ⟨_, [], fun _ => none, [], _, 0, fun _ => none, _, []⟩ := WalkInv.first locals_unfetched
  by_cases hearly : earlyProblems W sum mode members edited toolchain = []
  · obtain ⟨st', hrun, hst', hdone⟩ := hfirst.readVersions_spec
      ((startOf W members edited toolchain).length + W.requirements) (Nat.le_add_left ..)
    have hwalk : walkOf W sum mode members edited toolchain = st' := by
      rw [← hrun, walkOf]
      exact if_pos hearly
    rw [hwalk]
    exact ⟨hst', fun _ => hdone⟩
  · have hwalk : walkOf W sum mode members edited toolchain =
        ⟨(localsOf W members edited toolchain).nodes, [], fun _ => none, [],
          startOf W members edited toolchain, 0, fun _ => none,
          earlyProblems W sum mode members edited toolchain, []⟩ := by
      rw [walkOf]
      exact if_neg hearly
    rw [hwalk]
    exact ⟨hfirst, fun h => absurd h hearly⟩

end Done

/-! ### A walk without problems -/

section Clean

variable {W : World} {sum : Sum} {mode : Mode} {toolchain : String} {h : HostPath} {v : Version}
  {place : Place} {hash : String} {node : Node}

/-- Requirements that are no problem all become edges. -/
theorem edges_of_no_problem {errors : List RequirementError} {L : List Requirement}
    (hnone : (L.map (fetchedEdge errors h (treeKey h.path v) place)).filterMap (fun
      | .ok _ => none
      | .error problem => some problem) = []) :
    ((L.map (fetchedEdge errors h (treeKey h.path v) place)).filterMap Except.toOption).map
      (fun e => (e.name, e.dev, some e.target)) =
    L.map fun r => (r.name, false, versionTarget (h, v) r) := by
  induction L with
  | nil => rfl
  | cons r rest ih =>
    rw [map_cons, filterMap_cons] at hnone
    rw [map_cons, filterMap_cons, map_cons]
    cases hedge : fetchedEdge errors h (treeKey h.path v) place r with
    | error p =>
      rw [hedge] at hnone
      cases hnone
    | ok e =>
      rw [hedge] at hnone
      obtain ⟨hname, hdev, htarget⟩ := fetchedEdge_ok hedge
      simp only [Except.toOption, map_cons, ih hnone, hname, hdev, htarget]

/-- A version read without a problem: its edges are its requirements. -/
theorem clean_edges (hread : readEntry W sum toolchain h v place = .package hash node []) :
    ∃ s m, W.entry h v = .ok s ∧ packageOf s.document = some m ∧ node.manifest = m ∧
      node.edges.map (fun e => (e.name, e.dev, some e.target)) =
        m.dependencies.map fun r => (r.name, false, versionTarget (h, v) r) := by
  obtain ⟨s, m, hs, -, -, hm, hnode⟩ := readEntry_package.mp hread
  rw [fetchedNode, Prod.mk.injEq, append_eq_nil_iff] at hnode
  obtain ⟨rfl, -, hbroken⟩ := hnode
  exact ⟨s, m, hs, hm, rfl, edges_of_no_problem hbroken⟩

/-- Every version that a cleanly read one requires is put in the queue. -/
theorem mem_hosts_of_requires (hread : readEntry W sum toolchain h v place = .package hash node [])
    {q : HostPath × Version} (hq : Requires W (h, v) q) :
    ∃ item ∈ node.hosts, (item.1, item.2.1) = q := by
  obtain ⟨s, m, hs, hm, -, hedges⟩ := clean_edges hread
  obtain ⟨s', m', r, hs', hm', hr, htarget⟩ := hq
  obtain rfl : s = s' := Except.ok.inj (hs.symm.trans hs')
  obtain rfl : m = m' := some.inj (hm.symm.trans hm')
  have hmem : (r.name, false, versionTarget (h, v) r) ∈
      node.edges.map fun e => (e.name, e.dev, some e.target) := by
    rw [hedges]
    exact mem_map_of_mem hr
  obtain ⟨e, he, heq⟩ := mem_map.mp hmem
  rw [htarget] at heq
  have htarget' : e.target = .host q.1 q.2 := by simpa using congrArg (fun x => x.2.2) heq
  refine ⟨(q.1, q.2, e.place), mem_filterMap.mpr ⟨e, he, ?_⟩, rfl⟩
  rw [htarget']

variable {L : List Node} {start : List Item} {early : List Problem} {st : Walk}

namespace WalkInv

variable (hst : WalkInv W sum mode toolchain L start early st) (hclean : st.problems = [])
include hst hclean

theorem notMem_failed : treeKey h.path v ∉ st.failed := by
  intro hmem
  obtain ⟨-, p, hp, -⟩ := hst.failed h v hmem
  rw [hclean] at hp
  cases hp

/-- A version read: its place is past the locals, and it was read without a problem. -/
theorem node_of_reached (hL : ∀ n ∈ L, n.fetched = none) {i : ℕ}
    (hi : st.reached (treeKey h.path v) = some i) :
    L.length ≤ i ∧ ∃ n place hash, st.nodes[i]? = some n ∧ n.hosts ⊆ st.queue ∧
      readEntry W sum toolchain h v place = .package hash n [] ∧
      ¬(sum.entries (manifestKey h.path v) = none ∧ mode = .verify) := by
  obtain ⟨F, hnodes, hqueue, hread⟩ := hst.nodes
  obtain ⟨n, hn, hkey⟩ := (hst.reached _ i).mp hi
  have hpast : L.length ≤ i ∧ n ∈ F := by
    rw [hnodes, List.getElem?_append] at hn
    split at hn
    · rw [Node.key, hL n (mem_of_getElem? hn)] at hkey
      cases hkey
    · exact ⟨by omega, mem_of_getElem? hn⟩
  obtain ⟨h', v', place, hash, ps, hpackage, hmissing, hps⟩ := hread n hpast.2
  obtain ⟨s, -, hfetched, -⟩ := fetched_of_package hpackage
  rw [Node.key, hfetched, map_some, Option.some.injEq] at hkey
  obtain ⟨rfl, rfl⟩ := treeKey_inj.mp hkey
  obtain rfl : ps = [] := by
    refine eq_nil_iff_forall_not_mem.mpr fun p hp => ?_
    have hp' := hps p hp
    rw [hclean] at hp'
    cases hp'
  refine ⟨hpast.1, n, place, hash, hn, fun item hitem => ?_, hpackage, hmissing⟩
  rw [hqueue]
  exact mem_append_right _ (mem_flatMap.mpr ⟨n, hpast.2, hitem⟩)

variable (hdone : st.atQueue = st.queue.length)
include hdone

theorem reached_of_mem {item : Item} (hitem : item ∈ st.queue) :
    (st.reached (treeKey item.1.path item.2.1)).isSome := by
  have htaken : item ∈ st.queue.take st.atQueue := by rwa [hdone, take_length]
  exact (hst.handled item htaken).resolve_right (hst.notMem_failed hclean)

section

variable (hL : ∀ n ∈ L, n.fetched = none)
include hL

/-- **The versions read** are the ones reached. -/
theorem mem_queue_iff (p : HostPath × Version) :
    (∃ item ∈ st.queue, (item.1, item.2.1) = p) ↔ VersionReached W start p := by
  refine Reached.eq_of_walk (S := fun p => ∃ item ∈ st.queue, (item.1, item.2.1) = p) ?_ ?_ ?_
  · rintro p ⟨item, hitem, rfl⟩
    exact hst.sound item hitem
  · rintro p ⟨item, hitem, rfl⟩
    obtain ⟨F, -, hqueue, -⟩ := hst.nodes
    exact ⟨item, by rw [hqueue]; exact mem_append_left _ hitem, rfl⟩
  · rintro p q ⟨item, hitem, rfl⟩ hq
    obtain ⟨i, hi⟩ := isSome_iff_exists.mp (hst.reached_of_mem hclean hdone hitem)
    obtain ⟨-, n, place, hash, -, hsub, hread, -⟩ := hst.node_of_reached hclean hL hi
    obtain ⟨item', hitem', rfl⟩ := mem_hosts_of_requires hread hq
    exact ⟨item', hsub hitem', rfl⟩

theorem reached_isSome_iff :
    (st.reached (treeKey h.path v)).isSome ↔ VersionReached W start (h, v) := by
  refine ⟨hst.read_sound h v, fun hreach => ?_⟩
  obtain ⟨item, hitem, heq⟩ := (hst.mem_queue_iff hclean hdone hL (h, v)).mpr hreach
  obtain ⟨rfl, rfl⟩ := Prod.mk.inj heq
  exact hst.reached_of_mem hclean hdone hitem

/-- The selected versions are reached, one for each line, the largest reached of its line. -/
theorem selected_spec :
    (st.selected.map Selected.line).Nodup ∧
      (∀ x ∈ st.selected, x.line = lineKey x.host x.version ∧
        VersionReached W start (x.host, x.version)) ∧
      ∀ p, VersionReached W start p →
        ∃ x ∈ st.selected, x.line = lineKey p.1 p.2 ∧ p.2 ≤ x.version := by
  refine ⟨hst.selected.nodup, fun x hx => ?_, fun p hp => ?_⟩
  · obtain ⟨item, hitem, rfl⟩ := hst.selected.seen_of_mem x hx
    exact ⟨rfl, hst.sound item (mem_of_mem_take hitem)⟩
  · obtain ⟨item, hitem, rfl⟩ := (hst.mem_queue_iff hclean hdone hL p).mpr hp
    have htaken : item ∈ st.queue.take st.atQueue := by rwa [hdone, take_length]
    obtain ⟨x, hx, hline, hle⟩ := hst.selected.largest (Selected.ofItem item) ⟨item, htaken, rfl⟩
    exact ⟨x, hx, hline, hle⟩

end

end WalkInv

end Clean

end HdLang.Deps
