import HdLang.Deps.Select
import HdLang.Lib.Graphs
import HdLang.Lib.Indexed

/-!
# The local packages of a selection

The walk over path requirements finds the members and every local package that they reach, each one
once, whatever the order of the members (`LocalsInv.mem_iff`). A package has its dev requirements
exactly when it is a member, for the members are all found before the walk.
-/

namespace HdLang.Deps

open Closure Indexed List Option Node

section Locals

variable (W : World) (edited : Option Edited) (toolchain : String) (members : List String)

/-- The directory of a member. -/
def IsMember (d : String) : Prop := d ∈ members.filterMap W.canonicalize

instance (d : String) : Decidable (IsMember W members d) :=
  inferInstanceAs (Decidable (d ∈ members.filterMap W.canonicalize))

/-- The node of the local package in a directory. -/
def localNode (d : String) : Option Node :=
  (packageManifest W d edited).map fun m =>
    ⟨d, m, none, localEdges W d m (decide (IsMember W members d)) toolchain⟩

/-- The local packages that the members reach along path requirements. -/
def LocalReached : String → Prop :=
  Reached (fun d => IsMember W members d ∧ (localNode W edited toolchain members d).isSome)
    fun d d' => (∃ n, localNode W edited toolchain members d = some n ∧ d' ∈ n.locals) ∧
      (localNode W edited toolchain members d').isSome

/-- The nodes found are local packages that are reached, each indexed by its directory. -/
structure LocalsInv (st : Locals) : Prop where
  index : IndexOf (some ∘ Node.dir) st.nodes st.index
  node : ∀ n ∈ st.nodes, localNode W edited toolchain members n.dir = some n ∧
    LocalReached W edited toolchain members n.dir

/-- The packages among `ds` are found. -/
def Covers (st : Locals) (ds : List String) : Prop :=
  ∀ d ∈ ds, (localNode W edited toolchain members d).isSome → (st.index d).isSome

end Locals

section Spec

variable {W : World} {edited : Option Edited} {toolchain : String} {members : List String}
  {st : Locals} {d : String} {member : Bool} {ds : List String}

theorem localNode_eq {n : Node} : localNode W edited toolchain members d = some n ↔
    ∃ m, packageManifest W d edited = some m ∧
      n = ⟨d, m, none, localEdges W d m (decide (IsMember W members d)) toolchain⟩ := by
  rw [localNode, map_eq_some_iff]
  simp only [eq_comm]

theorem localNode_dir {n : Node} (h : localNode W edited toolchain members d = some n) :
    n.dir = d ∧ n.fetched = none := by
  obtain ⟨m, -, rfl⟩ := localNode_eq.mp h
  exact ⟨rfl, rfl⟩

namespace LocalsInv

theorem empty : LocalsInv W edited toolchain members ⟨[], fun _ => none⟩ where
  index := IndexOf.nil
  node := by simp

theorem index_isSome (hst : LocalsInv W edited toolchain members st) :
    (st.index d).isSome ↔ d ∈ st.nodes.map Node.dir := by
  rw [hst.index.isSome_iff, List.mem_map]
  simp

end LocalsInv

section

variable (hst : LocalsInv W edited toolchain members st)
include hst

theorem addLocal_spec
    (hreach : (localNode W edited toolchain members d).isSome →
      LocalReached W edited toolchain members d)
    (hmember : st.index d = none → (localNode W edited toolchain members d).isSome →
      decide (IsMember W members d) = member) :
    LocalsInv W edited toolchain members (addLocal W edited toolchain member st d) ∧
      st.nodes <+: (addLocal W edited toolchain member st d).nodes ∧
      Covers W edited toolchain members (addLocal W edited toolchain member st d) [d] := by
  rw [addLocal]
  split
  · next hfound =>
    refine ⟨hst, prefix_rfl, ?_⟩
    simpa [Covers] using fun _ => hfound
  · next hfound =>
    have hindex : st.index d = none := by simpa using hfound
    split
    · next hnone =>
      refine ⟨hst, prefix_rfl, ?_⟩
      simp [Covers, localNode, hnone]
    · next m hm =>
      have hnode : localNode W edited toolchain members d =
          some ⟨d, m, none, localEdges W d m member toolchain⟩ := by
        have hsome : (localNode W edited toolchain members d).isSome := by simp [localNode, hm]
        rw [localNode, hm, map_some, hmember hindex hsome]
      refine ⟨⟨hst.index.push rfl hindex, ?_⟩, prefix_append .., ?_⟩
      · intro n hn
        obtain hn | rfl := by simpa using hn
        · exact hst.node n hn
        · exact ⟨hnode, hreach (by simp [hnode])⟩
      · simp [Covers]

theorem Covers.of_later {st' : Locals} (hst' : LocalsInv W edited toolchain members st')
    (hpre : st.nodes <+: st'.nodes) (h : Covers W edited toolchain members st ds)
    : Covers W edited toolchain members st' ds := by
  intro d hd hnode
  rw [hst'.index_isSome]
  exact ((hpre.map dir).subset) (hst.index_isSome.mp (h d hd hnode))

theorem foldl_addLocal_spec
    (hreach : ∀ d ∈ ds, (localNode W edited toolchain members d).isSome →
      LocalReached W edited toolchain members d)
    (hmember : ∀ d ∈ ds, st.index d = none → (localNode W edited toolchain members d).isSome →
      decide (IsMember W members d) = member) :
    LocalsInv W edited toolchain members (ds.foldl (addLocal W edited toolchain member) st) ∧
      st.nodes <+: (ds.foldl (addLocal W edited toolchain member) st).nodes ∧
      Covers W edited toolchain members (ds.foldl (addLocal W edited toolchain member) st) ds := by
  induction ds generalizing st with
  | nil => exact ⟨hst, prefix_rfl, by simp [Covers]⟩
  | cons d ds ih =>
    rw [forall_mem_cons] at hreach hmember
    obtain ⟨hadd, hpre, hcover⟩ := addLocal_spec hst hreach.1 hmember.1
    obtain ⟨hall, hpre', hcover'⟩ := ih hadd hreach.2 fun d' hd' hnone hnode => by
      refine hmember.2 d' hd' ?_ hnode
      by_contra hsome
      have hold := hst.index_isSome.mp (isSome_iff_ne_none.mpr hsome)
      have hnew := hadd.index_isSome.mpr ((hpre.map dir).subset hold)
      rw [hnone] at hnew
      cases hnew
    refine ⟨hall, hpre.trans hpre', ?_⟩
    have hfirst := hcover.of_later hadd hall hpre'
    simp only [Covers, forall_mem_cons]
    exact ⟨hfirst d (mem_singleton_self d), hcover'⟩

end

theorem memberNodes_spec : LocalsInv W edited toolchain members
      (memberNodes W edited toolchain members) ∧
    Covers W edited toolchain members (memberNodes W edited toolchain members)
      (members.filterMap W.canonicalize) := by
  rw [memberNodes]
  obtain ⟨hst, -, hcover⟩ := foldl_addLocal_spec
    (LocalsInv.empty : LocalsInv W edited toolchain members _)
    (fun d hd hnode => Reached.start ⟨hd, hnode⟩)
    fun d (hd : d ∈ members.filterMap W.canonicalize) _ _ => decide_eq_true hd
  exact ⟨hst, hcover⟩

/-- A node stands in a directory of a document or of the edited manifest. -/
theorem length_le_localTurns (hst : LocalsInv W edited toolchain members st) :
    st.nodes.length ≤ W.localTurns := by
  have hindex : IndexOf (some ∘ dir) ([] ++ st.nodes) st.index := hst.index
  have hnodup : (st.nodes.map dir).Nodup := hindex.nodup_map fun n _ => rfl
  have hsub : st.nodes.map dir ⊆
      (edited.bind fun e => W.canonicalize e.dir).toList ++ W.documents.map Prod.fst := by
    intro d hd
    obtain ⟨n, hn, rfl⟩ := List.mem_map.mp hd
    obtain ⟨m, hm, -⟩ := localNode_eq.mp (hst.node n hn).1
    rw [packageManifest] at hm
    split at hm
    · next e he =>
      obtain ⟨hedited, hdir⟩ := filter_eq_some_iff.mp he
      rw [mem_append]
      left
      rw [hedited, bind_some, of_decide_eq_true hdir]
      simp
    · rw [mem_append]
      right
      cases hdoc : W.documents.lookup n.dir with
      | none =>
        rw [hdoc] at hm
        cases hm
      | some doc =>
        obtain ⟨before, after, hdocs, -⟩ := lookup_eq_some_iff.mp hdoc
        simp [hdocs]
  have hle := (subperm_of_subset hnodup hsub).length_le
  rw [length_map, length_append, length_map] at hle
  have hone : (edited.bind fun e => W.canonicalize e.dir).toList.length ≤ 1 := by
    cases edited.bind fun e => W.canonicalize e.dir <;> simp
  rw [World.localTurns]
  omega

/-- The requirements of the first `next` nodes are followed. -/
def Followed (W : World) (edited : Option Edited) (toolchain : String) (members : List String)
    (st : Locals) (next : ℕ) : Prop :=
  ∀ i < next, ∀ n, st.nodes[i]? = some n → Covers W edited toolchain members st n.locals

theorem follow_spec (hst : LocalsInv W edited toolchain members st)
    (hmembers : Covers W edited toolchain members st (members.filterMap W.canonicalize)) {next : ℕ}
    (hdone : Followed W edited toolchain members st next) {n : Node}
    (hn : st.nodes[next]? = some n) :
    LocalsInv W edited toolchain members (n.locals.foldl (addLocal W edited toolchain false) st) ∧
      st.nodes <+: (n.locals.foldl (addLocal W edited toolchain false) st).nodes ∧
      Followed W edited toolchain members (n.locals.foldl (addLocal W edited toolchain false) st)
        (next + 1) := by
  have hnode := hst.node n (mem_of_getElem? hn)
  obtain ⟨hall, hpre, hcover⟩ := foldl_addLocal_spec hst
    (fun d (hd : d ∈ n.locals) hsome => hnode.2.step ⟨⟨n, hnode.1, hd⟩, hsome⟩) fun d hd hnone hsome => by
      refine decide_eq_false fun hmember => ?_
      have hindexed := hmembers d hmember hsome
      rw [hnone] at hindexed
      cases hindexed
  refine ⟨hall, hpre, fun i hi n' hn' => ?_⟩
  obtain hlt | rfl := Nat.lt_succ_iff_lt_or_eq.mp hi
  · have hlen : i < st.nodes.length := hlt.trans (List.getElem?_eq_some_iff.mp hn).1
    have hold : st.nodes[i]? = some n' := by
      rw [← hn', List.getElem?_eq_getElem hlen,
        getElem?_of_initial hpre (List.getElem?_eq_getElem hlen)]
    exact (hdone i hlt n' hold).of_later hst hall hpre
  · obtain rfl : n = n' := some.inj ((getElem?_of_initial hpre hn).symm.trans hn')
    exact hcover

/-- The whole walk: with turns for all the nodes there can be it ends with every requirement
followed. -/
theorem localNodes_spec (turns : ℕ) {next : ℕ} (hst : LocalsInv W edited toolchain members st)
    (hmembers : Covers W edited toolchain members st (members.filterMap W.canonicalize))
    (hdone : Followed W edited toolchain members st next) (hturns : W.localTurns ≤ turns + next) :
    ∃ st', localNodes W edited toolchain turns next st = st' ∧
      LocalsInv W edited toolchain members st' ∧
      Covers W edited toolchain members st' (members.filterMap W.canonicalize) ∧
      Followed W edited toolchain members st' st'.nodes.length := by
  induction turns generalizing next st with
  | zero =>
    refine ⟨st, rfl, hst, hmembers, fun i hi => hdone i (hi.trans_le ?_)⟩
    exact (length_le_localTurns hst).trans (by simpa using hturns)
  | succ turns ih =>
    rw [localNodes]
    split
    · next hend =>
      refine ⟨st, rfl, hst, hmembers, fun i hi => hdone i (hi.trans_le ?_)⟩
      exact List.getElem?_eq_none_iff.mp hend
    · next n hn =>
      obtain ⟨hall, hpre, hdone'⟩ := follow_spec hst hmembers hdone hn
      exact ih hall (hmembers.of_later hst hall hpre) hdone' (by omega)

/-- **The local packages.** The nodes are the local packages that the members reach, each indexed
by its directory. -/
theorem localsOf_spec :
    LocalsInv W edited toolchain members (localsOf W members edited toolchain) ∧
      ∀ n, n ∈ (localsOf W members edited toolchain).nodes ↔
        LocalReached W edited toolchain members n.dir ∧
          localNode W edited toolchain members n.dir = some n := by
  obtain ⟨hst, hmembers⟩ : LocalsInv W edited toolchain members
      (memberNodes W edited toolchain members) ∧ _ := memberNodes_spec
  have hnone : Followed W edited toolchain members (memberNodes W edited toolchain members) 0 :=
    fun i hi => absurd hi (Nat.not_lt_zero i)
  obtain ⟨st', hrun, hst', hmembers', hdone⟩ := localNodes_spec W.localTurns hst hmembers hnone
    le_rfl
  rw [localsOf, hrun]
  refine ⟨hst', fun n => ⟨fun hn => (hst'.node n hn).symm, fun ⟨hreach, hnode⟩ => ?_⟩⟩
  have hall : n.dir ∈ st'.nodes.map dir := by
    refine hreach.least (S := fun d => d ∈ st'.nodes.map dir) (fun d hd => ?_)
      fun d d' hd hnext => ?_
    · exact hst'.index_isSome.mp (hmembers' d hd.1 hd.2)
    · obtain ⟨⟨m, hm, hlocal⟩, hsome⟩ := hnext
      obtain ⟨m', hm', rfl⟩ := List.mem_map.mp hd
      obtain rfl : m' = m := some.inj ((hst'.node m' hm').1.symm.trans hm)
      obtain ⟨i, hi⟩ := mem_iff_getElem?.mp hm'
      have hlt := (List.getElem?_eq_some_iff.mp hi).1
      exact hst'.index_isSome.mp (hdone i hlt m' hi d' hlocal hsome)
  obtain ⟨m, hm, hdir⟩ := List.mem_map.mp hall
  have hmnode := (hst'.node m hm).1
  rw [hdir, hnode] at hmnode
  rw [some.inj hmnode]
  exact hm

end Spec

end HdLang.Deps
