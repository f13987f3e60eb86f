import HdLang.Grant.Laws
import HdLang.Grant.Walks

/-!
# Path grants and symbolic links

`resolve_path` finds the place that the operating system would reach (`resolveFollowing_eq`): the part
that exists is the operating system's own, and behind it a name is either missing, and nothing under
it exists, or it is followed as the system follows it, a dangling link included. So a check that
passes lets through only what lies in the place of the granted path, as long as the text of the entry
names that place (`safe_iff`).
-/

namespace HdLang.Grant

open List Option Component

/-! ### Texts of places -/

theorem parts_append (s t : Text) : parts (s ++ SLASH :: t) = parts s ++ parts t :=
  splitOn_append_cons_self s t

theorem parts_of_notMem {name : Text} (h : SLASH ∉ name) : parts name = [name] :=
  splitOn_eq_singleton h

theorem parts_slashed {p : Place} (hp : ∀ name ∈ p, SLASH ∉ name) {first : Text}
    (hfirst : SLASH ∉ first) :
    parts (first ++ p.flatMap fun name => SLASH :: name) = first :: p := by
  induction p generalizing first with
  | nil => rw [flatMap_nil, append_nil, parts_of_notMem hfirst]
  | cons name p ih =>
    rw [flatMap_cons, cons_append, parts_append, parts_of_notMem hfirst,
      ih (fun x hx => hp x (mem_cons_of_mem _ hx)) (hp name mem_cons_self)]
    rfl

theorem absolute_placeText (p : Place) : Absolute (placeText p) := by
  cases p with
  | nil => rfl
  | cons name p => rfl

theorem component_of_stays {part : Text} (h : Stays part) : component part = none := if_pos h

theorem component_of_name {part : Text} (h : IsName part) :
    component part = some (.normal part) :=
  (if_neg h.1).trans (if_neg h.2)

theorem component_up : component [46, 46] = some .parent := rfl

theorem join_of_absolute {base path : Text} (h : Absolute path) : join base path = path := if_pos h

theorem join_of_relative {base path : Text} (h : ¬Absolute path) :
    join base path =
      if base.getLast?.all (· = SLASH) then base ++ path else base ++ [SLASH] ++ path :=
  if_neg h

theorem filterMap_component {p : Place} (hp : ∀ name ∈ p, IsName name) :
    p.filterMap component = p.map .normal := by
  induction p with
  | nil => rfl
  | cons name p ih =>
    rw [filterMap_cons_some (component_of_name (hp name mem_cons_self)), map_cons,
      ih fun x hx => hp x (mem_cons_of_mem _ hx)]

theorem components_of_absolute {path : Text} (h : Absolute path) :
    components path = .root :: (parts path).filterMap component := by
  unfold components
  rw [if_pos (show path.head? = some SLASH from h)]
  rfl

namespace Files

variable {fs : Files} {n m k : ℕ} {p q out : Place} {xs : List Text} {name target path : Text}

theorem components_placeText (hp : Resolved fs p) :
    components (placeText p) = .root :: p.map .normal := by
  rw [components_of_absolute (absolute_placeText p)]
  cases p with
  | nil => rfl
  | cons name p =>
    have hparts : parts (placeText (name :: p)) = [] :: name :: p :=
      parts_slashed (fun x hx => (hp.names x hx).2) not_mem_nil
    rw [hparts, filterMap_cons_none (by rfl), filterMap_component fun x hx => (hp.names x hx).1]

/-- A link's target is a path from the place of the link. -/
theorem parts_join (hp : Resolved fs p) (htarget : ¬Absolute target) :
    parts (join (placeText p) target) = [] :: (p ++ parts target) := by
  rw [join_of_relative htarget]
  cases hlast : p.getLast? with
  | none =>
    obtain rfl := getLast?_eq_none_iff.mp hlast
    exact parts_append [] target
  | some name =>
    obtain ⟨p, rfl⟩ := getLast?_eq_some_iff.mp hlast
    obtain ⟨hname, hslash⟩ := hp.names name (by simp)
    have htext : placeText (p ++ [name]) =
        (p.flatMap fun x => SLASH :: x) ++ SLASH :: name := by
      unfold placeText
      rw [if_neg (by simp), flatMap_append]
      simp
    have hends : ¬(placeText (p ++ [name])).getLast?.all (· = SLASH) := by
      have hne : name ≠ [] := fun h => hname.1 (Or.inl h)
      obtain ⟨b, hb⟩ := ne_none_iff_exists'.mp (mt getLast?_eq_none_iff.mp hne)
      rw [htext, getLast?_append, getLast?_cons, hb]
      simp only [getD_some, some_or, all_some, decide_eq_true_eq]
      rintro rfl
      exact hslash (mem_of_getLast? hb)
    have hparts : parts (placeText (p ++ [name])) = [] :: (p ++ [name]) := by
      unfold placeText
      rw [if_neg (by simp)]
      exact parts_slashed (fun x hx => (hp.names x hx).2) not_mem_nil
    rw [if_neg hends, append_assoc, singleton_append, parts_append, hparts]
    rfl

theorem absolute_join {base : Text} (hbase : Absolute base) : Absolute (join base path) := by
  by_cases h : Absolute path
  · rwa [join_of_absolute h]
  · rw [join_of_relative h]
    cases base with
    | nil => cases hbase
    | cons b base =>
      by_cases hlast : (b :: base).getLast?.all (· = SLASH)
      · rw [if_pos hlast]
        exact hbase
      · rw [if_neg hlast]
        exact hbase

/-! ### The operating system on resolved places -/

theorem notFile_root : fs.NotFile [] := by
  rintro h hnode rfl
  cases hnode

theorem Resolved.walks {create : Bool} {h : Node} (hp : Resolved fs p) (hnode : fs.node p = some h)
    : Walks fs create n [] p p n := by
  refine hp.walks_self (Or.inr ?_)
  rw [hnode]
  exact some_ne_none h

/-- On a resolved place a walk to what exists can only end there. -/
theorem Resolved.walks_iff (hp : Resolved fs p) (h : Walks fs false n [] p q m) :
    q = p ∧ m = n ∧ fs.node p ≠ none := by
  induction p using reverseRec generalizing q m with
  | nil =>
    cases h
    exact ⟨rfl, rfl, some_ne_none _⟩
  | append_singleton p name ih =>
    obtain ⟨q', m', hfirst, hlast⟩ := h.split
    obtain ⟨rfl, rfl, -⟩ := ih (hp.of_isPrefix (prefix_append p [name])) hfirst
    obtain ⟨hname, -⟩ := hp.names name (by simp)
    obtain ⟨-, ⟨target, _, -, hnode, -⟩ | ⟨node, hnode, -, hnil⟩ | ⟨-, hcreate, -⟩⟩ :=
      hlast.name_inv hname
    · exact absurd hnode (hp.real _ target (prefix_refl _))
    · obtain ⟨rfl, rfl⟩ := hnil.nil_inv
      exact ⟨rfl, rfl, hnode ▸ some_ne_none node⟩
    · cases hcreate

theorem canonicalize_eq_some {real : Place} :
    fs.canonicalize (.root :: p.map .normal) = some real ↔
      ∃ m, Walks fs false fs.limit [] p real m := by
  have hparts : (Component.root :: p.map Component.normal).map Component.part = [] :: p := by
    simp [Component.part, Function.comp_def]
  unfold canonicalize
  rw [if_neg (cons_ne_nil _ _), hparts, map_eq_some_iff]
  constructor
  · rintro ⟨⟨q, m⟩, hwalk, rfl⟩
    exact ⟨m, ((walk_iff.mp hwalk).stay_inv (Or.inl rfl)).2⟩
  · rintro ⟨m, h⟩
    exact ⟨(real, m), walk_iff.mpr (.stay notFile_root (Or.inl rfl) h), rfl⟩

/-! ### One name -/

section Step

variable {links : Text → Option Place}

/-- The place of a name that exists and is no link. -/
theorem step_enter {h : Node} (hout : Resolved fs (out ++ [name]))
    (hnode : fs.node (out ++ [name]) = some h) : fs.step links out name = some (out ++ [name]) := by
  have hreal : fs.canonicalize (.root :: (out ++ [name]).map .normal) = some (out ++ [name]) :=
    canonicalize_eq_some.mpr ⟨_, hout.walks hnode⟩
  unfold step
  rw [hreal]

theorem step_make (hout : Resolved fs out) (hname : IsName name)
    (hnode : fs.node (out ++ [name]) = none) : fs.step links out name = none := by
  have hreal : fs.canonicalize (.root :: (out ++ [name]).map .normal) = none := by
    rw [eq_none_iff_forall_ne_some]
    intro real h
    obtain ⟨m, hwalk⟩ := canonicalize_eq_some.mp h
    obtain ⟨q, m', hfirst, hlast⟩ := hwalk.split
    obtain ⟨rfl, -, -⟩ := hout.walks_iff hfirst
    obtain ⟨-, ⟨_, _, -, hsome, -⟩ | ⟨_, hsome, -, -⟩ | ⟨-, hcreate, -⟩⟩ := hlast.name_inv hname
    · exact absurd (hnode.symm.trans hsome) (some_ne_none _).symm
    · exact absurd (hnode.symm.trans hsome) (some_ne_none _).symm
    · cases hcreate
  have hlink : fs.readLink out name = none := by
    unfold readLink
    cases hwalk : fs.walk false fs.limit [] out with
    | none => rfl
    | some r =>
      obtain ⟨rfl, -, -⟩ := hout.walks_iff (walk_iff.mp hwalk)
      simp only [hnode]
  unfold step
  rw [hreal, hlink]

/-- **A name that is a link** leads where its target leads, whether that exists or not. -/
theorem step_link {left : ℕ} (hout : Resolved fs out) (hname : IsName name)
    (hnode : fs.node (out ++ [name]) = some (.link target))
    (hlinks : ∀ path, Absolute path → Walks fs true left [] (parts path) q m →
      links path = some q) (htarget : Walks fs true left (start out target) (parts target) q m) :
    fs.step links out name = some q := by
  have hnot : fs.NotFile out := notFile_of_node hnode
  obtain ⟨h, hself⟩ : ∃ h, fs.node out = some h := by
    cases hself : fs.node out with
    | none =>
      rw [node_append_of_none hself] at hnode
      cases hnode
    | some h => exact ⟨h, rfl⟩
  unfold step
  cases hreal : fs.canonicalize (.root :: (out ++ [name]).map .normal) with
  | some real =>
    obtain ⟨m', hwalk⟩ := canonicalize_eq_some.mp hreal
    obtain ⟨q', m'', hfirst, hlast⟩ := hwalk.split
    obtain ⟨rfl, -, -⟩ := hout.walks_iff hfirst
    obtain ⟨-, ⟨_, _, -, hsome, hrest⟩ | ⟨_, hsome, hne, -⟩ | ⟨-, hcreate, -⟩⟩ :=
      hlast.name_inv hname
    · rw [hnode, Option.some.injEq, Node.link.injEq] at hsome
      rw [← hsome, append_nil] at hrest
      rw [hrest.unique htarget]
    · rw [hnode, Option.some.injEq] at hsome
      exact absurd hsome.symm (hne target)
    · cases hcreate
  | none =>
    have hread : fs.readLink out name = some target := by
      unfold readLink
      rw [(hout.walks hself).walk_eq]
      simp only [hnode]
    rw [hread]
    refine hlinks _ (absolute_join (absolute_placeText out)) ?_
    by_cases habs : Absolute target
    · rw [start, if_pos habs] at htarget
      rwa [join_of_absolute habs]
    · rw [start, if_neg habs] at htarget
      rw [parts_join hout habs]
      exact .stay notFile_root (Or.inl rfl) ((hout.walks hself).append htarget)

end Step

/-! ### `resolve_path` -/

/-- A component that names an entry or goes up. -/
def Plain (c : Component) : Prop :=
  c = .parent ∨ ∃ name, c = .normal name ∧ IsName name ∧ SLASH ∉ name

theorem resolveRest_normal {links : Text → Option Place} {cs : List Component} :
    fs.resolveRest links 0 out (.normal name :: cs) =
      match fs.step links out name with
      | some resolved => fs.resolveRest links 0 resolved cs
      | none => fs.resolveRest links 1 (out ++ [name]) cs := rfl

theorem resolveRest_eq {links : Text → Option Place}
    (hlinks : ∀ left q m path, left < n → Absolute path →
      Walks fs true left [] (parts path) q m → links path = some q) {cs : List Component}
    (hcs : ∀ c ∈ cs, Plain c) {missing : ℕ} (hm : m ≤ n) (hout : Resolved fs out)
    (hmissing : ∀ j < missing, fs.node (out.take (out.length - j)) = none)
    (h : Walks fs true m out (cs.map Component.part) q k) :
    fs.resolveRest links missing out cs = q := by
  induction cs generalizing m missing out with
  | nil =>
    cases h
    rfl
  | cons c cs ih =>
    have hcs' : ∀ c ∈ cs, Plain c := fun c hc => hcs c (mem_cons_of_mem _ hc)
    obtain rfl | ⟨name, rfl, hname, hslash⟩ := hcs c mem_cons_self
    · -- the names that are missing before the last are so after it is gone
      refine ih hcs' hm hout.dropLast ?_ h.up_inv.2
      intro j hj
      have htake : out.dropLast.take (out.dropLast.length - j) =
          out.take (out.length - (j + 1)) := by
        rw [dropLast_eq_take, take_take, length_take]
        congr 1
        omega
      rw [htake]
      exact hmissing (j + 1) (by omega)
    · have hwalk : Walks fs true m out (name :: cs.map part) q k := h
      by_cases hzero : missing = 0
      · subst hzero
        rw [resolveRest_normal]
        obtain ⟨hfile, ⟨target, left, rfl, hnode, h⟩ | ⟨node, hnode, hlink, h⟩ | ⟨hnode, -, h⟩⟩ :=
          hwalk.name_inv hname
        · obtain ⟨q', m', htarget, hrest⟩ := h.split
          have hstart : Resolved fs (start out target) := by
            by_cases habs : Absolute target
            · rw [start, if_pos habs]
              exact Resolved.nil
            · rw [start, if_neg habs]
              exact hout
          rw [step_link hout hname hnode
            (fun path hpath hwalk => hlinks left q' m' path (by omega) hpath hwalk) htarget]
          have hle := htarget.le
          exact ih hcs' (by omega) (htarget.resolved hstart notMem_of_mem_parts)
            (fun j hj => absurd hj (Nat.not_lt_zero j)) hrest
        · have hout' : Resolved fs (out ++ [name]) := by
            refine hout.snoc hfile hname hslash ?_
            intro target htarget
            rw [hnode, Option.some.injEq] at htarget
            exact hlink target htarget
          rw [step_enter hout' hnode]
          exact ih hcs' hm hout' (fun j hj => absurd hj (Nat.not_lt_zero j)) h
        · have hout' : Resolved fs (out ++ [name]) := by
            refine hout.snoc hfile hname hslash ?_
            intro target htarget
            rw [hnode] at htarget
            cases htarget
          rw [step_make hout hname hnode]
          refine ih hcs' hm hout' ?_ h
          intro j hj
          obtain rfl := Nat.lt_one_iff.mp hj
          rwa [Nat.sub_zero, take_length]
      · -- nothing exists under a name that is missing
        have hgone : fs.node out = none := by
          have h0 := hmissing 0 (Nat.pos_of_ne_zero hzero)
          rwa [Nat.sub_zero, take_length] at h0
        have hnode : fs.node (out ++ [name]) = none := node_append_of_none hgone [name]
        have hrest : fs.resolveRest links missing out (.normal name :: cs) =
            fs.resolveRest links (missing + 1) (out ++ [name]) cs := by
          rw [resolveRest, if_neg hzero]
        rw [hrest]
        have hfile : fs.NotFile out := by
          rintro node hout rfl
          rw [hgone] at hout
          cases hout
        have hout' : Resolved fs (out ++ [name]) := by
          refine hout.snoc hfile hname hslash ?_
          intro target htarget
          rw [hnode] at htarget
          cases htarget
        have hmake : Walks fs true m (out ++ [name]) (cs.map part) q k := by
          obtain ⟨-, ⟨_, _, -, hsome, -⟩ | ⟨_, hsome, -, -⟩ | ⟨-, -, h⟩⟩ := hwalk.name_inv hname
          · exact absurd (hnode.symm.trans hsome) (some_ne_none _).symm
          · exact absurd (hnode.symm.trans hsome) (some_ne_none _).symm
          · exact h
        refine ih hcs' hm hout' ?_ hmake
        intro j hj
        cases j with
        | zero => rwa [Nat.sub_zero, take_length]
        | succ j =>
          have htake : (out ++ [name]).take ((out ++ [name]).length - (j + 1)) =
              out.take (out.length - j) := by
            rw [length_append, length_singleton, take_append_of_le_length (by omega)]
            congr 1
            omega
          rw [htake]
          exact hmissing j (by omega)

theorem Walks.thin (h : Walks fs true n p xs q m) :
    Walks fs true n p ((xs.filterMap component).map Component.part) q m := by
  induction xs generalizing n p with
  | nil => exact h
  | cons part xs ih =>
    have hcons : part :: xs = [part] ++ xs := rfl
    rw [hcons] at h
    obtain ⟨q', m', hfirst, hrest⟩ := h.split
    by_cases hstays : Stays part
    · rw [filterMap_cons_none (component_of_stays hstays)]
      obtain ⟨rfl, rfl⟩ := (hfirst.stay_inv hstays).2.nil_inv
      exact ih hrest
    · obtain ⟨c, hc, hpart⟩ : ∃ c, component part = some c ∧ c.part = part := by
        by_cases hup : part = [46, 46]
        · exact ⟨.parent, hup ▸ component_up, hup.symm⟩
        · exact ⟨.normal part, component_of_name ⟨hstays, hup⟩, rfl⟩
      rw [filterMap_cons_some hc, map_cons, hpart]
      exact hfirst.append (ih hrest)

theorem plain_of_mem {c : Component} (hc : c ∈ (parts path).filterMap component) : Plain c := by
  obtain ⟨part, hpart, hsome⟩ := mem_filterMap.mp hc
  by_cases hstays : Stays part
  · rw [component_of_stays hstays] at hsome
    cases hsome
  · by_cases hup : part = [46, 46]
    · rw [hup, component_up, Option.some.injEq] at hsome
      exact Or.inl hsome.symm
    · rw [component_of_name ⟨hstays, hup⟩, Option.some.injEq] at hsome
      exact Or.inr ⟨part, hsome.symm, ⟨hstays, hup⟩, notMem_of_mem_parts part hpart⟩

/-- Some part of an absolute path exists: the root does. -/
theorem longest_eq (cs : List Component) : ∃ real k, fs.longest (.root :: cs) = (real, k + 1) ∧
    fs.canonicalize ((.root :: cs).take (k + 1)) = some real := by
  have hroot : fs.canonicalize ((.root :: cs).take 1) = some [] :=
    canonicalize_eq_some (p := []).mpr ⟨fs.limit, .nil⟩
  unfold longest
  cases hfind : (range ((Component.root :: cs).length + 1)).reverse.findSome? fun k =>
      (fs.canonicalize ((Component.root :: cs).take k)).map fun real => (real, k) with
  | none =>
    rw [findSome?_eq_none_iff] at hfind
    have hone := hfind 1 (by simp)
    rw [hroot] at hone
    cases hone
  | some r =>
    obtain ⟨k, -, hk⟩ := exists_of_findSome?_eq_some hfind
    obtain ⟨real, hreal, rfl⟩ := map_eq_some_iff.mp hk
    cases k with
    | zero => cases hreal
    | succ k => exact ⟨real, k, rfl, hreal⟩

theorem resolveWith_eq {links : Text → Option Place}
    (hlinks : ∀ left q m path, left < n → Absolute path →
      Walks fs true left [] (parts path) q m → links path = some q) (hpath : Absolute path)
    (h : Walks fs true n [] (parts path) q m) :
    fs.resolveWith links path = q := by
  have hthin := h.thin
  obtain ⟨real, k, hlongest, hreal⟩ := fs.longest_eq ((parts path).filterMap component)
  have hwith : fs.resolveWith links path =
      fs.resolveRest links 0 real (((parts path).filterMap component).drop k) := by
    unfold resolveWith
    simp only [components_of_absolute hpath, hlongest, drop_succ_cons]
  rw [hwith]
  -- the system's walk, cut where the part that exists ends
  have hsplit : (parts path).filterMap component =
      ((parts path).filterMap component).take k ++ ((parts path).filterMap component).drop k :=
    (take_append_drop k _).symm
  rw [hsplit, map_append] at hthin
  obtain ⟨q', m', hfirst, hrest⟩ := hthin.split
  have hsame : real = q' := by
    unfold canonicalize at hreal
    rw [if_neg (by simp), map_eq_some_iff] at hreal
    obtain ⟨⟨r, m''⟩, hwalk, rfl⟩ := hreal
    exact (walk_iff.mp hwalk).unique (.stay notFile_root (Or.inl rfl) hfirst)
  have hplain : ∀ c ∈ ((parts path).filterMap component).drop k, Plain c :=
    fun c hc => plain_of_mem (mem_of_mem_drop hc)
  have hslashes : ∀ part ∈ (((parts path).filterMap component).take k).map Component.part,
      SLASH ∉ part := by
    intro part hpart
    obtain ⟨c, hc, rfl⟩ := mem_map.mp hpart
    obtain rfl | ⟨name, rfl, -, hslash⟩ := plain_of_mem (mem_of_mem_take hc)
    · decide
    · exact hslash
  rw [hsame]
  exact resolveRest_eq hlinks hplain hfirst.le (hfirst.resolved Resolved.nil hslashes)
    (fun j hj => absurd hj (Nat.not_lt_zero j)) hrest

/-- **The place that the system reaches** is the one that `resolve_following` finds, when it may
follow as many links. -/
theorem resolveFollowing_eq {left : ℕ} (hleft : n ≤ left) (hpath : Absolute path)
    (h : Walks fs true n [] (parts path) q m) : fs.resolveFollowing left path = q := by
  induction left generalizing n path q m with
  | zero =>
    refine resolveWith_eq ?_ hpath h
    intro left _ _ _ hlt
    omega
  | succ left ih =>
    refine resolveWith_eq ?_ hpath h
    intro left' q' m' path' hlt hpath' h'
    rw [ih (by omega) hpath' h']

theorem follow_eq_some : fs.follow path = some p ↔
    ∃ m, Walks fs true fs.limit [] (parts path) p m := by
  unfold follow
  rw [map_eq_some_iff]
  constructor
  · rintro ⟨⟨q, m⟩, h, rfl⟩
    exact ⟨m, walk_iff.mp h⟩
  · rintro ⟨m, h⟩
    exact ⟨(p, m), walk_iff.mpr h, rfl⟩

theorem resolvePath_eq (hpath : Absolute path) (h : fs.follow path = some p) :
    fs.resolvePath path = placeText p := by
  obtain ⟨m, hwalk⟩ := follow_eq_some.mp h
  unfold resolvePath
  rw [resolveFollowing_eq fs.limit_le hpath hwalk]

theorem resolved_of_follow (h : fs.follow path = some p) : Resolved fs p := by
  obtain ⟨m, hwalk⟩ := follow_eq_some.mp h
  exact hwalk.resolved Resolved.nil notMem_of_mem_parts

/-! ### Checks -/

/-- A directory that relative paths are relative to. -/
structure Base where
  text : Text
  absolute : Absolute text

/-- The key of reads or of writes. -/
def pathKey (write : Bool) : String := if write then "FsWrite" else "FsRead"

/-- The entry of a limit that a granted path becomes. -/
def entry (fs : Files) (base : Base) (granted : Text) : Text :=
  toStringLossy (fs.resolvePath (join base.text granted))

/-- A check of one granted path lets through only what lies at or below the place of the path. -/
def Safe (fs : Files) (write : Bool) (base : Base) (granted : Text) : Prop :=
  ∀ (cwd : Base) (path : Text) (p : Place), fs.follow (join cwd.text path) = some p →
    Grants.coversPath fs.resolvePath
      ⟨[(pathKey write, .entries (entries fs.resolvePath (pathKey write) [granted] base.text))]⟩
      (pathKey write) path cwd.text = true →
    ∃ g, fs.follow (join base.text granted) = some g ∧ g <+: p

/-- The granted path leads to a place, and its entry's text names that place or one below it. -/
def Denotes (fs : Files) (base : Base) (granted : Text) : Prop :=
  ∃ g, fs.follow (join base.text granted) = some g ∧
    Inside (toStringLossy (placeText g)) (placeText g)

/-- The text of an entry leads to the place that it spells. -/
def Reachable (fs : Files) (e : Text) : Prop :=
  ∃ p, fs.follow (placeText p) = some p ∧ components e = components (placeText p)

theorem inside_placeText {g : Place} (hg : Resolved fs g) (hp : Resolved fs p) :
    Inside (placeText p) (placeText g) ↔ g <+: p := by
  have hinj : Function.Injective normal := fun _ _ h => normal.inj h
  unfold Inside
  rw [components_placeText hg, components_placeText hp, cons_prefix_cons,
    prefix_map_iff_of_injective hinj]
  exact and_iff_right rfl

theorem coversPath_eq (write : Bool) (base cwd : Base) (granted path : Text) :
    Grants.coversPath fs.resolvePath
      ⟨[(pathKey write, .entries (entries fs.resolvePath (pathKey write) [granted] base.text))]⟩
      (pathKey write) path cwd.text = true ↔
      Inside (fs.resolvePath (join cwd.text path)) (entry fs base granted) := by
  have hkey : pathKey write ∈ PATH_KEYS := by cases write <;> decide
  have hlimit : (⟨[(pathKey write, .entries (entries fs.resolvePath (pathKey write) [granted]
      base.text))]⟩ : Grants).limit (pathKey write) =
        some (.entries [entry fs base granted]) := by
    simp [Grants.limit, entries, entry, hkey]
  unfold Grants.coversPath
  rw [hlimit]
  simp

/-- What is on the way to a reached place is reached by its own names. -/
theorem follow_placeText (hq : Resolved fs q) : fs.follow (placeText q) = some q := by
  refine follow_eq_some.mpr ⟨fs.limit, ?_⟩
  have hself : Walks fs true fs.limit [] q q fs.limit := hq.walks_self (Or.inl rfl)
  cases q with
  | nil => exact .stay notFile_root (Or.inl rfl) (.stay notFile_root (Or.inl rfl) .nil)
  | cons name q =>
    have hparts : parts (placeText (name :: q)) = [] :: name :: q :=
      parts_slashed (fun x hx => (hq.names x hx).2) not_mem_nil
    rw [hparts]
    exact .stay notFile_root (Or.inl rfl) hself

theorem absolute_entry (base : Base) (granted : Text) : Absolute (entry fs base granted) := by
  have habs : Absolute (fs.resolvePath (join base.text granted)) := absolute_placeText _
  unfold entry
  cases htext : fs.resolvePath (join base.text granted) with
  | nil =>
    rw [htext] at habs
    cases habs
  | cons b text =>
    rw [htext] at habs
    obtain rfl : b = SLASH := some.inj habs
    rfl

/-- **When a path grant is safe**: the granted path leads to a place that its entry's text names,
or nothing leads to what the text spells. -/
theorem safe_iff (fs : Files) (write : Bool) (base : Base) (granted : Text) :
    Safe fs write base granted ↔
      Denotes fs base granted ∨ ¬Reachable fs (entry fs base granted) := by
  have hentry : ∀ g, fs.follow (join base.text granted) = some g →
      entry fs base granted = toStringLossy (placeText g) := by
    intro g hg
    unfold entry
    rw [resolvePath_eq (absolute_join base.absolute) hg]
  constructor
  · intro h
    by_cases hreach : Reachable fs (entry fs base granted)
    · obtain ⟨p, hp, hspells⟩ := hreach
      have hjoin : join base.text (placeText p) = placeText p :=
        join_of_absolute (absolute_placeText p)
      obtain ⟨g, hg, hgp⟩ := h base (placeText p) p (by rwa [hjoin]) (by
        rw [coversPath_eq, hjoin, resolvePath_eq (absolute_placeText p) hp]
        exact (congrArg (· <+: components (placeText p)) hspells).mpr (List.prefix_refl _))
      refine Or.inl ⟨g, hg, ?_⟩
      rw [← hentry g hg, Inside, hspells]
      exact (inside_placeText (resolved_of_follow hg) (resolved_of_follow hp)).mpr hgp
    · exact Or.inr hreach
  · rintro h cwd path p hp hcovers
    rw [coversPath_eq, resolvePath_eq (absolute_join cwd.absolute) hp] at hcovers
    have hresolved := resolved_of_follow hp
    obtain ⟨g, hg, hinside⟩ | hreach := h
    · refine ⟨g, hg, ?_⟩
      rw [← hentry g hg] at hinside
      exact (inside_placeText (resolved_of_follow hg) hresolved).mp (hcovers.trans hinside)
    · refine absurd ?_ hreach
      -- the entry's text spells what is on the way to the place
      have hcomponents : components (entry fs base granted) = _ :=
        components_of_absolute (absolute_entry base granted)
      unfold Inside at hcovers
      rw [hcomponents, components_placeText hresolved, List.cons_prefix_cons] at hcovers
      obtain ⟨q, hq, hnames⟩ := List.prefix_map_iff.mp hcovers.2
      have hq' : Resolved fs q := hresolved.of_isPrefix hq
      refine ⟨q, follow_placeText hq', ?_⟩
      rw [hcomponents, components_placeText hq', hnames]

/-- **A check is exact** for a granted path that leads to a place of valid UTF-8: it lets through just
what the system finds at or below the place, by whatever links the path goes. -/
theorem coversPath_iff_below (write : Bool) {base cwd : Base} {granted path : Text} {g : Place}
    (hg : fs.follow (join base.text granted) = some g) (hutf8 : Utf8 (placeText g))
    (hp : fs.follow (join cwd.text path) = some p) :
    Grants.coversPath fs.resolvePath
      ⟨[(pathKey write, .entries (entries fs.resolvePath (pathKey write) [granted] base.text))]⟩
      (pathKey write) path cwd.text = true ↔ g <+: p := by
  have hentry : entry fs base granted = placeText g := by
    rw [entry, resolvePath_eq (absolute_join base.absolute) hg]
    exact toStringLossy_of_utf8 hutf8
  rw [coversPath_eq, hentry, resolvePath_eq (absolute_join cwd.absolute) hp]
  exact inside_placeText (resolved_of_follow hg) (resolved_of_follow hp)

/-- A directory `d` with a file `x`, and a link `l` to it. -/
def linked : Files := ⟨[([100], .dir [([120], .file)]), ([108], .link [47, 100])], 40, le_refl 40⟩

theorem coversPath_iff_below_linked :
    Grants.coversPath linked.resolvePath
      ⟨[("FsRead", .entries (entries linked.resolvePath "FsRead" [[108]] [47]))]⟩
      "FsRead" [100, 47, 120] [47] = true ↔ ([[100]] : Place) <+: [[100], [120]] :=
  @coversPath_iff_below linked [[100], [120]] false ⟨[47], rfl⟩ ⟨[47], rfl⟩ [108] [100, 47, 120]
    [[100]] (by decide +kernel) (.cons (c := [47]) rfl (.cons (c := [100]) rfl .nil))
    (by decide +kernel)

/-- Two directories, of which one has a name that is not UTF-8 and the other the name that its text
is given. -/
def twoDirs : Files where
  root := [([0xFF], .dir []), ([0xEF, 0xBF, 0xBD], .dir [])]
  limit := 40
  limit_le := le_refl 40

theorem not_safe : ¬Safe twoDirs false ⟨[47, 0xFF], rfl⟩ [46] := by
  intro h
  obtain ⟨g, hg, hprefix⟩ := h ⟨[47], rfl⟩ [47, 0xEF, 0xBF, 0xBD] [[0xEF, 0xBF, 0xBD]]
    (by decide +kernel) (by decide +kernel)
  have hplace : twoDirs.follow (join [47, 0xFF] [46]) = some [[0xFF]] := by decide +kernel
  rw [hplace, Option.some.injEq] at hg
  rw [← hg] at hprefix
  exact absurd hprefix (by decide)

end Files

end HdLang.Grant
