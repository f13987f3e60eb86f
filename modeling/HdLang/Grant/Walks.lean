import HdLang.Grant.Model
import Mathlib.Data.List.Induction

/-!
# Paths in a tree of files

How the operating system follows a path, component by component, through the symbolic links of a tree
of files, and how `resolve_path` of `crates/hd_run/src/grant.rs` finds the same place by the
resolution of the longest part that exists and of one name after the other behind it. The tree does
not change, and `canonicalize` and `read_link` report it faithfully. Paths are absolute, as those that
a check joins to the working directory are.
-/

namespace HdLang.Grant

/-- A file, a directory or a symbolic link. -/
inductive Node
  | file
  | dir (entries : List (Text × Node))
  | link (target : Text)

namespace Node

/-- The entry of a directory. -/
def child : Node → Text → Option Node
  | .dir entries, name => (entries.find? fun e => e.1 = name).map Prod.snd
  | _, _ => none

/-- What stands under a node; links are not followed. -/
def under : Node → List Text → Option Node
  | n, [] => some n
  | n, name :: names => (n.child name).bind fun m => m.under names

end Node

/-- The names from the root to a place. -/
abbrev Place := List Text

/-- How many symbolic links one resolution follows. -/
def MAX_LINKS : ℕ := 40

/-- A tree of files, and how many links the operating system follows before it gives up. -/
structure Files where
  root : List (Text × Node)
  limit : ℕ
  limit_le : limit ≤ MAX_LINKS

/-- Whether a path begins at the root. -/
def Absolute (path : Text) : Prop := path.head? = some SLASH

instance (path : Text) : Decidable (Absolute path) := inferInstanceAs (Decidable (_ = _))

/-- The texts between the slashes of a path. -/
def parts (path : Text) : List Text := path.splitOn SLASH

/-- The text of a place. -/
def placeText (p : Place) : Text := if p = [] then [SLASH] else p.flatMap fun name => SLASH :: name

/-- The text of a component between slashes. -/
def Component.part : Component → Text
  | .root => []
  | .cur => [46]
  | .parent => [46, 46]
  | .normal name => name

namespace Files

variable (fs : Files)

/-- The node at a place. -/
def node (p : Place) : Option Node := (Node.dir fs.root).under p

/-! ### The operating system -/

/-- Follows the parts of a path from a resolved place. A part needs the place to be a directory, an
empty one and a `.` too; a name that does not exist is where one is made, and may be made, when
`create` is set; `jump` goes on at the target of a link. -/
def steps (create : Bool) (left : ℕ) (jump : Place → List Text → Option (Place × ℕ)) :
    Place → List Text → Option (Place × ℕ)
  | p, [] => some (p, left)
  | p, part :: rest =>
    match fs.node p with
    | some .file => none
    | _ =>
      if part = [] ∨ part = [46] then steps create left jump p rest
      else if part = [46, 46] then steps create left jump p.dropLast rest
      else
        match fs.node (p ++ [part]) with
        | some (.link target) =>
          jump (if Absolute target then [] else p) (parts target ++ rest)
        | some _ => steps create left jump (p ++ [part]) rest
        | none => if create then steps create left jump (p ++ [part]) rest else none

/-- Follows the parts of a path through at most `left` links: where it leads, and how many links may
be followed after it. -/
def walk (create : Bool) : ℕ → Place → List Text → Option (Place × ℕ)
  | 0 => fs.steps create 0 fun _ _ => none
  | left + 1 => fs.steps create (left + 1) (walk create left)

/-- The place that an absolute path leads to, whether something exists there or is to be made. -/
def follow (path : Text) : Option Place := (fs.walk true fs.limit [] (parts path)).map Prod.fst

/-- `canonicalize` of the components of an absolute path. -/
def canonicalize (cs : List Component) : Option Place :=
  if cs = [] then none
  else (fs.walk false fs.limit [] (cs.map Component.part)).map Prod.fst

/-- `read_link` of a name in a resolved place. -/
def readLink (p : Place) (name : Text) : Option Text :=
  match fs.walk false fs.limit [] p with
  | some (q, _) =>
    match fs.node (q ++ [name]) with
    | some (.link target) => some target
    | _ => none
  | none => none

/-! ### `resolve_path` -/

/-- `step`: a name whose parent is resolved, by the operating system, or through the link that it is
when the link's target does not exist; `links` resolves that. -/
def step (links : Text → Option Place) (out : Place) (name : Text) : Option Place :=
  match fs.canonicalize (.root :: (out ++ [name]).map .normal) with
  | some real => some real
  | none =>
    match fs.readLink out name with
    | some target => links (join (placeText out) target)
    | none => none

/-- The components after the part that exists; `missing` names at the end of `out` do not exist. -/
def resolveRest (links : Text → Option Place) : ℕ → Place → List Component → Place
  | _, out, [] => out
  | missing, out, .cur :: cs => resolveRest links missing out cs
  | missing, out, .parent :: cs => resolveRest links (missing - 1) out.dropLast cs
  | missing, out, .normal name :: cs =>
    match if missing = 0 then fs.step links out name else none with
    | some resolved => resolveRest links missing resolved cs
    | none => resolveRest links (missing + 1) (out ++ [name]) cs
  | missing, _, .root :: cs => resolveRest links missing [] cs

/-- The longest part of a path that the operating system resolves, and its length. -/
def longest (cs : List Component) : Place × ℕ :=
  ((List.range (cs.length + 1)).reverse.findSome? fun k =>
    (fs.canonicalize (cs.take k)).map fun real => (real, k)).getD ([], 0)

def resolveWith (links : Text → Option Place) (path : Text) : Place :=
  let cs := components path
  let (out, start) := fs.longest cs
  fs.resolveRest links 0 out (cs.drop start)

/-- `resolve_following`, with the number of links that may still be followed. -/
def resolveFollowing : ℕ → Text → Place
  | 0 => fs.resolveWith fun _ => none
  | left + 1 => fs.resolveWith fun path => some (resolveFollowing left path)

/-- `resolve_path` of an absolute path. -/
def resolvePath (path : Text) : Text := placeText (fs.resolveFollowing MAX_LINKS path)

end Files

end HdLang.Grant

/-!
## Walks through a tree of files

`Walks` is the operating system's resolution as a relation, one rule for each thing that a part of a
path can be, and `walk_iff` says that `walk` computes it. A walk can be cut anywhere and put together
again, takes as many links with a larger budget, and ends at the same place wherever its steps are
allowed (`Walks.unique`). The places it goes through are resolved: no link stands on them.
-/

namespace HdLang.Grant

open List

/-- An empty part or a `.` leads nowhere. -/
def Stays (part : Text) : Prop := part = [] ∨ part = [46]

instance : DecidablePred Stays := fun _ => inferInstanceAs (Decidable (_ ∨ _))

/-- A part that is the name of an entry. -/
def IsName (part : Text) : Prop := ¬Stays part ∧ part ≠ [46, 46]

namespace Files

variable {fs : Files} {create : Bool} {n m k : ℕ} {p q r : Place} {xs ys : List Text} {part : Text}

/-- Where a link at a name in `p` leads. -/
def start (p : Place) (target : Text) : Place := if Absolute target then [] else p

/-- A part can be taken from any place but a file. -/
def NotFile (fs : Files) (p : Place) : Prop := ∀ h : Node, fs.node p = some h → h ≠ .file

/-- The walk of a path from `p` leads to `q`; of `n` links that may be followed, `m` are left. -/
inductive Walks (fs : Files) (create : Bool) : ℕ → Place → List Text → Place → ℕ → Prop
  | nil {n : ℕ} {p : Place} : Walks fs create n p [] p n
  | stay {n : ℕ} {p : Place} {part : Text} {xs : List Text} {q : Place} {m : ℕ} :
    fs.NotFile p → Stays part → Walks fs create n p xs q m →
    Walks fs create n p (part :: xs) q m
  | up {n : ℕ} {p : Place} {xs : List Text} {q : Place} {m : ℕ} :
    fs.NotFile p → Walks fs create n p.dropLast xs q m →
    Walks fs create n p ([46, 46] :: xs) q m
  | link {n : ℕ} {p : Place} {part target : Text} {xs : List Text} {q : Place} {m : ℕ} :
    fs.NotFile p → IsName part → fs.node (p ++ [part]) = some (.link target) →
    Walks fs create n (start p target) (parts target ++ xs) q m →
    Walks fs create (n + 1) p (part :: xs) q m
  | enter {n : ℕ} {p : Place} {part : Text} {node : Node} {xs : List Text} {q : Place} {m : ℕ} :
    fs.NotFile p → IsName part → fs.node (p ++ [part]) = some node →
    (∀ target, node ≠ .link target) → Walks fs create n (p ++ [part]) xs q m →
    Walks fs create n p (part :: xs) q m
  | make {n : ℕ} {p : Place} {part : Text} {xs : List Text} {q : Place} {m : ℕ} :
    fs.NotFile p → IsName part → fs.node (p ++ [part]) = none → create = true →
    Walks fs create n (p ++ [part]) xs q m → Walks fs create n p (part :: xs) q m

theorem walk_nil : fs.walk create n p [] = some (p, n) := by
  cases n <;> rfl

theorem walk_cons : fs.walk create n p (part :: xs) =
    match fs.node p with
    | some .file => none
    | _ =>
      if Stays part then fs.walk create n p xs
      else if part = [46, 46] then fs.walk create n p.dropLast xs
      else
        match fs.node (p ++ [part]) with
        | some (.link target) =>
          match n with
          | 0 => none
          | n + 1 => fs.walk create n (start p target) (parts target ++ xs)
        | some _ => fs.walk create n (p ++ [part]) xs
        | none => if create then fs.walk create n (p ++ [part]) xs else none := by
  cases n <;> rfl

theorem walk_cons_of (hp : fs.NotFile p) : fs.walk create n p (part :: xs) =
    if Stays part then fs.walk create n p xs
    else if part = [46, 46] then fs.walk create n p.dropLast xs
    else
      match fs.node (p ++ [part]) with
      | some (.link target) =>
        match n with
        | 0 => none
        | n + 1 => fs.walk create n (start p target) (parts target ++ xs)
      | some _ => fs.walk create n (p ++ [part]) xs
      | none => if create then fs.walk create n (p ++ [part]) xs else none := by
  rw [walk_cons]
  cases hnode : fs.node p with
  | none => rfl
  | some h =>
    cases h with
    | file => exact absurd rfl (hp _ hnode)
    | _ => rfl

theorem Walks.walk_eq (h : Walks fs create n p xs q m) :
    fs.walk create n p xs = some (q, m) := by
  induction h with
  | nil => exact walk_nil
  | stay hp hpart _ ih => rw [walk_cons_of hp, if_pos hpart, ih]
  | up hp _ ih => rw [walk_cons_of hp, if_neg (by decide), if_pos rfl, ih]
  | link hp hpart hnode _ ih =>
    rw [walk_cons_of hp, if_neg hpart.1, if_neg hpart.2, hnode]
    exact ih
  | @enter _ _ _ node _ _ _ hp hpart hnode hlink _ ih =>
    rw [walk_cons_of hp, if_neg hpart.1, if_neg hpart.2, hnode]
    cases node with
    | link target => exact absurd rfl (hlink target)
    | _ => exact ih
  | make hp hpart hnode hcreate _ ih =>
    rw [walk_cons_of hp, if_neg hpart.1, if_neg hpart.2, hnode]
    exact (if_pos hcreate).trans ih

theorem Walks.of_walk (h : fs.walk create n p xs = some (q, m)) : Walks fs create n p xs q m := by
  induction n using Nat.strong_induction_on generalizing p xs with
  | h n ihn =>
    induction xs generalizing p with
    | nil =>
      rw [walk_nil, Option.some.injEq, Prod.mk.injEq] at h
      obtain ⟨rfl, rfl⟩ := h
      exact .nil
    | cons part xs ih =>
      have hp : fs.NotFile p := by
        rintro node hnode rfl
        rw [walk_cons, hnode] at h
        cases h
      rw [walk_cons_of hp] at h
      by_cases hstays : Stays part
      · rw [if_pos hstays] at h
        exact .stay hp hstays (ih h)
      · rw [if_neg hstays] at h
        by_cases hup : part = [46, 46]
        · rw [if_pos hup] at h
          exact hup ▸ .up hp (ih h)
        · rw [if_neg hup] at h
          have hname : IsName part := ⟨hstays, hup⟩
          cases hnode : fs.node (p ++ [part]) with
          | none =>
            rw [hnode] at h
            cases hcreate : create with
            | false => rw [hcreate] at h; cases h
            | true =>
              rw [hcreate] at h ih
              exact .make hp hname hnode rfl (ih h)
          | some node =>
            rw [hnode] at h
            cases node with
            | link target =>
              cases n with
              | zero => cases h
              | succ n => exact .link hp hname hnode (ihn n (Nat.lt_succ_self n) h)
            | file => exact .enter hp hname hnode (fun _ => Node.noConfusion) (ih h)
            | dir entries => exact .enter hp hname hnode (fun _ => Node.noConfusion) (ih h)

theorem walk_iff : fs.walk create n p xs = some (q, m) ↔ Walks fs create n p xs q m :=
  ⟨Walks.of_walk, Walks.walk_eq⟩

namespace Walks

theorem stay_inv (h : Walks fs create n p (part :: xs) q m) (hpart : Stays part) :
    fs.NotFile p ∧ Walks fs create n p xs q m := by
  cases h with
  | stay hp _ h => exact ⟨hp, h⟩
  | up _ _ => exact absurd hpart (by decide)
  | link _ hname _ _ => exact absurd hpart hname.1
  | enter _ hname _ _ _ => exact absurd hpart hname.1
  | make _ hname _ _ _ => exact absurd hpart hname.1

theorem up_inv (h : Walks fs create n p ([46, 46] :: xs) q m) :
    fs.NotFile p ∧ Walks fs create n p.dropLast xs q m := by
  cases h with
  | stay _ hstays _ => exact absurd hstays (by decide)
  | up hp h => exact ⟨hp, h⟩
  | link _ hname _ _ => exact absurd rfl hname.2
  | enter _ hname _ _ _ => exact absurd rfl hname.2
  | make _ hname _ _ _ => exact absurd rfl hname.2

/-- What a name does: it is a link, or another entry, or one is made. -/
theorem name_inv (h : Walks fs create n p (part :: xs) q m) (hpart : IsName part) :
    fs.NotFile p ∧ ((∃ target left, n = left + 1 ∧ fs.node (p ++ [part]) = some (.link target) ∧
      Walks fs create left (start p target) (parts target ++ xs) q m) ∨
    (∃ node, fs.node (p ++ [part]) = some node ∧ (∀ target, node ≠ .link target) ∧
      Walks fs create n (p ++ [part]) xs q m) ∨
    (fs.node (p ++ [part]) = none ∧ create = true ∧ Walks fs create n (p ++ [part]) xs q m)) := by
  cases h with
  | stay _ hstays _ => exact absurd hstays hpart.1
  | up _ _ => exact absurd rfl hpart.2
  | link hp _ hnode h => exact ⟨hp, Or.inl ⟨_, _, rfl, hnode, h⟩⟩
  | enter hp _ hnode hlink h => exact ⟨hp, Or.inr (Or.inl ⟨_, hnode, hlink, h⟩)⟩
  | make hp _ hnode hcreate h => exact ⟨hp, Or.inr (Or.inr ⟨hnode, hcreate, h⟩)⟩

theorem nil_inv (h : Walks fs create n p [] q m) : q = p ∧ m = n := by
  cases h
  exact ⟨rfl, rfl⟩

theorem det {m' : ℕ} (h : Walks fs create n p xs q m) (h' : Walks fs create n p xs r m') :
    q = r ∧ m = m' := by
  have heq := h.walk_eq
  rw [h'.walk_eq, Option.some.injEq, Prod.mk.injEq] at heq
  exact ⟨heq.1.symm, heq.2.symm⟩

protected theorem append (h : Walks fs create n p xs q m) (h' : Walks fs create m q ys r k) :
    Walks fs create n p (xs ++ ys) r k := by
  induction h with
  | nil => exact h'
  | stay hp hpart _ ih => exact .stay hp hpart (ih h')
  | up hp _ ih => exact .up hp (ih h')
  | link hp hpart hnode _ ih => exact .link hp hpart hnode (append_assoc .. ▸ ih h')
  | enter hp hpart hnode hlink _ ih => exact .enter hp hpart hnode hlink (ih h')
  | make hp hpart hnode hcreate _ ih => exact .make hp hpart hnode hcreate (ih h')

theorem split (h : Walks fs create n p (xs ++ ys) r k) :
    ∃ q m, Walks fs create n p xs q m ∧ Walks fs create m q ys r k := by
  generalize hzs : xs ++ ys = zs at h
  induction h generalizing xs with
  | nil =>
    obtain ⟨rfl, rfl⟩ := append_eq_nil_iff.mp hzs
    exact ⟨_, _, .nil, .nil⟩
  | stay hp hpart h ih =>
    obtain ⟨rfl, rfl⟩ | ⟨xs, rfl, rfl⟩ := append_eq_cons_iff.mp hzs
    · exact ⟨_, _, .nil, .stay hp hpart h⟩
    · obtain ⟨q, m, hx, hy⟩ := ih rfl
      exact ⟨q, m, .stay hp hpart hx, hy⟩
  | up hp h ih =>
    obtain ⟨rfl, rfl⟩ | ⟨xs, rfl, rfl⟩ := append_eq_cons_iff.mp hzs
    · exact ⟨_, _, .nil, .up hp h⟩
    · obtain ⟨q, m, hx, hy⟩ := ih rfl
      exact ⟨q, m, .up hp hx, hy⟩
  | link hp hpart hnode h ih =>
    obtain ⟨rfl, rfl⟩ | ⟨xs, rfl, rfl⟩ := append_eq_cons_iff.mp hzs
    · exact ⟨_, _, .nil, .link hp hpart hnode h⟩
    · obtain ⟨q, m, hx, hy⟩ := ih (append_assoc ..)
      exact ⟨q, m, .link hp hpart hnode hx, hy⟩
  | enter hp hpart hnode hlink h ih =>
    obtain ⟨rfl, rfl⟩ | ⟨xs, rfl, rfl⟩ := append_eq_cons_iff.mp hzs
    · exact ⟨_, _, .nil, .enter hp hpart hnode hlink h⟩
    · obtain ⟨q, m, hx, hy⟩ := ih rfl
      exact ⟨q, m, .enter hp hpart hnode hlink hx, hy⟩
  | make hp hpart hnode hcreate h ih =>
    obtain ⟨rfl, rfl⟩ | ⟨xs, rfl, rfl⟩ := append_eq_cons_iff.mp hzs
    · exact ⟨_, _, .nil, .make hp hpart hnode hcreate h⟩
    · obtain ⟨q, m, hx, hy⟩ := ih rfl
      exact ⟨q, m, .make hp hpart hnode hcreate hx, hy⟩

theorem le (h : Walks fs create n p xs q m) : m ≤ n := by
  induction h with
  | nil => exact le_refl _
  | link _ _ _ _ ih => exact Nat.le_succ_of_le ih
  | _ => assumption

theorem add (h : Walks fs create n p xs q m) (k : ℕ) :
    Walks fs create (n + k) p xs q (m + k) := by
  induction h with
  | nil => exact .nil
  | stay hp hpart _ ih => exact .stay hp hpart ih
  | up hp _ ih => exact .up hp ih
  | link hp hpart hnode _ ih =>
    rw [Nat.add_right_comm]
    exact .link hp hpart hnode ih
  | enter hp hpart hnode hlink _ ih => exact .enter hp hpart hnode hlink ih
  | make hp hpart hnode hcreate _ ih => exact .make hp hpart hnode hcreate ih

/-- What exists is also found where names may be made. -/
theorem toCreate (h : Walks fs false n p xs q m) : Walks fs true n p xs q m := by
  induction h with
  | nil => exact .nil
  | stay hp hpart _ ih => exact .stay hp hpart ih
  | up hp _ ih => exact .up hp ih
  | link hp hpart hnode _ ih => exact .link hp hpart hnode ih
  | enter hp hpart hnode hlink _ ih => exact .enter hp hpart hnode hlink ih
  | make _ _ _ hcreate _ _ => cases hcreate

/-- Where a path leads does not depend on the budget, nor on whether names may be made. -/
theorem unique {m' : ℕ} (h : Walks fs false n p xs q m) (h' : Walks fs true k p xs r m') :
    q = r := by
  have hadd := h'.add n
  rw [Nat.add_comm] at hadd
  exact ((h.toCreate.add k).det hadd).1

end Walks

/-! ### Resolved places -/

/-- No link stands on the way to the place and no file before it, and its names are names. -/
structure Resolved (fs : Files) (p : Place) : Prop where
  real : ∀ q target, q <+: p → fs.node q ≠ some (.link target)
  dirs : ∀ q, q <+: p → q ≠ p → fs.NotFile q
  names : ∀ name ∈ p, IsName name ∧ SLASH ∉ name

theorem node_append (p q : Place) : fs.node (p ++ q) = (fs.node p).bind fun h => h.under q := by
  unfold node
  generalize Node.dir fs.root = h
  induction p generalizing h with
  | nil => rfl
  | cons name p ih =>
    rw [cons_append, Node.under, Node.under]
    cases h.child name with
    | none => rfl
    | some h' => exact ih h'

theorem node_append_of_none (h : fs.node p = none) (q : Place) : fs.node (p ++ q) = none := by
  rw [node_append, h, Option.bind_none]

theorem notFile_of_node {name : Text} {h : Node} (hnode : fs.node (p ++ [name]) = some h) :
    fs.NotFile p := by
  rintro node hp rfl
  have hchild : Node.file.child name = none := rfl
  rw [node_append, hp, Option.bind_some, Node.under, hchild, Option.bind_none] at hnode
  cases hnode

namespace Resolved

protected theorem nil : Resolved fs [] where
  real := by
    intro q target hq
    rw [prefix_nil.mp hq]
    show some (Node.dir fs.root) ≠ _
    exact fun h => by cases h
  dirs := fun q hq hne => absurd (prefix_nil.mp hq) hne
  names := fun _ h => absurd h not_mem_nil

theorem of_isPrefix (h : Resolved fs p) (hq : q <+: p) : Resolved fs q where
  real := fun r target hr => h.real r target (hr.trans hq)
  dirs := by
    intro r hr hne
    refine h.dirs r (hr.trans hq) ?_
    rintro rfl
    exact hne (hr.eq_of_length (le_antisymm hr.length_le hq.length_le))
  names := fun name hname => h.names name (hq.subset hname)

theorem dropLast (h : Resolved fs p) : Resolved fs p.dropLast := h.of_isPrefix (List.dropLast_prefix p)

theorem snoc (h : Resolved fs p) (hfile : fs.NotFile p) {name : Text} (hname : IsName name)
    (hslash : SLASH ∉ name) (hlink : ∀ target, fs.node (p ++ [name]) ≠ some (.link target)) :
    Resolved fs (p ++ [name]) where
  real := by
    intro q target hq
    obtain rfl | hq := prefix_concat_iff.mp hq
    · exact hlink target
    · exact h.real q target hq
  dirs := by
    intro q hq hne
    obtain rfl | hq := prefix_concat_iff.mp hq
    · exact absurd rfl hne
    · by_cases hqp : q = p
      · rwa [hqp]
      · exact h.dirs q hq hqp
  names := by
    intro x hx
    obtain hx | hx := mem_append.mp hx
    · exact h.names x hx
    · exact mem_singleton.mp hx ▸ ⟨hname, hslash⟩

/-- A resolved place is reached by its own names, if it exists or may be made. -/
theorem walks_self (h : Resolved fs p) (hcreate : create = true ∨ fs.node p ≠ none)
    : Walks fs create n [] p p n := by
  induction p using List.reverseRec with
  | nil => exact .nil
  | append_singleton p name ih =>
    have hpre : p <+: p ++ [name] := prefix_append p [name]
    have hfirst : Walks fs create n [] p p n := by
      refine ih (h.of_isPrefix hpre) ?_
      exact hcreate.imp_right fun hnode hnone => hnode (node_append_of_none hnone [name])
    have hnot : fs.NotFile p := h.dirs p hpre (by simp)
    obtain ⟨hname, -⟩ := h.names name (by simp)
    refine hfirst.append ?_
    cases hnode : fs.node (p ++ [name]) with
    | none => exact .make hnot hname hnode (hcreate.resolve_right (not_not_intro hnode)) .nil
    | some node =>
      refine .enter hnot hname hnode ?_ .nil
      rintro target rfl
      exact h.real _ target (prefix_refl _) hnode

end Resolved

theorem notMem_of_mem_parts {path : Text} : ∀ part ∈ parts path, SLASH ∉ part := by
  induction path with
  | nil => simp [parts]
  | cons b path ih =>
    intro part hpart
    unfold parts at hpart ih
    rw [splitOn_cons_eq_if_modifyHead] at hpart
    by_cases hb : b = SLASH
    · rw [if_pos (by simpa using hb)] at hpart
      obtain rfl | hpart := mem_cons.mp hpart
      · exact not_mem_nil
      · exact ih part hpart
    · rw [if_neg (by simpa using hb)] at hpart
      cases hsplit : List.splitOn SLASH path with
      | nil => exact absurd hsplit (splitOn_ne_nil SLASH path)
      | cons first rest =>
        rw [hsplit] at hpart ih
        obtain rfl | hpart := mem_cons.mp hpart
        · rw [mem_cons, not_or]
          exact ⟨Ne.symm hb, ih first mem_cons_self⟩
        · exact ih part (mem_cons_of_mem _ hpart)

/-- **A walk from a resolved place** ends at one. -/
theorem Walks.resolved (h : Walks fs create n p xs q m) (hp : Resolved fs p)
    (hxs : ∀ part ∈ xs, SLASH ∉ part) : Resolved fs q := by
  induction h with
  | nil => exact hp
  | stay _ _ _ ih => exact ih hp fun part hpart => hxs part (mem_cons_of_mem _ hpart)
  | up _ _ ih => exact ih hp.dropLast fun part hpart => hxs part (mem_cons_of_mem _ hpart)
  | @link n p part target xs q m hfile hname hnode _ ih =>
    refine ih ?_ ?_
    · by_cases habs : Absolute target
      · rw [start, if_pos habs]
        exact Resolved.nil
      · rw [start, if_neg habs]
        exact hp
    · intro x hx
      obtain hx | hx := mem_append.mp hx
      · exact notMem_of_mem_parts x hx
      · exact hxs x (mem_cons_of_mem _ hx)
  | enter hfile hname hnode hlink _ ih =>
    refine ih (hp.snoc hfile hname (hxs _ mem_cons_self) ?_) fun part hpart =>
      hxs part (mem_cons_of_mem _ hpart)
    intro target htarget
    rw [hnode, Option.some.injEq] at htarget
    exact hlink target htarget
  | make hfile hname hnode _ _ ih =>
    refine ih (hp.snoc hfile hname (hxs _ mem_cons_self) ?_) fun part hpart =>
      hxs part (mem_cons_of_mem _ hpart)
    intro target htarget
    rw [hnode] at htarget
    cases htarget

end Files

end HdLang.Grant
