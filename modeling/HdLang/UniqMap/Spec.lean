import HdLang.Lib.AssocList

/-!
# What a `UniqMap` is for

The operations of an insertion-ordered map, on an association list: what each replies, the entries it
leaves and the values it drops. Where a value goes is told apart from what the list holds: `Op.takes`
and `Op.gives` are the values an operation moves in and out, of which a borrowed place counts as one
value out and one in. Every value is somewhere, once (`Op.perm_effect`).
-/

namespace HdLang.UniqMap

open AssocList

variable {K V : Type}

inductive Op (K V : Type)
  | len
  | isEmpty
  | getRef (key : K)
  /-- With a borrower that leaves `f value` in the place of `value`. -/
  | getMut (key : K) (f : V → V)
  | getOrInsert (key : K) (default : V) (f : V → V)
  | containsKey (key : K)
  | insert (key : K) (value : V)
  | remove (key : K)
  /-- `keep` answers its calls in turn: whether the value stays, and what it leaves of it. -/
  | retain (keep : ℕ → K → V → Bool × V)
  | reserve (additional : ℕ)
  | extend (other : List (K × V))
  | clear
  /-- So many calls of the cursor's `next`. -/
  | iter (count : ℕ)
  | drain (count : ℕ)

inductive Reply (K V : Type)
  | none
  | flag (answer : Bool)
  | count (n : ℕ)
  | value (found : Option V)
  /-- What the calls of `next` gave. -/
  | entries (given : List (Option (K × V)))
  /-- What `keep` was called with. -/
  | visited (calls : List (K × V))
  deriving DecidableEq, Repr

/-- What an operation does. -/
structure Effect (K V : Type) where
  reply : Reply K V
  entries : List (K × V)
  dropped : List V

/-- The entries that `keep` accepts, as it leaves them. -/
def kept (keep : ℕ → K → V → Bool × V) : (calls : ℕ) → List (K × V) → List (K × V)
  | _, [] => []
  | calls, (key, value) :: l =>
    if (keep calls key value).1 then (key, (keep calls key value).2) :: kept keep (calls + 1) l
    else kept keep (calls + 1) l

/-- The values that `keep` refuses, as it leaves them. -/
def refused (keep : ℕ → K → V → Bool × V) : (calls : ℕ) → List (K × V) → List V
  | _, [] => []
  | calls, (key, value) :: l =>
    if (keep calls key value).1 then refused keep (calls + 1) l
    else (keep calls key value).2 :: refused keep (calls + 1) l

/-- What `keep` leaves of the values. -/
def left (keep : ℕ → K → V → Bool × V) : (calls : ℕ) → List (K × V) → List V
  | _, [] => []
  | calls, (key, value) :: l => (keep calls key value).2 :: left keep (calls + 1) l

/-- What `count` calls of a cursor's `next` give. -/
def firsts : (count : ℕ) → List (K × V) → List (Option (K × V))
  | 0, _ => []
  | count + 1, l => l.head? :: firsts count l.tail

/-- The values among what a cursor gave. -/
def valuesOf (given : List (Option (K × V))) : List V := values (given.filterMap id)

variable [BEq K]

/-- The entries after `other` was inserted in turn. -/
def extended : (other l : List (K × V)) → List (K × V)
  | [], l => l
  | (key, value) :: other, l => extended other (AssocList.insert key value l)

/-- The values that inserting `other` in turn replaces. -/
def replaced : (other l : List (K × V)) → List V
  | [], _ => []
  | (key, value) :: other, l =>
    (lookup key l).toList ++ replaced other (AssocList.insert key value l)

def Op.effect (l : List (K × V)) : Op K V → Effect K V
  | .len => ⟨.count l.length, l, []⟩
  | .isEmpty => ⟨.flag l.isEmpty, l, []⟩
  | .getRef key => ⟨.value (lookup key l), l, []⟩
  | .getMut key f =>
    match lookup key l with
    | some value => ⟨.value (some value), replace key (f value) l, []⟩
    | none => ⟨.value none, l, []⟩
  | .getOrInsert key default f =>
    match lookup key l with
    | some value => ⟨.value (some value), replace key (f value) l, [default]⟩
    | none => ⟨.value (some default), l ++ [(key, f default)], []⟩
  | .containsKey key => ⟨.flag (lookup key l).isSome, l, []⟩
  | .insert key value => ⟨.value (lookup key l), AssocList.insert key value l, []⟩
  | .remove key => ⟨.value (lookup key l), erase key l, []⟩
  | .retain keep => ⟨.visited l, kept keep 0 l, refused keep 0 l⟩
  | .reserve _ => ⟨.none, l, []⟩
  | .extend other => ⟨.none, extended other l, replaced other l⟩
  | .clear => ⟨.none, [], values l⟩
  | .iter count => ⟨.entries (firsts count l), l, []⟩
  | .drain count => ⟨.entries (firsts count l), [], values (l.drop count)⟩

omit [BEq K] in
/-- The values that an operation with this reply moves in. -/
def Op.takes : Op K V → Reply K V → List V
  | .getMut _ f, .value found => found.toList.map f
  | .getOrInsert _ default f, .value found => default :: found.toList.map f
  | .insert _ value, _ => [value]
  | .retain keep, .visited calls => left keep 0 calls
  | .extend other, _ => values other
  | _, _ => []

omit [BEq K] in
/-- The values that an operation with this reply moves out. -/
def Op.gives : Op K V → Reply K V → List V
  | .getMut _ _, .value found => found.toList
  | .getOrInsert _ _ _, .value found => found.toList
  | .insert _ _, .value found => found.toList
  | .remove _, .value found => found.toList
  | .retain _, .visited calls => values calls
  | .drain _, .entries given => valuesOf given
  | _, _ => []

/-! ### No value is lost -/

section Values

variable {l : List (K × V)} {keep : ℕ → K → V → Bool × V}

omit [BEq K] in
theorem perm_kept (calls : ℕ) :
    (left keep calls l).Perm (refused keep calls l ++ values (kept keep calls l)) := by
  induction l generalizing calls with
  | nil => exact .nil
  | cons entry l ih =>
    obtain ⟨key, value⟩ := entry
    rw [left, refused, kept]
    by_cases haccept : (keep calls key value).1 = true
    · rw [if_pos haccept, if_pos haccept]
      exact ((ih (calls + 1)).cons _).trans List.perm_middle.symm
    · rw [if_neg haccept, if_neg haccept]
      exact (ih (calls + 1)).cons _

omit [BEq K] in
theorem values_firsts (count : ℕ) : valuesOf (firsts count l) ++ values (l.drop count) = values l := by
  induction count generalizing l with
  | zero => rfl
  | succ count ih =>
    cases l with
    | nil =>
      have hnil := ih (l := [])
      rw [List.drop_nil] at hnil
      exact hnil
    | cons entry l => exact congrArg (entry.2 :: ·) (ih (l := l))

theorem perm_extended (other : List (K × V)) :
    (values other ++ values l).Perm (replaced other l ++ values (extended other l)) := by
  induction other generalizing l with
  | nil => exact .refl _
  | cons entry other ih =>
    obtain ⟨key, value⟩ := entry
    rw [replaced, extended, List.append_assoc]
    calc (value :: (values other ++ values l)).Perm (values other ++ value :: values l) :=
          List.perm_middle.symm
      _ |>.Perm (values other ++ ((lookup key l).toList ++ values (AssocList.insert key value l))) :=
          perm_insert.append_left _
      _ |>.Perm ((lookup key l).toList ++ (values other ++ values (AssocList.insert key value l))) := by
          rw [← List.append_assoc, ← List.append_assoc]
          exact List.perm_append_comm.append_right _
      _ |>.Perm _ := ih.append_left _

end Values

/-- What an operation moves in is moved out, dropped or in the map afterwards. -/
theorem Op.perm_effect (op : Op K V) (l : List (K × V)) :
    (op.takes (op.effect l).reply ++ values l).Perm
      (op.gives (op.effect l).reply ++ (op.effect l).dropped ++ values (op.effect l).entries) := by
  cases op with
  | len => exact .refl _
  | isEmpty => exact .refl _
  | getRef key => exact .refl _
  | containsKey key => exact .refl _
  | reserve additional => exact .refl _
  | iter count => exact .refl _
  | getMut key f =>
    rcases hvalue : lookup key l with _ | value
    · simp only [Op.effect, hvalue]
      exact .refl _
    · simp only [Op.effect, hvalue]
      exact perm_replace hvalue
  | getOrInsert key default f =>
    rcases hvalue : lookup key l with _ | value
    · simp only [Op.effect, hvalue]
      have happend : (values (l ++ [(key, f default)])).Perm (f default :: values l) := by
        unfold values
        rw [List.map_append]
        exact List.perm_append_singleton _ _
      exact (happend.symm.cons default)
    · simp only [Op.effect, hvalue]
      exact ((perm_replace hvalue).cons default).trans (.swap _ _ _)
  | insert key value =>
    show (value :: values l).Perm
      ((lookup key l).toList ++ [] ++ values (AssocList.insert key value l))
    rw [List.append_nil]
    exact perm_insert
  | remove key =>
    rcases hvalue : lookup key l with _ | value
    · have hnone : erase key l = l := by
        rcases splits_or key l with hmiss | ⟨before, k, value, after, hsplit⟩
        · exact List.eraseP_of_forall_not fun entry hentry => by
            rw [hmiss entry hentry]
            exact Bool.false_ne_true
        · exact nomatch hvalue.symm.trans hsplit.lookup_eq
      simp only [Op.effect, hvalue, hnone]
      exact .refl _
    · simp only [Op.effect, hvalue]
      exact perm_erase hvalue
  | retain keep =>
    show (left keep 0 l ++ values l).Perm (values l ++ refused keep 0 l ++ values (kept keep 0 l))
    rw [List.append_assoc]
    exact List.perm_append_comm.trans ((perm_kept 0).append_left _)
  | extend other => exact perm_extended other
  | clear =>
    show (values l).Perm (values l ++ [])
    rw [List.append_nil]
  | drain count =>
    show (values l).Perm (valuesOf (firsts count l) ++ values (l.drop count) ++ [])
    rw [List.append_nil, values_firsts]

end HdLang.UniqMap
