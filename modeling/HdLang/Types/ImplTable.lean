import HdLang.Lib.Merging
import HdLang.Lib.Slices
import HdLang.Types.Matching
import Mathlib.Data.Prod.Lex

/-!
# Impl tables

`HeadKey` and `ImplTable` of `crates/hd_types/src/solver.rs`, and `impl_table` of
`crates/hd_resolve/src/iface.rs`, which builds one. The columns of a table are one list of rows
here, with the columns that candidate lookup reads. The rows of a trait are next to each other
(`by_trait`), and within them the index (`by_key`) groups the rows by head key. `HeadKey.Admits`
says which rows a probe with one key is after, and `Indexed.candidates_eq` that it returns these, in
row order.
-/

namespace HdLang.Types

open List List.Pairwise SortedMap

/-- Why a lookup gives nothing. -/
inductive Panic
  /-- `expect("arity")` -/
  | arity
  deriving DecidableEq, Repr

/-- An impl head's index key. -/
inductive HeadKey
  | ctor (d : DefId)
  | prim (p : Prim)
  | tuple (n : ℕ)
  | tupleAny
  | unionAny
  | fn
  | suspendFn
  | param
  | any
  deriving DecidableEq, Repr

namespace HeadKey

def of : Ty → Except Panic HeadKey
  | .adt d _ => .ok (.ctor d)
  | .traitValue d _ _ => .ok (.ctor d)
  | .prim p => .ok (.prim p)
  | .tuple elems none => if elems.length < 2 ^ 16 then .ok (.tuple elems.length) else .error .arity
  | .tuple _ (some _) => .ok .tupleAny
  | .union _ => .ok .unionAny
  | .fn _ _ _ true _ _ => .ok .suspendFn
  | .fn .. => .ok .fn
  | .mut_ i => of i
  | .param _ => .ok .param
  | .opaque_ .. => .ok .param
  | _ => .ok .any
termination_by structural t => t

/-- `HeadKey::code`: the two halves of the source's number. -/
def code : HeadKey → ℕ ×ₗ ℕ
  | .ctor d => toLex (1, d)
  | .prim p => toLex (2, p.ctorIdx)
  | .tuple n => toLex (3, n)
  | .tupleAny => toLex (4, 0)
  | .unionAny => toLex (5, 0)
  | .fn => toLex (6, 0)
  | .suspendFn => toLex (7, 0)
  | .param => toLex (8, 0)
  | .any => toLex (9, 0)

theorem code_injective : Function.Injective code := by
  have hprim : ∀ p q : Prim, p.ctorIdx = q.ctorIdx → p = q := by
    intro p q h
    cases p <;> cases q <;> first | rfl | exact absurd h (by decide)
  intro k l h
  have hpair := congrArg ofLex h
  cases k <;> cases l <;> simp only [code, ofLex_toLex, Prod.mk.injEq] at hpair <;>
    first
    | rfl
    | exact absurd hpair.1 (by decide)
    | rw [hpair.2]
    | rw [hprim _ _ hpair.2]

/-- The key of a tuple of known arity. -/
def isTuple : HeadKey → Bool
  | .tuple _ => true
  | _ => false

/-- The rows that a probe with `key` is after: those with the key, the parameters and, for a tuple,
the tuples with a rest; with the key of an open type all of them. -/
def Admits (key k : HeadKey) : Prop :=
  key = .any ∨ k = key ∨ k = .param ∨ key.isTuple = true ∧ k = .tupleAny

instance (key k : HeadKey) : Decidable (key.Admits k) :=
  inferInstanceAs (Decidable (_ ∨ _))

end HeadKey

inductive ImplOrigin
  | written
  | derived (template : DefId)
  | delegated (field : ℕ)
  | error
  | numericFamily
  | tupleTemplate
  | unionTemplate
  deriving DecidableEq, Repr

/-- The columns of an impl table at one row. -/
structure Row where
  trait_ : DefId
  def_ : DefId
  headKey : HeadKey
  headSelf : Ty
  headArgs : List Ty
  origin : ImplOrigin
  deriving DecidableEq

/-- The head key that a row has to have. -/
def Row.Keyed (row : Row) : Prop :=
  match row.origin with
  | .tupleTemplate => row.headKey = .tupleAny
  | .unionTemplate => row.headKey = .unionAny
  | _ => HeadKey.of row.headSelf = .ok row.headKey

structure ImplTable where
  rows : List Row
  byTrait : SortedMap DefId (ℕ × ℕ)
  byKey : List ℕ

/-- The rows a head-index probe returns. -/
inductive Rows
  | all (s e : ℕ)
  | buckets (bs : List (List ℕ))

/-- The iteration of `Rows`. -/
def Rows.toList : Rows → List ℕ
  | .all s e => List.range' s (e - s)
  | .buckets bs => Merging.merge bs

namespace ImplTable

open Slices

/-- The head key code at a row. -/
def codeAt (t : ImplTable) (r : ℕ) : ℕ ×ₗ ℕ :=
  match t.rows[r]? with
  | some row => row.headKey.code
  | none => toLex (0, 0)

/-- The order of the rows in the index: by code, then by row. -/
def indexLe (t : ImplTable) (r r' : ℕ) : Prop := toLex (t.codeAt r, r) ≤ toLex (t.codeAt r', r')

instance (t : ImplTable) : DecidableRel t.indexLe := fun _ _ => inferInstanceAs (Decidable (_ ≤ _))

def index (t : ImplTable) : ImplTable :=
  { t with
    byKey := (t.byTrait.entries.map Prod.snd).foldl
      (fun perm range => sortSlice t.indexLe perm range.1 range.2) (List.range t.rows.length) }

def bucket (t : ImplTable) (s e : ℕ) (code : ℕ ×ₗ ℕ) : List ℕ :=
  Slices.bucket t.codeAt (slice t.byKey s e) code

def candidates (t : ImplTable) (trait_ : DefId) (key : HeadKey) : Rows :=
  match t.byTrait.get? trait_ with
  | none => .all 0 0
  | some (s, e) =>
    if key = .any then .all s e
    else
      let param := if key = .param then [] else t.bucket s e HeadKey.param.code
      let tuple := if key.isTuple then t.bucket s e HeadKey.tupleAny.code else []
      .buckets [t.bucket s e key.code, param, tuple]

end ImplTable

/-! ### Building a table -/

/-- What an impl declaration is. -/
inductive ImplKind
  | written
  | delegated
  | template
  | tupleTemplate
  | unionTemplate
  | derivation
  | derived
  | error
  | poison
  deriving DecidableEq, Repr

def ImplKind.isImpl : ImplKind → Bool
  | .template | .poison => false
  | _ => true

/-- An impl declaration; an inherent block has no trait. -/
structure ImplItem where
  trait_ : Option DefId
  def_ : DefId
  selfTy : Ty
  traitArgs : List Ty
  kind : ImplKind

/-- The head key of a row. -/
def ImplItem.headKey (i : ImplItem) : Except Panic HeadKey :=
  match i.kind with
  | .tupleTemplate => .ok .tupleAny
  | .unionTemplate => .ok .unionAny
  | _ => HeadKey.of i.selfTy

/-- The origin of a row. -/
def ImplItem.origin (i : ImplItem) (trait_ : DefId) : ImplOrigin :=
  match i.kind with
  | .tupleTemplate => .tupleTemplate
  | .unionTemplate => .unionTemplate
  | .delegated => .delegated 0
  | .derived | .derivation => .derived trait_
  | .written | .template | .error | .poison => .written

/-- A declaration's row. -/
def ImplItem.row (i : ImplItem) (trait_ : DefId) : Except Panic Row := do
  let headKey ← i.headKey
  pure
    { trait_
      def_ := i.def_
      headKey
      headSelf := i.selfTy
      headArgs := i.traitArgs
      origin := i.origin trait_ }

/-- The declarations that take a row, with their traits. -/
def implRows (impls : List ImplItem) : List (DefId × ImplItem) :=
  impls.filterMap fun i =>
    match i.trait_ with
    | some trait_ => if i.kind.isImpl then some (trait_, i) else none
    | none => none

/-- The order of the rows of a table. -/
def pathLe (pathHash : DefId → ℕ) (a b : DefId × ImplItem) : Prop :=
  toLex (pathHash a.1, pathHash a.2.def_) ≤ toLex (pathHash b.1, pathHash b.2.def_)

instance (pathHash : DefId → ℕ) : DecidableRel (pathLe pathHash) :=
  fun _ _ => inferInstanceAs (Decidable (_ ≤ _))

def implTable (pathHash : DefId → ℕ) (impls : List ImplItem) : Except Panic ImplTable := do
  let rows ← ((implRows impls).insertionSort (pathLe pathHash)).mapM fun (trait_, i) => i.row trait_
  pure (ImplTable.index
    { rows
      byTrait := Slices.ranges (rows.map Row.trait_)
      byKey := [] })

/-! ### What a probe returns -/

namespace ImplTable

open Slices

variable {t : ImplTable} {trait_ : DefId} {key : HeadKey} {r s e : ℕ}

/-- A table that was indexed. -/
structure Indexed (t : ImplTable) : Prop where
  ranged : Ranged (t.rows.map Row.trait_) t.byTrait
  sorted : ∀ {k s e}, t.byTrait.get? k = some (s, e) → (slice t.byKey s e).Pairwise t.indexLe
  perm : ∀ {k s e}, t.byTrait.get? k = some (s, e) →
    (slice t.byKey s e).Perm (List.range' s (e - s))

/-- Row `r` is one that a probe of `trait_` with `key` is after. -/
def Sees (t : ImplTable) (trait_ : DefId) (key : HeadKey) (r : ℕ) : Prop :=
  ∃ row, t.rows[r]? = some row ∧ row.trait_ = trait_ ∧ key.Admits row.headKey

instance (t : ImplTable) (trait_ : DefId) (key : HeadKey) (r : ℕ) :
    Decidable (t.Sees trait_ key r) :=
  match h : t.rows[r]? with
  | none => .isFalse fun ⟨_, hrow, _⟩ => by rw [h] at hrow; cases hrow
  | some row =>
    decidable_of_iff (row.trait_ = trait_ ∧ key.Admits row.headKey)
      ⟨fun hrow => ⟨row, h, hrow⟩, fun ⟨_, hget, hrow⟩ => by
        rw [h] at hget
        cases hget
        exact hrow⟩

theorem slice_range (hle : e ≤ n) : slice (List.range n) s e = List.range' s (e - s) := by
  refine ext_getElem? fun i => ?_
  by_cases hi : s + i < e
  · rw [getElem?_slice hi, getElem?_range (by omega), getElem?_range' (by omega)]
    simp
  · rw [getElem?_eq_none, getElem?_eq_none]
    · rw [length_range']
      omega
    · rw [length_slice, length_range]
      omega

variable {ranges : List (ℕ × ℕ)} {perm : List ℕ}

theorem slice_foldl_of_disjoint {r : ℕ → ℕ → Prop} [DecidableRel r] (he : e ≤ perm.length)
    (hle : ∀ x ∈ ranges, x.1 ≤ x.2 ∧ x.2 ≤ perm.length)
    (hdis : ∀ x ∈ ranges, ∀ i, x.1 ≤ i → i < x.2 → ¬(s ≤ i ∧ i < e)) :
    slice (ranges.foldl (fun perm x => sortSlice r perm x.1 x.2) perm) s e = slice perm s e := by
  induction ranges generalizing perm with
  | nil => rfl
  | cons x ranges ih =>
    obtain ⟨hx, hxl⟩ := hle x mem_cons_self
    have hlen := length_sortSlice r hx (l := perm)
    rw [foldl_cons, ih (hlen.symm ▸ he) (fun y hy => hlen.symm ▸ hle y (mem_cons_of_mem x hy))
      (fun y hy => hdis y (mem_cons_of_mem x hy))]
    exact slice_sortSlice_of_disjoint r hx hxl he (hdis x mem_cons_self)

/-- Sorting parts that are apart from each other sorts each. -/
theorem slice_foldl {r : ℕ → ℕ → Prop} [DecidableRel r]
    (hle : ∀ x ∈ ranges, x.1 ≤ x.2 ∧ x.2 ≤ perm.length)
    (hdis : ranges.Pairwise fun x y => ∀ i, y.1 ≤ i → i < y.2 → ¬(x.1 ≤ i ∧ i < x.2)) {x : ℕ × ℕ}
    (hx : x ∈ ranges) :
    slice (ranges.foldl (fun perm x => sortSlice r perm x.1 x.2) perm) x.1 x.2 =
      (slice perm x.1 x.2).insertionSort r := by
  induction ranges generalizing perm with
  | nil => exact absurd hx not_mem_nil
  | cons y ranges ih =>
    obtain ⟨hy, hrest⟩ := pairwise_cons.mp hdis
    obtain ⟨hyle, hyl⟩ := hle y mem_cons_self
    have hlen := length_sortSlice r hyle (l := perm)
    have hle' : ∀ z ∈ ranges, z.1 ≤ z.2 ∧ z.2 ≤ (sortSlice r perm y.1 y.2).length :=
      fun z hz => hlen.symm ▸ hle z (mem_cons_of_mem y hz)
    rw [foldl_cons]
    obtain rfl | hx := mem_cons.mp hx
    · rw [slice_foldl_of_disjoint (hlen.symm ▸ hyl) hle' hy, slice_sortSlice r hyle hyl]
    · have hxl := (hle x (mem_cons_of_mem y hx)).2
      rw [ih hle' hrest hx, slice_sortSlice_of_disjoint r hyle hyl hxl]
      exact fun i hi hi' hin => hy x hx i hin.1 hin.2 ⟨hi, hi'⟩

/-- **`ImplTable::index`** sorts the rows of each trait. -/
theorem indexed_index (h : Ranged (t.rows.map Row.trait_) t.byTrait) : t.index.Indexed := by
  have hlen : (t.rows.map Row.trait_).length = t.rows.length := length_map ..
  have hrange : ∀ x ∈ t.byTrait.entries.map Prod.snd,
      x.1 ≤ x.2 ∧ x.2 ≤ (range t.rows.length).length := by
    intro x hx
    obtain ⟨⟨k, s, e⟩, hmem, rfl⟩ := mem_map.mp hx
    obtain ⟨hse, hle⟩ := h.le (mem_iff.mp hmem)
    exact ⟨hse.le, by rwa [length_range, ← hlen]⟩
  have hdis : (t.byTrait.entries.map Prod.snd).Pairwise
      fun x y => ∀ i, y.1 ≤ i → i < y.2 → ¬(x.1 ≤ i ∧ i < x.2) := by
    refine pairwise_map.mpr (t.byTrait.sorted.imp_of_mem ?_)
    rintro ⟨k, s, e⟩ ⟨k', s', e'⟩ hmem hmem' hlt i hs' he' hin
    have hget := mem_iff.mp hmem
    have hget' := mem_iff.mp hmem'
    have hi : i < (t.rows.map Row.trait_).length := he'.trans_le (h.le hget').2
    have hat := getElem?_eq_getElem hi
    have heq := (h.iff hget hat).mpr hin
    have heq' := (h.iff hget' hat).mpr ⟨hs', he'⟩
    exact absurd (heq.symm.trans heq') hlt.ne
  have hslice : ∀ {k s e}, t.byTrait.get? k = some (s, e) →
      slice t.index.byKey s e = (range' s (e - s)).insertionSort t.indexLe := by
    intro k s e hget
    have hmem := mem_map_of_mem (f := Prod.snd) (mem_iff.mpr hget)
    have hsorted := slice_foldl (r := t.indexLe) hrange hdis hmem
    have hle := (hrange _ hmem).2
    rw [length_range] at hle
    rwa [slice_range hle] at hsorted
  have : Std.Total t.indexLe := ⟨fun r r' => le_total (toLex (t.codeAt r, r)) _⟩
  have : IsTrans ℕ t.indexLe := ⟨fun _ _ _ => le_trans⟩
  refine ⟨h, fun {k s e} hget => ?_, fun {k s e} hget => ?_⟩
  · rw [hslice hget]
    exact pairwise_insertionSort t.indexLe _
  · rw [hslice hget]
    exact perm_insertionSort t.indexLe _

namespace Indexed

variable (h : t.Indexed)

include h

section Bucket

variable (hget : t.byTrait.get? trait_ = some (s, e))

include hget

theorem mem_range :
    (s ≤ r ∧ r < e) ↔ ∃ row, t.rows[r]? = some row ∧ row.trait_ = trait_ := by
  have hlen : (t.rows.map Row.trait_).length = t.rows.length := length_map ..
  constructor
  · intro hr
    have hlt : r < t.rows.length := by
      rw [← hlen]
      exact hr.2.trans_le (h.ranged.le hget).2
    have hrow : t.rows[r]? = some t.rows[r] := getElem?_eq_getElem hlt
    have hat : (t.rows.map Row.trait_)[r]? = some t.rows[r].trait_ := by
      rw [getElem?_map, hrow, Option.map_some]
    exact ⟨_, hrow, (h.ranged.iff hget hat).mpr hr⟩
  · rintro ⟨row, hrow, heq⟩
    have hat : (t.rows.map Row.trait_)[r]? = some row.trait_ := by
      rw [getElem?_map, hrow, Option.map_some]
    exact (h.ranged.iff hget hat).mp heq

variable {k : HeadKey}

/-- A bucket has the rows of the trait with its code, in order. -/
theorem mem_bucket :
    r ∈ t.bucket s e k.code ↔
      ∃ row, t.rows[r]? = some row ∧ row.trait_ = trait_ ∧ row.headKey = k := by
  have hsorted : (slice t.byKey s e).Pairwise fun r r' => t.codeAt r ≤ t.codeAt r' :=
    (h.sorted hget).imp fun {r r'} hle => (Prod.Lex.toLex_le_toLex.mp hle).elim le_of_lt
      fun heq => heq.1.le
  rw [bucket, bucket_eq_filter t.codeAt hsorted, mem_filter, (h.perm hget).mem_iff, mem_range'_1,
    decide_eq_true_eq]
  have hse := (h.ranged.le hget).1.le
  rw [show s + (e - s) = e by omega, h.mem_range hget]
  constructor
  · rintro ⟨⟨row, hrow, heq⟩, hcode⟩
    rw [codeAt, hrow] at hcode
    exact ⟨row, hrow, heq, HeadKey.code_injective hcode⟩
  · rintro ⟨row, hrow, heq, rfl⟩
    refine ⟨⟨row, hrow, heq⟩, ?_⟩
    rw [codeAt, hrow]

theorem pairwise_bucket (k : HeadKey) :
    (t.bucket s e k.code).Pairwise (· < ·) := by
  have hsorted : (slice t.byKey s e).Pairwise fun r r' => t.codeAt r ≤ t.codeAt r' :=
    (h.sorted hget).imp fun {r r'} hle => (Prod.Lex.toLex_le_toLex.mp hle).elim le_of_lt
      fun heq => heq.1.le
  have hnodup : (slice t.byKey s e).Nodup := (h.perm hget).nodup_iff.mpr nodup_range'
  rw [bucket, bucket_eq_filter t.codeAt hsorted]
  have hboth := (h.sorted hget).and hnodup
  refine (pairwise_filter.mpr (hboth.imp ?_))
  rintro r r' ⟨hle, hne⟩ hr hr'
  rw [decide_eq_true_eq] at hr hr'
  rcases Prod.Lex.toLex_le_toLex.mp hle with hlt | ⟨_, hle⟩
  · change t.codeAt r < t.codeAt r' at hlt
    rw [hr, hr'] at hlt
    exact absurd hlt (lt_irrefl _)
  · exact lt_of_le_of_ne hle hne

/-- The rows of a probe with a key that is not open, bucket by bucket. -/
theorem mem_buckets (hkey : key ≠ .any) :
    (r ∈ t.bucket s e key.code ∨
      r ∈ (if key = .param then [] else t.bucket s e HeadKey.param.code) ∨
      r ∈ if key.isTuple then t.bucket s e HeadKey.tupleAny.code else []) ↔
      t.Sees trait_ key r := by
  have hparam : r ∈ (if key = .param then [] else t.bucket s e HeadKey.param.code) ↔
      key ≠ .param ∧ r ∈ t.bucket s e HeadKey.param.code := by
    split <;> simp [*]
  have htuple : (r ∈ if key.isTuple then t.bucket s e HeadKey.tupleAny.code else []) ↔
      key.isTuple = true ∧ r ∈ t.bucket s e HeadKey.tupleAny.code := by
    split <;> simp [*]
  rw [hparam, htuple, h.mem_bucket hget, h.mem_bucket hget, h.mem_bucket hget]
  constructor
  · rintro (⟨row, hrow, heq, hk⟩ | ⟨_, row, hrow, heq, hk⟩ | ⟨ht, row, hrow, heq, hk⟩)
    · exact ⟨row, hrow, heq, .inr (.inl hk)⟩
    · exact ⟨row, hrow, heq, .inr (.inr (.inl hk))⟩
    · exact ⟨row, hrow, heq, .inr (.inr (.inr ⟨ht, hk⟩))⟩
  · rintro ⟨row, hrow, heq, hk | hk | hk | hk⟩
    · exact absurd hk hkey
    · exact .inl ⟨row, hrow, heq, hk⟩
    · by_cases hp : key = .param
      · exact .inl ⟨row, hrow, heq, hk.trans hp.symm⟩
      · exact .inr (.inl ⟨hp, row, hrow, heq, hk⟩)
    · exact .inr (.inr ⟨hk.1, row, hrow, heq, hk.2⟩)

theorem disjoint_bucket {k' : HeadKey} (hne : k ≠ k')
    : (t.bucket s e k.code).Disjoint (t.bucket s e k'.code) := by
  intro r hr hr'
  obtain ⟨row, hrow, _, hk⟩ := (h.mem_bucket hget).mp hr
  obtain ⟨row', hrow', _, hk'⟩ := (h.mem_bucket hget).mp hr'
  rw [hrow] at hrow'
  cases hrow'
  exact hne (hk.symm.trans hk')

theorem pairwise_buckets :
    (Merging.merge [t.bucket s e key.code,
      (if key = .param then [] else t.bucket s e HeadKey.param.code),
      (if key.isTuple then t.bucket s e HeadKey.tupleAny.code else [])]).Pairwise (· < ·) := by
  have hle : ∀ k : HeadKey, (t.bucket s e k.code).Pairwise (· ≤ ·) := fun k =>
    (h.pairwise_bucket hget k).imp le_of_lt
  have hnodup : ∀ k : HeadKey, (t.bucket s e k.code).Nodup := fun k =>
    (h.pairwise_bucket hget k).imp fun hlt => ne_of_lt hlt
  refine Merging.pairwise_lt_merge (fun l hl => ?_) ?_
  · simp only [mem_cons, not_mem_nil, or_false] at hl
    rcases hl with rfl | rfl | rfl
    · exact hle key
    · split
      · exact nil
      · exact hle _
    · split
      · exact hle _
      · exact nil
  · simp only [flatten_cons, flatten_nil, append_nil]
    by_cases hp : key = .param
    · subst hp
      simpa [HeadKey.isTuple] using hnodup .param
    · rw [if_neg hp]
      by_cases ht : key.isTuple = true
      · have hany : key ≠ .tupleAny := fun heq => by rw [heq] at ht; cases ht
        rw [if_pos ht, nodup_append', nodup_append']
        refine ⟨hnodup key, ⟨hnodup _, hnodup _, h.disjoint_bucket hget (by decide)⟩, ?_⟩
        rw [disjoint_append_right]
        exact ⟨h.disjoint_bucket hget hp, h.disjoint_bucket hget hany⟩
      · rw [if_neg ht, append_nil, nodup_append']
        exact ⟨hnodup key, hnodup _, h.disjoint_bucket hget hp⟩

end Bucket

/-- **The candidates of a table** are the rows that the probe is after, in row order. -/
theorem candidates_eq (trait_ : DefId) (key : HeadKey) :
    (t.candidates trait_ key).toList =
      (List.range t.rows.length).filter fun r => t.Sees trait_ key r := by
  have hright : ((List.range t.rows.length).filter fun r => t.Sees trait_ key r).Pairwise
      (· < ·) := pairwise_lt_range.filter _
  have hmem : ∀ r, r ∈ ((List.range t.rows.length).filter fun r => t.Sees trait_ key r) ↔
      t.Sees trait_ key r := by
    intro r
    rw [mem_filter, List.mem_range, decide_eq_true_eq, and_iff_right_iff_imp]
    rintro ⟨row, hrow, _⟩
    exact (List.getElem?_eq_some_iff.mp hrow).1
  -- two strictly ascending lists with the same members are the same list
  have hext : ∀ l : List ℕ, l.Pairwise (· < ·) → (∀ r, r ∈ l ↔ t.Sees trait_ key r) →
      l = (List.range t.rows.length).filter fun r => t.Sees trait_ key r := by
    intro l hl hl'
    refine List.Perm.eq_of_pairwise (fun a b _ _ hab hba => absurd hab (lt_asymm hba)) hl hright ?_
    refine (perm_ext_iff_of_nodup (hl.imp fun h => ne_of_lt h)
      (hright.imp fun h => ne_of_lt h)).mpr fun r => ?_
    rw [hl', hmem]
  unfold ImplTable.candidates
  cases hget : t.byTrait.get? trait_ with
  | none =>
    refine hext _ nil fun r => ⟨fun hr => absurd hr not_mem_nil, ?_⟩
    rintro ⟨row, hrow, heq, _⟩
    have hmem := mem_map_of_mem (f := Row.trait_) (mem_of_getElem? hrow)
    rw [heq] at hmem
    exact absurd hmem (h.ranged.none hget)
  | some range =>
    obtain ⟨s, e⟩ := range
    have hse := (h.ranged.le hget).1.le
    dsimp only
    split
    · next hkey =>
      refine hext _ pairwise_lt_range' fun r => ?_
      rw [Rows.toList, mem_range'_1, show s + (e - s) = e by omega, h.mem_range hget]
      constructor
      · rintro ⟨row, hrow, heq⟩
        exact ⟨row, hrow, heq, .inl hkey⟩
      · rintro ⟨row, hrow, heq, _⟩
        exact ⟨row, hrow, heq⟩
    · next hkey =>
      refine hext _ (h.pairwise_buckets hget) fun r => ?_
      change r ∈ Merging.merge _ ↔ _
      rw [(Merging.merge_perm _).mem_iff, ← h.mem_buckets hget hkey]
      simp only [flatten_cons, flatten_nil, append_nil, mem_append]

end Indexed

end ImplTable

/-! ### The tables that `impl_table` builds -/

theorem forall₂_of_mapM {ε α β : Type} {f : α → Except ε β} {l : List α} {l' : List β}
    (h : l.mapM f = .ok l') : List.Forall₂ (fun a b => f a = .ok b) l l' := by
  induction l generalizing l' with
  | nil =>
    obtain rfl := Except.ok.inj h
    exact .nil
  | cons a l ih =>
    rw [mapM_cons] at h
    cases ha : f a with
    | error e =>
      rw [ha] at h
      cases h
    | ok b =>
      rw [ha] at h
      cases hl : l.mapM f with
      | error e =>
        rw [hl] at h
        cases h
      | ok bs =>
        rw [hl] at h
        obtain rfl := Except.ok.inj h
        exact .cons ha (ih hl)

variable {i : ImplItem} {row : Row}

theorem ImplItem.row_spec {trait_ : DefId} (h : i.row trait_ = .ok row) :
    row.trait_ = trait_ ∧ row.def_ = i.def_ ∧ row.Keyed := by
  unfold ImplItem.row at h
  cases hk : i.headKey with
  | error e =>
    rw [hk] at h
    cases h
  | ok k =>
    rw [hk] at h
    obtain rfl := Except.ok.inj h
    refine ⟨rfl, rfl, ?_⟩
    unfold ImplItem.headKey at hk
    unfold Row.Keyed ImplItem.origin
    cases hkind : i.kind <;> rw [hkind] at hk <;> simp_all

variable {impls : List ImplItem}

theorem mem_implRows {trait_ : DefId} :
    (trait_, i) ∈ implRows impls ↔ i ∈ impls ∧ i.trait_ = some trait_ ∧ i.kind.isImpl = true := by
  unfold implRows
  rw [mem_filterMap]
  constructor
  · rintro ⟨i', hi', hpick⟩
    split at hpick
    · next htrait =>
      split at hpick
      · next himpl =>
        cases hpick
        exact ⟨hi', htrait, himpl⟩
      · cases hpick
    · cases hpick
  · rintro ⟨hi, htrait, himpl⟩
    refine ⟨i, hi, ?_⟩
    rw [htrait]
    exact if_pos himpl

variable {pathHash : DefId → ℕ}

/-- The rows of a table that `impl_table` builds, beside the declarations they are of. -/
theorem rows_implTable {t : ImplTable} (h : implTable pathHash impls = .ok t) :
    List.Forall₂ (fun x row => x.2.row x.1 = .ok row)
      ((implRows impls).insertionSort (pathLe pathHash)) t.rows ∧
      t.byTrait = Slices.ranges (t.rows.map Row.trait_) ∧ t = t.index := by
  unfold implTable at h
  cases hrows : ((implRows impls).insertionSort (pathLe pathHash)).mapM
      fun (trait_, i) => i.row trait_ with
  | error e =>
    rw [hrows] at h
    cases h
  | ok rows =>
    rw [hrows] at h
    obtain rfl := Except.ok.inj h
    exact ⟨forall₂_of_mapM hrows, rfl, rfl⟩

/-- **The rows of a table** are those of the declarations that take one. -/
theorem mem_implTable {t : ImplTable} (h : implTable pathHash impls = .ok t) :
    row ∈ t.rows ↔ ∃ i ∈ impls, i.trait_ = some row.trait_ ∧ i.kind.isImpl = true ∧
      i.row row.trait_ = .ok row := by
  obtain ⟨hall, -⟩ := rows_implTable h
  constructor
  · intro hrow
    obtain ⟨j, hj, rfl⟩ := mem_iff_getElem.mp hrow
    have hj' := hall.length_eq ▸ hj
    have heq := List.Forall₂.get hall hj' hj
    have hmem := getElem_mem hj'
    rw [mem_insertionSort] at hmem
    obtain ⟨hi, htrait, himpl⟩ := mem_implRows.mp hmem
    have hrowTrait := (ImplItem.row_spec heq).1
    simp only [get_eq_getElem] at heq hrowTrait
    exact ⟨_, hi, hrowTrait ▸ htrait, himpl, hrowTrait ▸ heq⟩
  · rintro ⟨i, hi, htrait, himpl, hrow⟩
    have hmem : (row.trait_, i) ∈ (implRows impls).insertionSort (pathLe pathHash) := by
      rw [mem_insertionSort]
      exact mem_implRows.mpr ⟨hi, htrait, himpl⟩
    obtain ⟨j, hj, heq⟩ := mem_iff_getElem.mp hmem
    have hj' := hall.length_eq ▸ hj
    have hget := List.Forall₂.get hall hj hj'
    simp only [get_eq_getElem, heq, hrow] at hget
    exact Except.ok.inj hget ▸ getElem_mem hj'

theorem keyed_implTable {t : ImplTable} (h : implTable pathHash impls = .ok t)
    : ∀ row ∈ t.rows, row.Keyed := by
  intro row hrow
  obtain ⟨i, -, -, -, heq⟩ := (mem_implTable h).mp hrow
  exact (ImplItem.row_spec heq).2.2

/-- **A table that `impl_table` builds** is indexed. -/
theorem indexed_implTable (hinj : Function.Injective pathHash) {t : ImplTable}
    (h : implTable pathHash impls = .ok t) : t.Indexed := by
  obtain ⟨hall, hranges, hindex⟩ := rows_implTable h
  have htraits : ∀ {l : List (DefId × ImplItem)} {rows : List Row},
      List.Forall₂ (fun x row => x.2.row x.1 = .ok row) l rows →
        rows.map Row.trait_ = l.map Prod.fst := by
    intro l rows hall
    induction hall with
    | nil => rfl
    | cons hrow _ ih => rw [map_cons, map_cons, ih, (ImplItem.row_spec hrow).1]
  have : Std.Total (pathLe pathHash) := ⟨fun a b => le_total (toLex (pathHash a.1, _)) _⟩
  have : IsTrans (DefId × ImplItem) (pathLe pathHash) := ⟨fun _ _ _ => le_trans⟩
  have hsorted : (t.rows.map Row.trait_).Pairwise fun a b => pathHash a ≤ pathHash b := by
    rw [htraits hall]
    refine pairwise_map.mpr ((pairwise_insertionSort (pathLe pathHash) _).imp ?_)
    intro a b hab
    exact (Prod.Lex.toLex_le_toLex.mp hab).elim le_of_lt fun heq => heq.1.le
  rw [hindex]
  refine ImplTable.indexed_index ?_
  rw [hranges]
  exact Slices.ranged_ranges (Slices.grouped_of_pairwise (fun a _ b _ hab => hinj hab) hsorted)

end HdLang.Types
