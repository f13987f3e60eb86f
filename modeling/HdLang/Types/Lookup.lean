import HdLang.Lib.Firsts
import HdLang.Types.ImplTable

/-!
# Owner lookup

`crates/hd_types/src/lookup.rs`: where a goal's candidates come from. A folder's rows are read when
the folder owns the goal's trait, its self type or an argument; the rows that no owner folder holds
are merged per impl universe, and so are those owned through an argument only (the directory).

The id of the own table is none of a folder's.
-/

namespace HdLang.Types

open List HeadKey

abbrev FolderId := ℕ

/-- A table's id: `OWN_TABLE` or `folder_table`. -/
inductive TableId
  | own
  | folder (f : FolderId)
  deriving DecidableEq, Repr

/-- A row of an impl table. -/
@[ext] structure ImplRef where
  table : TableId
  row : ℕ
  deriving DecidableEq, Repr

/-! ### Owners -/

/-- The declaration paths: which are modules or packages, and what each is declared in. -/
structure Paths where
  isModule : ℕ → Bool
  parent : ℕ → Option ℕ
  parent_lt : ∀ {p q}, parent p = some q → q < p

namespace Paths

/-- The module of a path, `fuel` steps up at most. -/
def moduleFrom (paths : Paths) : ℕ → ℕ → Option ℕ
  | 0, _ => none
  | fuel + 1, p =>
    if paths.isModule p then some p
    else
      match paths.parent p with
      | none => none
      | some q => moduleFrom paths fuel q

/-- The module that a definition is declared in: the loop of `OwnerMap::owner`. -/
def module_ (paths : Paths) (d : DefId) : Option ℕ := paths.moduleFrom (d + 1) d

end Paths

/-- Which folder declares what: module to folder. -/
structure OwnerMap where
  byModule : ℕ → Option FolderId

def stripMut : Ty → Ty
  | .mut_ i => i
  | t => t

namespace OwnerMap

def owner (owners : OwnerMap) (paths : Paths) (d : DefId) : Option FolderId :=
  (paths.module_ d).bind owners.byModule

def ownerOfTy (owners : OwnerMap) (paths : Paths) (t : Ty) : Option FolderId :=
  match stripMut t with
  | .adt d _ => owners.owner paths d
  | .traitValue d _ _ => owners.owner paths d
  | _ => none

end OwnerMap

def openArg (t : Ty) : Bool :=
  match stripMut t with
  | .infer _ | .canon _ | .poison => true
  | _ => false

/-! ### Folders -/

/-- How owner lookup reaches a row. -/
inductive Reach
  | owner
  | arg
  | unowned
  deriving DecidableEq, Repr

structure FolderImpls where
  table : ImplTable
  argImpls : List ℕ
  unowned : List ℕ

/-- How owner lookup reaches a row of a folder: the body of the loop of `FolderImpls::new`. -/
def Row.reach (owners : OwnerMap) (paths : Paths) (folder : FolderId) (row : Row) : Reach :=
  if owners.owner paths row.trait_ = some folder ∨
      owners.ownerOfTy paths row.headSelf = some folder then .owner
  else if row.headArgs.any fun a => owners.ownerOfTy paths a = some folder then .arg
  else .unowned

namespace FolderImpls

/-- The rows that owner lookup reaches in one way. -/
def section_ (owners : OwnerMap) (paths : Paths) (folder : FolderId) (table : ImplTable)
    (reach : Reach) : List ℕ :=
  (List.range table.rows.length).filter fun r =>
    table.rows[r]?.any fun row => row.reach owners paths folder = reach

def new (owners : OwnerMap) (paths : Paths) (folder : FolderId) (table : ImplTable) :
    FolderImpls where
  table
  argImpls := section_ owners paths folder table .arg
  unowned := section_ owners paths folder table .unowned

def inUniverse (fi : FolderImpls) : Bool := !fi.argImpls.isEmpty || !fi.unowned.isEmpty

end FolderImpls

/-! ### Rows of several tables -/

/-- A table's place in the candidate order. -/
def TableId.position : TableId → ℕ
  | .own => 0
  | .folder f => f + 1

/-- The candidate order. -/
def ImplRef.le (r r' : ImplRef) : Prop :=
  toLex (r.table.position, r.row) ≤ toLex (r'.table.position, r'.row)

instance : DecidableRel ImplRef.le := fun _ _ => inferInstanceAs (Decidable (_ ≤ _))

/-- An entry of a `RefTable`. -/
structure RefRow where
  trait_ : DefId
  code : ℕ ×ₗ ℕ
  ref : ImplRef

/-- The order of the entries of a `RefTable`. -/
def RefRow.le (a b : RefRow) : Prop :=
  toLex (a.trait_, toLex (a.code, toLex (a.ref.table.position, a.ref.row))) ≤
    toLex (b.trait_, toLex (b.code, toLex (b.ref.table.position, b.ref.row)))

instance : DecidableRel RefRow.le := fun _ _ => inferInstanceAs (Decidable (_ ≤ _))

structure RefTable where
  rows : List RefRow
  byTrait : SortedMap DefId (ℕ × ℕ)

namespace RefTable

def build (rows : List RefRow) : RefTable where
  rows := rows.insertionSort RefRow.le
  byTrait := Slices.ranges ((rows.insertionSort RefRow.le).map RefRow.trait_)

def bucket (t : RefTable) (s e : ℕ) (code : ℕ ×ₗ ℕ) : List RefRow :=
  Slices.bucket RefRow.code (Slices.slice t.rows s e) code

def buckets (t : RefTable) (trait_ : DefId) (key : HeadKey) : List (List RefRow) :=
  match t.byTrait.get? trait_ with
  | none => [[], [], []]
  | some (s, e) =>
    if key = .any then [Slices.slice t.rows s e, [], []]
    else
      let param := if key = .param then [] else t.bucket s e HeadKey.param.code
      let tuple := if key.isTuple then t.bucket s e HeadKey.tupleAny.code else []
      [t.bucket s e key.code, param, tuple]

def candidates (t : RefTable) (trait_ : DefId) (key : HeadKey) : List ImplRef :=
  (t.buckets trait_ key).flatten.map RefRow.ref

end RefTable

structure UniverseImpls where
  unowned : RefTable
  directory : RefTable

namespace UniverseImpls

/-- A row of a folder's table, as an entry. -/
def entry (f : FolderId) (t : ImplTable) (r : ℕ) : Option RefRow :=
  t.rows[r]?.map fun row => ⟨row.trait_, row.headKey.code, ⟨.folder f, r⟩⟩

def new (folders : List (FolderId × FolderImpls)) : UniverseImpls where
  unowned := RefTable.build (folders.flatMap fun (f, fi) => fi.unowned.filterMap (entry f fi.table))
  directory :=
    RefTable.build (folders.flatMap fun (f, fi) => fi.argImpls.filterMap (entry f fi.table))

end UniverseImpls

/-- The rows a probe read whose visibility the impl universe decides. -/
structure UniverseReads where
  dir : Bool
  unowned : Bool
  deriving DecidableEq, Repr

/-- `ImplView`: a solving context's view of the impls. -/
structure ImplView where
  paths : Paths
  owners : OwnerMap
  own : Option ImplTable
  /-- By folder id: a folder of the closure. -/
  folders : List (Option FolderImpls)
  extra : UniverseImpls
  /-- Block-local impls that the context does not see. -/
  hidden : List DefId

/-- Where the solver reads impls. -/
inductive Impls
  | all (tables : List (TableId × ImplTable))
  | owned (v : ImplView)

/-- The impl of a row. -/
def implOf (x : ImplRef × ImplTable) : Option DefId := x.2.rows[x.1.row]?.map Row.def_

def oneRowPerImpl (rows : List (ImplRef × ImplTable)) : List (ImplRef × ImplTable) :=
  Firsts.firsts implOf rows

namespace ImplView

/-- A folder of the closure. -/
def folder (v : ImplView) (f : FolderId) : Option FolderImpls := v.folders[f]?.join

/-- `Impls::table`, of one context. -/
def table (v : ImplView) : TableId → Option ImplTable
  | .own => v.own
  | .folder f => (v.folder f).map FolderImpls.table

/-- The folders that own the goal's trait, its self type or an argument. -/
def ownersOf (v : ImplView) (trait_ : DefId) (selfTy : Ty) (args : List Ty) : List FolderId :=
  SortedSet.ofList (· ≤ ·) ((v.owners.owner v.paths trait_).toList ++
    (v.owners.ownerOfTy v.paths selfTy).toList ++
    args.flatMap fun a => (v.owners.ownerOfTy v.paths a).toList)

/-- The candidates of one table. -/
def refsOf (m : TableId) (t : ImplTable) (trait_ : DefId) (key : HeadKey) : List ImplRef :=
  (t.candidates trait_ key).toList.map fun row => ⟨m, row⟩

/-- What the owners' tables have: the own table's candidates, and the owner folders'. -/
def ownedRefs (v : ImplView) (trait_ : DefId) (key : HeadKey) (owners : List FolderId) :
    List ImplRef :=
  (v.own.toList.flatMap fun t => refsOf .own t trait_ key) ++
    owners.flatMap fun f =>
      (v.folder f).toList.flatMap fun fi => refsOf (.folder f) fi.table trait_ key

/-- The rows that are sorted and looked up at last: each impl once, and none that is hidden. -/
def pick (v : ImplView) (refs : List ImplRef) : List (ImplRef × ImplTable) :=
  let refs := SortedSet.ofList ImplRef.le refs
  let rows := oneRowPerImpl (refs.filterMap fun r => (v.table r.table).map fun t => (r, t))
  rows.filter fun x => (implOf x).all fun d => d ∉ v.hidden

end ImplView

def Impls.candidates (impls : Impls) (trait_ : DefId) (selfTy : Ty) (args : List Ty) (open_ : Bool)
    (seen : UniverseReads) : Except Panic (List (ImplRef × ImplTable) × UniverseReads) :=
  match HeadKey.of selfTy with
  | .error e => .error e
  | .ok key =>
    match impls with
    | .all tables =>
      .ok (oneRowPerImpl (tables.flatMap fun (m, t) =>
        (t.candidates trait_ key).toList.map fun row => (⟨m, row⟩, t)), seen)
    | .owned v =>
      let owned := v.ownedRefs trait_ key (v.ownersOf trait_ selfTy args)
      let unowned := v.extra.unowned.candidates trait_ key
      let directory := if open_ then v.extra.directory.candidates trait_ key else []
      .ok (v.pick (owned ++ unowned ++ directory),
        { dir := seen.dir || open_
          unowned := seen.unowned || !unowned.isEmpty })

/-! ### A context's view -/

/-- The folders of a closure that join its impl universe, in folder order. -/
def members (folders : List (Option FolderImpls)) : List (FolderId × FolderImpls) :=
  folders.zipIdx.filterMap fun (fi?, f) =>
    fi?.bind fun fi => if fi.inUniverse then some (f, fi) else none

/-- `folder_impls`, for the folder that has an interface. -/
def folderImpls (pathHash : DefId → ℕ) (owners : OwnerMap) (paths : Paths) (folder : FolderId)
    (items : List ImplItem) : Except Panic FolderImpls := do
  let table ← implTable pathHash items
  pure (FolderImpls.new owners paths folder table)

/-- `closure_impls` over the impls of the closure's folders, with the asking module's own. -/
def ImplView.build (pathHash : DefId → ℕ) (owners : OwnerMap) (paths : Paths)
    (own : List ImplItem) (closure : List (Option (List ImplItem))) (hidden : List DefId) :
    Except Panic ImplView := do
  let own ← implTable pathHash own
  let folders ← closure.zipIdx.mapM fun (items?, f) =>
    match items? with
    | some items => some <$> folderImpls pathHash owners paths f items
    | none => pure none
  pure
    { paths
      owners
      own := some own
      folders
      extra := UniverseImpls.new (members folders)
      hidden }

/-! ### What the merged tables hold -/

namespace RefTable

open Slices

variable {rows : List RefRow} {trait_ : DefId} {key : HeadKey} {ref : ImplRef}

theorem pairwise_rows (rows : List RefRow) : (build rows).rows.Pairwise RefRow.le := by
  have : Std.Total RefRow.le := ⟨fun a b => le_total (toLex (a.trait_, _)) _⟩
  have : IsTrans RefRow RefRow.le := ⟨fun _ _ _ => le_trans⟩
  exact pairwise_insertionSort RefRow.le rows

theorem mem_rows {x : RefRow} : x ∈ (build rows).rows ↔ x ∈ rows :=
  (perm_insertionSort RefRow.le rows).mem_iff

theorem ranged_build (rows : List RefRow) :
    Ranged ((build rows).rows.map RefRow.trait_) (build rows).byTrait := by
  refine ranged_ranges (@grouped_of_pairwise _ _ _ id _ (fun _ _ _ _ => id) ?_)
  refine pairwise_map.mpr ((pairwise_rows rows).imp fun {a b} hab => ?_)
  exact (Prod.Lex.toLex_le_toLex.mp hab).elim le_of_lt fun heq => heq.1.le

theorem slice_eq {s e : ℕ} (hget : (build rows).byTrait.get? trait_ = some (s, e)) :
    slice (build rows).rows s e = (build rows).rows.filter fun x => x.trait_ = trait_ := by
  refine slice_eq_filter ((ranged_build rows).le hget).1.le fun i x hx => ?_
  have hat : ((build rows).rows.map RefRow.trait_)[i]? = some x.trait_ := by
    rw [List.getElem?_map, hx, Option.map_some]
  rw [decide_eq_true_eq]
  exact (ranged_build rows).iff hget hat

theorem mem_bucket {s e : ℕ} (hget : (build rows).byTrait.get? trait_ = some (s, e)) {code : ℕ ×ₗ ℕ}
    {x : RefRow} :
    x ∈ (build rows).bucket s e code ↔ x ∈ rows ∧ x.trait_ = trait_ ∧ x.code = code := by
  have hsorted : (slice (build rows).rows s e).Pairwise fun a b => a.code ≤ b.code := by
    rw [slice_eq hget]
    refine pairwise_filter.mpr ((pairwise_rows rows).imp fun {a b} hab ha hb => ?_)
    rw [decide_eq_true_eq] at ha hb
    rcases Prod.Lex.toLex_le_toLex.mp hab with hlt | ⟨_, hle⟩
    · exact absurd (ha.trans hb.symm) hlt.ne
    · exact (Prod.Lex.toLex_le_toLex.mp hle).elim le_of_lt fun heq => heq.1.le
  rw [bucket, bucket_eq_filter RefRow.code hsorted, mem_filter, slice_eq hget, mem_filter, mem_rows,
    decide_eq_true_eq, decide_eq_true_eq, and_assoc]

/-- **The candidates of a merged table**: the entries of the trait that the probe is after. -/
theorem mem_candidates (hcode : ∀ x ∈ rows, ∃ k : HeadKey, x.code = k.code) :
    ref ∈ (build rows).candidates trait_ key ↔
      ∃ x ∈ rows, ∃ k : HeadKey, x.trait_ = trait_ ∧ x.code = k.code ∧ x.ref = ref ∧
        key.Admits k := by
  rw [candidates, mem_map]
  unfold buckets
  cases hget : (build rows).byTrait.get? trait_ with
  | none =>
    refine iff_of_false ?_ ?_
    · rintro ⟨x, hx, _⟩
      simp at hx
    · rintro ⟨x, hx, k, heq, _⟩
      have hmem := mem_map_of_mem (f := RefRow.trait_) (mem_rows.mpr hx)
      rw [heq] at hmem
      exact (ranged_build rows).none hget hmem
  | some range =>
    obtain ⟨s, e⟩ := range
    dsimp only
    by_cases hany : key = .any
    · rw [if_pos hany]
      constructor
      · rintro ⟨x, hx, rfl⟩
        rw [flatten_cons, mem_append, slice_eq hget, mem_filter, mem_rows, decide_eq_true_eq] at hx
        rcases hx with ⟨hx, heq⟩ | hx
        · obtain ⟨k, hk⟩ := hcode x hx
          exact ⟨x, hx, k, heq, hk, rfl, .inl hany⟩
        · simp at hx
      · rintro ⟨x, hx, k, heq, _, href, _⟩
        refine ⟨x, ?_, href⟩
        rw [flatten_cons, mem_append, slice_eq hget, mem_filter, mem_rows, decide_eq_true_eq]
        exact .inl ⟨hx, heq⟩
    · rw [if_neg hany]
      have hparam : ∀ x, x ∈ (if key = .param then [] else (build rows).bucket s e param.code) ↔
          key ≠ .param ∧ x ∈ (build rows).bucket s e param.code := by
        intro x
        split <;> simp [*]
      have htuple : ∀ x, (x ∈ if key.isTuple then (build rows).bucket s e tupleAny.code
          else []) ↔ key.isTuple = true ∧ x ∈ (build rows).bucket s e tupleAny.code := by
        intro x
        split <;> simp [*]
      simp only [flatten_cons, flatten_nil, append_nil, mem_append, hparam, htuple, mem_bucket hget]
      constructor
      · rintro ⟨x, ⟨hx, heq, hk⟩ | ⟨_, hx, heq, hk⟩ | ⟨ht, hx, heq, hk⟩, rfl⟩
        · exact ⟨x, hx, _, heq, hk, rfl, .inr (.inl rfl)⟩
        · exact ⟨x, hx, _, heq, hk, rfl, .inr (.inr (.inl rfl))⟩
        · exact ⟨x, hx, _, heq, hk, rfl, .inr (.inr (.inr ⟨ht, rfl⟩))⟩
      · rintro ⟨x, hx, k, heq, hk, href, hadmit⟩
        refine ⟨x, ?_, href⟩
        rcases hadmit with hadmit | rfl | rfl | ⟨ht, rfl⟩
        · exact absurd hadmit hany
        · exact .inl ⟨hx, heq, hk⟩
        · by_cases hp : key = .param
          · exact .inl ⟨hx, heq, hp.symm ▸ hk⟩
          · exact .inr (.inl ⟨hp, hx, heq, hk⟩)
        · exact .inr (.inr ⟨ht, hx, heq, hk⟩)

end RefTable

namespace UniverseImpls

/-- The candidates that a table has of one section of the folders. -/
theorem mem_candidates {folders : List (FolderId × FolderImpls)} {sec : FolderImpls → List ℕ}
    {trait_ : DefId} {key : HeadKey} {ref : ImplRef} :
    ref ∈ (RefTable.build (folders.flatMap fun (f, fi) =>
        (sec fi).filterMap (entry f fi.table))).candidates trait_ key ↔
      ∃ f fi row, (f, fi) ∈ folders ∧ ref.table = .folder f ∧ ref.row ∈ sec fi ∧
        fi.table.rows[ref.row]? = some row ∧ row.trait_ = trait_ ∧ key.Admits row.headKey := by
  have hmem : ∀ x : RefRow, x ∈ (folders.flatMap fun (f, fi) =>
      (sec fi).filterMap (entry f fi.table)) ↔ ∃ f fi r row, (f, fi) ∈ folders ∧ r ∈ sec fi ∧
        fi.table.rows[r]? = some row ∧ x = ⟨row.trait_, row.headKey.code, ⟨.folder f, r⟩⟩ := by
    intro x
    rw [mem_flatMap]
    constructor
    · rintro ⟨⟨f, fi⟩, hf, hx⟩
      obtain ⟨r, hr, hentry⟩ := mem_filterMap.mp hx
      obtain ⟨row, hrow, rfl⟩ := Option.map_eq_some_iff.mp hentry
      exact ⟨f, fi, r, row, hf, hr, hrow, rfl⟩
    · rintro ⟨f, fi, r, row, hf, hr, hrow, rfl⟩
      refine ⟨(f, fi), hf, mem_filterMap.mpr ⟨r, hr, ?_⟩⟩
      rw [entry, hrow, Option.map_some]
  rw [RefTable.mem_candidates]
  · constructor
    · rintro ⟨x, hx, k, heq, hk, rfl, hadmit⟩
      obtain ⟨f, fi, r, row, hf, hr, hrow, rfl⟩ := (hmem x).mp hx
      obtain rfl := code_injective hk
      exact ⟨f, fi, row, hf, rfl, hr, hrow, heq, hadmit⟩
    · rintro ⟨f, fi, row, hf, htable, hr, hrow, heq, hadmit⟩
      refine ⟨_, (hmem _).mpr ⟨f, fi, ref.row, row, hf, hr, hrow, rfl⟩, row.headKey, heq, rfl, ?_,
        hadmit⟩
      rw [← htable]
  · intro x hx
    obtain ⟨f, fi, r, row, _, _, _, rfl⟩ := (hmem x).mp hx
    exact ⟨row.headKey, rfl⟩

end UniverseImpls

end HdLang.Types
