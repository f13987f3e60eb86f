import HdLang.Deps.Version
import Mathlib.Data.List.Perm.Basic
import Mathlib.Data.List.Sort

/-!
# Manifests

Host paths, the requirements of an `hd.toml` and the rules that a manifest breaks by itself. A
document is what the TOML parser makes of the file: its tables in the order of the text, each key
with its line. `parseManifest` reads a table in key order, so two layouts of one table give the
same requirements on other lines (`requirements_unlined`), and what is wrong with a requirement
does not depend on lines either (`requirementProblems_congr`).
-/

namespace HdLang.Deps

open Text List

/-! ### Host paths -/

/-- The characters of a segment of a host path. -/
def segmentChar (c : Char) : Bool := c.isAlphanum || c == '.' || c == '_' || c == '~' || c == '-'

def segmentOk (s : String) : Bool := s ≠ "" && s ≠ "." && s ≠ ".." && s.toList.all segmentChar

/-- A segment that ends in `.git`. -/
def gitSegment (s : String) : Bool := ((rsplitOnce '.' s).map Prod.snd) == some "git"

/-- A segment such as `v2`. -/
def majorSuffix (s : String) : Bool :=
  match s.toList with
  | 'v' :: rest => rest ≠ [] && rest.all Char.isDigit
  | _ => false

/-- The number of segments of the repository part. -/
def repositoryParts (path : String) (segments : List String) : Except String ℕ :=
  if segments.head? = some "github.com" then
    if segments.length < 3 then
      throw s!"`{path}` names no repository: on github.com, a host path is `github.com/OWNER/REPOSITORY`"
    else pure 3
  else match (segments.drop 1).findIdx? gitSegment with
    | some i => pure (i + 2)
    | none =>
      throw s!"`{path}` names no repository: on a host other than github.com, the repository part ends with a segment that ends in `.git`"

/-- The repository and the subdirectory of a host path, or why it is none. -/
def splitHost (path : String) : Except String (String × String) := do
  let segments := split '/' path
  if !segments.all segmentOk then
    throw s!"`{path}` is not a host path: each segment is letters, digits, `.`, `_`, `~` or `-`, separated by single `/`"
  let host := (segments.headD "").toList
  if '.' ∉ host ∨ host.head? = some '.' ∨ host.getLast? = some '.' then
    throw s!"`{path}` does not start with a host name, such as `github.com`"
  let parts ← repositoryParts path segments
  if (segments.drop parts).any majorSuffix then
    throw s!"`{path}` has a major-version suffix; a host path carries none, so a second compatibility line takes a second key"
  pure (join '/' (segments.take parts), join '/' (segments.drop parts))

/-- A host path split into the repository it names and the package's directory inside it. -/
structure HostPath where
  /-- The host path as written, as `github.com/acme/tools/lint`. -/
  path : String
  /-- The repository part, as `github.com/acme/tools`. -/
  repository : String
  /-- The package's directory in the repository, as `lint`; empty at its root. -/
  subdirectory : String
  parsed : splitHost path = .ok (repository, subdirectory)

/-- A host path, or why it breaks the rules of host paths. -/
def hostPath (path : String) : Except String HostPath :=
  match h : splitHost path with
  | .ok (repository, subdirectory) => .ok ⟨path, repository, subdirectory, h⟩
  | .error e => .error e

namespace HostPath

variable {h h' : HostPath}

theorem ext_path (heq : h.path = h'.path) : h = h' := by
  obtain ⟨path, repository, subdirectory, hparsed⟩ := h
  obtain ⟨path', repository', subdirectory', hparsed'⟩ := h'
  obtain rfl : path = path' := heq
  have hparts := hparsed.symm.trans hparsed'
  simp only [Except.ok.injEq, Prod.mk.injEq] at hparts
  obtain ⟨rfl, rfl⟩ := hparts
  rfl

theorem path_inj : h.path = h'.path ↔ h = h' := ⟨ext_path, fun heq => heq ▸ rfl⟩

instance : DecidableEq HostPath := fun _ _ => decidable_of_iff _ path_inj

theorem segments_ok (h : HostPath) : ∀ s ∈ split '/' h.path, segmentOk s = true := by
  have hparsed := h.parsed
  rw [splitHost] at hparsed
  by_cases hok : (split '/' h.path).all segmentOk = true
  · exact all_eq_true.mp hok
  · simp [hok, throw, throwThe, MonadExceptOf.throw, bind, Except.bind] at hparsed

/-- A character that a segment cannot hold is not in a host path, `/` apart. -/
theorem notMem_path (h : HostPath) {c : Char} (hc : segmentChar c = false) (hslash : c ≠ '/') :
    c ∉ h.path.toList := by
  intro hmem
  obtain hsep | ⟨part, hpart, hmem⟩ := mem_split (c := '/') hmem
  · exact hslash hsep
  · have hok := h.segments_ok part hpart
    simp only [segmentOk, Bool.and_eq_true] at hok
    rw [all_eq_true.mp hok.2 c hmem] at hc
    cases hc

end HostPath

/-! ### Requirements -/

/-- The value of a key of a dependency table. -/
inductive Value
  | string (text : String)
  /-- An inline table with its string fields `path` and `version`, and its text. -/
  | table (path version : Option String) (text : String)
  | other (text : String)
  deriving DecidableEq, Repr

/-- A key of a dependency table with its value and its line. -/
structure Entry where
  key : String
  value : Value
  line : ℕ
  deriving DecidableEq, Repr

/-- One dependency requirement of a manifest. -/
structure Requirement where
  /-- The manifest key, as written. -/
  key : String
  /-- The directory of a path requirement, relative to the requiring manifest's directory. -/
  path : Option String
  /-- The requirement as written: `PATH@VERSION`, or the inline table. -/
  text : String
  /-- Whether the value is a table, as a path requirement is. -/
  table : Bool
  /-- A path requirement's `version`. -/
  version : Option String
  /-- The 1-based line of its key in `hd.toml`. -/
  line : ℕ
  deriving DecidableEq, Repr

namespace Requirement

variable (r : Requirement)

/-- The name source writes after `dep.`: the key with each `-` as `_`. -/
def name : String := String.ofList (r.key.toList.map fun c => if c = '-' then '_' else c)

/-- The host path and version of a dependency requirement `PATH@VERSION`. -/
def host : Option (String × Version) :=
  if r.table then none
  else do
    let (path, version) ← rsplitOnce '@' r.text
    let version ← Version.parse version
    pure (path, version)

/-- What the requirement says, on no line. -/
def unlined : Requirement := { r with line := 0 }

end Requirement

/-- The requirement of a table's entry. -/
def Entry.requirement (e : Entry) : Requirement :=
  match e.value with
  | .string text => ⟨e.key, none, text, false, none, e.line⟩
  | .table path version text => ⟨e.key, path, text, true, version, e.line⟩
  | .other text => ⟨e.key, none, text, false, none, e.line⟩

def Entry.unlined (e : Entry) : Entry := { e with line := 0 }

/-- The entries of a table in key order. -/
def byKey (table : List Entry) : List Entry := table.insertionSort fun a b => a.key ≤ b.key

def requirements (table : List Entry) : List Requirement := (byKey table).map Entry.requirement

/-! ### Documents and manifests -/

/-- What the TOML parser makes of an `hd.toml`: each table in the order of the text. -/
structure Document where
  /-- The string `name` of `[package]` and its `hd` with the line, when there is the table. -/
  package : Option (Option String × Option (String × ℕ))
  dependencies : List Entry
  devDependencies : List Entry
  /-- The `root` of `[source]`. -/
  sourceRoot : Option String
  /-- A table has a key once. -/
  nodup : (dependencies.map Entry.key).Nodup ∧ (devDependencies.map Entry.key).Nodup

structure Manifest where
  name : String
  declaresPackage : Bool
  /-- The minimum toolchain and its line. -/
  hd : Option (String × ℕ)
  dependencies : List Requirement
  devDependencies : List Requirement
  sourceRoot : Option String
  deriving DecidableEq, Repr

/-- The tables of `hd.toml` that selection reads. -/
def parseManifest (d : Document) : Manifest where
  name := (d.package.bind Prod.fst).getD ""
  declaresPackage := d.package.isSome
  hd := d.package.bind Prod.snd
  dependencies := requirements d.dependencies
  devDependencies := requirements d.devDependencies
  sourceRoot := d.sourceRoot

/-! ### The rules a manifest breaks -/

inductive Code
  | invalidRequirement
  | toolchainTooOld
  | missingSumEntry
  | sumMismatch
  | unknownVersion
  | fetchFailed
  deriving DecidableEq, Repr

/-- Why a version in a requirement is malformed, or `none`. -/
def versionProblem (text : String) : Option String :=
  if (Version.parse text).isSome then none
  else match text.toList with
    | 'v' :: bare =>
      if (Version.parse (String.ofList bare)).isSome then
        some s!"the version `{text}` has a leading `v`; write `{String.ofList bare}`"
      else some s!"`{text}` is not a version: write MAJOR.MINOR.PATCH, as `2.1.0`"
    | _ => some s!"`{text}` is not a version: write MAJOR.MINOR.PATCH, as `2.1.0`"

/-- Why one requirement breaks the form of a requirement, or `none`. -/
def formProblem (r : Requirement) : Option String :=
  if r.table then
    match r.path with
    | none =>
      some s!"the requirement `{r.key}` is a table without `path`; write `PATH@VERSION` or `\x7b path = \"DIR\" \x7d`"
    | some _ => r.version.bind versionProblem
  else match rsplitOnce '@' r.text with
    | none =>
      some s!"`{r.text}` has no version: write PATH@VERSION, as `github.com/acme/json@2.1.0`"
    | some (path, version) =>
      match hostPath path with
      | .error e => some e
      | .ok _ => versionProblem version

/-- `dir.trim_end_matches('/')`. -/
def trimSlashes (dir : String) : String :=
  String.ofList (dir.toList.reverse.dropWhile (· == '/')).reverse

/-- `dir.strip_prefix("./").unwrap_or(dir)`. -/
def stripHere (dir : String) : String :=
  match dir.toList with
  | '.' :: '/' :: rest => String.ofList rest
  | _ => dir

/-- What one package is among the requirements of a manifest: a host path and compatibility line, or
a local directory. -/
def identity (r : Requirement) : Option String :=
  match r.path with
  | some dir => some s!"path {stripHere (trimSlashes dir)}"
  | none => r.host.map fun (path, version) => s!"{path}@{compatibilityLine version}"

/-- The requirements read so far: the key of each name and of each package. -/
structure Seen where
  names : String → Option String
  packages : String → Option String

section Problems

variable (keyProblem : String → Option String)

/-- What is wrong with the next requirement. -/
def requirementProblem (seen : Seen) (r : Requirement) : Option String × Seen :=
  match (keyProblem r.key).or (formProblem r) with
  | some why => (some why, seen)
  | none =>
    let seen' := { seen with names := Function.update seen.names r.name (some r.key) }
    match seen.names r.name with
    | some other =>
      (some s!"the keys `{other}` and `{r.key}` both name `dep.{r.name}`; rename one", seen')
    | none =>
      match identity r with
      | none => (none, seen')
      | some id =>
        let why := (seen.packages id).map fun other =>
          s!"the keys `{other}` and `{r.key}` name one package and compatibility line; keep one key"
        (why, { seen' with packages := Function.update seen.packages id (some r.key) })

/-- What is wrong with each requirement, in order. -/
def requirementProblems (seen : Seen) : List Requirement → List (Option String)
  | [] => []
  | r :: rest =>
    let (why, seen) := requirementProblem keyProblem seen r
    why :: requirementProblems seen rest

/-- A rule a manifest breaks: the 1-based line it is at, its code and the message. -/
structure RequirementError where
  line : Option ℕ
  code : Code
  message : String
  deriving DecidableEq, Repr

/-- A minimum toolchain above `toolchain`. -/
def toolchainErrors (m : Manifest) (toolchain : String) : List RequirementError :=
  match m.hd with
  | none => []
  | some (text, line) =>
    match Version.parse text, Version.parse toolchain with
    | some least, some have_ =>
      if least.cmp have_ = .gt then
        [⟨some line, .toolchainTooOld,
          s!"this package needs toolchain {text} or newer, and this `hd` is {toolchain}"⟩]
      else []
    | _, _ => []

/-- The requirements of a manifest, with what is wrong with each. -/
def judged (m : Manifest) : List (Requirement × Option String) :=
  let all := m.dependencies ++ m.devDependencies
  all.zip (requirementProblems keyProblem ⟨fun _ => none, fun _ => none⟩ all)

/-- The lines of a manifest's requirements that break a rule of the manifest alone, with the
message, and a too-old toolchain, in line order. -/
def requirementErrors (m : Manifest) (toolchain : String) : List RequirementError :=
  let invalid := (judged keyProblem m).filterMap fun (r, why) =>
    why.map fun message => ⟨some r.line, .invalidRequirement, message⟩
  (invalid ++ toolchainErrors m toolchain).insertionSort fun a b =>
    a.line.elim 0 (· + 1) ≤ b.line.elim 0 (· + 1)

end Problems

/-! ### Layouts of one table -/

section Layout

variable {keyProblem : String → Option String} {seen : Seen} {L L' : List Requirement}

instance : Std.Total fun a b : Entry => a.key ≤ b.key := ⟨fun a b => le_total a.key b.key⟩

instance : IsTrans Entry fun a b => a.key ≤ b.key := ⟨fun _ _ _ => le_trans⟩

theorem byKey_sorted (T : List Entry) : (byKey T).Pairwise fun a b => a.key ≤ b.key :=
  pairwise_insertionSort _ T

theorem byKey_perm {T T' : List Entry} (hT : (T.map Entry.key).Nodup) (h : T.Perm T') :
    byKey T = byKey T' := by
  have hperm : (byKey T).Perm (byKey T') :=
    ((perm_insertionSort _ T).trans h).trans (perm_insertionSort _ T').symm
  refine hperm.eq_of_pairwise (fun a b ha hb hab hba => ?_) (byKey_sorted T) (byKey_sorted T')
  have ha' : a ∈ T := (mem_insertionSort _).mp ha
  have hb' : b ∈ T := h.mem_iff.mpr ((mem_insertionSort _).mp hb)
  exact inj_on_of_nodup_map hT ha' hb' (le_antisymm hab hba)

/-- A table read in key order is the same in every layout, up to the lines. -/
theorem requirements_unlined {T T' : List Entry} (hT : (T.map Entry.key).Nodup)
    (h : (T.map Entry.unlined).Perm (T'.map Entry.unlined)) :
    (requirements T).map Requirement.unlined = (requirements T').map Requirement.unlined := by
  -- The order looks at the keys only, so sorting commutes with leaving the lines out.
  have hsorted : ∀ T : List Entry, (byKey T).map Entry.unlined = byKey (T.map Entry.unlined) :=
    fun T => map_insertionSort _ _ Entry.unlined T fun _ _ _ _ => Iff.rfl
  have hread : ∀ T : List Entry, (requirements T).map Requirement.unlined =
      ((byKey T).map Entry.unlined).map Entry.requirement := by
    intro T
    simp only [requirements, map_map]
    refine map_congr_left fun e _ => ?_
    cases hv : e.value <;> simp [Entry.requirement, Requirement.unlined, Entry.unlined, hv]
  rw [hread, hread, hsorted, hsorted, byKey_perm ?_ h]
  simpa [map_map, Function.comp_def, Entry.unlined] using hT

theorem requirementProblem_unlined (seen : Seen) (r : Requirement) :
    requirementProblem keyProblem seen r.unlined = requirementProblem keyProblem seen r := rfl

/-- What is wrong with a requirement does not depend on the lines. -/
theorem requirementProblems_congr (h : L.map Requirement.unlined = L'.map Requirement.unlined) :
    requirementProblems keyProblem seen L = requirementProblems keyProblem seen L' := by
  induction L generalizing L' seen with
  | nil =>
    rw [map_eq_nil_iff.mp h.symm]
  | cons r L ih =>
    cases L' with
    | nil => cases h
    | cons r' L' =>
      obtain ⟨hr, hL⟩ := List.cons.inj h
      have hsame : requirementProblem keyProblem seen r = requirementProblem keyProblem seen r' := by
        rw [← requirementProblem_unlined, hr, requirementProblem_unlined]
      simp only [requirementProblems, hsame, ih hL]

/-! ### Names of valid requirements -/

theorem requirementProblem_names {r : Requirement} {name : String}
    (hnone : (requirementProblem keyProblem seen r).2.names name = none) :
    seen.names name = none := by
  have hupdate : ∀ {m : String → Option String},
      Function.update m r.name (some r.key) name = none → m name = none := by
    intro m h
    rw [Function.update_apply] at h
    split at h
    · cases h
    · exact h
  rw [requirementProblem] at hnone
  split at hnone
  · exact hnone
  · dsimp only at hnone
    split at hnone
    · exact hupdate hnone
    · split at hnone <;> exact hupdate hnone

/-- A valid requirement has a new name, which is seen from then on. -/
theorem requirementProblem_valid {r : Requirement}
    (hvalid : (requirementProblem keyProblem seen r).1 = none) :
    seen.names r.name = none ∧ (requirementProblem keyProblem seen r).2.names r.name ≠ none := by
  rw [requirementProblem] at hvalid ⊢
  split at hvalid
  · cases hvalid
  · next hform =>
    dsimp only at hvalid
    split at hvalid
    · cases hvalid
    · next hnew =>
      refine ⟨hnew, ?_⟩
      split <;> simp

theorem names_of_valid {i : ℕ} {r : Requirement} (hr : L[i]? = some r)
    (hvalid : (requirementProblems keyProblem seen L)[i]? = some none) :
    seen.names r.name = none := by
  induction L generalizing seen i with
  | nil => cases hr
  | cons x L ih =>
    cases i with
    | zero =>
      obtain rfl : x = r := by simpa using hr
      exact (requirementProblem_valid (by simpa [requirementProblems] using hvalid)).1
    | succ i => exact requirementProblem_names (ih hr hvalid)

/-- **Valid requirements have distinct names.** -/
theorem valid_inj {i j : ℕ} {r r' : Requirement} (hi : L[i]? = some r) (hj : L[j]? = some r')
    (hvi : (requirementProblems keyProblem seen L)[i]? = some none)
    (hvj : (requirementProblems keyProblem seen L)[j]? = some none) (hname : r.name = r'.name) :
    i = j := by
  induction L generalizing seen i j with
  | nil => cases hi
  | cons x L ih =>
    -- The name of the first is seen when the others are judged.
    have hfirst : ∀ {k : ℕ} {y : Requirement}, (x :: L)[0]? = some x → L[k]? = some y →
        (requirementProblems keyProblem seen (x :: L))[0]? = some none →
        (requirementProblems keyProblem seen (x :: L))[k + 1]? = some none →
        x.name ≠ y.name := by
      intro k y _ hk hx hy heq
      have hvalid : (requirementProblem keyProblem seen x).1 = none := by
        simpa [requirementProblems] using hx
      have hseen := (requirementProblem_valid hvalid).2
      rw [heq] at hseen
      exact hseen (names_of_valid hk hy)
    cases i with
    | zero =>
      obtain rfl : x = r := by simpa using hi
      cases j with
      | zero => rfl
      | succ j => exact absurd hname (hfirst rfl hj hvi hvj)
    | succ i =>
      cases j with
      | zero =>
        obtain rfl : x = r' := by simpa using hj
        exact absurd hname.symm (hfirst rfl hi hvj hvi)
      | succ j => rw [ih hi hj hvi hvj]

end Layout

/-! ### Errors and their lines -/

section Lines

variable {keyProblem : String → Option String} {m : Manifest} {toolchain : String}

/-- The requirements of a manifest that are judged together. -/
def Manifest.all (m : Manifest) : List Requirement := m.dependencies ++ m.devDependencies

/-- What is wrong with each of them. -/
def Manifest.verdicts (keyProblem : String → Option String) (m : Manifest) : List (Option String) :=
  requirementProblems keyProblem ⟨fun _ => none, fun _ => none⟩ m.all

/-- A requirement that breaks a rule has an error on its line. -/
theorem error_of_invalid {i : ℕ} {r : Requirement} {why : String} (hr : m.all[i]? = some r)
    (hwhy : (m.verdicts keyProblem)[i]? = some (some why)) :
    ∃ e ∈ requirementErrors keyProblem m toolchain, e.line = some r.line := by
  refine ⟨⟨some r.line, .invalidRequirement, why⟩, ?_, rfl⟩
  rw [requirementErrors, mem_insertionSort, mem_append]
  refine Or.inl (mem_filterMap.mpr ⟨(r, some why), ?_, rfl⟩)
  have hzip : (judged keyProblem m)[i]? = some (r, some why) := by
    rw [judged, List.getElem?_zip_eq_some]
    exact ⟨hr, hwhy⟩
  exact mem_of_getElem? hzip

theorem verdicts_length : (m.verdicts keyProblem).length = m.all.length := by
  have hlength : ∀ (seen : Seen) (L : List Requirement),
      (requirementProblems keyProblem seen L).length = L.length := by
    intro seen L
    induction L generalizing seen with
    | nil => rfl
    | cons r L ih => simpa [requirementProblems] using ih _
  exact hlength _ _

end Lines

end HdLang.Deps

/-!
## The lines of `hd.sum`

A tree line for each selected version and a manifest line for each version whose manifest selection
reads, by their keys. A host path holds no `@`, so a key names one version and one kind of line.
-/

namespace HdLang.Deps

/-- The key of a version's tree line, as `github.com/acme/json@2.1.0`. -/
def treeKey (host : String) (version : Version) : String := host ++ "@" ++ version.display

/-- The key of a version's manifest line, as `github.com/acme/json@2.1.0/hd.toml`. -/
def manifestKey (host : String) (version : Version) : String :=
  host ++ "@" ++ version.display ++ "/hd.toml"

/-- The key of a host path's compatibility line. -/
def lineKey (host : HostPath) (version : Version) : String :=
  host.path ++ "\x00" ++ compatibilityLine version

/-- The entries of `hd.sum`, by key. -/
structure Sum where
  entries : String → Option String

section Keys

variable {h h' : HostPath} {v v' : Version}

theorem treeKey_inj : treeKey h.path v = treeKey h'.path v' ↔ h = h' ∧ v = v' := by
  have hat : ∀ h : HostPath, '@' ∉ h.path.toList := fun h => h.notMem_path (by decide) (by decide)
  rw [← HostPath.path_inj, ← Version.display_injective.eq_iff]
  exact Text.append_sep_inj (hat h) (hat h')

theorem manifestKey_inj : manifestKey h.path v = manifestKey h'.path v' ↔ h = h' ∧ v = v' := by
  rw [← treeKey_inj, manifestKey, manifestKey, treeKey, treeKey, String.append_left_inj]

theorem lineKey_inj :
    lineKey h v = lineKey h' v' ↔ h = h' ∧ compatibilityLine v = compatibilityLine v' := by
  have hnul : ∀ h : HostPath, '\x00' ∉ h.path.toList := fun h =>
    h.notMem_path (by decide) (by decide)
  rw [← HostPath.path_inj]
  exact Text.append_sep_inj (hnul h) (hnul h')

theorem treeKey_ne_manifestKey : treeKey h.path v ≠ manifestKey h'.path v' := by
  have hat : ∀ h : HostPath, '@' ∉ h.path.toList := fun h => h.notMem_path (by decide) (by decide)
  intro heq
  have hassoc : manifestKey h'.path v' = h'.path ++ "@" ++ (v'.display ++ "/hd.toml") :=
    String.append_assoc
  rw [hassoc] at heq
  have hdisplay := ((Text.append_sep_inj (hat h) (hat h')).mp heq).2
  refine v.slash_notMem_display ?_
  rw [hdisplay, String.toList_append]
  exact List.mem_append_right _ (by decide)

end Keys

end HdLang.Deps
