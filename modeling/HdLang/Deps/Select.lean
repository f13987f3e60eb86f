import HdLang.Deps.Manifest
import HdLang.Lib.Largest

/-!
# Minimal version selection

`select` starts at the members, reads the manifest of every local package that a path requirement
reaches and of every version that a dependency requirement reaches, and selects the largest minimum
of each host path and compatibility line. The world holds what the code reads and does not change:
the file system and the versions of the source. The two loops have as many turns as the world can
feed (`World.localTurns`, `World.turns`).
-/

namespace HdLang.Deps

open Text

/-! ### The world -/

/-- A version that the source serves. -/
structure Served where
  host : HostPath
  version : Version
  /-- The directory of its tree, and the tree's hash. -/
  dir : String
  hash : String
  /-- The hash of its `hd.toml`, or why it cannot be read. -/
  manifestHash : Except String String
  /-- Its `hd.toml`, when it is a document. -/
  document : Option Document

/-- What selection reads. -/
structure World where
  canonicalize : String → Option String
  /-- `dir.join(path)`. -/
  join : String → String → String
  isFile : String → Bool
  /-- The `hd.toml` documents of the canonical directories. -/
  documents : List (String × Document)
  served : List Served
  /-- Why the source has no entry of a version. -/
  absent : HostPath → Version → Option Code × String
  /-- Why a key cannot be a dependency key, or `none`. -/
  keyProblem : String → Option String

/-- `source.entry(host, version)`. -/
def World.entry (W : World) (host : HostPath) (version : Version) :
    Except (Option Code × String) Served :=
  match W.served.find? fun s => s.host = host ∧ s.version = version with
  | some s => .ok s
  | none => .error (W.absent host version)

/-! ### The data of a selection -/

/-- A line of a local package's `hd.toml`, where a problem is reported. -/
structure Place where
  dir : String
  line : ℕ
  deriving DecidableEq, Repr

/-- A dependency problem: its code, its place, and its message. -/
structure Problem where
  code : Option Code
  place : Place
  message : String
  deriving DecidableEq, Repr

/-- What a missing `hd.sum` line is. -/
inductive Mode
  /-- An error. -/
  | verify
  /-- A line to add. -/
  | record
  deriving DecidableEq, Repr

inductive Target
  /-- A local package, by its canonical directory. -/
  | local (dir : String)
  | host (host : HostPath) (version : Version)
  deriving DecidableEq

structure Edge where
  name : String
  dev : Bool
  target : Target
  place : Place
  deriving DecidableEq

structure Node where
  dir : String
  manifest : Manifest
  /-- A fetched version's host path, version and recorded tree hash. -/
  fetched : Option (HostPath × Version × String)
  edges : List Edge
  deriving DecidableEq

/-- A package of the selected graph. -/
structure Package where
  dir : String
  manifest : Manifest
  /-- A fetched version's `HOST_PATH@VERSION`; `none` for a local package. -/
  fetched : Option String
  /-- A fetched version's host path and compatibility line, or a local package's directory. -/
  identity : String
  /-- Each requirement's source name and the index of its package. -/
  requires : List (String × ℕ)
  /-- The dev requirements of a member, in the same form. -/
  devRequires : List (String × ℕ)
  deriving DecidableEq

/-- The selected graph and its `hd.sum` lines. -/
structure Selection where
  packages : List Package
  sums : String → Option String
  problems : List Problem
  /-- The keys of the versions that the source was asked for. -/
  asked : List String

/-- A manifest that a command is about to write: selection reads `document` as the `hd.toml` of the
package in `dir`. -/
structure Edited where
  dir : String
  document : Option Document

/-! ### Reading manifests -/

section Manifests

variable (W : World)

/-- The manifest in `dir` when it declares a package. -/
def packageOf (document : Option Document) : Option Manifest :=
  (document.map parseManifest).filter fun m => m.declaresPackage && m.name ≠ ""

/-- The manifest in `dir` when it declares a package, from `edited` when that replaces it. -/
def packageManifest (dir : String) (edited : Option Edited) : Option Manifest :=
  match edited.filter fun e => W.canonicalize e.dir = some dir with
  | some e => packageOf e.document
  | none => packageOf (W.documents.lookup dir)

/-- The host path and version of a dependency requirement. -/
def hostTarget (r : Requirement) : Option Target := do
  let (path, version) ← r.host
  let host ← (hostPath path).toOption
  pure (.host host version)

/-- The target of a requirement of the local package in `dir`. -/
def localTarget (dir : String) (r : Requirement) : Option Target :=
  match r.path with
  | some p =>
    ((W.canonicalize (W.join dir p)).filter fun d => (packageManifest W d none).isSome).map .local
  | none => hostTarget r

/-- The requirements of a manifest, the dev requirements last and tagged. -/
def tagged (m : Manifest) (member : Bool) : List (Bool × Requirement) :=
  m.dependencies.map (fun r => (false, r)) ++
    if member then m.devDependencies.map fun r => (true, r) else []

/-- The edges of a local package: each requirement off the lines of the errors, its dev requirements
too when it is a member. -/
def localEdges (dir : String) (m : Manifest) (member : Bool) (toolchain : String) : List Edge :=
  let errors := requirementErrors W.keyProblem m toolchain
  (tagged m member).filterMap fun (dev, r) =>
    if errors.any fun e => e.line = some r.line then none
    else (localTarget W dir r).map fun target => ⟨r.name, dev, target, ⟨dir, r.line⟩⟩

/-- The segments that `dir` leads to from `segments`, or `none` above the root. -/
def walkSegments (segments : List String) : List String → Option (List String)
  | [] => some segments
  | s :: rest =>
    if s = "" ∨ s = "." then walkSegments segments rest
    else if s = ".." then
      if segments = [] then none else walkSegments segments.dropLast rest
    else walkSegments (segments ++ [s]) rest

/-- The dependency requirement that a fetched version's path requirement stands for: its version, at
the host path of the other directory of the same repository; or why it has none. -/
def fetchedPathTarget (host : HostPath) (shown : String) (r : Requirement) :
    Except String Target :=
  match r.path, r.version with
  | some dir, some version =>
    let segments := (split '/' host.subdirectory).filter (· ≠ "")
    match walkSegments segments (split '/' dir) with
    | none => .error s!"{shown} requires `{r.key}` at `{dir}`, which lies outside its repository"
    | some segments =>
      let rest := Text.join '/' segments
      let path := if segments = [] then host.repository else s!"{host.repository}/{rest}"
      match hostPath path with
      | .error e => .error s!"{shown} requires `{r.key}`: {e}"
      | .ok other =>
        if other.repository ≠ host.repository then
          .error s!"{shown} requires `{r.key}` at `{dir}`, which names no package of its repository"
        else match Version.parse version with
          | none => .error s!"{shown} requires `{r.key}` at the version `{version}`"
          | some version => .ok (.host other version)
  | _, _ =>
    .error s!"{shown} requires `{r.key}` by a path with no version, so this version cannot be fetched as a dependency"

def missingManifest (key line : String) : String :=
  s!"{key} has no `hd.sum` line for its manifest, `{line}`, so selection cannot read it; run `hd fetch` to fetch it and record its hash, or `hd add` to change the requirement"

def missingTree (key : String) : String :=
  s!"{key} has no `hd.sum` entry, so its tree cannot be checked; run `hd fetch` to fetch it and record its hash, or `hd add` to change the requirement"

def mismatch (key what hash entry : String) : String :=
  s!"{key}: the fetched {what}'s hash {hash} differs from its `hd.sum` entry {entry}; `hd` never replaces an entry, so find out why the {what} changed, as a moved tag, before you delete the entry and run `hd fetch`"

end Manifests

/-! ### The local packages -/

section Locals

variable (W : World) (edited : Option Edited) (toolchain : String)

/-- The local packages found so far, with the index of each directory. -/
structure Locals where
  nodes : List Node
  index : String → Option ℕ

/-- Adds the package in `dir` unless it is there or is none. -/
def addLocal (member : Bool) (st : Locals) (dir : String) : Locals :=
  if (st.index dir).isSome then st
  else match packageManifest W dir edited with
    | none => st
    | some manifest =>
      let edges := localEdges W dir manifest member toolchain
      { nodes := st.nodes ++ [⟨dir, manifest, none, edges⟩]
        index := Function.update st.index dir (some st.nodes.length) }

/-- The members, in the order given. -/
def memberNodes (members : List String) : Locals :=
  (members.filterMap W.canonicalize).foldl (addLocal W edited toolchain true) ⟨[], fun _ => none⟩

/-- The directories of a node's path requirements. -/
def Node.locals (n : Node) : List String :=
  n.edges.filterMap fun e => match e.target with
    | .local d => some d
    | .host .. => none

/-- The local packages that path requirements reach: `next` is the node whose requirements are
followed next. -/
def localNodes : ℕ → ℕ → Locals → Locals
  | 0, _, st => st
  | turns + 1, next, st =>
    match st.nodes[next]? with
    | none => st
    | some n => localNodes turns (next + 1) (n.locals.foldl (addLocal W edited toolchain false) st)

/-- A directory is a node once, and a node has a manifest of the world or the edited one. -/
def World.localTurns : ℕ := W.documents.length + 1

end Locals

/-! ### The versions -/

section Versions

variable (W : World) (sum : Sum) (mode : Mode) (toolchain : String)

/-- A version to read, with the line of the local manifest that led to it. -/
abbrev Item := HostPath × Version × Place

/-- The dependency requirements of a node. -/
def Node.hosts (n : Node) : List Item :=
  n.edges.filterMap fun e => match e.target with
    | .host h v => some (h, v, e.place)
    | .local _ => none

/-- The edge of a fetched version's requirement, or the problem it is. -/
def fetchedEdge (errors : List RequirementError) (host : HostPath) (key : String) (place : Place)
    (r : Requirement) : Except (Code × String) Edge :=
  match errors.find? fun e => e.line = some r.line with
  | some e =>
    .error (e.code, s!"{key} has an invalid requirement in its `hd.toml`: {e.message}")
  | none =>
    let target := if r.path.isSome then fetchedPathTarget host key r
      else match hostTarget r with
        | some target => .ok target
        | none => .error s!"{key}: `{r.text}` is no requirement"
    match target with
    | .ok target => .ok ⟨r.name, false, target, place⟩
    | .error message => .error (.invalidRequirement, message)

/-- What reading a version comes to. -/
inductive Reading
  /-- The manifest cannot be read, or is not the recorded one. -/
  | unread (code : Option Code) (message : String)
  /-- The manifest has the hash, and declares no package. -/
  | noPackage (hash : String) (code : Option Code) (message : String)
  /-- The manifest has the hash; the problems of its requirements. -/
  | package (hash : String) (node : Node) (problems : List (Code × String))

/-- The node of a version whose manifest is read, with the problems of its requirements. -/
def fetchedNode (host : HostPath) (version : Version) (place : Place) (entry : Served)
    (manifest : Manifest) : Node × List (Code × String) :=
  let key := treeKey host.path version
  let errors := requirementErrors W.keyProblem manifest toolchain
  let whole := errors.filterMap fun e =>
    if e.code = .toolchainTooOld ∨ e.line = none then some (e.code, s!"{key}: {e.message}")
    else none
  let edges := manifest.dependencies.map (fetchedEdge errors host key place)
  let broken := edges.filterMap fun
    | .ok _ => none
    | .error problem => some problem
  (⟨entry.dir, manifest, some (host, version, entry.hash), edges.filterMap Except.toOption⟩,
    whole ++ broken)

/-- Reads the manifest of a version that the source is asked for. -/
def readEntry (host : HostPath) (version : Version) (place : Place) : Reading :=
  let key := treeKey host.path version
  let manifestLine := manifestKey host.path version
  match W.entry host version with
  | .error (code, message) => .unread code message
  | .ok entry =>
    match entry.manifestHash with
    | .error e =>
      .unread (some .invalidRequirement)
        s!"{key} is no package: its `hd.toml` cannot be read: {e}"
    | .ok hash =>
      match (sum.entries manifestLine).filter (· ≠ hash) with
      | some expected =>
        .unread (some .sumMismatch) (mismatch manifestLine "manifest" hash expected)
      | none =>
        match packageOf entry.document with
        | none =>
          .noPackage hash (some .invalidRequirement)
            s!"{key} is no package: its `hd.toml` declares none"
        | some manifest =>
          let (node, problems) := fetchedNode W toolchain host version place entry manifest
          .package hash node problems

/-- A version of a compatibility line, with the line of the local manifest that led to it. -/
structure Selected where
  line : String
  host : HostPath
  version : Version
  place : Place

/-- The state of the loop over the versions to read. -/
structure Walk where
  nodes : List Node
  selected : List Selected
  /-- The node of each version read, by its key. -/
  reached : String → Option ℕ
  failed : List String
  queue : List Item
  /-- The place in the queue of the next version. -/
  atQueue : ℕ
  sums : String → Option String
  problems : List Problem
  asked : List String

/-- `selected` with one more version: the larger one of its line. -/
def select1 (selected : List Selected) (x : Selected) : List Selected :=
  Largest.keep Selected.line (fun x best => x.version.cmp best.version = .gt) selected x

/-- `failed.insert(key)` and the problem of it. -/
def Walk.fail (st : Walk) (key : String) (place : Place) (code : Option Code) (message : String) :
    Walk :=
  { st with
    failed := key :: st.failed
    problems := st.problems ++ [⟨code, place, message⟩] }

/-- Reads one version that is neither reached nor failed. -/
def readVersion (st : Walk) (host : HostPath) (version : Version) (place : Place) : Walk :=
  let key := treeKey host.path version
  let manifestLine := manifestKey host.path version
  if sum.entries manifestLine = none ∧ mode = .verify then
    st.fail key place (some .missingSumEntry) (missingManifest key manifestLine)
  else
    let st := { st with asked := st.asked ++ [key] }
    match readEntry W sum toolchain host version place with
    | .unread code message => st.fail key place code message
    | .noPackage hash code message =>
      { st with sums := Function.update st.sums manifestLine (some hash) }.fail key place code
        message
    | .package hash node problems =>
      { st with
        sums := Function.update st.sums manifestLine (some hash)
        problems := st.problems ++ problems.map fun p => ⟨some p.1, place, p.2⟩
        queue := st.queue ++ node.hosts
        reached := Function.update st.reached key (some st.nodes.length)
        nodes := st.nodes ++ [node] }

/-- One turn of the loop: takes the next version from the queue. -/
def visit (st : Walk) (item : Item) : Walk :=
  let (host, version, place) := item
  let st := { st with
    atQueue := st.atQueue + 1
    selected := select1 st.selected ⟨lineKey host version, host, version, place⟩ }
  let key := treeKey host.path version
  if (st.reached key).isSome ∨ key ∈ st.failed then st
  else readVersion W sum mode toolchain st host version place

/-- The loop over the versions to read. -/
def readVersions : ℕ → Walk → Walk
  | 0, st => st
  | turns + 1, st =>
    match st.queue[st.atQueue]? with
    | none => st
    | some item => readVersions turns (visit W sum mode toolchain st item)

/-- The requirements of the versions that the source serves. -/
def World.requirements : ℕ :=
  (W.served.map fun s => (s.document.elim 0 fun d => d.dependencies.length)).sum

end Versions

/-! ### The selected graph -/

section Graph

variable (W : World) (sum : Sum) (mode : Mode)

/-- The tree lines of the selected versions: the node chosen for each line, the lines recorded and
the problems. -/
structure Chosen where
  nodes : String → Option ℕ
  sums : String → Option String
  problems : List Problem

/-- A selected version's tree line: kept, recorded, or an error. -/
def treeLine (nodes : List Node) (reached : String → Option ℕ) (st : Chosen) (x : Selected) :
    Chosen :=
  let key := treeKey x.host.path x.version
  match reached key with
  | none => st
  | some i =>
    let st := { st with nodes := Function.update st.nodes x.line (some i) }
    match nodes[i]?.bind Node.fetched with
    | none => st
    | some (_, _, hash) =>
      match sum.entries key with
      | none =>
        if mode = .verify then
          { st with problems := st.problems ++ [⟨some .missingSumEntry, x.place, missingTree key⟩] }
        else { st with sums := Function.update st.sums key (some hash) }
      | some entry =>
        if entry ≠ hash then
          { st with
            problems := st.problems ++
              [⟨some .sumMismatch, x.place, mismatch key "tree" hash entry⟩] }
        else { st with sums := Function.update st.sums key (some hash) }

/-- The place of each node in the order of the packages. -/
def positions (order : List ℕ) : ℕ → Option ℕ :=
  order.zipIdx.foldl (fun m p => Function.update m p.1 (some p.2)) fun _ => none

/-- The package of a requirement's target. -/
def targetOf (localIndex chosen : String → Option ℕ) (position : ℕ → Option ℕ) (t : Target) :
    Option ℕ :=
  match t with
  | .local d => (localIndex d).bind position
  | .host h v => (chosen (lineKey h v)).bind position

/-- The problem of a package that another depends on and that has no library. -/
def libraryProblem (node : Node) (place : Place) : Option Problem :=
  let src := node.manifest.sourceRoot.elim "src" trimSlashes
  if W.isFile (W.join (W.join node.dir src) "lib.hd") then none
  else
    let key := node.fetched.elim "" fun (h, v, _) => treeKey h.path v
    some ⟨some .invalidRequirement, place,
      s!"{key} has no library (`{src}/lib.hd`), so no package can depend on it"⟩

/-- The check of one edge: the packages checked so far and the problems found. -/
def checkEdge (entry : Option (String × String)) (nodes : List Node) (order : List ℕ)
    (target : Target → Option ℕ) (st : List ℕ × List Problem) (e : Edge) :
    List ℕ × List Problem :=
  if !e.dev && entry.any fun (member, name) => e.place.dir = member && e.name = name then st
  else match target e.target with
    | none => st
    | some t =>
      match order[t]?.bind fun i => nodes[i]? with
      | none => st
      | some node =>
        if node.fetched = none ∨ t ∈ st.1 then st
        else (t :: st.1, st.2 ++ (libraryProblem W node e.place).toList)

/-- The requirements of a node, each with the index of its package. -/
def Node.targets (n : Node) (target : Target → Option ℕ) (dev : Bool) : List (String × ℕ) :=
  n.edges.filterMap fun e =>
    if e.dev = dev then (target e.target).map fun t => (e.name, t) else none

/-- The package of a node. -/
def packageAt (target : Target → Option ℕ) (node : Node) : Package where
  dir := node.dir
  manifest := node.manifest
  fetched := node.fetched.map fun (h, v, _) => treeKey h.path v
  identity := node.fetched.elim node.dir fun (h, v, _) => s!"{h.path}@{compatibilityLine v}"
  requires := node.targets target false
  devRequires := node.targets target true

/-- The problems of the local packages past the members whose minimum toolchain is not met. -/
def toolchainProblems (toolchain : String) (nodes : List Node) : List Problem :=
  nodes.flatMap fun n => (requirementErrors W.keyProblem n.manifest toolchain).filterMap fun e =>
    if e.code = .toolchainTooOld then
      some ⟨some e.code, ⟨n.dir, e.line.getD 0⟩, s!"{n.manifest.name}: {e.message}"⟩
    else none

/-- The problems of the first versions without a manifest line, when nothing is recorded. -/
def startProblems (start : List Item) : List Problem :=
  if mode = .verify then
    start.filterMap fun (h, v, place) =>
      let line := manifestKey h.path v
      if sum.entries line = none then
        some ⟨some .missingSumEntry, place, missingManifest (treeKey h.path v) line⟩
      else none
  else []

/-- The local packages that the members reach. -/
def localsOf (members : List String) (edited : Option Edited) (toolchain : String) : Locals :=
  localNodes W edited toolchain W.localTurns 0 (memberNodes W edited toolchain members)

/-- The problems before any version is read. -/
def earlyProblems (members : List String) (edited : Option Edited) (toolchain : String) :
    List Problem :=
  let nodes := (localsOf W members edited toolchain).nodes
  let membersEnd := (memberNodes W edited toolchain members).nodes.length
  toolchainProblems W toolchain (nodes.drop membersEnd) ++
    startProblems sum mode (nodes.flatMap Node.hosts)

/-- The loop over the versions, which runs when there is no problem yet. -/
def walkOf (members : List String) (edited : Option Edited) (toolchain : String) : Walk :=
  let nodes := (localsOf W members edited toolchain).nodes
  let start := nodes.flatMap Node.hosts
  let problems := earlyProblems W sum mode members edited toolchain
  let st : Walk := ⟨nodes, [], fun _ => none, [], start, 0, fun _ => none, problems, []⟩
  if problems = [] then
    readVersions W sum mode toolchain (start.length + W.requirements) st
  else st

/-- The tree lines, which are read when there is no problem yet. -/
def chosenOf (st : Walk) : Chosen :=
  let chosen : Chosen := ⟨fun _ => none, st.sums, st.problems⟩
  if st.problems = [] then
    st.selected.foldl (treeLine sum mode st.nodes st.reached) chosen
  else chosen

/-- The order of the packages: the locals, then the selected versions. -/
def orderOf (locals : ℕ) (st : Walk) (chosen : Chosen) : List ℕ :=
  List.range locals ++
    if chosen.problems = [] then st.selected.filterMap fun x => chosen.nodes x.line else []

def selectGraph (members : List String) (edited : Option Edited)
    (entry : Option (String × String)) (toolchain : String) : Selection :=
  let locals := localsOf W members edited toolchain
  let st := walkOf W sum mode members edited toolchain
  let chosen := chosenOf sum mode st
  let order := orderOf locals.nodes.length st chosen
  let target := targetOf locals.index chosen.nodes (positions order)
  let ordered := order.filterMap fun i => st.nodes[i]?
  let checks := (ordered.flatMap Node.edges).foldl (checkEdge W entry st.nodes order target) ([], [])
  { packages := ordered.map (packageAt target)
    sums := chosen.sums
    problems := chosen.problems ++ checks.2
    asked := st.asked }

/-- `select`, with the manifest of one package read from `edited`. -/
def selectEdited (members : List String) (edited : Option Edited) (toolchain : String) :
    Selection :=
  selectGraph W sum mode members edited none toolchain

/-- Selects the versions of the packages in `members`, the package a command works on first,
against `sum`. -/
def select (members : List String) (toolchain : String) : Selection :=
  selectEdited W sum mode members none toolchain

/-- Selects a fetched executable through `entry`, a direct requirement of `member`. Only that entry
edge may name a package without a library. -/
def selectExecutableEntry (member entry toolchain : String) : Selection :=
  let member := (W.canonicalize member).getD member
  selectGraph W sum mode [member] none (some (member, entry)) toolchain

end Graph

/-! ### A small world

One local package, `app`, over two served versions that require nothing. -/

def hostB : HostPath := ⟨"github.com/acme/b", "github.com/acme/b", "", by decide +kernel⟩

def hostC : HostPath := ⟨"github.com/acme/c", "github.com/acme/c", "", by decide +kernel⟩

def v1 : Version := ⟨1, 0, 0, [], by decide, by simp⟩

/-- A served version that requires nothing. -/
def leaf (h : HostPath) : Served :=
  ⟨h, v1, "fetched", "h1:tree", .ok "h1:manifest",
    some ⟨some (some "leaf", none), [], [], none, by simp⟩⟩

/-- The `hd.toml` of `app`, by its dependency table. -/
def appDocument (dependencies : List Entry) (h : (dependencies.map Entry.key).Nodup) : Document :=
  ⟨some (some "app", none), dependencies, [], none, h, by simp⟩

/-- The world in which `app` has the given dependency table. -/
def appWorld (dependencies : List Entry) (h : (dependencies.map Entry.key).Nodup) : World where
  canonicalize := some
  join dir path := dir ++ "/" ++ path
  isFile _ := true
  documents := [("app", appDocument dependencies h)]
  served := [leaf hostB, leaf hostC]
  absent _ _ := (some .unknownVersion, "no version")
  keyProblem _ := none

end HdLang.Deps
